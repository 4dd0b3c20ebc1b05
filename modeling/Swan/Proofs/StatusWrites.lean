import Mathlib.Tactic.IntervalCases
import Swan.Cpu.StatusWord

/-! What can become of the status word. No write reaches the bits that are no flags, and what a
write makes of the flags it makes of the nine of them one by one, so the flags that a word shows
are all there is to it. -/
namespace Swan

theorem Word.set_outside (w mask named : Word) :
    (w ||| named &&& mask) &&& ~~~mask = w &&& ~~~mask := by
  ext i
  simp only [BitVec.getElem_and, BitVec.getElem_or, BitVec.getElem_not]
  cases mask[i] <;> simp

theorem Word.clear_outside (w mask named : Word) :
    w &&& ~~~(named &&& mask) &&& ~~~mask = w &&& ~~~mask := by
  ext i
  simp only [BitVec.getElem_and, BitVec.getElem_not]
  cases mask[i] <;> simp

namespace StatusWord

/-- The bits that are no flags read as they do at power on. -/
def Fixed (s : StatusWord) : Prop := s.bits &&& ~~~writable = reservedSet

theorem fixed_powerOn : powerOn.Fixed := by
  rw [Fixed]
  decide

theorem fixed_ofWord (w : Word) : (ofWord w).Fixed := by
  rw [Fixed, ofWord, BitVec.or_comm, Word.set_outside]
  exact fixed_powerOn

theorem Fixed.set {s : StatusWord} (fixed : s.Fixed) (mask : Word) : (s.set mask).Fixed :=
  (Word.set_outside _ _ _).trans fixed

theorem Fixed.clear {s : StatusWord} (fixed : s.Fixed) (mask : Word) : (s.clear mask).Fixed :=
  (Word.clear_outside _ _ _).trans fixed

theorem withLowByte_eq (s : StatusWord) (b : Byte) :
    s.withLowByte b = (s.clear lowWritable).set (b.setWidth 16 &&& lowWritable) := by
  have within : lowWritable &&& writable = lowWritable := by decide
  rw [withLowByte, StatusWord.set, StatusWord.clear, BitVec.and_assoc, within]

theorem Fixed.write {s : StatusWord} (fixed : s.Fixed) (w : Write) : (s.write w).Fixed := by
  cases w with
  | word w => exact fixed_ofWord w
  | set mask => exact fixed.set mask
  | clear mask => exact fixed.clear mask
  | assign mask on =>
    cases on with
    | true => exact fixed.set mask
    | false => exact fixed.clear mask
  | lowByte b =>
    rw [StatusWord.write, withLowByte_eq]
    exact (fixed.clear _).set _

theorem toWord_ofWord (w : Word) : (Flags.ofWord w).toWord = (ofWord w).bits := by
  ext i h
  interval_cases i <;> simp [Flags.toWord, Flags.ofWord, ofWord, writable, reservedSet]

theorem Fixed.bits_eq {s : StatusWord} (fixed : s.Fixed) : s.bits = s.flags.toWord := by
  rw [flags, toWord_ofWord, ofWord, ← fixed, ← BitVec.and_or_distrib_left, BitVec.or_not_self,
    BitVec.and_allOnes]

theorem flags_set (s : StatusWord) (mask : Word) : (s.set mask).flags = s.flags.set mask := by
  simp [flags, set, Flags.set, Flags.zipWith, Flags.ofWord, writable]

theorem flags_clear (s : StatusWord) (mask : Word) :
    (s.clear mask).flags = s.flags.clear mask := by
  simp [flags, clear, Flags.clear, Flags.zipWith, Flags.ofWord, writable]

/-- A write does to the flags that a word shows what it does to flags. -/
theorem flags_write (s : StatusWord) (w : Write) : (s.write w).flags = s.flags.write w := by
  cases w with
  | word w => simp [write, Flags.write, flags, ofWord, Flags.ofWord, writable, reservedSet]
  | set mask => exact s.flags_set mask
  | clear mask => exact s.flags_clear mask
  | assign mask on =>
    cases on with
    | true => exact s.flags_set mask
    | false => exact s.flags_clear mask
  | lowByte b =>
    simp [write, Flags.write, flags, withLowByte, Flags.withLowByte, Flags.ofWord, lowWritable]

/-- Some writes that make one word of another, and make flags of flags. -/
def Follows (s : StatusWord) (f : Flags) (t : StatusWord) (g : Flags) : Prop :=
  ∃ writes : List Write, t = writes.foldl write s ∧ g = writes.foldl Flags.write f

theorem exists_follows (s : StatusWord) (f g : Flags) : ∃ t, s.Follows f t g :=
  ⟨_, [.word g.toWord], rfl, (Flags.ofWord_toWord g).symm⟩

/-- A word that shows some flags, with nothing in its other bits. -/
structure Shows (s : StatusWord) (f : Flags) : Prop where
  fixed : s.Fixed
  flags : s.flags = f

theorem Shows.powerOn : StatusWord.powerOn.Shows {} := ⟨fixed_powerOn, by decide⟩

theorem Shows.fixed_bits {s : StatusWord} {f : Flags} (holds : s.Shows f) :
    s.bits &&& 0xF02A = 0xF002 := by
  have outside : ~~~writable = 0xF02A := by decide
  rw [← outside]
  exact holds.fixed

theorem Shows.bits_eq {s : StatusWord} {f : Flags} (holds : s.Shows f) : s.bits = f.toWord :=
  holds.flags ▸ holds.fixed.bits_eq

theorem Shows.write {s : StatusWord} {f : Flags} (before : s.Shows f) (w : Write) :
    (s.write w).Shows (f.write w) :=
  ⟨before.fixed.write w, by rw [flags_write, before.flags]⟩

theorem Shows.follows {s t : StatusWord} {f g : Flags} (before : s.Shows f)
    (follows : s.Follows f t g) : t.Shows g := by
  obtain ⟨writes, rfl, rfl⟩ := follows
  induction writes generalizing s f with
  | nil => exact before
  | cons w rest ih => exact ih (before.write w)

end StatusWord

end Swan
