import Swan.Bus.Traced
import Swan.Proofs.FlatAccess
import Swan.Proofs.Placeless

/-! How an instruction reads its own code. It fetches some bytes, one after the other and
each once, and whatever else it does has nothing to do with its place. Between two fetches
it may read an operand, but nothing is stored before the last byte is fetched, so what it
fetches is what stood in memory before. -/
namespace Swan

/-- A bus whose memory shows, and is not changed by being read. -/
class Viewed (β : Type) [Bus β] where
  view : β → Address → Byte
  answers : ∀ b a, (Bus.read b a).1 = view b a
  kept : ∀ b a, view (Bus.read b a).2 = view b

instance : Viewed Flat where
  view := Flat.read
  answers _ _ := rfl
  kept _ _ := rfl

instance {β : Type} [Bus β] [viewed : Viewed β] : Viewed (Traced β) where
  view b := viewed.view b.bus
  answers b a := viewed.answers b.bus a
  kept b a := viewed.kept b.bus a

inductive Reads {β : Type} [Bus β] (b : β) : β → Prop where
  | none : Reads b b
  | more {b' : β} (a : Address) : Reads b b' → Reads b (Bus.read b' a).2

namespace Reads

variable {β : Type} [Bus β]

theorem trans {b b' b'' : β} (first : Reads b b') (second : Reads b' b'') : Reads b b'' := by
  induction second with
  | none => exact first
  | more a _ ih => exact .more a ih

theorem view [Viewed β] {b b' : β} (reads : Reads b b') : Viewed.view b' = Viewed.view b := by
  induction reads with
  | none => rfl
  | more a _ ih => exact (Viewed.kept _ a).trans ih

theorem flat {b b' : Flat} (reads : Reads b b') : b' = b := by
  induction reads with
  | none => rfl
  | more _ _ ih => exact ih

end Reads

def shown (view : Address → Byte) : (w : Width) → (segment offset : Word) → Operand w
  | .byte, segment, offset => view (physical segment offset)
  | .word, segment, offset =>
    Word.ofBytes (view (physical segment offset)) (view (physical segment (offset + 1)))

def Location.value (view : Address → Byte) (r : Registers) (w : Width) : Location → Operand w
  | register i => r.operand w (i.setWidth 3)
  | memory segment offset => shown view w (r.segment segment) offset

theorem Location.value_moved (l : Location) (view : Address → Byte) (r : Registers) (ip : Word)
    (w : Width) : l.value view { r with ip } w = l.value view r w := by
  cases l with
  | register i => cases w <;> rfl
  | memory s o => cases s <;> rfl

namespace ModRM

def Displacement.size : Displacement → Nat
  | none => 0
  | byte => 1
  | word => 2

def Displacement.value : Displacement → List Byte → Word
  | byte, [b] => .ofSigned b
  | word, [low, high] => .ofBytes low high
  | _, _ => 0

/-- The place that a ModRM byte names, with the bytes of its displacement. -/
def place (m : ModRM) (r : Registers) (q : PrefixQueue) (displacement : List Byte) : Location :=
  if m.isRegister then .register (m.rm.setWidth 8)
  else .memory (q.segmentOverride.getD (m.base r).2)
    ((m.base r).1 + m.displacement.value displacement)

theorem displacement_register {m : ModRM} (register : m.isRegister = true) :
    m.displacement = .none := by
  obtain ⟨mode, reg, rm⟩ := m
  simp only [isRegister, beq_iff_eq] at register
  subst register
  rfl

end ModRM

def immediate : (w : Width) → List Byte → Operand w
  | .byte, [b] => b
  | .word, [low, high] => Word.ofBytes low high
  | _, _ => 0

namespace ImmediateForm

def size (w : Width) : ImmediateForm → Nat
  | full => w.bytes
  | signedByte => 1

def value (w : Width) : ImmediateForm → List Byte → Operand w
  | full, bytes => immediate w bytes
  | signedByte, bytes => (immediate .byte bytes).signExtend w.bits

end ImmediateForm

namespace Core

variable {β : Type} [Bus β]

def At [Viewed β] (c : Core β) (code : List Byte) : Prop :=
  Codes (Viewed.view c.bus) c.cpu.regs.cs c.cpu.regs.ip code

theorem At.append_nil [Viewed β] {c : Core β} {code : List Byte} (here : c.At code) :
    c.At (code ++ []) := by
  rwa [List.append_nil]

/-- A machine that has gone over some bytes of code, and only read meanwhile. -/
structure Skips (n : Nat) (c d : Core β) : Prop where
  cpu : d.cpu = (c.moveTo (c.cpu.regs.ip + BitVec.ofNat 16 n)).cpu
  bus : Reads c.bus d.bus

namespace Skips

variable {c d e : Core β} {m n : Nat}

theorem refl (c : Core β) : Skips 0 c c where
  cpu := by rw [BitVec.add_zero]; rfl
  bus := .none

theorem trans (first : Skips m c d) (second : Skips n d e) : Skips (m + n) c e where
  cpu := by
    rw [second.cpu, BitVec.ofNat_add, ← BitVec.add_assoc]
    simp only [moveTo, first.cpu]
  bus := first.bus.trans second.bus

theorem value [Viewed β] (skips : Skips n c d) (l : Location) (w : Width) :
    l.value (Viewed.view d.bus) d.cpu.regs w = l.value (Viewed.view c.bus) c.cpu.regs w := by
  rw [skips.bus.view, skips.cpu]
  exact l.value_moved _ _ _ w

/-- What is left to read is next. -/
theorem at_ [Viewed β] {front back : List Byte} (skips : Skips front.length c d)
    (here : c.At (front ++ back)) : d.At back := by
  rw [At, skips.bus.view, skips.cpu]
  exact here.append

end Skips

end Core

namespace Exec

variable {β α γ : Type} [Bus β]

/-- A computation fetches these bytes in this order, each once, and does nothing else that depends
on where they lie. The code segment stays until the last byte is fetched, and if `near`, to the
end. -/
inductive Consumes (near : Prop) : List Byte → Exec β α → Core β → Prop where
  | done {x : Exec β α} {c : Core β} : PlacelessAt x c →
      (near → (x c).2.cpu.regs.cs = c.cpu.regs.cs) → Consumes near [] x c
  | fetch {code : List Byte} {f : Byte → Exec β α} {c : Core β} :
      Consumes near code (f (fetchByte c).1) (fetchByte c).2 →
      Consumes near ((fetchByte c).1 :: code) (fetchByte >>= f) c
  | next {γ : Type} {code : List Byte} {x : Exec β γ} {f : γ → Exec β α} {c : Core β} :
      StillAt x c → Consumes near code (f (x c).1) (x c).2 → Consumes near code (x >>= f) c
  | regs {code : List Byte} {f : Registers → Exec β α} {c : Core β} :
      (∀ ip, f { c.cpu.regs with ip } = f c.cpu.regs) → Consumes near code (f c.cpu.regs) c →
      Consumes near code (Exec.regs >>= f) c

namespace Consumes

variable {near : Prop} {code rest : List Byte} {x : Exec β α} {f : α → Exec β γ} {c : Core β}

theorem stillAt (still : StillAt x c) : Consumes near [] x c :=
  .done still.placeless fun _ => still.segment

theorem still [still : Still x] : Consumes near [] x c := .stillAt (still.still c)

/-- The instruction pointer counts what is fetched. -/
theorem ip (consumes : Consumes near code x c) :
    (x c).2.cpu.regs.ip = c.cpu.regs.ip + BitVec.ofNat 16 code.length := by
  induction consumes with
  | done placeless _ => simpa using placeless.ip
  | fetch _ ih => exact ih.trans (Word.add_one_ofNat _ _)
  | next still _ ih =>
    rw [← still.placeless.ip]
    exact ih
  | regs _ _ ih => exact ih

theorem segment (consumes : Consumes near code x c) (h : near) :
    (x c).2.cpu.regs.cs = c.cpu.regs.cs := by
  induction consumes with
  | done _ kept => exact kept h
  | fetch _ ih => exact ih
  | next still _ ih => exact ih.trans still.segment
  | regs _ _ ih => exact ih

theorem bind (first : Consumes True code x c) (second : Consumes near rest (f (x c).1) (x c).2) :
    Consumes near (code ++ rest) (x >>= f) c := by
  induction first with
  | done placeless kept => exact .next ⟨placeless, kept trivial⟩ second
  | @fetch _ g c _ ih => exact .fetch (f := fun b => g b >>= f) (ih second)
  | @next _ _ x g c still _ ih => exact .next (f := fun a => g a >>= f) still (ih second)
  | @regs _ g c blind _ ih =>
    exact .regs (f := fun r => g r >>= f) (fun ip => congrArg (· >>= f) (blind ip)) (ih second)

/-- What follows the last fetch may be anything that does not fetch. -/
theorem andThen (consumes : Consumes near code x c) (still : ∀ a, Still (f a)) :
    Consumes near code (x >>= f) c := by
  induction consumes with
  | @done x c placeless kept =>
    have after := (still (x c).1).still (x c).2
    exact .done (placeless.bind after.placeless) fun h => after.segment.trans (kept h)
  | @fetch _ g c _ ih => exact .fetch (f := fun b => g b >>= f) ih
  | @next _ _ x g c still _ ih => exact .next (f := fun a => g a >>= f) still ih
  | @regs _ g c blind _ ih =>
    exact .regs (f := fun r => g r >>= f) (fun ip => congrArg (· >>= f) (blind ip)) ih

end Consumes

/-- A computation that only goes over some bytes of code, and answers something. -/
structure Takes (code : List Byte) (x : Exec β α) (a : α) (c d : Core β) : Prop where
  answer : x c = (a, d)
  skips : Core.Skips code.length c d
  consumes : Consumes True code x c

namespace Takes

variable {code rest : List Byte} {x : Exec β α} {f : α → Exec β γ} {a : α} {b : γ} {c d e : Core β}

theorem bind (first : Takes code x a c d) (second : Takes rest (f a) b d e) :
    Takes (code ++ rest) (x >>= f) b c e where
  answer := by
    change f (x c).1 (x c).2 = _
    rw [first.answer, second.answer]
  skips := by
    rw [List.length_append]
    exact first.skips.trans second.skips
  consumes := first.consumes.bind (by rw [first.answer]; exact second.consumes)

theorem map (first : Takes code x a c d) (f : α → γ) :
    Takes code (x >>= fun a => pure (f a)) (f a) c d where
  answer := by
    change (f (x c).1, (x c).2) = _
    rw [first.answer]
  skips := first.skips
  consumes := first.consumes.andThen fun _ => inferInstance

/-- Nothing more is fetched. -/
theorem andThen (first : Takes code x a c d) (second : Takes [] (f a) b d e) :
    Takes code (x >>= f) b c e := by
  simpa only [List.append_nil] using first.bind second

theorem next {near : Prop} (first : Takes code x a c d) (second : Consumes near rest (f a) d) :
    Consumes near (code ++ rest) (x >>= f) c :=
  first.consumes.bind (by rw [first.answer]; exact second)

end Takes

theorem takes_pure (a : α) (c : Core β) : Takes [] (pure a) a c c := ⟨rfl, .refl c, .still⟩

variable [Viewed β] {c : Core β} {rest : List Byte}

theorem takes_byte {b : Byte} (here : c.At (b :: rest)) :
    ∃ d, Takes [b] fetchByte b c d ∧ d.At rest := by
  have fetched : (fetchByte c).1 = b := (Viewed.answers c.bus _).trans here.1
  have skips : Core.Skips [b].length c (fetchByte c).2 := ⟨rfl, .more _ .none⟩
  refine ⟨(fetchByte c).2, ⟨Prod.ext fetched rfl, skips, ?_⟩, skips.at_ here⟩
  have consumes : Consumes True [(fetchByte c).1] (fetchByte >>= pure) c := .fetch .still
  rwa [fetched] at consumes

theorem takes_word {low high : Byte} (here : c.At (low :: high :: rest)) :
    ∃ d, Takes [low, high] fetchWord (Word.ofBytes low high) c d ∧ d.At rest := by
  obtain ⟨d, first, after⟩ := takes_byte here
  obtain ⟨e, second, last⟩ := takes_byte after
  exact ⟨e, first.bind (second.map _), last⟩

omit [Bus β] [Viewed β] in
theorem pair_of_length {bytes : List Byte} (size : bytes.length = 2) :
    ∃ low high, bytes = [low, high] := by
  match bytes, size with
  | [low, high], _ => exact ⟨low, high, rfl⟩

theorem takes_fetch {w : Width} {bytes : List Byte} (size : bytes.length = w.bytes)
    (here : c.At (bytes ++ rest)) :
    ∃ d, Takes bytes (fetch w) (immediate w bytes) c d ∧ d.At rest := by
  cases w with
  | byte =>
    obtain ⟨b, rfl⟩ := List.length_eq_one_iff.mp size
    exact takes_byte here
  | word =>
    obtain ⟨low, high, rfl⟩ := pair_of_length size
    exact takes_word here

theorem takes_immediate {w : Width} {form : ImmediateForm} {bytes : List Byte}
    (size : bytes.length = form.size w) (here : c.At (bytes ++ rest)) :
    ∃ d, Takes bytes (fetchImmediate w form) (form.value w bytes) c d ∧ d.At rest := by
  cases form with
  | full => exact takes_fetch size here
  | signedByte =>
    obtain ⟨b, rfl⟩ := List.length_eq_one_iff.mp size
    obtain ⟨d, takes, after⟩ := takes_byte here
    exact ⟨d, takes.map _, after⟩

theorem takes_displacement {k : ModRM.Displacement} {bytes : List Byte}
    (size : bytes.length = k.size) (here : c.At (bytes ++ rest)) :
    ∃ d, Takes bytes (fetchDisplacement k) (k.value bytes) c d ∧ d.At rest := by
  cases k with
  | none =>
    obtain rfl := List.length_eq_zero_iff.mp size
    exact ⟨c, takes_pure 0 c, here⟩
  | byte =>
    obtain ⟨b, rfl⟩ := List.length_eq_one_iff.mp size
    obtain ⟨d, takes, after⟩ := takes_byte here
    exact ⟨d, takes.map _, after⟩
  | word =>
    obtain ⟨low, high, rfl⟩ := pair_of_length size
    exact takes_word here

theorem takes_resolve {m : ModRM} {bytes : List Byte} (size : bytes.length = m.displacement.size)
    (here : c.At (bytes ++ rest)) :
    ∃ d, Takes bytes (resolve m) (m.place c.cpu.regs c.cpu.prefixes bytes) c d ∧ d.At rest := by
  by_cases register : m.isRegister = true
  · rw [ModRM.displacement_register register] at size
    obtain rfl := List.length_eq_zero_iff.mp size
    refine ⟨c, ?_, here⟩
    simp only [resolve, ModRM.place, register, if_true]
    exact takes_pure _ c
  · obtain ⟨d, takes, after⟩ := takes_displacement size here
    have queue : Takes [] prefixes c.cpu.prefixes d d := by
      refine ⟨?_, .refl d, .still⟩
      rw [prefixes, takes.skips.cpu]
      rfl
    have located := takes.andThen (f := fun v => do
      let q ← prefixes
      return Location.memory (q.segmentOverride.getD (m.base c.cpu.regs).2)
        ((m.base c.cpu.regs).1 + v)) (queue.map _)
    refine ⟨d, ⟨?_, takes.skips, ?_⟩, after⟩
    · rw [resolve, if_neg register, ModRM.place, if_neg register]
      exact located.answer
    · rw [resolve, if_neg register]
      exact .regs (fun _ => rfl) located.consumes

theorem takes_modRM {modRM : Byte} {bytes : List Byte}
    (size : bytes.length = (ModRM.ofByte modRM).displacement.size)
    (here : c.At (modRM :: (bytes ++ rest))) :
    ∃ d, Takes (modRM :: bytes) fetchModRM
      (.ofByte modRM, (ModRM.ofByte modRM).place c.cpu.regs c.cpu.prefixes bytes) c d ∧
      d.At rest := by
  obtain ⟨d, first, between⟩ := takes_byte here
  obtain ⟨e, second, after⟩ := takes_resolve size between
  rw [first.skips.cpu] at second
  exact ⟨e, first.bind (second.map _), after⟩

theorem takes_load (w : Width) (segment offset : Word) (c : Core β) :
    ∃ d, Takes [] (load w segment offset) (shown (Viewed.view c.bus) w segment offset) c d := by
  have consumes : Consumes True [] (load w segment offset) c := .still
  have low := Viewed.answers c.bus (physical segment offset)
  cases w with
  | byte => exact ⟨_, Prod.ext low rfl, ⟨(Core.Skips.refl c).cpu, .more _ .none⟩, consumes⟩
  | word =>
    have high := Viewed.answers (Bus.read c.bus (physical segment offset)).2
      (physical segment (offset + 1))
    rw [Viewed.kept] at high
    have answer :
        (readWord segment offset c).1 = shown (Viewed.view c.bus) .word segment offset := by
      rw [shown, ← low, ← high]
      rfl
    exact ⟨_, Prod.ext answer rfl, ⟨(Core.Skips.refl c).cpu, .more _ (.more _ .none)⟩, consumes⟩

/-- An operand may be read between two fetches. -/
theorem takes_readAt (w : Width) (l : Location) (here : c.At rest) :
    ∃ d, Takes [] (readAt w l) (l.value (Viewed.view c.bus) c.cpu.regs w) c d ∧ d.At rest := by
  cases l with
  | register i => exact ⟨c, ⟨rfl, .refl c, .still⟩, here⟩
  | memory s o =>
    obtain ⟨d, takes⟩ := takes_load w (c.cpu.regs.segment s) o c
    refine ⟨d, ⟨takes.answer, takes.skips, .still⟩, ?_⟩
    exact takes.skips.at_ here

end Exec

end Swan
