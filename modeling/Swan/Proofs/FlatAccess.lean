import Swan.Bus.Flat
import Swan.Proofs.FetchLoop

/-! The processor on a flat bus. Reading leaves such a bus alone, so every access is a
function of the memory: `get` and `put` are the operand read from a place and the bus with
an operand stored there. What they depend on and what they change is said by the list of
addresses an operand covers. -/
namespace Swan

/-- The addresses of an operand, in order. The offset wraps in its segment. -/
def Width.addresses : (w : Width) → (segment offset : Word) → List Address
  | .byte, segment, offset => [physical segment offset]
  | .word, segment, offset => [physical segment offset, physical segment (offset + 1)]

namespace Flat

theorem steady (b : Flat) : Steady b b.read := fun _ => rfl

def get (b : Flat) : (w : Width) → (segment offset : Word) → Operand w
  | .byte, segment, offset => b.read (physical segment offset)
  | .word, segment, offset =>
    Word.ofBytes (b.read (physical segment offset)) (b.read (physical segment (offset + 1)))

def put (b : Flat) : (w : Width) → (segment offset : Word) → Operand w → Flat
  | .byte, segment, offset, v => b.write (physical segment offset) v
  | .word, segment, offset, v =>
    (b.write (physical segment offset) (Word.low v)).write (physical segment (offset + 1))
      (Word.high v)

theorem read_default (a : Address) : (default : Flat).read a = 0 := Memory.read_zero a

theorem get_congr {b b' : Flat} {w : Width} {segment offset : Word}
    (same : ∀ a ∈ w.addresses segment offset, b.read a = b'.read a) :
    b.get w segment offset = b'.get w segment offset := by
  cases w with
  | byte => exact same _ (List.mem_singleton.mpr rfl)
  | word =>
    simp only [Width.addresses, List.forall_mem_cons] at same
    rw [get, get, same.1, same.2.1]

theorem read_put_of_not_mem (b : Flat) {w : Width} {segment offset : Word} (v : Operand w)
    {a : Address} (outside : a ∉ w.addresses segment offset) :
    (b.put w segment offset v).read a = b.read a := by
  cases w with
  | byte =>
    rw [put, read_write, if_neg fun same => outside (List.mem_singleton.mpr same)]
  | word =>
    simp only [Width.addresses, List.mem_cons, List.not_mem_nil, or_false, not_or] at outside
    rw [put, read_write, if_neg outside.2, read_write, if_neg outside.1]

/-- What an operand covers no longer depends on what was there. -/
theorem read_put_congr {b b' : Flat} (w : Width) (segment offset : Word) (v : Operand w)
    {a : Address} (same : b.read a = b'.read a) :
    (b.put w segment offset v).read a = (b'.put w segment offset v).read a := by
  cases w <;> simp only [put, read_write, same]

@[simp] theorem ports_put (b : Flat) (w : Width) (segment offset : Word) (v : Operand w) :
    (b.put w segment offset v).ports = b.ports := by
  cases w <;> rfl

theorem get_put_word (b : Flat) (segment offset : Word) (v : Word) :
    (b.put .word segment offset v).get .word segment offset = v := by
  have apart : physical segment offset ≠ physical segment (offset + 1) := by
    rw [Ne, physical_right_inj]
    simp
  simp only [get, put, read_write, if_neg apart, if_true, Word.ofBytes_low_high]

theorem get_put_word_of_ne (b : Flat) (segment : Word) {offset other : Word} (v : Word)
    (same : offset ≠ other) (before : offset + 1 ≠ other) (after : offset ≠ other + 1) :
    (b.put .word segment other v).get .word segment offset = b.get .word segment offset := by
  apply get_congr
  have steps : offset + 1 ≠ other + 1 := by bv_omega
  intro a member
  apply read_put_of_not_mem
  simp only [Width.addresses, List.mem_cons, List.not_mem_nil, or_false] at member ⊢
  rcases member with rfl | rfl <;> simp only [physical_right_inj, not_or]
  · exact ⟨same, after⟩
  · exact ⟨before, steps⟩

/-- The same ports, and the same bytes except at hidden addresses. -/
structure AgreeOff (hidden : List Address) (b b' : Flat) : Prop where
  ports : b.ports = b'.ports
  memory : ∀ a, a ∉ hidden → b.read a = b'.read a

namespace AgreeOff

variable {hidden : List Address} {b b' : Flat}

theorem refl (hidden : List Address) (b : Flat) : AgreeOff hidden b b := ⟨rfl, fun _ _ => rfl⟩

theorem trans {b'' : Flat} (first : AgreeOff hidden b b') (second : AgreeOff hidden b' b'') :
    AgreeOff hidden b b'' :=
  ⟨first.ports.trans second.ports, fun a seen => (first.memory a seen).trans (second.memory a seen)⟩

theorem eq (same : AgreeOff [] b b') : b = b' := by
  apply Flat.ext
  · exact fun a => same.memory a List.not_mem_nil
  · exact fun p => congrArg (Memory.read · p) same.ports

theorem get (same : AgreeOff hidden b b') {w : Width} {segment offset : Word}
    (seen : ∀ a ∈ w.addresses segment offset, a ∉ hidden) :
    b.get w segment offset = b'.get w segment offset :=
  get_congr fun a member => same.memory a (seen a member)

theorem put (same : AgreeOff hidden b b') (w : Width) (segment offset : Word) (v : Operand w) :
    AgreeOff hidden (b.put w segment offset v) (b'.put w segment offset v) where
  ports := by rw [ports_put, ports_put, same.ports]
  memory a seen := read_put_congr w segment offset v (same.memory a seen)

theorem put_hidden (same : AgreeOff hidden b b') {w : Width} {segment offset : Word}
    (v : Operand w) (covered : ∀ a ∈ w.addresses segment offset, a ∈ hidden) :
    AgreeOff hidden b (b'.put w segment offset v) where
  ports := by rw [ports_put, same.ports]
  memory a seen := by
    rw [read_put_of_not_mem b' v fun member => seen (covered a member), same.memory a seen]

theorem portIn (same : AgreeOff hidden b b') (p : Byte) : b.portIn p = b'.portIn p :=
  congrArg (Memory.read · p) same.ports

theorem portOut (same : AgreeOff hidden b b') (p v : Byte) :
    AgreeOff hidden (b.portOut p v) (b'.portOut p v) where
  ports := congrArg (Memory.write · p v) same.ports
  memory := same.memory

end AgreeOff

def CodeAt (b : Flat) (segment : Word) : (offset : Word) → List Byte → Prop
  | _, [] => True
  | offset, v :: rest => b.read (physical segment offset) = v ∧ CodeAt b segment (offset + 1) rest

theorem codeAt_iff {b : Flat} {segment offset : Word} {code : List Byte} :
    b.CodeAt segment offset code ↔ Codes b.read segment offset code := by
  induction code generalizing offset with
  | nil => exact Iff.rfl
  | cons v rest ih => exact and_congr_right fun _ => ih

def span (segment : Word) : (offset : Word) → (n : Nat) → List Address
  | _, 0 => []
  | offset, n + 1 => physical segment offset :: span segment (offset + 1) n

theorem mem_span (segment offset : Word) {i n : Nat} (bound : i < n) :
    physical segment (offset + BitVec.ofNat 16 i) ∈ span segment offset n := by
  induction n generalizing offset i with
  | zero => exact absurd bound (Nat.not_lt_zero i)
  | succ n ih =>
    cases i with
    | zero => simp [span]
    | succ i =>
      rw [← Word.add_one_ofNat]
      exact List.mem_cons_of_mem _ (ih (offset + 1) (Nat.lt_of_succ_lt_succ bound))

theorem CodeAt.congr {b b' : Flat} {segment offset : Word} {code : List Byte}
    (at_ : b.CodeAt segment offset code)
    (same : ∀ a ∈ span segment offset code.length, b'.read a = b.read a) :
    b'.CodeAt segment offset code := by
  induction code generalizing offset with
  | nil => trivial
  | cons v rest ih =>
    simp only [List.length_cons, span, List.forall_mem_cons] at same
    exact ⟨same.1.trans at_.1, ih at_.2 same.2⟩

theorem CodeAt.append {b : Flat} {segment offset : Word} {front back : List Byte}
    (at_ : b.CodeAt segment offset (front ++ back)) :
    b.CodeAt segment (offset + BitVec.ofNat 16 front.length) back :=
  codeAt_iff.mpr (codeAt_iff.mp at_).append

end Flat

end Swan
