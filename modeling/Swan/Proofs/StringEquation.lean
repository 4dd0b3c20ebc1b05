import Swan.Proofs.StepEquation

/-! A string instruction, taken apart: with no repeat prefix it is one element, with CX
at zero it is nothing, and otherwise it is one element and a decision whether to go on. -/
namespace Swan

def stringOpcodes : List Byte :=
  [0x6C, 0x6D, 0x6E, 0x6F, 0xA4, 0xA5, 0xA6, 0xA7, 0xAA, 0xAB, 0xAC, 0xAD, 0xAE, 0xAF]

def Operation.isString : Operation → Bool
  | string .. => true
  | _ => false

/-- What is true along the table is true of every opcode. -/
theorem Operation.decode_table {α : Type} {f : Operation → α} {g : Byte → α}
    (along : table.toList.map f = (List.range 256).map fun i => g (BitVec.ofNat 8 i))
    (opcode : Byte) : f (decode opcode) = g opcode := by
  have inTable := opcode.isLt
  have entry := congrArg (·[opcode.toNat]?) along
  simp only [List.getElem?_map, List.getElem?_range inTable, Option.map_some, Array.getElem?_toList,
    BitVec.ofNat_toNat, BitVec.setWidth_eq] at entry
  rw [Array.getElem?_eq_getElem (size_table ▸ inTable)] at entry
  exact Option.some.inj entry

theorem isString_decode (opcode : Byte) :
    (Operation.decode opcode).isString = decide (opcode ∈ stringOpcodes) :=
  Operation.decode_table (f := Operation.isString) (g := fun b => decide (b ∈ stringOpcodes))
    (by decide +kernel) opcode

theorem mem_stringOpcodes {opcode : Byte} {w : Width} {op : StringOp}
    (decoded : Operation.decode opcode = .string w op) : opcode ∈ stringOpcodes := by
  have isString := isString_decode opcode
  rw [decoded] at isString
  exact of_decide_eq_true isString.symm

/-- A comparison after which the zero flag asks for no further element. -/
def StringOp.stops (op : StringOp) (k : RepeatClass) (f : Flags) : Bool :=
  op.compares && !k.continues f.zero

namespace Exec

variable {β : Type} [Bus β] {w : Width} {op : StringOp} {c : Core β}

theorem string_once (plain : c.cpu.prefixes.repeatClass = none) :
    string w op c = ({ cycles := op.cycles }, (element w op c).2) := by
  rw [string, bind_apply]
  simp only [prefixes, plain]
  rfl

/-- Whether a repetition is over after an element that left the given counter and flags. -/
def repeatEnds (op : StringOp) (k : RepeatClass) (cx : Word) (f : Flags) : Prop :=
  cx = 0 ∨ op.stops k f = true

instance (op : StringOp) (k : RepeatClass) (cx : Word) (f : Flags) :
    Decidable (repeatEnds op k cx f) := inferInstanceAs (Decidable (_ ∨ _))

theorem string_exhausted {k : RepeatClass} (repeated : c.cpu.prefixes.repeatClass = some k)
    (none_left : c.cpu.regs.cx = 0) : string w op c = ({ cycles := 1 }, c) := by
  rw [string, bind_apply]
  simp only [prefixes, repeated, bind_apply]
  change (if c.cpu.regs.cx = 0 then _ else _ : Exec β Retired) _ = _
  rw [if_pos none_left]
  rfl

theorem string_repeated {k : RepeatClass} (repeated : c.cpu.prefixes.repeatClass = some k)
    (left : c.cpu.regs.cx ≠ 0) :
    string w op c =
      let d := (element w op c).2
      let r := { d.cpu.regs with cx := d.cpu.regs.cx - 1 }
      if repeatEnds op k r.cx r.flags then
        ({ cycles := op.cycles }, ⟨{ d.cpu with regs := r }, d.bus⟩)
      else
        ({ cycles := op.cycles, again := true },
          ⟨{ d.cpu with regs := { r with ip := r.ip - 1 } }, d.bus⟩) := by
  rw [string, bind_apply]
  simp only [prefixes, repeated, bind_apply]
  change (if c.cpu.regs.cx = 0 then _ else _ : Exec β Retired) _ = _
  rw [if_neg left, bind_apply, bind_apply, bind_apply]
  split <;> rename_i ends
  · exact (if_pos ends).symm
  · exact (if_neg ends).symm

theorem string_again (again : (string w op c).1.again = true) :
    c.cpu.prefixes.repeatClass ≠ none ∧ (string w op c).2.cpu.regs.cx ≠ 0 := by
  cases repeated : c.cpu.prefixes.repeatClass with
  | none =>
    rw [string_once repeated] at again
    contradiction
  | some k =>
    refine ⟨Option.some_ne_none k, ?_⟩
    by_cases none_left : c.cpu.regs.cx = 0
    · rw [string_exhausted repeated none_left] at again
      contradiction
    · rw [string_repeated repeated none_left] at again ⊢
      dsimp only at again ⊢
      split at again
      · contradiction
      · rename_i goesOn
        rw [if_neg goesOn]
        exact fun zero => goesOn (.inl zero)

end Exec

end Swan
