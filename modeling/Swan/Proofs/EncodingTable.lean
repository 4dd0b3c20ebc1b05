import Swan.Proofs.CodeReading
import Swan.Proofs.StringEquation

/-! How long an instruction is, and which ones may leave the line of code they stand in, by
opcode. The operations behind the opcodes are shown to read as many bytes. -/
namespace Swan

def hasModRM (opcode : Byte) : Bool :=
  let n := opcode.toNat
  decide (n < 0x40 ∧ n % 8 < 4) || decide (0x80 ≤ n ∧ n ≤ 0x8F) || decide (0xC4 ≤ n ∧ n ≤ 0xC7) ||
    decide (0xD0 ≤ n ∧ n ≤ 0xD3) || decide (0xD8 ≤ n ∧ n ≤ 0xDF) ||
    [0x62, 0x69, 0x6B, 0xC0, 0xC1, 0xF6, 0xF7, 0xFE, 0xFF].contains n

def displacementSize (mode : BitVec 2) (rm : BitVec 3) : Nat :=
  match mode.toNat with
  | 0 => if rm = 6 then 2 else 0
  | 1 => 1
  | 2 => 2
  | _ => 0

/-- How many bytes of immediate follow. The first two members of group 3 have one, and the
register field tells them from the others. -/
def immediateSize (opcode : Byte) (reg : BitVec 3) : Nat :=
  let n := opcode.toNat
  if n < 0x40 ∧ n % 8 = 4 ∨ 0x70 ≤ n ∧ n ≤ 0x7F ∨ 0xB0 ≤ n ∧ n ≤ 0xB7 ∨ 0xE0 ≤ n ∧ n ≤ 0xE7 ∨
      n ∈ [0x6A, 0x6B, 0x80, 0x82, 0x83, 0xA8, 0xC0, 0xC1, 0xC6, 0xCD, 0xD4, 0xD5, 0xEB] ∨
      n = 0xF6 ∧ reg.toNat < 2 then 1
  else if n < 0x40 ∧ n % 8 = 5 ∨ 0xA0 ≤ n ∧ n ≤ 0xA3 ∨ 0xB8 ≤ n ∧ n ≤ 0xBF ∨
      n ∈ [0x68, 0x69, 0x81, 0xA9, 0xC2, 0xC7, 0xCA, 0xE8, 0xE9] ∨ n = 0xF7 ∧ reg.toNat < 2 then 2
  else if n = 0xC8 then 3
  else if n ∈ [0x9A, 0xEA] then 4
  else 0

def instructionLength (opcode second : Byte) : Nat :=
  let m := ModRM.ofByte second
  1 + (if hasModRM opcode then 1 + displacementSize m.mode m.rm else 0) + immediateSize opcode m.reg

/-- On what condition an instruction may leave its line. -/
inductive Turn where
  | never
  | always
  | taken (t : Condition)
  | cxZero
  | counted (t : LoopTest)
  | overflow
  | outOfRange
  | division (w : Width)
  | indirect
  | repetition
  deriving DecidableEq, Repr

def Turn.of (opcode : Byte) : Turn :=
  let n := opcode.toNat
  if 0x70 ≤ n ∧ n ≤ 0x7F then taken (.ofIndex (opcode.setWidth 4))
  else if n = 0xE0 then counted .nonZero
  else if n = 0xE1 then counted .zero
  else if n = 0xE2 then counted .always
  else if n = 0xE3 then cxZero
  else if n = 0xCE then overflow
  else if n = 0x62 then outOfRange
  else if n = 0xF6 then division .byte
  else if n = 0xF7 then division .word
  else if n = 0xFF then indirect
  else if 0x6C ≤ n ∧ n ≤ 0x6F ∨ 0xA4 ≤ n ∧ n ≤ 0xA7 ∨ 0xAA ≤ n ∧ n ≤ 0xAF then repetition
  else if n ∈ [0x9A, 0xC2, 0xC3, 0xCA, 0xCB, 0xCC, 0xCD, 0xCF, 0xE8, 0xE9, 0xEA, 0xEB] then always
  else never

namespace Operation

def hasModRM : Operation → Bool
  | binaryToRm .. | binaryToReg .. | binaryImmediate .. | testRm _ | imulImmediate _ | shiftRm ..
  | group3 _ | group4 | group5 | popRm | moveToRm _ | moveToReg _ | moveFromSegment | moveToSegment
  | moveRmImmediate _ | loadAddress | loadFar _ | exchangeRm _ | bound | escape => true
  | _ => false

def immediateSize (reg : BitVec 3) : Operation → Nat
  | binaryAccumulator w _ | testAccumulator w | moveImmediate w _ | moveRmImmediate w => w.bytes
  | binaryImmediate w form => form.size w
  | imulImmediate form | pushImmediate form => form.size .word
  | shiftRm _ .immediate => 1
  | group3 w => if reg.toNat < 2 then w.bytes else 0
  | toDigits | ofDigits | jumpIf _ | jumpIfCxZero | loop _ | jumpShort | interrupt => 1
  | portIn _ .immediate | portOut _ .immediate => 1
  | loadDirect _ | storeDirect _ | jumpNear | callNear | returnNear true | returnFar true => 2
  | enter => 3
  | jumpFar | callFar => 4
  | _ => 0

def loadsCs (reg : BitVec 3) : Operation → Bool
  | popSegment s | loadFar s => s == .cs
  | moveToSegment => Segment.ofIndex (reg.setWidth 2) == .cs
  | _ => false

def turn : Operation → Turn
  | jumpIf t => .taken t
  | jumpIfCxZero => .cxZero
  | loop t => .counted t
  | interruptOnOverflow => .overflow
  | bound => .outOfRange
  | group3 w => .division w
  | group5 => .indirect
  | string .. => .repetition
  | jumpShort | jumpNear | jumpFar | callNear | callFar | returnNear _ | returnFar _ | breakpoint
  | interrupt | returnInterrupt => .always
  | _ => .never

theorem hasModRM_decode (opcode : Byte) : (decode opcode).hasModRM = Swan.hasModRM opcode :=
  decode_table (f := hasModRM) (g := Swan.hasModRM) (by decide +kernel) opcode

theorem turn_decode (opcode : Byte) : (decode opcode).turn = Turn.of opcode :=
  decode_table (f := turn) (g := Turn.of) (by decide +kernel) opcode

/-- Only the first two members of group 3 differ from the others. -/
theorem immediateSize_member (op : Operation) (reg : BitVec 3) :
    op.immediateSize reg = op.immediateSize (if reg.toNat < 2 then 0 else 2) := by
  cases op with
  | group3 w =>
    simp only [immediateSize]
    split <;> rfl
  | shiftRm _ source => cases source <;> rfl
  | portIn _ source | portOut _ source => cases source <;> rfl
  | returnNear release | returnFar release => cases release <;> rfl
  | _ => rfl

theorem immediateSize_decode (opcode : Byte) (reg : BitVec 3) :
    (decode opcode).immediateSize reg = Swan.immediateSize opcode reg := by
  have member : Swan.immediateSize opcode reg =
      Swan.immediateSize opcode (if reg.toNat < 2 then 0 else 2) := by
    by_cases first : reg.toNat < 2 <;> simp [Swan.immediateSize, first]
  have members := decode_table (f := fun op => (op.immediateSize 0, op.immediateSize 2))
    (g := fun opcode => (Swan.immediateSize opcode 0, Swan.immediateSize opcode 2))
    (by decide +kernel) opcode
  rw [immediateSize_member, member]
  split
  · exact congrArg Prod.fst members
  · exact congrArg Prod.snd members

/-- Of all opcodes, only a move to a segment register can load the code segment. -/
theorem loadsCs_decode (opcode : Byte) (reg : BitVec 3) :
    (decode opcode).loadsCs reg = (opcode == 0x8E && reg.setWidth 2 == 1#2) := by
  have others := decode_table (f := fun op => (op == moveToSegment, op.loadsCs 0))
    (g := fun opcode => (opcode == 0x8E, false)) (by decide +kernel) opcode
  obtain ⟨move, other⟩ := Prod.mk.inj others
  rw [← move]
  revert other
  generalize decode opcode = op
  intro other
  cases op with
  | moveToSegment =>
    revert reg
    decide
  | _ => exact other

end Operation

theorem ModRM.size_displacement (m : ModRM) :
    m.displacement.size = displacementSize m.mode m.rm := by
  obtain ⟨mode, reg, rm⟩ := m
  have size : ∀ (mode : BitVec 2) (rm : BitVec 3),
      (ModRM.mk mode 0 rm).displacement.size = displacementSize mode rm := by decide
  exact size mode rm

end Swan
