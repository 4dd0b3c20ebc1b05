import Swan.Proofs.CodeReading
import Swan.Proofs.HiddenMemory
import Swan.Cpu.Execute

/-! Instructions that can be encoded in two ways: the bytes of both, the operations behind
them, and what either is to do. -/
namespace Swan

open Arithmetic

/-- The opcode of a pair that works at this width: the odd one is for words. -/
def Width.opcode (w : Width) (even : Byte) : Byte :=
  match w with
  | .byte => even
  | .word => even + 1

def immediateBytes : (w : Width) → Operand w → List Byte
  | .byte, v => [v]
  | .word, v => [Word.low v, Word.high v]

theorem length_immediateBytes (w : Width) (v : Operand w) :
    (immediateBytes w v).length = w.bytes := by
  cases w <;> rfl

theorem immediate_immediateBytes (w : Width) (v : Operand w) :
    immediate w (immediateBytes w v) = v := by
  cases w with
  | byte => rfl
  | word => exact Word.ofBytes_low_high v

def ModRM.registers (reg rm : BitVec 3) : Byte := 3#2 ++ reg ++ rm

theorem ModRM.ofByte_registers (reg rm : BitVec 3) : ofByte (registers reg rm) = ⟨3, reg, rm⟩ := by
  revert reg rm
  decide

structure OperandBytes where
  modRM : Byte
  displacement : List Byte
  complete : displacement.length = (ModRM.ofByte modRM).displacement.size

namespace OperandBytes

def bytes (o : OperandBytes) : List Byte := o.modRM :: o.displacement

def field (o : OperandBytes) : BitVec 3 := (ModRM.ofByte o.modRM).reg

def place (o : OperandBytes) (r : Registers) (q : PrefixQueue) : Location :=
  (ModRM.ofByte o.modRM).place r q o.displacement

def registers (reg rm : BitVec 3) : OperandBytes where
  modRM := ModRM.registers reg rm
  displacement := []
  complete := by rw [ModRM.ofByte_registers]; rfl

/-- The accumulator, and a bare offset. -/
def direct (offset : Word) : OperandBytes where
  modRM := 0x06
  displacement := immediateBytes .word offset
  complete := rfl

end OperandBytes

structure Encoding where
  opcode : Byte
  operands : List Byte

def Encoding.bytes (e : Encoding) : List Byte := e.opcode :: e.operands

/-- An instruction with two encodings. Registers and binary operations are given by their
indices. Where an encoding leaves a field of its ModRM byte unused, the field may be anything. -/
inductive Redundancy where
  | binaryRegisters (op : BitVec 3) (w : Width) (destination source : BitVec 3)
  | binaryAccumulator (op : BitVec 3) (w : Width) (v : Operand w)
  | binaryByte (o : OperandBytes) (v : Byte)
  | binarySigned (o : OperandBytes) (v : Byte)
  | increment (i : BitVec 3)
  | decrement (i : BitVec 3)
  | push (i : BitVec 3)
  | pop (i reg : BitVec 3)
  | moveImmediate (w : Width) (i reg : BitVec 3) (v : Operand w)
  | exchange (i : BitVec 3) (accumulatorFirst : Bool) (other : i ≠ 0)
  | loadDirect (w : Width) (offset : Word)
  | storeDirect (w : Width) (offset : Word)
  | testAccumulator (w : Width) (v : Operand w)
  | shiftByOne (w : Width) (o : OperandBytes)
  | shiftByCl (w : Width) (o : OperandBytes) (count : Byte)

namespace Redundancy

def first : Redundancy → Encoding
  | binaryRegisters op w destination source =>
    ⟨w.opcode (8 * op.setWidth 8), (OperandBytes.registers source destination).bytes⟩
  | binaryAccumulator op w v => ⟨w.opcode (8 * op.setWidth 8 + 4), immediateBytes w v⟩
  | binaryByte o v => ⟨0x82, o.bytes ++ [v]⟩
  | binarySigned o v => ⟨0x83, o.bytes ++ [v]⟩
  | increment i => ⟨0x40 + i.setWidth 8, []⟩
  | decrement i => ⟨0x48 + i.setWidth 8, []⟩
  | push i => ⟨0x50 + i.setWidth 8, []⟩
  | pop i _ => ⟨0x58 + i.setWidth 8, []⟩
  | moveImmediate .byte i _ v => ⟨0xB0 + i.setWidth 8, immediateBytes .byte v⟩
  | moveImmediate .word i _ v => ⟨0xB8 + i.setWidth 8, immediateBytes .word v⟩
  | exchange i _ _ => ⟨0x90 + i.setWidth 8, []⟩
  | loadDirect w offset => ⟨w.opcode 0xA0, immediateBytes .word offset⟩
  | storeDirect w offset => ⟨w.opcode 0xA2, immediateBytes .word offset⟩
  | testAccumulator w v => ⟨w.opcode 0xA8, immediateBytes w v⟩
  | shiftByOne w o => ⟨w.opcode 0xD0, o.bytes⟩
  | shiftByCl w o _ => ⟨w.opcode 0xD2, o.bytes⟩

def second : Redundancy → Encoding
  | binaryRegisters op w destination source =>
    ⟨w.opcode (8 * op.setWidth 8 + 2), (OperandBytes.registers destination source).bytes⟩
  | binaryAccumulator op w v =>
    ⟨w.opcode 0x80, (OperandBytes.registers op 0).bytes ++ immediateBytes w v⟩
  | binaryByte o v => ⟨0x80, o.bytes ++ [v]⟩
  | binarySigned o v => ⟨0x81, o.bytes ++ immediateBytes .word (Word.ofSigned v)⟩
  | increment i => ⟨0xFF, (OperandBytes.registers 0 i).bytes⟩
  | decrement i => ⟨0xFF, (OperandBytes.registers 1 i).bytes⟩
  | push i => ⟨0xFF, (OperandBytes.registers 6 i).bytes⟩
  | pop i reg => ⟨0x8F, (OperandBytes.registers reg i).bytes⟩
  | moveImmediate w i reg v =>
    ⟨w.opcode 0xC6, (OperandBytes.registers reg i).bytes ++ immediateBytes w v⟩
  | exchange i true _ => ⟨0x87, (OperandBytes.registers 0 i).bytes⟩
  | exchange i false _ => ⟨0x87, (OperandBytes.registers i 0).bytes⟩
  | loadDirect w offset => ⟨w.opcode 0x8A, (OperandBytes.direct offset).bytes⟩
  | storeDirect w offset => ⟨w.opcode 0x88, (OperandBytes.direct offset).bytes⟩
  | testAccumulator w v => ⟨w.opcode 0xF6, (OperandBytes.registers 0 0).bytes ++ immediateBytes w v⟩
  | shiftByOne w o => ⟨w.opcode 0xC0, o.bytes ++ [1]⟩
  | shiftByCl w o count => ⟨w.opcode 0xC0, o.bytes ++ [count]⟩

def operation : Redundancy → Operation
  | binaryRegisters op w _ _ => .binaryToRm w (.ofIndex op)
  | binaryAccumulator op w _ => .binaryAccumulator w (.ofIndex op)
  | binaryByte .. => .binaryImmediate .byte .full
  | binarySigned .. => .binaryImmediate .word .signedByte
  | increment i => .incReg (.ofIndex i)
  | decrement i => .decReg (.ofIndex i)
  | push i => .pushReg (.ofIndex i)
  | pop i _ => .popReg (.ofIndex i)
  | moveImmediate w i _ _ => .moveImmediate w i
  | exchange i _ _ => .exchangeAccumulator (.ofIndex i)
  | loadDirect w _ => .loadDirect w
  | storeDirect w _ => .storeDirect w
  | testAccumulator w _ => .testAccumulator w
  | shiftByOne w _ => .shiftRm w .one
  | shiftByCl w _ _ => .shiftRm w .cl

def operation' : Redundancy → Operation
  | binaryRegisters op w _ _ => .binaryToReg w (.ofIndex op)
  | binaryAccumulator _ w _ => .binaryImmediate w .full
  | binaryByte .. => .binaryImmediate .byte .full
  | binarySigned .. => .binaryImmediate .word .full
  | increment _ | decrement _ | push _ => .group5
  | pop .. => .popRm
  | moveImmediate w _ _ _ => .moveRmImmediate w
  | exchange .. => .exchangeRm .word
  | loadDirect w _ => .moveToReg w
  | storeDirect w _ => .moveToRm w
  | testAccumulator w _ => .group3 w
  | shiftByOne w _ | shiftByCl w _ _ => .shiftRm w .immediate

end Redundancy

/-- Among the first opcodes, the three bits in the middle are a binary operation. -/
theorem Operation.decode_binary (op : BitVec 3) (w : Width) :
    decode (w.opcode (8 * op.setWidth 8)) = .binaryToRm w (.ofIndex op) ∧
    decode (w.opcode (8 * op.setWidth 8 + 2)) = .binaryToReg w (.ofIndex op) ∧
    decode (w.opcode (8 * op.setWidth 8 + 4)) = .binaryAccumulator w (.ofIndex op) := by
  cases w <;> revert op <;> decide +kernel

/-- In a row of opcodes for the registers, the last three bits are the register. -/
theorem Operation.decode_register (i : BitVec 3) :
    decode (0x40 + i.setWidth 8) = .incReg (.ofIndex i) ∧
    decode (0x48 + i.setWidth 8) = .decReg (.ofIndex i) ∧
    decode (0x50 + i.setWidth 8) = .pushReg (.ofIndex i) ∧
    decode (0x58 + i.setWidth 8) = .popReg (.ofIndex i) ∧
    (i ≠ 0 → decode (0x90 + i.setWidth 8) = .exchangeAccumulator (.ofIndex i)) ∧
    decode (0xB0 + i.setWidth 8) = .moveImmediate .byte i ∧
    decode (0xB8 + i.setWidth 8) = .moveImmediate .word i := by
  revert i
  decide +kernel

namespace Redundancy

theorem decode_first (p : Redundancy) : Operation.decode p.first.opcode = p.operation := by
  cases p with
  | binaryRegisters op w => exact (Operation.decode_binary op w).1
  | binaryAccumulator op w => exact (Operation.decode_binary op w).2.2
  | increment i => exact (Operation.decode_register i).1
  | decrement i => exact (Operation.decode_register i).2.1
  | push i => exact (Operation.decode_register i).2.2.1
  | pop i => exact (Operation.decode_register i).2.2.2.1
  | exchange i _ other => exact (Operation.decode_register i).2.2.2.2.1 other
  | moveImmediate w i =>
    cases w with
    | byte => exact (Operation.decode_register i).2.2.2.2.2.1
    | word => exact (Operation.decode_register i).2.2.2.2.2.2
  | binaryByte | binarySigned => rfl
  | loadDirect w | storeDirect w | testAccumulator w | shiftByOne w | shiftByCl w =>
    cases w <;> rfl

theorem decode_second (p : Redundancy) : Operation.decode p.second.opcode = p.operation' := by
  cases p with
  | binaryRegisters op w => exact (Operation.decode_binary op w).2.1
  | exchange _ first => cases first <;> rfl
  | binaryByte | binarySigned | increment | decrement | push | pop => rfl
  | binaryAccumulator _ w | moveImmediate w | loadDirect w | storeDirect w | testAccumulator w
  | shiftByOne w | shiftByCl w => cases w <;> rfl

end Redundancy

namespace Exec

/-- Combine what stands at a place with an operand. A comparison leaves the place alone. -/
def combine (op : BinaryOp) (w : Width) (l : Location) (v : Operand w) : Exec Flat Unit := do
  let r ← withFlags (op.apply (← readAt w l) v)
  if op.writesResult then writeAt w r l

/-- Shift what stands at a place, if that is what the field asks for. -/
def shiftAt (field : BitVec 3) (w : Width) (l : Location) (count : Byte) : Exec Flat Unit :=
  match ShiftOp.ofIndex? field with
  | none => return ()
  | some op => do writeAt w (← withFlags (shift op (← readAt w l) count)) l

/-- Exchange a register with the accumulator, with both as they were before. -/
def swapAccumulator (i : BitVec 3) : Exec Flat Unit :=
  setRegs fun r => { r.setOperand .word i r.ax with ax := r.operand .word i }

end Exec

/-- In the table of operations, nothing is to be done for a prefix. -/
theorem Operation.plain_of_decode {opcode : Byte} (something : decode opcode ≠ .nop) :
    isPrefix opcode = false := by
  have none : ∀ opcode, isPrefix opcode = true → decode opcode = .nop := by decide +kernel
  rw [← Bool.not_eq_true]
  exact fun isOne => something (none opcode isOne)

namespace Redundancy

/-- What is done, with the registers and the prefixes from before. -/
def effect (r : Registers) (q : PrefixQueue) : Redundancy → Exec Flat Unit
  | binaryRegisters op w destination source =>
    Exec.combine (.ofIndex op) w (.register (destination.setWidth 8)) (r.operand w source)
  | binaryAccumulator op w v => Exec.combine (.ofIndex op) w (.register 0) v
  | binaryByte o v => Exec.combine (.ofIndex o.field) .byte (o.place r q) v
  | binarySigned o v => Exec.combine (.ofIndex o.field) .word (o.place r q) (Word.ofSigned v)
  | increment i => do
    Exec.setOperand .word i (← Exec.withFlags (Arithmetic.increment (r.operand .word i)))
  | decrement i => do
    Exec.setOperand .word i (← Exec.withFlags (Arithmetic.decrement (r.operand .word i)))
  | push i => Exec.push (r.operand .word i)
  | pop i _ => do Exec.setOperand .word i (← Exec.pop)
  | moveImmediate w i _ v => Exec.setOperand w i v
  | exchange i _ _ => Exec.swapAccumulator i
  | loadDirect w offset => do
    Exec.setOperand w 0 (← Exec.readAt w (.memory (q.segmentOverride.getD .ds) offset))
  | storeDirect w offset =>
    Exec.writeAt w (r.operand w 0) (.memory (q.segmentOverride.getD .ds) offset)
  | testAccumulator w v => do let _ ← Exec.withFlags (bitAnd (r.operand w 0) v)
  | shiftByOne w o => Exec.shiftAt o.field w (o.place r q) 1
  | shiftByCl w o count => Exec.shiftAt o.field w (o.place r q) count

/-- What a shift by a count costs. Without an operation there is none. -/
def shiftCost (field : BitVec 3) (cost : Nat) : Nat :=
  if (ShiftOp.ofIndex? field).isSome then cost else 1

def cost (r : Registers) (q : PrefixQueue) : Redundancy → Nat
  | binaryByte o _ | binarySigned o _ => Exec.binaryRmCost (.ofIndex o.field) (o.place r q)
  | shiftByOne _ o | shiftByCl _ o _ => shiftCost o.field ((o.place r q).cost 3 5)
  | exchange .. => 3
  | _ => 1

/-- What the first encoding costs: a shift by an implied one is faster. -/
def firstCost (r : Registers) (q : PrefixQueue) : Redundancy → Nat
  | shiftByOne _ o => shiftCost o.field ((o.place r q).cost 1 3)
  | p => p.cost r q

def Timed : Redundancy → Prop
  | shiftByOne .. => False
  | _ => True

theorem firstCost_eq {p : Redundancy} (timed : p.Timed) (r : Registers) (q : PrefixQueue) :
    p.firstCost r q = p.cost r q := by
  cases p with
  | shiftByOne => exact timed.elim
  | _ => rfl

/-- An immediate count stands for the one in CL only while CL has the same value. -/
def Fits (r : Registers) : Redundancy → Prop
  | shiftByCl _ _ count => r.cl = count
  | _ => True

def reads (r : Registers) (q : PrefixQueue) : Redundancy → List Address
  | binaryByte o _ => (o.place r q).addresses r .byte
  | binarySigned o _ => (o.place r q).addresses r .word
  | shiftByOne w o | shiftByCl w o _ => (o.place r q).addresses r w
  | loadDirect w offset => w.addresses (r.segment (q.segmentOverride.getD .ds)) offset
  | pop .. => Width.word.addresses r.ss r.sp
  | _ => []

end Redundancy

end Swan
