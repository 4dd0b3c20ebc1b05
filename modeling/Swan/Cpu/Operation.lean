import Swan.Arithmetic.Binary
import Swan.Cpu.PrefixQueue

/-! What the first byte of an instruction, after its prefixes, asks for. The members
of an instruction group share their first byte and are told apart later. -/
namespace Swan

/-- A conditional jump tests one of eight conditions or its negation. -/
structure Condition where
  test : BitVec 3
  negated : Bool
  deriving DecidableEq, Repr

namespace Condition

def ofIndex (i : BitVec 4) : Condition := ⟨i.extractLsb' 1 3, i.getLsbD 0⟩

def holds (c : Condition) (f : Flags) : Bool :=
  let base := match c.test.toNat with
    | 0 => f.overflow
    | 1 => f.carry
    | 2 => f.zero
    | 3 => f.carry || f.zero
    | 4 => f.sign
    | 5 => f.parity
    | 6 => f.sign != f.overflow
    | _ => f.zero || f.sign != f.overflow
  base != c.negated

end Condition

inductive StringOp where
  | movs | cmps | scas | lods | stos | ins | outs
  deriving DecidableEq, Repr

inductive ShiftCount where
  | one
  | cl
  | immediate
  deriving DecidableEq, Repr

inductive PortSource where
  | immediate
  | dx
  deriving DecidableEq, Repr

/-- What a counted loop asks of the zero flag. -/
inductive LoopTest where
  | nonZero
  | zero
  | always
  deriving DecidableEq, Repr

inductive Adjustment where
  | packedSum | packedDifference | unpackedSum | unpackedDifference
  deriving DecidableEq, Repr

inductive FlagCommand where
  | complementCarry | clearCarry | setCarry | clearInterrupt | setInterrupt
  | clearDirection | setDirection
  deriving DecidableEq, Repr

/-- The size of an immediate beside the width of the operation it serves: full, or a
byte widened with its sign. -/
inductive ImmediateForm where
  | full
  | signedByte
  deriving DecidableEq, Repr

inductive Operation where
  /-- An undefined code or one with nothing to do. -/
  | nop
  | binaryToRm (w : Width) (op : Arithmetic.BinaryOp)
  | binaryToReg (w : Width) (op : Arithmetic.BinaryOp)
  | binaryAccumulator (w : Width) (op : Arithmetic.BinaryOp)
  | binaryImmediate (w : Width) (form : ImmediateForm)
  | testRm (w : Width)
  | testAccumulator (w : Width)
  | incReg (r : WordReg)
  | decReg (r : WordReg)
  | adjust (a : Adjustment)
  | toDigits
  | ofDigits
  | imulImmediate (form : ImmediateForm)
  | shiftRm (w : Width) (count : ShiftCount)
  | group3 (w : Width)
  | group4
  | group5
  | pushSegment (s : Segment)
  | popSegment (s : Segment)
  | pushReg (r : WordReg)
  | popReg (r : WordReg)
  | pushAll
  | popAll
  | pushImmediate (form : ImmediateForm)
  | popRm
  | pushFlags
  | popFlags
  | enter
  | leave
  | moveToRm (w : Width)
  | moveToReg (w : Width)
  | moveFromSegment
  | moveToSegment
  | moveImmediate (w : Width) (i : BitVec 3)
  | moveRmImmediate (w : Width)
  | loadDirect (w : Width)
  | storeDirect (w : Width)
  | loadAddress
  | loadFar (s : Segment)
  | translate
  | exchangeRm (w : Width)
  | exchangeAccumulator (r : WordReg)
  | widenByte
  | widenWord
  | carryToAl
  | flagsFromAh
  | flagsToAh
  | command (c : FlagCommand)
  | string (w : Width) (op : StringOp)
  | portIn (w : Width) (source : PortSource)
  | portOut (w : Width) (source : PortSource)
  | jumpIf (c : Condition)
  | jumpIfCxZero
  | loop (test : LoopTest)
  | jumpShort
  | jumpNear
  | jumpFar
  | callNear
  | callFar
  | returnNear (release : Bool)
  | returnFar (release : Bool)
  | breakpoint
  | interrupt
  | interruptOnOverflow
  | returnInterrupt
  | bound
  | escape
  | halt
  deriving DecidableEq, Repr

namespace Operation

/-- The six forms of a binary operation, in opcode order. -/
def binaryForms (op : Arithmetic.BinaryOp) : List Operation :=
  [binaryToRm .byte op, binaryToRm .word op, binaryToReg .byte op, binaryToReg .word op,
    binaryAccumulator .byte op, binaryAccumulator .word op]

def forWordRegs (f : WordReg → Operation) : List Operation :=
  [f .ax, f .cx, f .dx, f .bx, f .sp, f .bp, f .si, f .di]

/-- Opcodes 00 to 3F. A prefix byte reaches the table only in theory. -/
def rows0 : List Operation :=
  binaryForms .add ++ [pushSegment .es, popSegment .es] ++
  binaryForms .or ++ [pushSegment .cs, nop] ++
  binaryForms .adc ++ [pushSegment .ss, popSegment .ss] ++
  binaryForms .sbb ++ [pushSegment .ds, popSegment .ds] ++
  binaryForms .and ++ [nop, adjust .packedSum] ++
  binaryForms .sub ++ [nop, adjust .packedDifference] ++
  binaryForms .xor ++ [nop, adjust .unpackedSum] ++
  binaryForms .cmp ++ [nop, adjust .unpackedDifference]

def rows4 : List Operation :=
  forWordRegs incReg ++ forWordRegs decReg ++
  forWordRegs pushReg ++ forWordRegs popReg ++
  [pushAll, popAll, bound, nop, nop, nop, nop, nop,
    pushImmediate .full, imulImmediate .full, pushImmediate .signedByte, imulImmediate .signedByte,
    string .byte .ins, string .word .ins, string .byte .outs, string .word .outs] ++
  (List.range 16).map fun i => jumpIf (.ofIndex (BitVec.ofNat 4 i))

def rows8 : List Operation :=
  [binaryImmediate .byte .full, binaryImmediate .word .full,
    binaryImmediate .byte .full, binaryImmediate .word .signedByte,
    testRm .byte, testRm .word, exchangeRm .byte, exchangeRm .word,
    moveToRm .byte, moveToRm .word, moveToReg .byte, moveToReg .word,
    moveFromSegment, loadAddress, moveToSegment, popRm,
    nop] ++ (forWordRegs exchangeAccumulator).tail ++
  [widenByte, widenWord, callFar, nop, pushFlags, popFlags, flagsFromAh, flagsToAh,
    loadDirect .byte, loadDirect .word, storeDirect .byte, storeDirect .word,
    string .byte .movs, string .word .movs, string .byte .cmps, string .word .cmps,
    testAccumulator .byte, testAccumulator .word, string .byte .stos, string .word .stos,
    string .byte .lods, string .word .lods, string .byte .scas, string .word .scas] ++
  ((List.range 8).map fun i => moveImmediate .byte (BitVec.ofNat 3 i)) ++
  (List.range 8).map fun i => moveImmediate .word (BitVec.ofNat 3 i)

def rowsC : List Operation :=
  [shiftRm .byte .immediate, shiftRm .word .immediate, returnNear true, returnNear false,
    loadFar .es, loadFar .ds, moveRmImmediate .byte, moveRmImmediate .word,
    enter, leave, returnFar true, returnFar false,
    breakpoint, interrupt, interruptOnOverflow, returnInterrupt,
    shiftRm .byte .one, shiftRm .word .one, shiftRm .byte .cl, shiftRm .word .cl,
    toDigits, ofDigits, carryToAl, translate] ++
  List.replicate 8 escape ++
  [loop .nonZero, loop .zero, loop .always, jumpIfCxZero,
    portIn .byte .immediate, portIn .word .immediate,
    portOut .byte .immediate, portOut .word .immediate,
    callNear, jumpNear, jumpFar, jumpShort,
    portIn .byte .dx, portIn .word .dx, portOut .byte .dx, portOut .word .dx,
    nop, nop, nop, nop, halt, command .complementCarry, group3 .byte, group3 .word,
    command .clearCarry, command .setCarry, command .clearInterrupt, command .setInterrupt,
    command .clearDirection, command .setDirection, group4, group5]

def table : Array Operation := (rows0 ++ rows4 ++ rows8 ++ rowsC).toArray

theorem size_table : table.size = 256 := by decide +kernel

def decode (opcode : Byte) : Operation :=
  have inTable : opcode.toNat < table.size := size_table ▸ opcode.isLt
  table[opcode.toNat]

end Operation

end Swan
