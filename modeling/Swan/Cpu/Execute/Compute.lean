import Swan.Arithmetic.Decimal
import Swan.Arithmetic.Product
import Swan.Arithmetic.Shift
import Swan.Cpu.Execute.Data
import Swan.Cpu.Interrupt

/-! Instructions that compute, and the groups told apart by the register field of
their operand byte. -/
namespace Swan.Exec

open Arithmetic

variable {β : Type} [Bus β]

/-- A binary operation with a memory destination takes a cycle more when it writes. -/
def binaryRmCost (op : BinaryOp) (rm : Location) : Nat :=
  rm.cost 1 (if op.writesResult then 3 else 2)

def binaryToRm (w : Width) (op : BinaryOp) : Exec β Retired := do
  let (m, rm) ← fetchModRM
  let a ← readAt w rm
  let r ← withFlags (op.apply a (← operand w m.reg))
  if op.writesResult then writeAt w r rm
  return { cycles := binaryRmCost op rm }

def binaryToReg (w : Width) (op : BinaryOp) : Exec β Retired := do
  let (m, rm) ← fetchModRM
  let b ← readAt w rm
  let r ← withFlags (op.apply (← operand w m.reg) b)
  if op.writesResult then setOperand w m.reg r
  return { cycles := rm.cost 1 2 }

def binaryAccumulator (w : Width) (op : BinaryOp) : Exec β Retired := do
  let b ← fetch w
  let r ← withFlags (op.apply (← operand w 0) b)
  if op.writesResult then setOperand w 0 r
  return { cycles := 1 }

def binaryImmediate (w : Width) (form : ImmediateForm) : Exec β Retired := do
  let (m, rm) ← fetchModRM
  let b ← fetchImmediate w form
  let op := BinaryOp.ofIndex m.reg
  let r ← withFlags (op.apply (← readAt w rm) b)
  if op.writesResult then writeAt w r rm
  return { cycles := binaryRmCost op rm }

def testRm (w : Width) : Exec β Retired := do
  let (m, rm) ← fetchModRM
  let a ← readAt w rm
  let _ ← withFlags (bitAnd a (← operand w m.reg))
  return { cycles := rm.cost 1 2 }

def testAccumulator (w : Width) : Exec β Retired := do
  let b ← fetch w
  let _ ← withFlags (bitAnd (← operand w 0) b)
  return { cycles := 1 }

def incReg (reg : WordReg) : Exec β Retired := do
  let v ← withFlags (increment ((← regs).word reg))
  setRegs (·.setWord v reg)
  return { cycles := 1 }

def decReg (reg : WordReg) : Exec β Retired := do
  let v ← withFlags (decrement ((← regs).word reg))
  setRegs (·.setWord v reg)
  return { cycles := 1 }

def adjust : Adjustment → Exec β Retired
  | .packedSum => packed adjustPackedSum
  | .packedDifference => packed adjustPackedDifference
  | .unpackedSum => unpacked adjustUnpackedSum
  | .unpackedDifference => unpacked adjustUnpackedDifference
where
  packed (f : Byte → Flags → Byte × Flags) : Exec β Retired := do
    let al ← withFlags (f (← regs).al)
    setRegs (·.setByte al .al)
    return { cycles := 10 }
  unpacked (f : Word → Flags → Word × Flags) : Exec β Retired := do
    let ax ← withFlags (f (← regs).ax)
    setRegs ({ · with ax })
    return { cycles := 9 }

/-- The immediate byte is fetched, but the base is always ten. -/
def toDigits : Exec β Retired := do
  let _ ← fetchByte
  let ax ← withFlags (Arithmetic.toDigits (← regs).al)
  setRegs ({ · with ax })
  return { cycles := 17 }

/-- The immediate byte is fetched, but the base is always ten. -/
def ofDigits : Exec β Retired := do
  let _ ← fetchByte
  let ax ← withFlags (Arithmetic.ofDigits (← regs).ax)
  setRegs ({ · with ax })
  return { cycles := 6 }

/-- Multiply into any register, keeping the low half of the product. -/
def imulImmediate (form : ImmediateForm) : Exec β Retired := do
  let (m, rm) ← fetchModRM
  let a ← readAt .word rm
  let b ← fetchImmediate .word form
  let product ← withFlags (imul a b)
  setOperand .word m.reg (product.setWidth 16)
  return { cycles := rm.cost 3 4 }

/-- An encoding without an operation takes one cycle, its operands fetched. -/
def shiftRm (w : Width) (source : ShiftCount) : Exec β Retired := do
  let (m, rm) ← fetchModRM
  let count ← match source with
    | .one => pure 1
    | .cl => do pure (← regs).cl
    | .immediate => fetchByte
  match ShiftOp.ofIndex? m.reg with
  | none => return { cycles := 1 }
  | some op => do
    let r ← withFlags (shift op (← readAt w rm) count)
    writeAt w r rm
    return { cycles := if source = .one then rm.cost 1 3 else rm.cost 3 5 }

/-- The dividend and product register: AX for bytes, DX and AX for words. -/
def wideAccumulator (r : Registers) : (w : Width) → BitVec (2 * w.bits)
  | .byte => r.ax
  | .word => r.dx ++ r.ax

def setWideAccumulator : (w : Width) → BitVec (2 * w.bits) → Registers → Registers
  | .byte, v, r => { r with ax := v }
  | .word, v, r => { r with ax := v.setWidth 16, dx := v.extractLsb' 16 16 }

/-- A quotient goes to the low half of the wide accumulator, a remainder to the high. -/
def setQuotient : (w : Width) → (quotient remainder : Operand w) → Registers → Registers
  | .byte, quotient, remainder, r => { r with ax := .ofBytes quotient remainder }
  | .word, quotient, remainder, r => { r with ax := quotient, dx := remainder }

def finishDivision (w : Width) : Option (Operand w × Operand w) → Exec β Unit
  | some (quotient, remainder) => setRegs (setQuotient w quotient remainder)
  | none => enterInterrupt divideErrorVector

/-- Test with an immediate, complement, negate, multiply and divide. The operand is
read first, whatever the member. -/
def group3 (w : Width) : Exec β Retired := do
  let (m, rm) ← fetchModRM
  let v ← readAt w rm
  match m.reg.toNat with
  | 0 | 1 => do
    let _ ← withFlags (bitAnd v (← fetch w))
    return { cycles := rm.cost 1 2 }
  | 2 => do
    writeAt w (~~~v) rm
    return { cycles := rm.cost 1 3 }
  | 3 => do
    writeAt w (← withFlags (negate v)) rm
    return { cycles := rm.cost 1 3 }
  | 4 => do
    let product ← withFlags (mul (← operand w 0) v)
    setRegs (setWideAccumulator w product)
    return { cycles := rm.cost 3 4 }
  | 5 => do
    let product ← withFlags (imul (← operand w 0) v)
    setRegs (setWideAccumulator w product)
    return { cycles := rm.cost 3 4 }
  | 6 => do
    finishDivision w (div? (wideAccumulator (← regs) w).toNat v)
    return { cycles := match w with
      | .byte => rm.cost 15 16
      | .word => rm.cost 23 24 }
  | _ => do
    finishDivision w (idiv? (wideAccumulator (← regs) w).toInt v)
    return { cycles := match w with
      | .byte => rm.cost 17 18
      | .word => rm.cost 24 25 }

/-- Increment and decrement a byte. The other members do nothing. -/
def group4 : Exec β Retired := do
  let (m, rm) ← fetchModRM
  match m.reg.toNat with
  | 0 => do
    writeAt .byte (← withFlags (increment (← readAt .byte rm))) rm
    return { cycles := rm.cost 1 3 }
  | 1 => do
    writeAt .byte (← withFlags (decrement (← readAt .byte rm))) rm
    return { cycles := rm.cost 1 3 }
  | _ => return { cycles := 1 }

end Swan.Exec
