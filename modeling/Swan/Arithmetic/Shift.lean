import Swan.Cpu.Flags

/-! Shifts and rotates. The operand moves one bit at a time, so the carry flag holds
the last bit moved out, whatever the count. -/
namespace Swan.Arithmetic

variable {n : Nat}

inductive ShiftOp where
  | rotateLeft
  | rotateRight
  /-- The carry flag is one more bit of the rotated number. -/
  | rotateLeftCarry
  | rotateRightCarry
  | shiftLeft
  | shiftRight
  /-- The sign bit stays. -/
  | shiftRightSigned
  deriving DecidableEq, Repr

namespace ShiftOp

def ofIndex? (i : BitVec 3) : Option ShiftOp :=
  match i.toNat with
  | 0 => some rotateLeft
  | 1 => some rotateRight
  | 2 => some rotateLeftCarry
  | 3 => some rotateRightCarry
  | 4 => some shiftLeft
  | 5 => some shiftRight
  | 7 => some shiftRightSigned
  | _ => none

/-- Shifts describe their result in the flags, rotates do not. -/
def describesResult : ShiftOp → Bool
  | shiftLeft | shiftRight | shiftRightSigned => true
  | _ => false

def move : ShiftOp → BitVec n × Bool → BitVec n × Bool
  | rotateLeft, (v, _) => (lowEnd v v.msb, v.msb)
  | rotateRight, (v, _) => (highEnd v (v.getLsbD 0), v.getLsbD 0)
  | rotateLeftCarry, (v, carry) => (lowEnd v carry, v.msb)
  | rotateRightCarry, (v, carry) => (highEnd v carry, v.getLsbD 0)
  | shiftLeft, (v, _) => (lowEnd v false, v.msb)
  | shiftRight, (v, _) => (highEnd v false, v.getLsbD 0)
  | shiftRightSigned, (v, _) => (highEnd v v.msb, v.getLsbD 0)
where
  /-- Make room for a bit at the low end. -/
  lowEnd (v : BitVec n) (bit : Bool) : BitVec n := (v.concat bit).setWidth n
  /-- Make room for a bit at the high end. -/
  highEnd (v : BitVec n) (bit : Bool) : BitVec n := (v.cons bit).extractLsb' 1 n

def moveBy (op : ShiftOp) : Nat → BitVec n × Bool → BitVec n × Bool
  | 0, s => s
  | k + 1, s => op.moveBy k (op.move s)

end ShiftOp

/-- Only five bits of a count matter. A count of zero leaves every flag alone. -/
def shift (op : ShiftOp) (v : BitVec n) (count : Byte) (f : Flags) : BitVec n × Flags :=
  let count := (count &&& 0x1F).toNat
  if count = 0 then (v, f)
  else
    let (r, carry) := op.moveBy count (v, f.carry)
    let g := if op.describesResult then f.describe r else f
    (r, { g with carry, overflow := (v ^^^ r).msb })

end Swan.Arithmetic
