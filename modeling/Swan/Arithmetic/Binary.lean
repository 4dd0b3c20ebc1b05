import Swan.Arithmetic.Sum

/-! The bitwise operations, and the eight operations that an instruction can name
by a three-bit field. -/
namespace Swan.Arithmetic

variable {n : Nat}

/-- A bitwise result neither carries nor overflows. -/
def logical (r : BitVec n) (f : Flags) : BitVec n × Flags :=
  (r, { f.describe r with carry := false, overflow := false, auxCarry := false })

def bitAnd (a b : BitVec n) : Flags → BitVec n × Flags := logical (a &&& b)

def bitOr (a b : BitVec n) : Flags → BitVec n × Flags := logical (a ||| b)

def bitXor (a b : BitVec n) : Flags → BitVec n × Flags := logical (a ^^^ b)

inductive BinaryOp where
  | add | or | adc | sbb | and | sub | xor | cmp
  deriving DecidableEq, Repr

namespace BinaryOp

def ofIndex (i : BitVec 3) : BinaryOp :=
  match i.toNat with
  | 0 => add | 1 => or | 2 => adc | 3 => sbb | 4 => and | 5 => sub | 6 => xor | _ => cmp

/-- A comparison subtracts for the flags alone. -/
def writesResult (op : BinaryOp) : Bool := op != cmp

def apply (op : BinaryOp) (a b : BitVec n) (f : Flags) : BitVec n × Flags :=
  match op with
  | add => Arithmetic.add a b false f
  | or => bitOr a b f
  | adc => Arithmetic.add a b f.carry f
  | sbb => Arithmetic.sub a b f.carry f
  | and => bitAnd a b f
  | sub | cmp => Arithmetic.sub a b false f
  | xor => bitXor a b f

end BinaryOp

end Swan.Arithmetic
