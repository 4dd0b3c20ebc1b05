import Swan.Cpu.Flags

/-! Addition and subtraction with the flags they leave. Every operation works at any
width: carry means leaving the unsigned range, overflow leaving the signed one, and
the auxiliary carry crosses from bit 3 into bit 4. -/
namespace Swan.Arithmetic

variable {n : Nat}

def add (a b : BitVec n) (carry : Bool) (f : Flags) : BitVec n × Flags :=
  let r := a + b + BitVec.ofNat n carry.toNat
  (r, { f.describe r with
    carry := BitVec.carry n a b carry
    overflow := ((a ^^^ r) &&& (b ^^^ r)).msb
    auxCarry := (a ^^^ b ^^^ r).getLsbD 4 })

def sub (a b : BitVec n) (borrow : Bool) (f : Flags) : BitVec n × Flags :=
  let r := a - b - BitVec.ofNat n borrow.toNat
  (r, { f.describe r with
    carry := a.toNat < b.toNat + borrow.toNat
    overflow := ((a ^^^ b) &&& (a ^^^ r)).msb
    auxCarry := (a ^^^ b ^^^ r).getLsbD 4 })

/-- Add one. The carry flag is kept. -/
def increment (a : BitVec n) (f : Flags) : BitVec n × Flags :=
  let (r, g) := add a 1 false f
  (r, { g with carry := f.carry })

/-- Subtract one. The carry flag is kept. -/
def decrement (a : BitVec n) (f : Flags) : BitVec n × Flags :=
  let (r, g) := sub a 1 false f
  (r, { g with carry := f.carry })

/-- Two's complement negation, a subtraction from zero. -/
def negate (a : BitVec n) (f : Flags) : BitVec n × Flags := sub 0 a false f

end Swan.Arithmetic
