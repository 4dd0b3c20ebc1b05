import Swan.Cpu.Flags

/-! Multiplication into a number of twice the width, and division of such a number. -/
namespace Swan

/-- The numbers of thirty-two bits. -/
def WideFits (signed : Bool) (n : Int) : Prop :=
  match signed with
  | false => 0 ≤ n ∧ n ≤ 4294967295
  | true => -2147483648 ≤ n ∧ n ≤ 2147483647

instance (signed : Bool) (n : Int) : Decidable (WideFits signed n) :=
  match signed with
  | false | true => inferInstanceAs (Decidable (_ ∧ _))

/-- Division as a host has it, of numbers of thirty-two bits: a zero divisor and a quotient
out of range have no answer. -/
def wideDivide? (signed : Bool) (a d : Int) : Option (Int × Int) :=
  if d ≠ 0 ∧ WideFits signed (a.tdiv d) then some (a.tdiv d, a.tmod d) else none

namespace Arithmetic

variable {n : Nat}

/-- The unsigned product. Carry and overflow say that the upper half is in use. -/
def mul (a b : BitVec n) (f : Flags) : BitVec (2 * n) × Flags :=
  let product := BitVec.ofNat (2 * n) (a.toNat * b.toNat)
  let wide := product.extractLsb' n n != 0
  (product, { f with carry := wide, overflow := wide })

/-- The signed product. Carry and overflow say that it does not fit the width. -/
def imul (a b : BitVec n) (f : Flags) : BitVec (2 * n) × Flags :=
  let product := a.toInt * b.toInt
  let wide := (BitVec.ofInt n product).toInt != product
  (BitVec.ofInt (2 * n) product, { f with carry := wide, overflow := wide })

/-- Unsigned quotient and remainder, unless the divisor is zero or the quotient is
too wide. -/
def div? (dividend : Nat) (divisor : BitVec n) : Option (BitVec n × BitVec n) :=
  match wideDivide? false dividend divisor.toNat with
  | none => none
  | some (quotient, remainder) =>
    if (BitVec.ofInt n quotient).toNat ≠ quotient then none
    else some (BitVec.ofInt n quotient, BitVec.ofInt n remainder)

/-- Signed quotient, rounded toward zero, and the remainder, which takes the sign of
the dividend. Fails as the unsigned division does. -/
def idiv? (dividend : Int) (divisor : BitVec n) : Option (BitVec n × BitVec n) :=
  match wideDivide? true dividend divisor.toInt with
  | none => none
  | some (quotient, remainder) =>
    if (BitVec.ofInt n quotient).toInt ≠ quotient then none
    else some (BitVec.ofInt n quotient, BitVec.ofInt n remainder)

end Arithmetic

end Swan
