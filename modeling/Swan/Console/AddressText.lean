import Swan.Word

/-! Addresses as text: decimal digits, or hexadecimal ones behind a marker. One plus
sign may stand before the digits, and any number of zeros; nothing else may. -/
namespace Swan.AddressText

def digit? (base : Nat) (c : Char) : Option Nat :=
  let value :=
    if '0' ≤ c ∧ c ≤ '9' then some (c.toNat - '0'.toNat)
    else if 'a' ≤ c ∧ c ≤ 'f' then some (c.toNat - 'a'.toNat + 10)
    else if 'A' ≤ c ∧ c ≤ 'F' then some (c.toNat - 'A'.toNat + 10)
    else none
  value.filter (· < base)

/-- The number that digits denote, read on from a given value. -/
def digits? (base : Nat) : Nat → List Char → Option Nat
  | n, [] => some n
  | n, c :: rest => do digits? base (n * base + (← digit? base c)) rest

/-- At least one digit, after at most one plus sign. -/
def number? (base : Nat) (text : List Char) : Option Nat :=
  match text with
  | '+' :: c :: rest => digits? base 0 (c :: rest)
  | '+' :: [] => none
  | [] => none
  | digits => digits? base 0 digits

/-- The markers of hexadecimal numbers are `0x`, `0X` and `$`. -/
def unmark : List Char → Nat × List Char
  | '0' :: 'x' :: rest => (16, rest)
  | '0' :: 'X' :: rest => (16, rest)
  | '$' :: rest => (16, rest)
  | text => (10, text)

def parse? (text : List Char) : Option Address :=
  let (base, digits) := unmark text
  (number? base digits).bind fun n => if n < 0x100000 then some (BitVec.ofNat 20 n) else none

end Swan.AddressText
