/-! Numbers as text. -/
namespace Swan.Text

def padLeft (fill : Char) (length : Nat) (digits : List Char) : List Char :=
  List.replicate (length - digits.length) fill ++ digits

/-- Lower-case hexadecimal with at least the given number of digits. -/
def hex (length n : Nat) : String := .ofList (padLeft '0' length (Nat.toDigits 16 n))

/-- Upper-case hexadecimal with at least the given number of digits. -/
def hexUpper (length n : Nat) : String :=
  .ofList (padLeft '0' length ((Nat.toDigits 16 n).map Char.toUpper))

end Swan.Text
