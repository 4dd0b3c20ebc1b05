import Swan.Word
import Swan.Text

/-! Inspecting a component by name. Inspection reads a state and cannot change it. -/
namespace Swan

inductive Value where
  | bool (on : Bool)
  | byte (b : Byte)
  | word (w : Word)
  | wide (n : BitVec 32)
  | count (n : Nat)
  | text (s : String)
  | bytes (list : List Byte)
  deriving DecidableEq, Repr

namespace Value

/-- Bytes and words are hexadecimal with all their digits, wider numbers with at least
as many as an address has. Counts are decimal. -/
def display : Value → String
  | bool on => if on then "true" else "false"
  | byte b => "0x" ++ Text.hexUpper 2 b.toNat
  | word w => "0x" ++ Text.hexUpper 4 w.toNat
  | wide n => "0x" ++ Text.hexUpper 5 n.toNat
  | count n => toString n
  | text s => s
  | bytes list => "[" ++ " ".intercalate (list.map fun b => Text.hexUpper 2 b.toNat) ++ "]"

end Value

/-- A component whose properties have names. A listed name may stand for a family of
names, and then has no value of its own. -/
class Inspectable (α : Type) where
  query : α → String → Option Value
  paths : List String

def snapshot {α : Type} [Inspectable α] (a : α) : List (String × Value) :=
  (Inspectable.paths α).filterMap fun path => (Inspectable.query a path).map (path, ·)

end Swan
