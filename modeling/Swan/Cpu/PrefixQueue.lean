import Swan.Cpu.Registers

/-! The prefix bytes in front of an instruction. The processor remembers the last
sixteen of them, and of several prefixes of one kind the latest counts. -/
namespace Swan

def segmentOfPrefix? (b : Byte) : Option Segment :=
  if b = 0x26 then some .es
  else if b = 0x2E then some .cs
  else if b = 0x36 then some .ss
  else if b = 0x3E then some .ds
  else none

/-- When a repeated comparison asks for another element. -/
inductive RepeatClass where
  | whileZero
  | whileNonZero
  deriving DecidableEq, Repr

def RepeatClass.continues : RepeatClass → (zero : Bool) → Bool
  | whileZero, zero => zero
  | whileNonZero, zero => !zero

def repeatOfPrefix? (b : Byte) : Option RepeatClass :=
  if b = 0xF3 then some .whileZero
  else if b = 0xF2 then some .whileNonZero
  else none

/-- The bus lock has no meaning here beyond being a prefix. -/
def lockPrefix : Byte := 0xF0

def isPrefix (b : Byte) : Bool :=
  (segmentOfPrefix? b).isSome || (repeatOfPrefix? b).isSome || b == lockPrefix

/-- Remembered prefix bytes, oldest first. -/
structure PrefixQueue where
  bytes : List Byte := []
  length_le : bytes.length ≤ 16 := by decide
  deriving DecidableEq, Repr

namespace PrefixQueue

def empty : PrefixQueue := {}

instance : Inhabited PrefixQueue := ⟨empty⟩

/-- Append a byte. The oldest one makes room in a full queue. -/
def push (q : PrefixQueue) (b : Byte) : PrefixQueue where
  bytes := (if q.bytes.length < 16 then q.bytes else q.bytes.tail) ++ [b]
  length_le := by
    have := q.length_le
    split <;> simp <;> omega

def length (q : PrefixQueue) : Nat := q.bytes.length

def isEmpty (q : PrefixQueue) : Bool := q.bytes.isEmpty

def segmentOverride (q : PrefixQueue) : Option Segment := q.bytes.reverse.findSome? segmentOfPrefix?

def repeatClass (q : PrefixQueue) : Option RepeatClass := q.bytes.reverse.findSome? repeatOfPrefix?

def hasLock (q : PrefixQueue) : Bool := q.bytes.contains lockPrefix

@[ext] theorem ext {p q : PrefixQueue} (h : p.bytes = q.bytes) : p = q := by
  cases p; cases q; cases h; rfl

end PrefixQueue

end Swan
