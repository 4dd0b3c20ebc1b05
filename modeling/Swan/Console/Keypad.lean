import Swan.Word

/-! The keypad. The host holds buttons at any time; the program sees the buttons held
at the last sample, a group at a time. -/
namespace Swan

/-- A set of buttons, a bit each: four Y keys, four X keys, and the buttons Start, A
and B. Some bits have no button; a complement of a set has named bits only. -/
abbrev ButtonSet := BitVec 16

namespace ButtonSet

def named : ButtonSet := 0x0EFF

def complement (s : ButtonSet) : ButtonSet := named &&& ~~~s

def isEmpty (s : ButtonSet) : Bool := s == 0

end ButtonSet

structure Keypad where
  held : ButtonSet := 0
  /-- Held at the last sample. -/
  sampled : ButtonSet := 0
  /-- The groups the program looks at, in bits 4 to 6. -/
  select : Byte := 0
  deriving DecidableEq, Repr

namespace Keypad

def hold (k : Keypad) (buttons : ButtonSet) : Keypad := { k with held := buttons }

def press (k : Keypad) (buttons : ButtonSet) : Keypad := { k with held := k.held ||| buttons }

def release (k : Keypad) (buttons : ButtonSet) : Keypad :=
  { k with held := k.held &&& ButtonSet.complement buttons }

/-- Show the held buttons to the program. Answers those pressed since the last sample. -/
def sample (k : Keypad) : ButtonSet × Keypad :=
  (k.held &&& ButtonSet.complement k.sampled, { k with sampled := k.held })

def group (k : Keypad) (selectBit firstButton : Nat) : BitVec 4 :=
  if k.select.getLsbD selectBit then k.sampled.extractLsb' firstButton 4 else 0

/-- The select bits, and the pressed keys of all selected groups. -/
def read (k : Keypad) : Byte :=
  k.select ||| (k.group 4 0 ||| k.group 5 4 ||| k.group 6 8).setWidth 8

def write (k : Keypad) (v : Byte) : Keypad := { k with select := v &&& 0x70 }

/-- The host keeps holding what it holds. -/
def reset (k : Keypad) : Keypad := { held := k.held }

end Keypad

end Swan
