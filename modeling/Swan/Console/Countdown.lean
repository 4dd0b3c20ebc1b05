import Swan.Word

/-! A timer that counts lines or frames down and fires on reaching zero. -/
namespace Swan

structure Countdown where
  enabled : Bool := false
  repeats : Bool := false
  reload : Word := 0
  counter : Word := 0
  deriving DecidableEq, Repr

namespace Countdown

/-- Count once. Answers whether the timer fires. A counter at zero stands still. -/
def tick (t : Countdown) : Bool × Countdown :=
  if !t.enabled || t.counter == 0 then (false, t)
  else if t.counter = 1 then (true, { t with counter := if t.repeats then t.reload else 0 })
  else (false, { t with counter := t.counter - 1 })

def control (t : Countdown) : BitVec 2 := (BitVec.ofBool t.repeats) ++ (BitVec.ofBool t.enabled)

def setControl (t : Countdown) (bits : BitVec 2) : Countdown :=
  { t with enabled := bits.getLsbD 0, repeats := bits.getLsbD 1 }

/-- Load a new start value. Counting begins again from it. -/
def setReload (t : Countdown) (reload : Word) : Countdown := { t with reload, counter := reload }

end Countdown

end Swan
