/-! Counts of master clock ticks. On a machine clocked straight from its crystal a
tick is one processor cycle. -/
namespace Swan

/-- Whether a count is too large for a counter of some bits. -/
def overflows (bits count : Nat) : Bool := 1 <<< bits ≤ count

theorem overflows_eq_false {bits count : Nat} :
    overflows bits count = false ↔ count < 1 <<< bits := by
  rw [overflows, decide_eq_false_iff_not, Nat.not_le]

structure Ticks where
  count : Nat := 0
  deriving DecidableEq, Repr, Inhabited

namespace Ticks

def advance (t : Ticks) (cycles : Nat) : Ticks := ⟨t.count + cycles⟩

instance : Add Ticks := ⟨fun s t => ⟨s.count + t.count⟩⟩

/-- The ticks between an earlier count and this one, none if it is not earlier. -/
def since (t earlier : Ticks) : Ticks := ⟨t.count - earlier.count⟩

instance : Sub Ticks := ⟨since⟩

instance : Ord Ticks := ⟨fun s t => compare s.count t.count⟩

end Ticks

/-- A crystal, by its frequency in hertz. -/
structure MasterClock where
  frequency : Nat
  deriving DecidableEq, Repr

/-- Frames per second when a frame takes the given ticks, in floating point: both
counts are rounded to a double before they are divided. An empty frame has no rate. -/
def MasterClock.frameRate (clock : MasterClock) (frame : Ticks) : Float :=
  if frame.count = 0 then 0.0
  else clock.frequency.toUInt64.toFloat / frame.count.toUInt64.toFloat

end Swan
