import Swan.Console.Board

/-! A board is used over its bus, by the transfer engine and by resets; beside it goes a log
of what was stored and of when the overlay was locked. What an address holds is read off the
log: the byte last stored there, seen through the overlay, the repeated windows of the
cartridge and the addresses with no memory behind them. -/
namespace Swan

/-- What happens to a board. Addresses are as wide as a host makes them. -/
inductive BusEvent where
  | read (address : BitVec 32)
  | write (address : BitVec 32) (v : Byte)
  | portIn (port : Byte)
  | portOut (port v : Byte)
  | slice
  | devices (cycles : Nat)
  | reset
  deriving DecidableEq, Repr

/-- What an event leaves behind in the memory map. -/
inductive Mark where
  | stored (address : Address) (v : Byte)
  | locked
  | reset
  deriving DecidableEq, Repr

namespace Mark

def sinceReset (log : List Mark) : List Mark := log.takeWhile (· ≠ .reset)

def lastStored (p : Address → Prop) [DecidablePred p] (log : List Mark) : Option Byte :=
  log.findSome? fun
    | .stored a v => if p a then some v else none
    | _ => none

variable {log : List Mark} {p : Address → Prop} [DecidablePred p]

@[simp] theorem sinceReset_stored (a : Address) (v : Byte) :
    sinceReset (.stored a v :: log) = .stored a v :: sinceReset log := rfl

@[simp] theorem lastStored_stored (a : Address) (v : Byte) :
    lastStored p (.stored a v :: log) = if p a then some v else lastStored p log := by
  unfold lastStored
  rw [List.findSome?_cons]
  by_cases h : p a
  · simp only [h, if_true]
  · simp only [h, if_false]

end Mark

/-- The parts that a board is built from, as far as memory is concerned. Without a bootstrap
image there is no overlay. -/
structure Layout where
  model : Model
  bootstrap : Image
  rom : Image
  sramSize : Nat

def Layout.of (model : Model) (bootstrap rom : Image) (sramSize : Nat) : Layout :=
  { model, bootstrap, rom, sramSize := min sramSize 0x10000 }

/-- An address in the window of the writable cartridge memory that names the same cell as
another. -/
def SameCell (size : Nat) (a b : Address) : Prop :=
  (0x10000 ≤ b.toNat ∧ b.toNat < 0x20000) ∧ (b.toNat - 0x10000) % size = (a.toNat - 0x10000) % size

instance (size : Nat) (a : Address) : DecidablePred (SameCell size a) := fun _ =>
  inferInstanceAs (Decidable (_ ∧ _))

/-- What construction has checked of the parts. -/
structure Layout.Fits (l : Layout) : Prop where
  bootstrap : l.bootstrap.isEmpty = true ∨ l.bootstrap.size = l.model.bootstrapSize
  rom : 0 < l.rom.size
  sram : l.sramSize ≤ 0x10000

/-- Whether the overlay is locked: it was since the last reset, or there is none. -/
def Layout.locked (l : Layout) (log : List Mark) : Bool :=
  l.bootstrap.isEmpty || (Mark.sinceReset log).contains .locked

@[simp] theorem Layout.locked_stored (l : Layout) (a : Address) (v : Byte) (log : List Mark) :
    l.locked (.stored a v :: log) = l.locked log := rfl

@[simp] theorem Layout.locked_locked (l : Layout) (log : List Mark) :
    l.locked (.locked :: log) = true := Bool.or_true _

@[simp] theorem Layout.locked_reset (l : Layout) (log : List Mark) :
    l.locked (.reset :: log) = l.bootstrap.isEmpty := Bool.or_false _

theorem Layout.locked_append (l : Layout) {marks log : List Mark}
    (noReset : Mark.reset ∉ marks) (locked : l.locked log = true) :
    l.locked (marks ++ log) = true := by
  induction marks with
  | nil => exact locked
  | cons mark marks ih =>
    have rest := ih fun later => noReset (List.mem_cons_of_mem _ later)
    cases mark with
    | stored a v => exact rest
    | locked => exact l.locked_locked _
    | reset => exact absurd List.mem_cons_self noReset

/-- The byte at an address after all that a log tells. -/
def Layout.mapped (l : Layout) (log : List Mark) (a : Address) : Byte :=
  if l.locked log = false ∧ 0x100000 - l.bootstrap.size ≤ a.toNat then
    l.bootstrap.byte (a.toNat - (0x100000 - l.bootstrap.size))
  else if a.toNat < 0x10000 then
    if a.toNat < l.model.ramSize then (Mark.lastStored (· = a) (Mark.sinceReset log)).getD 0
    else l.model.openBus
  else if a.toNat < 0x20000 then
    if l.sramSize = 0 then 0xFF else (Mark.lastStored (SameCell l.sramSize a) log).getD 0
  else l.rom.byte (l.rom.size - 1 - (0xFFFFF - a.toNat) % l.rom.size)

namespace Board

variable {δ ω : Type} [Device δ] [Observer ω]

def after (b : Board δ ω) : BusEvent → Board δ ω
  | .read a => (Bus.read b (a.setWidth 20)).2
  | .write a v => Bus.write b (a.setWidth 20) v
  | .portIn p => (Bus.portIn b p).2
  | .portOut p v => Bus.portOut b p v
  | .slice => b.runSlice.2
  | .devices cycles => b.stepDevices cycles
  | .reset => b.reset

/-- What an event leaves in the log, newest first. A slice stores two bytes that it has read
before it stores any. -/
def marks (b : Board δ ω) : BusEvent → List Mark
  | .write a v => [.stored (a.setWidth 20) v]
  | .portOut p v => if p = 0xA0 ∧ v.getLsbD 0 = true then [.locked] else []
  | .slice =>
    match b.transfer.next? with
    | (none, _) => []
    | (some slice, _) =>
      [.stored ((slice.destination + 1).setWidth 20) (b.peek (slice.source + 1)),
        .stored (slice.destination.setWidth 20) (b.peek slice.source)]
  | .reset => [.reset]
  | .read _ | .portIn _ | .devices _ => []

def run (b : Board δ ω) (events : List BusEvent) : Board δ ω := events.foldl after b

def log (b : Board δ ω) : List BusEvent → List Mark
  | [] => []
  | e :: rest => log (b.after e) rest ++ b.marks e

omit [Device δ] [Observer ω] in
theorem reset_notMem_marks (b : Board δ ω) {e : BusEvent} (other : e ≠ .reset) :
    Mark.reset ∉ b.marks e := by
  cases e with
  | reset => exact absurd rfl other
  | portOut p v =>
    unfold marks
    dsimp only
    split <;> simp
  | slice =>
    unfold marks
    dsimp only
    split <;> simp
  | write a v => simp [marks]
  | read a => simp [marks]
  | portIn p => simp [marks]
  | devices cycles => simp [marks]

theorem reset_notMem_log (b : Board δ ω) {events : List BusEvent} (none : .reset ∉ events) :
    Mark.reset ∉ b.log events := by
  induction events generalizing b with
  | nil => exact List.not_mem_nil
  | cons e rest ih =>
    rw [log, List.mem_append, not_or]
    exact ⟨ih (b.after e) fun later => none (List.mem_cons_of_mem e later),
      b.reset_notMem_marks fun here => none (here ▸ List.mem_cons_self)⟩

end Board

end Swan
