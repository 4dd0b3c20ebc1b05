import Swan.Console.Board
import Swan.Cpu.Step

/-! The console and its scheduler. The processor runs straight off the master clock.
Lines and frames are accumulators over steps: what a step overshoots a line or a
frame by counts toward the next one. -/
namespace Swan

/-- A host's say before every step. An intercepted step advances nothing. -/
class StepHook (η : Type) where
  intercept : η → Cpu → Bool × η

instance : StepHook Empty := ⟨nofun⟩

structure Console (δ ω η : Type) where
  core : Core (Board δ ω)
  lineCycles : Nat := 0
  /-- Cycles run in the current frame before the current line. -/
  frameCycles : Nat := 0
  clock : Ticks := {}
  frames : Nat := 0
  /-- The status icons as they were at the end of the last frame. -/
  icons : Byte := 0
  hook : Option η := none
  cancelled : Bool := false
  /-- A counter of 32 bits has overflowed, which no call survives. Here the count goes on. -/
  overflowed : Bool := false

inductive RunOutcome where
  | completed
  | intercepted
  /-- No opcode came: as many bytes as a code segment holds were prefixes. -/
  | stalled
  deriving DecidableEq, Repr

structure Config where
  model : Model
  bootstrap : Option Image := none
  rom : Image
  sramSize : Nat := 0

namespace Console

variable {δ ω η : Type}

abbrev cpu (c : Console δ ω η) : Cpu := c.core.cpu

abbrev board (c : Console δ ω η) : Board δ ω := c.core.bus

variable [Device δ] [Observer ω] [StepHook η]

/-- Return to the power-on state. The clock, the frame count and the hook go on. -/
def reset (c : Console δ ω η) : Console δ ω η :=
  { c with
    core := { cpu := c.core.cpu.reset, bus := c.core.bus.reset }
    lineCycles := 0
    frameCycles := 0
    icons := 0
    cancelled := false
    overflowed := false }

/-- Build a console with nothing attached. A bootstrap that is given must not be
empty. -/
def build (config : Config) : Except BuildError (Console δ ω η) := do
  let cartridge ← Cartridge.ofRom? config.rom config.sramSize
  let bootstrap ← match config.bootstrap with
    | none => pure {}
    | some image =>
      if image.isEmpty then throw (.bootstrapSize config.model.bootstrapSize 0) else pure image
  let board ← Board.build config.model bootstrap cartridge
  return reset { core := { cpu := {}, bus := board } }

/-- Whether a counter has overflowed, where the program ends. Those that only a host reads have 64
bits. -/
def crashed (c : Console δ ω η) : Bool :=
  c.overflowed || overflows 64 c.clock.count || overflows 64 c.frames ||
    overflows 64 c.core.cpu.total.count

def consultHook : Option η → Cpu → Bool × Option η
  | none, _ => (false, none)
  | some hook, cpu =>
    let (stop, hook) := StepHook.intercept hook cpu
    (stop, some hook)

/-- Serve the highest pending interrupt line, if the processor accepts interrupts. -/
def serveInterrupt (core : Core (Board δ ω)) : Core (Board δ ω) :=
  if !core.cpu.regs.flags.interrupt then core
  else match core.bus.interrupts.pending? with
    | none => core
    | some line => (Exec.interrupt (core.bus.interrupts.vector line) core).2

def runCore : Core (Board δ ω) → Option Nat × Core (Board δ ω)
  | ⟨cpu, board⟩ =>
    if board.transferActive then
      let (cycles, board) := board.runSlice
      (some cycles, ⟨cpu, board⟩)
    else Exec.step ⟨cpu, board⟩

/-- Whether a step overflows a counter: what the processor owes for interrupts, the dot of the
raster, or the cycles of the line. -/
def stepOverflows (c : Console δ ω η) (owed dot cycles : Nat) : Bool :=
  overflows 32 owed || overflows 32 (dot + cycles) || overflows 32 (c.lineCycles + cycles)

/-- One step: an interrupt is served, the core runs, and the devices catch up. -/
def runStep (c : Console δ ω η) : RunOutcome × Console δ ω η :=
  match consultHook c.hook c.core.cpu with
  | (true, hook) => (.intercepted, { c with hook, cancelled := true })
  | (false, hook) =>
    let served := serveInterrupt c.core
    match runCore served with
    | (none, core) => (.stalled, { c with hook, core })
    | (some cycles, ⟨cpu, board⟩) =>
      (.completed,
        { c with
          hook
          core := ⟨cpu, board.stepDevices cycles⟩
          lineCycles := c.lineCycles + cycles
          clock := c.clock.advance cycles
          cancelled := false
          overflowed :=
            c.overflowed || c.stepOverflows served.cpu.deferred board.raster.dot cycles })

/-- Run until the line is full, for a limited number of steps. -/
def fillLine : (limit : Nat) → Console δ ω η → RunOutcome × Console δ ω η
  | limit, c =>
    if Model.cyclesPerLine ≤ c.lineCycles then (.completed, c)
    else match limit with
      | 0 => (.stalled, c)
      | limit + 1 =>
        match c.runStep with
        | (.completed, c) => fillLine limit c
        | stopped => stopped

def foldLine (c : Console δ ω η) : Console δ ω η :=
  { c with
    frameCycles := c.frameCycles + c.lineCycles
    lineCycles := 0
    overflowed := c.overflowed || overflows 32 (c.frameCycles + c.lineCycles) }

/-- Run to the end of the current line. Every step takes a cycle, so no line needs
more steps than it has cycles. -/
def runLine (c : Console δ ω η) : RunOutcome × Console δ ω η :=
  match c.fillLine Model.cyclesPerLine with
  | (.completed, c) => (.completed, c.foldLine)
  | stopped => stopped

/-- Run lines until the frame is full, for a limited number of lines. -/
def fillFrame : (limit : Nat) → Console δ ω η → RunOutcome × Console δ ω η
  | limit, c =>
    if Model.cyclesPerFrame ≤ c.frameCycles then (.completed, c)
    else match limit with
      | 0 => (.stalled, c)
      | limit + 1 =>
        match c.runLine with
        | (.completed, c) => fillFrame limit c
        | stopped => stopped

/-- End a frame: the icons are shown, and the keypad is sampled, which raises the key
line on new presses. -/
def foldFrame (c : Console δ ω η) : Console δ ω η :=
  let board := c.core.bus
  let (pressed, keypad) := board.keypad.sample
  let interrupts :=
    if ButtonSet.isEmpty pressed then board.interrupts else board.interrupts.raise .key
  { c with
    core := { c.core with bus := { board with keypad, interrupts } }
    frameCycles := c.frameCycles - Model.cyclesPerFrame
    icons := board.raster.icons
    frames := c.frames + 1 }

/-- Run to the end of the current frame. A line adds at least its cycles to the frame,
so no frame needs more lines than it has. -/
def runFrame (c : Console δ ω η) : RunOutcome × Console δ ω η :=
  match c.fillFrame Model.linesPerFrame with
  | (.completed, c) => (.completed, c.foldFrame)
  | stopped => stopped

end Console

end Swan
