import Swan.Console.AddressText
import Swan.Console.Scheduler
import Swan.Cpu.Inspect

/-! The names under which a console shows its state: those of the processor behind a
group name, those of the console itself, and any memory address. -/
namespace Swan.Console

variable {δ ω η : Type}

def properties : List (String × (Console δ ω η → Value)) :=
  [("irq.base", fun c => .byte (c.board.interrupts.baseRead c.board.model)),
    ("irq.enable", fun c => .byte c.board.interrupts.enabled),
    ("irq.status", fun c => .byte c.board.interrupts.status),
    ("display.line", fun c => .wide (BitVec.ofNat 32 c.board.raster.line)),
    ("display.icons", fun c => .byte c.icons),
    ("frame_cycles", fun c => .wide (BitVec.ofNat 32 c.frameCycles)),
    ("line_cycles", fun c => .wide (BitVec.ofNat 32 c.lineCycles)),
    ("frames", fun c => .count c.frames),
    ("total_cycles", fun c => .count c.clock.count),
    ("bootstrap_locked", fun c => .bool c.board.bootstrapLocked),
    ("dma.active", fun c => .bool c.board.transferActive)]

/-- The rest of a text behind a given start. -/
def behind? (start text : List Char) : Option (List Char) :=
  if start.isPrefixOf text then some (text.drop start.length) else none

def queryPath (c : Console δ ω η) (path : String) : Option Value :=
  match behind? "cpu.".toList path.toList with
  | some rest => Inspectable.query c.cpu (String.ofList rest)
  | none =>
    match behind? "memory.".toList path.toList with
    | some text => (AddressText.parse? text).map fun a => .byte (c.board.peek a)
    | none => (properties.lookup path).map (· c)

instance : Inspectable (Console δ ω η) where
  query := queryPath
  paths := "cpu.<v30mz_paths>" :: (properties (δ := δ) (ω := ω) (η := η)).map (·.1) ++
    ["memory.<address>"]

end Swan.Console
