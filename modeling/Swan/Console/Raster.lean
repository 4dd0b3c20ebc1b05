import Swan.Console.Countdown
import Swan.Console.Interrupts
import Swan.Memory

/-! The timing of the display: which line is being drawn, the interrupts tied to it,
and the display registers. No pixels are produced, so most registers only keep what
is written to them. -/
namespace Swan

structure Raster where
  line : Nat := 0
  dot : Nat := 0
  compare : Byte := 0
  icons : Byte := 0
  lcdControl : Byte := 0
  hblank : Countdown := {}
  vblank : Countdown := {}
  registers : Memory 6 := .zero

namespace Raster

def vblankLine : Nat := 144

def linesIf (on : Bool) (lines : LineSet) : LineSet := if on then lines else 0

/-- Go on to the next line. Answers the interrupt lines raised. -/
def endLine (r : Raster) : LineSet × Raster :=
  let (hblankFires, hblank) := r.hblank.tick
  let line := (r.line + 1) % Model.linesPerFrame
  let entersVblank := line == vblankLine
  let (vblankFires, vblank) := if entersVblank then r.vblank.tick else (false, r.vblank)
  let raised := linesIf hblankFires .hblankTimer ||| linesIf entersVblank .vblank |||
    linesIf vblankFires .vblankTimer ||| linesIf (line == r.compare.toNat) .lineCompare
  (raised, { r with line, hblank, vblank })

/-- A line ends wherever the dot is, and leaves it there. -/
theorem endLine_dot (r : Raster) : r.endLine.2.dot = r.dot := rfl

/-- End lines for as long as the dot is past the end of one, adding to the interrupt lines
already raised. -/
def endLines (raised : LineSet) (r : Raster) : LineSet × Raster :=
  if Model.cyclesPerLine ≤ r.dot then
    let next := endLine { r with dot := r.dot - Model.cyclesPerLine }
    endLines (raised ||| next.1) next.2
  else (raised, r)
termination_by r.dot
decreasing_by
  rw [endLine_dot]
  exact Nat.sub_lt_self (by decide) ‹_›

def step (r : Raster) (cycles : Nat) : Request × Raster :=
  let (raise, r) := endLines 0 { r with dot := r.dot + cycles }
  ({ raise }, r)

def readPort (r : Raster) (port : Byte) : Byte :=
  match port.toNat with
  | 0x02 => BitVec.ofNat 8 r.line
  | 0x03 => r.compare
  | 0x15 => r.icons
  | 0x60 => r.lcdControl
  | 0xA2 => (r.vblank.control ++ r.hblank.control).setWidth 8
  | 0xA4 => r.hblank.reload.low
  | 0xA5 => r.hblank.reload.high
  | 0xA6 => r.vblank.reload.low
  | 0xA7 => r.vblank.reload.high
  | 0xA8 => r.hblank.counter.low
  | 0xA9 => r.hblank.counter.high
  | 0xAA => r.vblank.counter.low
  | 0xAB => r.vblank.counter.high
  | n => if n < 0x40 then r.registers.read (port.setWidth 6) else 0

/-- The line and the counters are read-only. -/
def writePort (r : Raster) (port v : Byte) : Raster :=
  match port.toNat with
  | 0x02 => r
  | 0x03 => { r with compare := v }
  | 0x15 => { r with icons := v }
  | 0x60 => { r with lcdControl := v }
  | 0xA2 =>
    { r with
      hblank := r.hblank.setControl (v.setWidth 2)
      vblank := r.vblank.setControl (v.extractLsb' 2 2) }
  | 0xA4 => { r with hblank := r.hblank.setReload (.ofBytes v r.hblank.reload.high) }
  | 0xA5 => { r with hblank := r.hblank.setReload (.ofBytes r.hblank.reload.low v) }
  | 0xA6 => { r with vblank := r.vblank.setReload (.ofBytes v r.vblank.reload.high) }
  | 0xA7 => { r with vblank := r.vblank.setReload (.ofBytes r.vblank.reload.low v) }
  | n => if n < 0x40 then { r with registers := r.registers.write (port.setWidth 6) v } else r

end Raster

end Swan
