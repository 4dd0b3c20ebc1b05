import Swan.Console.Model

/-! The interrupt controller. Eight lines latch into a status register while they are
enabled, and stay there until they are lowered or acknowledged. -/
namespace Swan

/-- A set of interrupt lines, a bit each. A higher line has priority. -/
abbrev LineSet := BitVec 8

namespace LineSet

def serialSend : LineSet := 0x01

def key : LineSet := 0x02

def cartridge : LineSet := 0x04

def serialReceive : LineSet := 0x08

def lineCompare : LineSet := 0x10

def vblankTimer : LineSet := 0x20

def vblank : LineSet := 0x40

def hblankTimer : LineSet := 0x80

def isEmpty (s : LineSet) : Bool := s == 0

def highest? (s : LineSet) : Option (BitVec 3) :=
  ([7, 6, 5, 4, 3, 2, 1, 0] : List (BitVec 3)).find? fun line => s.getLsbD line.toNat

end LineSet

/-- What a device wants done with the interrupt lines. -/
structure Request where
  raise : LineSet := 0
  lower : LineSet := 0
  deriving DecidableEq, Repr

def Request.isEmpty (r : Request) : Bool := LineSet.isEmpty r.raise && LineSet.isEmpty r.lower

structure Interrupts where
  /-- The vector base, as far as it is writable. -/
  base : Byte := 0
  enabled : LineSet := 0
  status : LineSet := 0
  deriving DecidableEq, Repr

namespace Interrupts

/-- Latch lines. A line that is not enabled is lost. -/
def raise (i : Interrupts) (lines : LineSet) : Interrupts :=
  { i with status := i.status ||| (lines &&& i.enabled) }

def lower (i : Interrupts) (lines : LineSet) : Interrupts :=
  { i with status := i.status &&& ~~~lines }

def apply (i : Interrupts) (r : Request) : Interrupts := (i.raise r.raise).lower r.lower

def pending? (i : Interrupts) : Option (BitVec 3) := LineSet.highest? (i.status &&& i.enabled)

/-- The line number fills the low bits of the base. Base bits that overlap it stay. -/
def vector (i : Interrupts) (line : BitVec 3) : Byte := i.base ||| line.setWidth 8

def baseRead (model : Model) (i : Interrupts) : Byte := i.base ||| model.vectorBaseFixed

def readPort (model : Model) (i : Interrupts) (port : Byte) : Byte :=
  match port.toNat with
  | 0xB0 => i.baseRead model
  | 0xB2 => i.enabled
  | 0xB4 => i.status
  | _ => 0

/-- The status is read-only. Lines are acknowledged at a port of their own. -/
def writePort (model : Model) (i : Interrupts) (port v : Byte) : Interrupts :=
  match port.toNat with
  | 0xB0 => { i with base := v &&& model.vectorBaseMask }
  | 0xB2 => { i with enabled := v }
  | 0xB6 => i.lower v
  | _ => i

end Interrupts

end Swan
