import Swan.Console.BuildError
import Swan.Image
import Swan.Memory

/-! A cartridge of read-only memory, with optional writable memory that outlives a
reset. The read-only image ends at the top of the address space and repeats downward;
the writable one repeats through its window. Port writes are kept but select no bank.
No other kind is put into a console, and this one does nothing as time passes. -/
namespace Swan

structure Cartridge where
  rom : Image
  rom_pos : 0 < rom.size
  sram : Memory 16 := .zero
  sramSize : Nat
  ports : Memory 6 := .zero

namespace Cartridge

def sramStart : Nat := 0x10000

def romStart : Nat := 0x20000

def romEnd : Nat := 0x100000

def romWindow : Nat := romEnd - romStart

def bankSize : Nat := 0x10000

/-- Accept an image of whole banks that fits the window. Writable memory beyond its
window is cut off. -/
def ofRom? (rom : Image) (sramSize : Nat) : Except BuildError Cartridge :=
  if h : rom.size = 0 then .error .emptyRom
  else if romWindow < rom.size then .error (.romTooLarge rom.size romWindow)
  else if rom.size % bankSize ≠ 0 then .error (.romNotAligned rom.size)
  else .ok { rom, rom_pos := Nat.pos_of_ne_zero h, sramSize := min sramSize bankSize }

def sramAddress (c : Cartridge) (address : Nat) : BitVec 16 :=
  BitVec.ofNat 16 ((address - sramStart) % c.sramSize)

/-- What the cartridge answers at an address above the internal memory. -/
def peek (c : Cartridge) (address : Nat) : Byte :=
  if romStart ≤ address then
    c.rom.byte (c.rom.size - 1 - (romEnd - 1 - address % romEnd) % c.rom.size)
  else if c.sramSize = 0 then 0xFF
  else c.sram.read (c.sramAddress address)

/-- Being read changes nothing. -/
def read (c : Cartridge) (address : Nat) : Byte := c.peek address

def write (c : Cartridge) (address : Nat) (v : Byte) : Cartridge :=
  if sramStart ≤ address ∧ address < romStart ∧ c.sramSize ≠ 0 then
    { c with sram := c.sram.write (c.sramAddress address) v }
  else c

def sramBytes (c : Cartridge) : List Byte := c.sram.slice 0 c.sramSize

def readPort (c : Cartridge) (port : Byte) : Byte := c.ports.read (port.setWidth 6)

def writePort (c : Cartridge) (port v : Byte) : Cartridge :=
  { c with ports := c.ports.write (port.setWidth 6) v }

/-- Only the ports forget. -/
def reset (c : Cartridge) : Cartridge := { c with ports := .zero }

end Cartridge

end Swan
