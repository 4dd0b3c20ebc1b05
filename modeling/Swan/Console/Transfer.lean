import Swan.Word

/-! The transfer engine, which copies memory a word at a time in place of the
processor. The source is anywhere in memory, the destination in the first segment. -/
namespace Swan

structure Transfer where
  source : Address := 0
  destination : Word := 0
  length : Word := 0
  active : Bool := false
  decrement : Bool := false
  /-- The next slice pays for setting the transfer up. -/
  fresh : Bool := false
  deriving DecidableEq, Repr

structure Slice where
  source : Address
  destination : Word
  cycles : Nat
  deriving DecidableEq, Repr

namespace Transfer

def sliceCycles : Nat := 2

def setupCycles : Nat := 5

/-- Claim the next word. The registers move on to the word after it, and the engine
stops when no bytes are left. -/
def next? (t : Transfer) : Option Slice × Transfer :=
  if !t.active then (none, t)
  else
    let slice : Slice :=
      { source := t.source
        destination := t.destination
        cycles := if t.fresh then sliceCycles + setupCycles else sliceCycles }
    let length := if t.length < 2 then 0 else t.length - 2
    (some slice,
      { t with
        source := if t.decrement then t.source - 2 else t.source + 2
        destination := if t.decrement then t.destination - 2 else t.destination + 2
        length
        active := length != 0
        fresh := false })

/-- The control register: bit 7 while active, bit 6 for copying downward. -/
def control (t : Transfer) : Byte :=
  BitVec.ofBool t.active ++ BitVec.ofBool t.decrement ++ (0 : BitVec 6)

/-- A transfer of no bytes does not start. -/
def setControl (t : Transfer) (v : Byte) : Transfer :=
  let active := v.getLsbD 7 && t.length != 0
  { t with active, decrement := v.getLsbD 6, fresh := active || t.fresh }

def readPort (t : Transfer) (port : Byte) : Byte :=
  match port.toNat with
  | 0x40 => t.source.setWidth 8
  | 0x41 => t.source.extractLsb' 8 8
  | 0x42 => (t.source.extractLsb' 16 4).setWidth 8
  | 0x44 => t.destination.low
  | 0x45 => t.destination.high
  | 0x46 => t.length.low
  | 0x47 => t.length.high
  | 0x48 => t.control
  | _ => 0

/-- The lowest bit of an address or length is always zero. -/
def evenByte (v : Byte) : Byte := v &&& 0xFE

def writePort (t : Transfer) (port v : Byte) : Transfer :=
  match port.toNat with
  | 0x40 => { t with source := (t.source.extractLsb' 8 12) ++ evenByte v }
  | 0x41 => { t with source := t.source.extractLsb' 16 4 ++ v ++ t.source.setWidth 8 }
  | 0x42 => { t with source := v.setWidth 4 ++ t.source.setWidth 16 }
  | 0x44 => { t with destination := .ofBytes (evenByte v) t.destination.high }
  | 0x45 => { t with destination := .ofBytes t.destination.low v }
  | 0x46 => { t with length := .ofBytes (evenByte v) t.length.high }
  | 0x47 => { t with length := .ofBytes t.length.low v }
  | 0x48 => t.setControl v
  | _ => t

end Transfer

end Swan
