import Swan.Bus
import Swan.Console.Cartridge
import Swan.Console.Device
import Swan.Console.Keypad
import Swan.Console.Observer
import Swan.Console.Raster
import Swan.Console.Transfer

/-! Everything behind the processor's bus: internal memory at the bottom of the
address space, the cartridge above it, a bootstrap image laid over the top until it
is locked out, and the devices behind the ports. -/
namespace Swan

structure Board (δ ω : Type) where
  model : Model
  /-- Only the first bytes are in use, as many as the model has. -/
  ram : Memory 16 := .zero
  bootstrap : Image := {}
  bootstrapLocked : Bool
  interrupts : Interrupts := {}
  raster : Raster := {}
  transfer : Transfer := {}
  keypad : Keypad := {}
  sound : Slot δ
  serial : Slot δ
  cartridge : Cartridge
  observer : Option ω := none

inductive PortOwner where
  | raster | transfer | sound | system | interrupts | serial | keypad | cartridge | nobody
  deriving DecidableEq, Repr

def PortOwner.of (model : Model) (port : Byte) : PortOwner :=
  let n := port.toNat
  if n < 0x40 ∨ n = 0x60 ∨ 0xA2 ≤ n ∧ n < 0xAC then raster
  else if 0x40 ≤ n ∧ n < 0x50 ∧ model.hasTransfer then transfer
  else if 0x80 ≤ n ∧ n < 0xA0 then sound
  else if n = 0xA0 then system
  else if n = 0xB0 ∨ n = 0xB2 ∨ n = 0xB4 ∨ n = 0xB6 then interrupts
  else if n = 0xB1 ∨ n = 0xB3 then serial
  else if n = 0xB5 then keypad
  else if 0xC0 ≤ n then cartridge
  else nobody

namespace Board

variable {δ ω : Type}

/-- A board with nothing attached. A bootstrap image has exactly the model's size;
without one the overlay is locked from the start. -/
def build (model : Model) (bootstrap : Image) (cartridge : Cartridge) :
    Except BuildError (Board δ ω) :=
  if !bootstrap.isEmpty && bootstrap.size != model.bootstrapSize then
    .error (.bootstrapSize model.bootstrapSize bootstrap.size)
  else
    .ok {
      model, bootstrap, cartridge
      bootstrapLocked := bootstrap.isEmpty
      sound := { idle := model.unmappedPort }
      serial := { idle := model.unmappedPort } }

def bootstrapStart (b : Board δ ω) : Nat := 0x100000 - b.bootstrap.size

def inBootstrap (b : Board δ ω) (a : Address) : Bool :=
  !b.bootstrapLocked && b.bootstrapStart ≤ a.toNat

/-- The byte at an address, seen by nobody. -/
def peek (b : Board δ ω) (a : Address) : Byte :=
  if b.inBootstrap a then b.bootstrap.byte (a.toNat - b.bootstrapStart)
  else if a.toNat < Cartridge.sramStart then
    if a.toNat < b.model.ramSize then b.ram.read (a.setWidth 16) else b.model.openBus
  else b.cartridge.peek a.toNat

/-- The byte at an address as the bus reads it. A cartridge that is not laid over is read. -/
def readMemory (b : Board δ ω) (a : Address) : Byte :=
  if Cartridge.sramStart ≤ a.toNat ∧ b.inBootstrap a = false then b.cartridge.read a.toNat
  else b.peek a

/-- Store a byte below any overlay. Addresses without memory lose it. -/
def poke (b : Board δ ω) (a : Address) (v : Byte) : Board δ ω :=
  if a.toNat < Cartridge.sramStart then
    if a.toNat < b.model.ramSize then { b with ram := b.ram.write (a.setWidth 16) v } else b
  else { b with cartridge := b.cartridge.write a.toNat v }

variable [Device δ]

/-- The system port shows the model and the overlay lock. -/
def systemPort (b : Board δ ω) : Byte :=
  (BitVec.ofBool b.model.isColor ++ BitVec.ofBool b.bootstrapLocked).setWidth 8

def readPort (b : Board δ ω) (port : Byte) : Byte × Board δ ω :=
  match PortOwner.of b.model port with
  | .raster => (b.raster.readPort port, b)
  | .transfer => (b.transfer.readPort port, b)
  | .sound =>
    let (v, sound) := b.sound.readPort port
    (v, { b with sound })
  | .system => (b.systemPort, b)
  | .interrupts => (b.interrupts.readPort b.model port, b)
  | .serial =>
    let (v, serial) := b.serial.readPort port
    (v, { b with serial })
  | .keypad => (b.keypad.read, b)
  | .cartridge => (b.cartridge.readPort port, b)
  | .nobody => (b.model.unmappedPort, b)

/-- The overlay can be locked but not unlocked. -/
def writePort (b : Board δ ω) (port v : Byte) : Board δ ω :=
  match PortOwner.of b.model port with
  | .raster => { b with raster := b.raster.writePort port v }
  | .transfer => { b with transfer := b.transfer.writePort port v }
  | .sound => { b with sound := b.sound.writePort port v }
  | .system => { b with bootstrapLocked := b.bootstrapLocked || v.getLsbD 0 }
  | .interrupts => { b with interrupts := b.interrupts.writePort b.model port v }
  | .serial => { b with serial := b.serial.writePort port v }
  | .keypad => { b with keypad := b.keypad.write v }
  | .cartridge => { b with cartridge := b.cartridge.writePort port v }
  | .nobody => b

variable [Observer ω]

instance : Bus (Board δ ω) where
  read b a :=
    let (v, observer) := observe (Observer.memoryRead · a ·) (b.readMemory a) b.observer
    (v, { b with observer })
  write b a v :=
    let (v, observer) := observe (Observer.memoryWrite · a ·) v b.observer
    { b with observer }.poke a v
  portIn b p :=
    let (v, b) := b.readPort p
    let (v, observer) := observe (Observer.portRead · p ·) v b.observer
    (v, { b with observer })
  portOut b p v :=
    let (v, observer) := observe (Observer.portWrite · p ·) v b.observer
    { b with observer }.writePort p v

/-- Whether the transfer engine runs in place of the processor. -/
def transferActive (b : Board δ ω) : Bool := b.model.hasTransfer && b.transfer.active

/-- Copy one word of a transfer. Answers the cycles it took, none if nothing is left
to copy. -/
def runSlice (b : Board δ ω) : Nat × Board δ ω :=
  match b.transfer.next? with
  | (none, _) => (0, b)
  | (some slice, transfer) =>
    let b := { b with transfer }
    let (low, b) := Bus.read b slice.source
    let (high, b) := Bus.read b (slice.source + 1)
    let b := Bus.write b (slice.destination.setWidth 20) low
    let b := Bus.write b ((slice.destination + 1).setWidth 20) high
    (slice.cycles, b)

/-- Run the devices for some cycles, then latch what they ask for, in a fixed order. The
cartridge has its turn between sound and serial, and asks for nothing. -/
def stepDevices (b : Board δ ω) (cycles : Nat) : Board δ ω :=
  let (display, raster) := b.raster.step cycles
  let (fromSound, sound) := b.sound.step cycles
  let (fromSerial, serial) := b.serial.step cycles
  let interrupts := ((b.interrupts.apply display).apply fromSound).apply fromSerial
  { b with raster, sound, serial, interrupts }

/-- Return to the power-on state. Writable cartridge memory, the buttons the host
holds and the observer stay. -/
def reset (b : Board δ ω) : Board δ ω :=
  { b with
    ram := .zero
    bootstrapLocked := b.bootstrap.isEmpty
    interrupts := {}
    raster := {}
    transfer := {}
    keypad := b.keypad.reset
    sound := b.sound.reset
    serial := b.serial.reset
    cartridge := b.cartridge.reset }

end Board

end Swan
