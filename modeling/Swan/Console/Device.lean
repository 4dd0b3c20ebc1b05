import Swan.Console.Interrupts

/-! Devices that can be attached to the console, and the slots that hold them. -/
namespace Swan

/-- A device is stepped with the processor and reached through ports. -/
class Device (δ : Type) where
  step : δ → (cycles : Nat) → Request × δ
  readPort : δ → Byte → Byte × δ
  writePort : δ → Byte → Byte → δ
  reset : δ → δ

instance : Device Empty := ⟨nofun, nofun, nofun, nofun⟩

/-- A place for a device. Without one, writes are lost and reads give a fixed byte. -/
structure Slot (δ : Type) where
  idle : Byte
  device : Option δ := none

namespace Slot

variable {δ : Type} [Device δ]

def attach (s : Slot δ) (device : δ) : Slot δ := { s with device := some device }

def step : Slot δ → Nat → Request × Slot δ
  | ⟨idle, none⟩, _ => ({}, ⟨idle, none⟩)
  | ⟨idle, some d⟩, cycles =>
    let (request, d) := Device.step d cycles
    (request, ⟨idle, some d⟩)

def readPort : Slot δ → Byte → Byte × Slot δ
  | ⟨idle, none⟩, _ => (idle, ⟨idle, none⟩)
  | ⟨idle, some d⟩, port =>
    let (v, d) := Device.readPort d port
    (v, ⟨idle, some d⟩)

def writePort : Slot δ → Byte → Byte → Slot δ
  | ⟨idle, none⟩, _, _ => ⟨idle, none⟩
  | ⟨idle, some d⟩, port, v => ⟨idle, some (Device.writePort d port v)⟩

def reset : Slot δ → Slot δ
  | ⟨idle, device⟩ => ⟨idle, device.map Device.reset⟩

end Slot

end Swan
