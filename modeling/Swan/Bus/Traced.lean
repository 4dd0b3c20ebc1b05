import Swan.Bus

/-! A bus that remembers what passed over it. The record is kept beside the bus, so
a traced bus answers exactly as the bus itself does. -/
namespace Swan

inductive Access where
  | read (address : Address) (value : Byte)
  | write (address : Address) (value : Byte)
  | portIn (port value : Byte)
  | portOut (port value : Byte)
  deriving DecidableEq, Repr

/-- A bus with the accesses made so far, oldest first. -/
structure Traced (β : Type) where
  bus : β
  accesses : Array Access := #[]

instance [Bus β] : Bus (Traced β) where
  read
    | ⟨bus, accesses⟩, a =>
      let (v, bus) := Bus.read bus a
      (v, ⟨bus, accesses.push (.read a v)⟩)
  write
    | ⟨bus, accesses⟩, a, v => ⟨Bus.write bus a v, accesses.push (.write a v)⟩
  portIn
    | ⟨bus, accesses⟩, p =>
      let (v, bus) := Bus.portIn bus p
      (v, ⟨bus, accesses.push (.portIn p v)⟩)
  portOut
    | ⟨bus, accesses⟩, p, v => ⟨Bus.portOut bus p v, accesses.push (.portOut p v)⟩

end Swan
