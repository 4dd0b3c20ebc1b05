import Swan.Bus
import Swan.Memory

/-! A bus with nothing behind it: one megabyte of memory and 256 ports, each of
which reads back the byte written last. -/
namespace Swan

structure Flat where
  memory : Memory 20 := .zero
  ports : Memory 8 := .zero

namespace Flat

instance : Inhabited Flat := ⟨{}⟩

def read (b : Flat) (a : Address) : Byte := b.memory.read a

def write : Flat → Address → Byte → Flat
  | ⟨memory, ports⟩, a, v => ⟨memory.write a v, ports⟩

def portIn (b : Flat) (p : Byte) : Byte := b.ports.read p

def portOut : Flat → Byte → Byte → Flat
  | ⟨memory, ports⟩, p, v => ⟨memory, ports.write p v⟩

def load (b : Flat) (start : Address) (bytes : List Byte) : Flat :=
  { b with memory := b.memory.load start bytes }

def readWord (b : Flat) (a : Address) : Word := .ofBytes (b.read a) (b.read (a + 1))

instance : Bus Flat where
  read b a := (b.read a, b)
  write := write
  portIn b p := (b.portIn p, b)
  portOut := portOut

@[ext] theorem ext {b b' : Flat} (memory : ∀ a, b.read a = b'.read a)
    (ports : ∀ p, b.portIn p = b'.portIn p) : b = b' := by
  obtain ⟨m, p⟩ := b
  obtain ⟨m', p'⟩ := b'
  have hm : m = m' := Memory.ext memory
  have hp : p = p' := Memory.ext ports
  rw [hm, hp]

theorem read_write (b : Flat) (a c : Address) (v : Byte) :
    (b.write a v).read c = if c = a then v else b.read c :=
  b.memory.read_write a c v

end Flat

end Swan
