import Swan.Bus
import Swan.Clock
import Swan.Cpu.PrefixQueue

/-! The processor between two instructions, and the processor together with the bus
it works on. Nothing that lives only while an instruction runs is kept here. -/
namespace Swan

structure Cpu where
  regs : Registers := {}
  halted : Bool := false
  /-- Not empty only while a repeated string instruction has elements left. -/
  prefixes : PrefixQueue := .empty
  opcode : Byte := 0
  /-- The cost of interrupt entries that no step has reported yet. -/
  deferred : Nat := 0
  total : Ticks := {}
  deriving Inhabited

structure Core (β : Type) where
  cpu : Cpu
  bus : β

namespace Cpu

/-- Point execution elsewhere, giving up a repeated instruction. -/
def jumpTo (c : Cpu) (segment offset : Word) : Cpu :=
  { c with regs := { c.regs with cs := segment, ip := offset }, prefixes := .empty }

/-- Leave the halted state without taking an interrupt. -/
def wake (c : Cpu) : Cpu := { c with halted := false }

/-- Return to the power-on state. The cycle total goes on. -/
def reset (c : Cpu) : Cpu := { total := c.total }

def pc (c : Cpu) : Address := c.regs.codeAddress

end Cpu

/-- A computation of the processor on a bus. -/
abbrev Exec (β : Type) := StateM (Core β)

namespace Exec

variable {β : Type} [Bus β]

def regs : Exec β Registers := fun c => (c.cpu.regs, c)

def setRegs (f : Registers → Registers) : Exec β Unit
  | ⟨cpu, bus⟩ => ((), ⟨{ cpu with regs := f cpu.regs }, bus⟩)

def prefixes : Exec β PrefixQueue := fun c => (c.cpu.prefixes, c)

/-- Run an operation of the arithmetic unit on the flags. -/
def withFlags {α : Type} (op : Flags → α × Flags) : Exec β α
  | ⟨cpu, bus⟩ =>
    let (a, flags) := op cpu.regs.flags
    (a, ⟨{ cpu with regs := { cpu.regs with flags } }, bus⟩)

def readByte (segment offset : Word) : Exec β Byte
  | ⟨cpu, bus⟩ =>
    let (v, bus) := Bus.read bus (physical segment offset)
    (v, ⟨cpu, bus⟩)

def writeByte (segment offset : Word) (v : Byte) : Exec β Unit
  | ⟨cpu, bus⟩ => ((), ⟨cpu, Bus.write bus (physical segment offset) v⟩)

def portIn (port : Byte) : Exec β Byte
  | ⟨cpu, bus⟩ =>
    let (v, bus) := Bus.portIn bus port
    (v, ⟨cpu, bus⟩)

def portOut (port v : Byte) : Exec β Unit
  | ⟨cpu, bus⟩ => ((), ⟨cpu, Bus.portOut bus port v⟩)

/-- The low byte comes first. The offset of the high byte wraps in the segment. -/
def readWord (segment offset : Word) : Exec β Word := do
  let low ← readByte segment offset
  let high ← readByte segment (offset + 1)
  return .ofBytes low high

def writeWord (segment offset v : Word) : Exec β Unit := do
  writeByte segment offset v.low
  writeByte segment (offset + 1) v.high

def fetchByte : Exec β Byte
  | ⟨cpu, bus⟩ =>
    let (v, bus) := Bus.read bus cpu.regs.codeAddress
    (v, ⟨{ cpu with regs := { cpu.regs with ip := cpu.regs.ip + 1 } }, bus⟩)

def fetchWord : Exec β Word := do
  let low ← fetchByte
  let high ← fetchByte
  return .ofBytes low high

def load : (w : Width) → (segment offset : Word) → Exec β (Operand w)
  | .byte => readByte
  | .word => readWord

def store : (w : Width) → (segment offset : Word) → Operand w → Exec β Unit
  | .byte => writeByte
  | .word => writeWord

def fetch : (w : Width) → Exec β (Operand w)
  | .byte => fetchByte
  | .word => fetchWord

/-- A word takes its halves from two neighbouring ports, the lower one first. -/
def input : (w : Width) → (port : Byte) → Exec β (Operand w)
  | .byte, port => portIn port
  | .word, port => do
    let low ← portIn port
    let high ← portIn (port + 1)
    return Word.ofBytes low high

def output : (w : Width) → (port : Byte) → Operand w → Exec β Unit
  | .byte, port, v => portOut port v
  | .word, port, v => do
    portOut port (Word.low v)
    portOut (port + 1) (Word.high v)

/-- The stack grows downward. -/
def push (v : Word) : Exec β Unit := do
  setRegs fun r => { r with sp := r.sp - 2 }
  let r ← regs
  writeWord r.ss r.sp v

def pop : Exec β Word := do
  let r ← regs
  let v ← readWord r.ss r.sp
  setRegs fun r => { r with sp := r.sp + 2 }
  return v

/-- The segment of a data access: the latest override, else the given one. -/
def dataSegment (default : Segment) : Exec β Word := do
  let q ← prefixes
  let r ← regs
  return r.segment (q.segmentOverride.getD default)

def operand (w : Width) (i : BitVec 3) : Exec β (Operand w) := do return (← regs).operand w i

def setOperand (w : Width) (i : BitVec 3) (v : Operand w) : Exec β Unit :=
  setRegs (·.setOperand w i v)

end Exec

end Swan
