import Swan.Cpu.State

/-! The byte that names the operands of an instruction: a register, and a register
or a place in memory. -/
namespace Swan

structure ModRM where
  mode : BitVec 2
  reg : BitVec 3
  rm : BitVec 3
  deriving DecidableEq, Repr

namespace ModRM

def ofByte (b : Byte) : ModRM where
  mode := b.extractLsb' 6 2
  reg := b.extractLsb' 3 3
  rm := b.setWidth 3

def isRegister (m : ModRM) : Bool := m.mode == 3

/-- What follows the byte itself. -/
inductive Displacement where
  | none
  | byte
  | word
  deriving DecidableEq, Repr

/-- Mode 0 has no displacement, except that form 6 is a bare offset. -/
def displacement (m : ModRM) : Displacement :=
  match m.mode.toNat with
  | 0 => if m.rm = 6 then .word else .none
  | 1 => .byte
  | 2 => .word
  | _ => .none

/-- The sum of the base and index registers of an address, and the segment it lies
in: the stack for the forms built on BP. -/
def base (m : ModRM) (r : Registers) : Word × Segment :=
  match m.rm.toNat with
  | 0 => (r.bx + r.si, .ds)
  | 1 => (r.bx + r.di, .ds)
  | 2 => (r.bp + r.si, .ss)
  | 3 => (r.bp + r.di, .ss)
  | 4 => (r.si, .ds)
  | 5 => (r.di, .ds)
  | 6 => if m.mode = 0 then (0, .ds) else (r.bp, .ss)
  | _ => (r.bx, .ds)

end ModRM

/-- Where an operand lives. A register is named by the low three bits of its index,
and which set of registers is meant by the width of the access. -/
inductive Location where
  | register (index : Byte)
  | memory (segment : Segment) (offset : Word)
  deriving DecidableEq, Repr

namespace Location

def offset? : Location → Option Word
  | register _ => none
  | memory _ offset => some offset

/-- The operand some bytes further on, wrapping in its segment. -/
def advance (delta : Word) : Location → Location
  | register index => register index
  | memory segment offset => memory segment (offset + delta)

def isMemory : Location → Bool
  | register _ => false
  | memory .. => true

end Location

namespace Exec

variable {β : Type} [Bus β]

def fetchDisplacement : ModRM.Displacement → Exec β Word
  | .none => return 0
  | .byte => return .ofSigned (← fetchByte)
  | .word => fetchWord

/-- The place that a ModRM byte names. A segment override replaces the default. -/
def resolve (m : ModRM) : Exec β Location := do
  if m.isRegister then return .register (m.rm.setWidth 8)
  let (base, default) := m.base (← regs)
  let displacement ← fetchDisplacement m.displacement
  let q ← prefixes
  return .memory (q.segmentOverride.getD default) (base + displacement)

def fetchModRM : Exec β (ModRM × Location) := do
  let m := ModRM.ofByte (← fetchByte)
  return (m, ← resolve m)

def readAt (w : Width) : Location → Exec β (Operand w)
  | .register i => operand w (i.setWidth 3)
  | .memory segment offset => do load w ((← regs).segment segment) offset

def writeAt (w : Width) (v : Operand w) : Location → Exec β Unit
  | .register i => setOperand w (i.setWidth 3) v
  | .memory segment offset => do store w ((← regs).segment segment) offset v

end Exec

end Swan
