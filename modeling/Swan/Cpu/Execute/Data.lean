import Swan.Cpu.ModRM
import Swan.Cpu.Operation

/-! Instructions that move data: between registers, memory, stack and ports. -/
namespace Swan

structure Retired where
  cycles : Nat
  /-- A repeated string instruction has elements left. -/
  again : Bool := false
  deriving DecidableEq, Repr

/-- A cost that depends on whether an operand lives in a register or in memory. -/
def Location.cost (register memory : Nat) (l : Location) : Nat :=
  if l.isMemory then memory else register

namespace Exec

variable {β : Type} [Bus β]

def moveToRm (w : Width) : Exec β Retired := do
  let (m, rm) ← fetchModRM
  writeAt w (← operand w m.reg) rm
  return { cycles := 1 }

def moveToReg (w : Width) : Exec β Retired := do
  let (m, rm) ← fetchModRM
  setOperand w m.reg (← readAt w rm)
  return { cycles := 1 }

def moveFromSegment : Exec β Retired := do
  let (m, rm) ← fetchModRM
  writeAt .word ((← regs).segment (.ofIndex (m.reg.setWidth 2))) rm
  return { cycles := rm.cost 1 2 }

def moveToSegment : Exec β Retired := do
  let (m, rm) ← fetchModRM
  let v ← readAt .word rm
  setRegs (·.setSegment v (.ofIndex (m.reg.setWidth 2)))
  return { cycles := rm.cost 2 3 }

def moveImmediate (w : Width) (i : BitVec 3) : Exec β Retired := do
  setOperand w i (← fetch w)
  return { cycles := 1 }

def moveRmImmediate (w : Width) : Exec β Retired := do
  let (_, rm) ← fetchModRM
  writeAt w (← fetch w) rm
  return { cycles := 1 }

/-- Load the accumulator from an offset in the instruction. -/
def loadDirect (w : Width) : Exec β Retired := do
  let offset ← fetchWord
  setOperand w 0 (← load w (← dataSegment .ds) offset)
  return { cycles := 1 }

def storeDirect (w : Width) : Exec β Retired := do
  let offset ← fetchWord
  store w (← dataSegment .ds) offset (← operand w 0)
  return { cycles := 1 }

/-- A register operand has no address, and then nothing is loaded. -/
def loadAddress : Exec β Retired := do
  let (m, rm) ← fetchModRM
  match rm with
  | .register _ => pure ()
  | .memory _ offset => setOperand .word m.reg offset
  return { cycles := 1 }

/-- Load an offset and, from the word after it, a segment. A register operand holds
no far pointer, and then nothing is loaded. -/
def loadFar (s : Segment) : Exec β Retired := do
  let (m, rm) ← fetchModRM
  match rm with
  | .register _ => pure ()
  | .memory .. => do
    let offset ← readAt .word rm
    let segment ← readAt .word (rm.advance 2)
    setOperand .word m.reg offset
    setRegs (·.setSegment segment s)
  return { cycles := 6 }

/-- Look the accumulator up in a table at BX. -/
def translate : Exec β Retired := do
  let r ← regs
  let v ← readByte (← dataSegment .ds) (r.bx + r.al.setWidth 16)
  setRegs (·.setByte v .al)
  return { cycles := 5 }

def exchangeRm (w : Width) : Exec β Retired := do
  let (m, rm) ← fetchModRM
  let v ← readAt w rm
  writeAt w (← operand w m.reg) rm
  setOperand w m.reg v
  return { cycles := rm.cost 3 5 }

def exchangeAccumulator (reg : WordReg) : Exec β Retired := do
  setRegs fun r => { r.setWord r.ax reg with ax := r.word reg }
  return { cycles := 3 }

def widenByte : Exec β Retired := do
  setRegs fun r => { r with ax := .ofSigned r.al }
  return { cycles := 1 }

def widenWord : Exec β Retired := do
  setRegs fun r => { r with dx := if r.ax.msb then 0xFFFF else 0 }
  return { cycles := 1 }

def carryToAl : Exec β Retired := do
  setRegs fun r => r.setByte (if r.flags.carry then 0xFF else 0) .al
  return { cycles := 8 }

def flagsFromAh : Exec β Retired := do
  setRegs fun r => { r with flags := r.flags.withLowByte r.ah }
  return { cycles := 4 }

def flagsToAh : Exec β Retired := do
  setRegs fun r => r.setByte r.flags.lowByte .ah
  return { cycles := 2 }

def pushSegment (s : Segment) : Exec β Retired := do
  push ((← regs).segment s)
  return { cycles := 2 }

def popSegment (s : Segment) : Exec β Retired := do
  let v ← pop
  setRegs (·.setSegment v s)
  return { cycles := 3 }

/-- The stack pointer is pushed as it was before. -/
def pushReg (reg : WordReg) : Exec β Retired := do
  push ((← regs).word reg)
  return { cycles := 1 }

def popReg (reg : WordReg) : Exec β Retired := do
  let v ← pop
  setRegs (·.setWord v reg)
  return { cycles := 1 }

/-- The stack pointer is pushed as it was before. -/
def pushAll : Exec β Retired := do
  let r ← regs
  push r.ax
  push r.cx
  push r.dx
  push r.bx
  push r.sp
  push r.bp
  push r.si
  push r.di
  return { cycles := 9 }

/-- The stacked stack pointer is dropped. -/
def popAll : Exec β Retired := do
  let di ← pop
  setRegs ({ · with di })
  let si ← pop
  setRegs ({ · with si })
  let bp ← pop
  setRegs ({ · with bp })
  let _ ← pop
  let bx ← pop
  setRegs ({ · with bx })
  let dx ← pop
  setRegs ({ · with dx })
  let cx ← pop
  setRegs ({ · with cx })
  let ax ← pop
  setRegs ({ · with ax })
  return { cycles := 8 }

def fetchImmediate : (w : Width) → ImmediateForm → Exec β (Operand w)
  | w, .full => fetch w
  | w, .signedByte => return (← fetchByte).signExtend w.bits

def pushImmediate (form : ImmediateForm) : Exec β Retired := do
  push (← fetchImmediate .word form)
  return { cycles := 1 }

def popRm : Exec β Retired := do
  let (_, rm) ← fetchModRM
  writeAt .word (← pop) rm
  return { cycles := rm.cost 1 3 }

def pushFlags : Exec β Retired := do
  push (← regs).flags.toWord
  return { cycles := 2 }

def popFlags : Exec β Retired := do
  let v ← pop
  setRegs ({ · with flags := .ofWord v })
  return { cycles := 3 }

/-- Only eight bits of a port number are decoded. -/
def portNumber : PortSource → Exec β Byte
  | .immediate => fetchByte
  | .dx => return (← regs).dl

def inputPort (w : Width) (source : PortSource) : Exec β Retired := do
  let port ← portNumber source
  setOperand w 0 (← input w port)
  return { cycles := 6 }

def outputPort (w : Width) (source : PortSource) : Exec β Retired := do
  let port ← portNumber source
  output w port (← operand w 0)
  return { cycles := 6 }

/-- Build a stack frame with copies of the enclosing frame pointers. -/
def enter : Exec β Retired := do
  let size ← fetchWord
  let level := ((← fetchByte) &&& 0x1F).toNat
  push (← regs).bp
  let frame := (← regs).sp
  if level > 0 then
    copyFramePointers (level - 1)
    push frame
  setRegs fun r => { r with bp := frame, sp := r.sp - size }
  return { cycles := match level with
    | 0 => 7
    | 1 => 11
    | n + 2 => 16 + 4 * n }
where
  copyFramePointers : Nat → Exec β Unit
    | 0 => return ()
    | n + 1 => do
      setRegs fun r => { r with bp := r.bp - 2 }
      let r ← regs
      push (← readWord r.ss r.bp)
      copyFramePointers n

def leave : Exec β Retired := do
  setRegs fun r => { r with sp := r.bp }
  let bp ← pop
  setRegs ({ · with bp })
  return { cycles := 2 }

/-- A coprocessor instruction: its operand is decoded and left alone. -/
def escape : Exec β Retired := do
  let _ ← fetchModRM
  return { cycles := 1 }

end Exec

end Swan
