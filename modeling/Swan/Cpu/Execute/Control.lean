import Swan.Cpu.Execute.Compute

/-! Instructions that transfer control. Displacements count from the end of the
instruction and wrap in the code segment. -/
namespace Swan.Exec

open Arithmetic

variable {β : Type} [Bus β]

def jumpBy (displacement : Word) : Exec β Unit :=
  setRegs fun r => { r with ip := r.ip + displacement }

/-- Jump by the displacement if asked to, at either cost. -/
def branch (taken : Bool) (displacement : Word) (cost costNotTaken : Nat) : Exec β Retired := do
  if taken then
    jumpBy displacement
    return { cycles := cost }
  else
    return { cycles := costNotTaken }

def jumpIf (c : Condition) : Exec β Retired := do
  let displacement ← fetchByte
  branch (c.holds (← regs).flags) (.ofSigned displacement) 4 1

def jumpIfCxZero : Exec β Retired := do
  let displacement ← fetchByte
  branch ((← regs).cx == 0) (.ofSigned displacement) 4 1

/-- Count CX down and jump while it is not zero and the zero flag agrees. -/
def loop (test : LoopTest) : Exec β Retired := do
  let displacement ← fetchByte
  setRegs fun r => { r with cx := r.cx - 1 }
  let r ← regs
  let agrees := match test with
    | .nonZero => !r.flags.zero
    | .zero => r.flags.zero
    | .always => true
  branch (r.cx != 0 && agrees) (.ofSigned displacement) 6 3

def jumpShort : Exec β Retired := do
  jumpBy (.ofSigned (← fetchByte))
  return { cycles := 4 }

def jumpNear : Exec β Retired := do
  jumpBy (← fetchWord)
  return { cycles := 4 }

def jumpFar : Exec β Retired := do
  let ip ← fetchWord
  let cs ← fetchWord
  setRegs ({ · with cs, ip })
  return { cycles := 7 }

def callNear : Exec β Retired := do
  let displacement ← fetchWord
  push (← regs).ip
  jumpBy displacement
  return { cycles := 5 }

def pushReturnAddress : Exec β Unit := do
  let r ← regs
  push r.cs
  push r.ip

def callFar : Exec β Retired := do
  let ip ← fetchWord
  let cs ← fetchWord
  pushReturnAddress
  setRegs ({ · with cs, ip })
  return { cycles := 10 }

def popIp : Exec β Unit := do
  let ip ← pop
  setRegs ({ · with ip })

def popCs : Exec β Unit := do
  let cs ← pop
  setRegs ({ · with cs })

/-- Release stack space, after the return address is popped. -/
def releaseStack (size : Word) : Exec β Unit :=
  setRegs fun r => { r with sp := r.sp + size }

def returnNear (release : Bool) : Exec β Retired := do
  let size ← if release then fetchWord else pure 0
  popIp
  releaseStack size
  return { cycles := 6 }

def returnFar (release : Bool) : Exec β Retired := do
  let size ← if release then fetchWord else pure 0
  popIp
  popCs
  releaseStack size
  return { cycles := if release then 9 else 8 }

def returnInterrupt : Exec β Retired := do
  popIp
  popCs
  let v ← pop
  setRegs ({ · with flags := .ofWord v })
  return { cycles := 10 }

def breakpoint : Exec β Retired := do
  enterInterrupt breakpointVector
  return { cycles := 9 }

def softwareInterrupt : Exec β Retired := do
  enterInterrupt (← fetchByte)
  return { cycles := 10 }

def interruptOnOverflow : Exec β Retired := do
  if (← regs).flags.overflow then
    enterInterrupt overflowVector
    return { cycles := 13 }
  else
    return { cycles := 6 }

/-- Interrupt unless an index lies within two signed bounds in memory. A register
operand holds no bounds, and then nothing is checked. -/
def bound : Exec β Retired := do
  let (m, rm) ← fetchModRM
  match rm with
  | .register _ => pure ()
  | .memory .. => do
    let index ← operand .word m.reg
    let low ← readAt .word rm
    let high ← readAt .word (rm.advance 2)
    if index.toInt < low.toInt ∨ high.toInt < index.toInt then enterInterrupt boundVector
  return { cycles := 13 }

def halt : Exec β Retired := do
  setHalted true
  return { cycles := 9 }

def command (c : FlagCommand) : Exec β Retired := do
  setRegs fun r => { r with flags :=
    match c with
    | .complementCarry => { r.flags with carry := !r.flags.carry }
    | .clearCarry => { r.flags with carry := false }
    | .setCarry => { r.flags with carry := true }
    | .clearInterrupt => { r.flags with interrupt := false }
    | .setInterrupt => { r.flags with interrupt := true }
    | .clearDirection => { r.flags with direction := false }
    | .setDirection => { r.flags with direction := true } }
  return { cycles := 4 }

/-- Increment, decrement, call, jump and push on a word. The far members take a
pointer in memory; with a register, and for the last member, nothing happens. -/
def group5 : Exec β Retired := do
  let (m, rm) ← fetchModRM
  match m.reg.toNat, rm with
  | 0, _ => do
    writeAt .word (← withFlags (increment (← readAt .word rm))) rm
    return { cycles := rm.cost 1 3 }
  | 1, _ => do
    writeAt .word (← withFlags (decrement (← readAt .word rm))) rm
    return { cycles := rm.cost 1 3 }
  | 2, _ => do
    let ip ← readAt .word rm
    push (← regs).ip
    setRegs ({ · with ip })
    return { cycles := rm.cost 5 6 }
  | 3, .memory .. => do
    let ip ← readAt .word rm
    let cs ← readAt .word (rm.advance 2)
    pushReturnAddress
    setRegs ({ · with cs, ip })
    return { cycles := 12 }
  | 4, _ => do
    let ip ← readAt .word rm
    setRegs ({ · with ip })
    return { cycles := rm.cost 4 5 }
  | 5, .memory .. => do
    let ip ← readAt .word rm
    let cs ← readAt .word (rm.advance 2)
    setRegs ({ · with cs, ip })
    return { cycles := 9 }
  | 6, _ => do
    push (← readAt .word rm)
    return { cycles := rm.cost 1 2 }
  | _, _ => return { cycles := 1 }

end Swan.Exec
