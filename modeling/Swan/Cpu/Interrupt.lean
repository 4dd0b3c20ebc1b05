import Swan.Cpu.State

/-! Entering an interrupt handler. -/
namespace Swan

/-- The vectors that the processor itself uses. -/
def divideErrorVector : Byte := 0

def singleStepVector : Byte := 1

def breakpointVector : Byte := 3

def overflowVector : Byte := 4

def boundVector : Byte := 5

/-- What entering an interrupt costs, unless an instruction asked for it: then the
cost is part of the instruction's own. -/
def interruptCycles : Nat := 32

namespace Exec

variable {β : Type} [Bus β]

def setHalted (on : Bool) : Exec β Unit
  | ⟨cpu, bus⟩ => ((), ⟨{ cpu with halted := on }, bus⟩)

/-- Push the flags and the place to return to, mask interrupts and traps, and jump
through the vector table at the bottom of memory. -/
def enterInterrupt (vector : Byte) : Exec β Unit := do
  setHalted false
  let r ← regs
  push r.flags.toWord
  push r.cs
  push r.ip
  setRegs fun r => { r with flags := { r.flags with interrupt := false, trap := false } }
  let entry : Word := vector.setWidth 16 * 4
  let ip ← readWord 0 entry
  let cs ← readWord 0 (entry + 2)
  setRegs fun r => { r with cs, ip }

/-- Give up the prefixes of a repeated instruction. With any pending, the instruction
pointer moves back over them, so that a handler returns to the whole instruction. -/
def dropPrefixes : Exec β Unit
  | ⟨cpu, bus⟩ =>
    let ip := cpu.regs.ip - BitVec.ofNat 16 cpu.prefixes.length
    ((), ⟨{ cpu with regs := { cpu.regs with ip }, prefixes := .empty }, bus⟩)

def defer (cycles : Nat) : Exec β Unit
  | ⟨cpu, bus⟩ => ((), ⟨{ cpu with deferred := cpu.deferred + cycles }, bus⟩)

/-- An interrupt from outside the instruction stream. The next step reports its cost. -/
def interrupt (vector : Byte) : Exec β Unit := do
  dropPrefixes
  enterInterrupt vector
  defer interruptCycles

end Exec

end Swan
