import Swan.Proofs.CodeStep
import Swan.Proofs.Completion

/-! An interrupt whose handler returns at once. It leaves nothing behind but the cost, a
stack frame below the stack and, in the middle of a repeated instruction, an instruction
pointer moved back over the queued prefixes. -/
namespace Swan

def Registers.stackFrame (r : Registers) : List Address := Flat.span r.ss (r.sp - 6) 6

/-- Where the table of vectors says what to jump to. -/
def vectorOffset (vector : Byte) : Word := vector.setWidth 16 * 4

def vectorEntry (vector : Byte) : List Address := Flat.span 0 (vectorOffset vector) 4

namespace Flat

def handler (b : Flat) (vector : Byte) : Address :=
  physical (b.get .word 0 (vectorOffset vector + 2)) (b.get .word 0 (vectorOffset vector))

def pushFrame (b : Flat) (r : Registers) (ip : Word) : Flat :=
  ((b.put .word r.ss (r.sp - 2) r.flags.toWord).put .word r.ss (r.sp - 4) r.cs).put .word r.ss
    (r.sp - 6) ip

theorem addresses_subset_stackFrame (r : Registers) :
    Width.word.addresses r.ss (r.sp - 2) ⊆ r.stackFrame ∧
    Width.word.addresses r.ss (r.sp - 4) ⊆ r.stackFrame ∧
    Width.word.addresses r.ss (r.sp - 6) ⊆ r.stackFrame := by
  have one : r.sp - 6 + 1 + 1 = r.sp - 4 := by bv_omega
  have two : r.sp - 4 + 1 + 1 = r.sp - 2 := by bv_omega
  simp only [Registers.stackFrame, span, one, two, Width.addresses]
  simp

theorem addresses_subset_vectorEntry (vector : Byte) :
    Width.word.addresses 0 (vectorOffset vector) ⊆ vectorEntry vector ∧
    Width.word.addresses 0 (vectorOffset vector + 2) ⊆ vectorEntry vector := by
  have next : vectorOffset vector + 1 + 1 = vectorOffset vector + 2 := by bv_omega
  simp only [vectorEntry, span, next, Width.addresses]
  simp

theorem pushFrame_agree (b : Flat) (r : Registers) (ip : Word) :
    b.AgreeOff r.stackFrame (b.pushFrame r ip) := by
  obtain ⟨first, second, third⟩ := addresses_subset_stackFrame r
  exact (((AgreeOff.refl _ b).put_hidden _ fun a => @first a).put_hidden _ fun a => @second a).put_hidden
    _ fun a => @third a

theorem get_pushFrame (b : Flat) (r : Registers) (ip : Word) :
    (b.pushFrame r ip).get .word r.ss (r.sp - 6) = ip ∧
    (b.pushFrame r ip).get .word r.ss (r.sp - 4) = r.cs ∧
    (b.pushFrame r ip).get .word r.ss (r.sp - 2) = r.flags.toWord := by
  refine ⟨get_put_word _ _ _ _, ?_, ?_⟩
  · rw [pushFrame, get_put_word_of_ne, get_put_word] <;> bv_omega
  · rw [pushFrame, get_put_word_of_ne, get_put_word_of_ne, get_put_word] <;> bv_omega

end Flat

namespace Exec

theorem enterInterrupt_eq (vector : Byte) (c : Core Flat) :
    let r := c.cpu.regs
    let b := c.bus.pushFrame r r.ip
    (enterInterrupt vector c).2 = ⟨{ c.cpu with
      regs := { r with
        sp := r.sp - 6
        flags := { r.flags with interrupt := false, trap := false }
        ip := b.get .word 0 (vectorOffset vector)
        cs := b.get .word 0 (vectorOffset vector + 2) }
      halted := false }, b⟩ := by
  have second : c.cpu.regs.sp - 4 = c.cpu.regs.sp - 2 - 2 := by bv_omega
  have third : c.cpu.regs.sp - 6 = c.cpu.regs.sp - 2 - 2 - 2 := by bv_omega
  simp only [Flat.pushFrame]
  rw [second, third]
  rfl

theorem interrupt_eq (vector : Byte) (c : Core Flat) :
    let r := c.cpu.regs
    let b := c.bus.pushFrame r (r.ip - BitVec.ofNat 16 c.cpu.prefixes.length)
    (interrupt vector c).2 = ⟨{ c.cpu with
      regs := { r with
        sp := r.sp - 6
        flags := { r.flags with interrupt := false, trap := false }
        ip := b.get .word 0 (vectorOffset vector)
        cs := b.get .word 0 (vectorOffset vector + 2) }
      halted := false
      prefixes := .empty
      deferred := c.cpu.deferred + interruptCycles }, b⟩ := by
  intro r b
  rw [interrupt, bind_apply, bind_apply, enterInterrupt_eq]
  rfl

theorem returnInterrupt_eq (c : Core Flat) :
    let r := c.cpu.regs
    returnInterrupt c = ({ cycles := 10 }, ⟨{ c.cpu with
      regs := { r with
        sp := r.sp + 6
        ip := c.bus.get .word r.ss r.sp
        cs := c.bus.get .word r.ss (r.sp + 2)
        flags := .ofWord (c.bus.get .word r.ss (r.sp + 4)) } }, c.bus⟩) := by
  have third : c.cpu.regs.sp + 4 = c.cpu.regs.sp + 2 + 2 := by bv_omega
  have last : c.cpu.regs.sp + 6 = c.cpu.regs.sp + 2 + 2 + 2 := by bv_omega
  intro r
  rw [third, last]
  rfl

/-- The interrupt and the return from it, as one. -/
theorem visit_returns (vector : Byte) (c : Core Flat)
    (entryKept : ∀ a ∈ vectorEntry vector, a ∉ c.cpu.regs.stackFrame)
    (handlerKept : c.bus.handler vector ∉ c.cpu.regs.stackFrame)
    (returns : c.bus.read (c.bus.handler vector) = 0xCF) :
    let ip := c.cpu.regs.ip - BitVec.ofNat 16 c.cpu.prefixes.length
    let cost := c.cpu.deferred + interruptCycles + 10
    visit (some vector) c = (some cost, ⟨{ c.cpu with
      regs := { c.cpu.regs with ip }
      halted := false
      prefixes := .empty
      opcode := 0xCF
      deferred := 0
      total := c.cpu.total.advance cost }, c.bus.pushFrame c.cpu.regs ip⟩) := by
  intro ip cost
  have frame := c.bus.pushFrame_agree c.cpu.regs ip
  have saved := c.bus.get_pushFrame c.cpu.regs ip
  obtain ⟨lower, upper⟩ := Flat.addresses_subset_vectorEntry vector
  have toIp : (c.bus.pushFrame c.cpu.regs ip).get .word 0 (vectorOffset vector) = _ :=
    (frame.get fun a member => entryKept a (lower member)).symm
  have toCs : (c.bus.pushFrame c.cpu.regs ip).get .word 0 (vectorOffset vector + 2) = _ :=
    (frame.get fun a member => entryKept a (upper member)).symm
  have fetches : (interrupt vector c).2.Fetches [] 0xCF := {
    code := by
      rw [interrupt_eq, toIp, toCs]
      exact ⟨(frame.memory _ handlerKept).symm.trans returns, trivial⟩
    queued := nofun
    plain := by decide }
  have second : c.cpu.regs.sp - 6 + 2 = c.cpu.regs.sp - 4 := by bv_omega
  have third : c.cpu.regs.sp - 6 + 4 = c.cpu.regs.sp - 2 := by bv_omega
  have stepped := step_code (by rw [interrupt_eq]) (by rw [interrupt_eq]) fetches
    (by rw [show Operation.decode 0xCF = .returnInterrupt by decide]; exact returnInterrupt_eq _)
  simp only [interrupt_eq, Core.fetched, second, third] at stepped
  rw [visit_some, interrupt_eq, stepped]
  dsimp only [ip] at saved
  rw [saved.1, saved.2.1, saved.2.2, Flags.ofWord_toWord, BitVec.sub_add_cancel]
  rfl

end Exec

end Swan
