import Swan.Cpu.Step
import Swan.Proofs.InstructionFrame
import Swan.Proofs.PrefixWindow

/-! A step of the processor, taken apart: what fetching the prefixes and the opcode
leaves, what the instruction is run on, and what the step adds around it. Nothing is
assumed of the bus. -/
namespace Swan

theorem Ticks.advance_advance (t : Ticks) (m n : Nat) : (t.advance m).advance n = t.advance (m + n) :=
  congrArg Ticks.mk (Nat.add_assoc _ _ _)

namespace Exec

variable {β α γ : Type}

theorem bind_apply (x : Exec β α) (f : α → Exec β γ) (c : Core β) :
    (x >>= f) c = f (x c).1 (x c).2 := rfl

variable [Bus β]

/-- What is fetched is a run of prefixes, all queued, and then a byte that is none. -/
theorem fetchOpcode?_some {fetched limit : Nat} {c d : Core β} {opcode : Byte} {n : Nat}
    (h : fetchOpcode? fetched limit c = (some (opcode, n), d)) :
    isPrefix opcode = false ∧ ∃ l : List Byte, (∀ b ∈ l, isPrefix b = true) ∧
      n = fetched + l.length ∧ ∃ regs bus,
        d = ⟨{ c.cpu with regs, prefixes := c.cpu.prefixes.pushAll l }, bus⟩ := by
  induction limit generalizing fetched c with
  | zero => cases h
  | succ limit ih =>
    simp only [fetchOpcode?, bind_apply] at h
    split at h
    · rename_i isOne
      obtain ⟨plain, l, ones, count, regs, bus, eq⟩ := ih h
      refine ⟨plain, (fetchByte c).1 :: l, ?_, by rw [count, List.length_cons]; omega, regs, bus, eq⟩
      intro b member
      cases List.mem_cons.mp member with
      | inl same => exact same ▸ isOne
      | inr rest => exact ones b rest
    · rename_i isNone
      cases h
      exact ⟨by simpa using isNone, [], by simp, rfl, _, _, rfl⟩

/-- Whether or not an opcode is found, fetching it reads and queues, and does nothing else. -/
theorem fetchOpcode?_frame (fetched limit : Nat) (c : Core β) :
    ∃ regs prefixes bus, (fetchOpcode? fetched limit c).2 = ⟨{ c.cpu with regs, prefixes }, bus⟩ := by
  induction limit generalizing fetched c with
  | zero => exact ⟨_, _, _, rfl⟩
  | succ limit ih =>
    rw [fetchOpcode?, bind_apply]
    split
    · obtain ⟨regs, prefixes, bus, rest⟩ := ih (fetched + 1) (pushPrefix _ (fetchByte c).2).2
      exact ⟨regs, prefixes, bus, rest⟩
    · exact ⟨_, _, _, rfl⟩

theorem retire_untrapped {opcode : Byte} {c d : Core β} {r : Retired}
    (run : (Operation.decode opcode).execute ⟨{ c.cpu with opcode }, c.bus⟩ = (r, d)) :
    retire opcode false c = (r.cycles, if r.again then d else (clearPrefixes d).2) := by
  rw [retire, bind_apply, bind_apply]
  change (_ : Exec β Nat) ((Operation.decode opcode).execute ⟨{ c.cpu with opcode }, c.bus⟩).2 = _
  rw [show (dispatch opcode c).2 = ⟨{ c.cpu with opcode }, c.bus⟩ from rfl, run]
  cases r.again <;> rfl

theorem retire_trapped {opcode : Byte} {c d : Core β} {r : Retired}
    (run : (Operation.decode opcode).execute ⟨{ c.cpu with opcode }, c.bus⟩ = (r, d)) :
    retire opcode true c =
      (r.cycles, (interrupt singleStepVector (if r.again then d else (clearPrefixes d).2)).2) := by
  rw [retire, bind_apply, bind_apply]
  rw [show (dispatch opcode c).2 = ⟨{ c.cpu with opcode }, c.bus⟩ from rfl, run]
  cases r.again <;> rfl

theorem stepWithin_halted {c : Core β} (limit : Nat) (halted : c.cpu.halted = true) :
    stepWithin limit c = (some (c.cpu.deferred + 1),
      ⟨{ c.cpu with deferred := 0, total := c.cpu.total.advance (c.cpu.deferred + 1) }, c.bus⟩) := by
  rw [stepWithin, bind_apply, bind_apply]
  change (if c.cpu.halted = true then _ else _ : Exec β (Option Nat)) _ = _
  rw [halted, if_pos rfl]
  rfl

/-- What a step makes of the fetch and the instruction in it. -/
theorem stepWithin_running {c : Core β} (limit : Nat) (running : c.cpu.halted = false) :
    stepWithin limit c =
      match fetchOpcode? 0 limit ⟨{ c.cpu with deferred := 0 }, c.bus⟩ with
      | (none, d) => (none, d)
      | (some (opcode, n), d) =>
        let e := (retire opcode c.cpu.regs.flags.trap d).2
        let cost := c.cpu.deferred + n + (retire opcode c.cpu.regs.flags.trap d).1 + e.cpu.deferred
        (some cost, ⟨{ e.cpu with deferred := 0, total := e.cpu.total.advance cost }, e.bus⟩) := by
  rw [stepWithin, bind_apply, bind_apply]
  change (if c.cpu.halted = true then _ else _ : Exec β (Option Nat)) _ = _
  rw [running, if_neg Bool.false_ne_true, bind_apply, bind_apply]
  rw [show (regs (stepWithin.isHalted (takeDeferred c).2).2).2 =
    ⟨{ c.cpu with deferred := 0 }, c.bus⟩ from rfl]
  obtain ⟨found, d⟩ := fetchOpcode? 0 limit (⟨{ c.cpu with deferred := 0 }, c.bus⟩ : Core β)
  cases found <;> rfl

theorem stepWithin_stalled {limit : Nat} {c d : Core β} (stalled : stepWithin limit c = (none, d)) :
    ∃ regs prefixes bus, d = ⟨{ c.cpu with regs, prefixes, deferred := 0 }, bus⟩ := by
  cases halted : c.cpu.halted with
  | true =>
    rw [stepWithin_halted limit halted] at stalled
    cases stalled
  | false =>
    obtain ⟨regs, prefixes, bus, frame⟩ :=
      fetchOpcode?_frame 0 limit (⟨{ c.cpu with deferred := 0 }, c.bus⟩ : Core β)
    rw [stepWithin_running limit halted] at stalled
    split at stalled
    · rename_i fetched
      rw [fetched] at frame
      cases stalled
      exact ⟨regs, prefixes, bus, frame⟩
    · cases stalled

/-- A step that returns has waited for a cycle, or has fetched an instruction and retired it. -/
theorem stepWithin_returned {limit cycles : Nat} {c d : Core β}
    (returned : stepWithin limit c = (some cycles, d)) :
    (c.cpu.halted = true ∧ cycles = c.cpu.deferred + 1 ∧
      d = ⟨{ c.cpu with deferred := 0, total := c.cpu.total.advance cycles }, c.bus⟩) ∨
    ∃ opcode l regs bus e, c.cpu.halted = false ∧ (∀ b ∈ l, isPrefix b = true) ∧
      e = (⟨{ c.cpu with
        regs, prefixes := c.cpu.prefixes.pushAll l, deferred := 0 }, bus⟩ : Core β) ∧
      fetchOpcode? 0 limit ⟨{ c.cpu with deferred := 0 }, c.bus⟩ = (some (opcode, l.length), e) ∧
      cycles = c.cpu.deferred + l.length + (retire opcode c.cpu.regs.flags.trap e).1 +
        (retire opcode c.cpu.regs.flags.trap e).2.cpu.deferred ∧
      d = ⟨{ (retire opcode c.cpu.regs.flags.trap e).2.cpu with
        deferred := 0
        total := (retire opcode c.cpu.regs.flags.trap e).2.cpu.total.advance cycles },
        (retire opcode c.cpu.regs.flags.trap e).2.bus⟩ := by
  cases halted : c.cpu.halted with
  | true =>
    rw [stepWithin_halted limit halted] at returned
    cases returned
    exact .inl ⟨rfl, rfl, rfl⟩
  | false =>
    rw [stepWithin_running limit halted] at returned
    split at returned
    · cases returned
    · rename_i opcode n e fetched
      obtain ⟨_, l, ones, count, regs, bus, frame⟩ := fetchOpcode?_some fetched
      obtain rfl : n = l.length := count.trans (Nat.zero_add _)
      cases returned
      exact .inr ⟨opcode, l, regs, bus, e, rfl, ones, frame, fetched, rfl, rfl⟩

theorem enterInterrupt_frame (vector : Byte) (c : Core β) :
    ∃ regs bus, (enterInterrupt vector c).2 = ⟨{ c.cpu with regs, halted := false }, bus⟩ := by
  have quiet : Quiet (do
      let r ← Exec.regs (β := β)
      push r.flags.toWord
      push r.cs
      push r.ip
      setRegs fun r => { r with flags := { r.flags with interrupt := false, trap := false } }
      let entry : Word := vector.setWidth 16 * 4
      let ip ← readWord 0 entry
      let cs ← readWord 0 (entry + 2)
      setRegs fun r => { r with cs, ip }) := by
    refine .bind inferInstance fun _ => inferInstance
  exact quiet.frame ⟨{ c.cpu with halted := false }, c.bus⟩

/-- An interrupt ends a wait and a repetition, and leaves its cost to the next step. -/
theorem interrupt_frame (vector : Byte) (c : Core β) :
    ∃ regs bus, (interrupt vector c).2 = ⟨{ c.cpu with
      regs, halted := false, prefixes := .empty
      deferred := c.cpu.deferred + interruptCycles }, bus⟩ := by
  obtain ⟨regs, bus, entered⟩ := enterInterrupt_frame vector (dropPrefixes c).2
  refine ⟨regs, bus, ?_⟩
  rw [interrupt, bind_apply, bind_apply, entered]
  rfl

theorem retire_total (opcode : Byte) (trap : Bool) (c : Core β) :
    (retire opcode trap c).2.cpu.total = c.cpu.total := by
  rcases run : (Operation.decode opcode).execute ⟨{ c.cpu with opcode }, c.bus⟩ with ⟨r, d⟩
  obtain ⟨regs, halted, bus, eq⟩ :=
    (execute_local (Operation.decode opcode)).frame ⟨{ c.cpu with opcode }, c.bus⟩
  rw [run] at eq
  have kept : (if r.again then d else (clearPrefixes d).2).cpu.total = c.cpu.total := by
    rw [show d = _ from eq]
    cases r.again <;> rfl
  cases trap with
  | true =>
    rw [retire_trapped run]
    obtain ⟨regs, bus, entered⟩ :=
      interrupt_frame singleStepVector (if r.again then d else (clearPrefixes d).2)
    rw [entered]
    exact kept
  | false =>
    rw [retire_untrapped run]
    exact kept

theorem stepWithin_total {limit : Nat} {c d : Core β} {cycles : Nat}
    (stepped : stepWithin limit c = (some cycles, d)) :
    d.cpu.total = c.cpu.total.advance cycles := by
  obtain ⟨-, -, rfl⟩ | ⟨opcode, l, regs, bus, e, -, -, rfl, -, -, rfl⟩ :=
    stepWithin_returned stepped
  · rfl
  · exact congrArg (Ticks.advance · _) (retire_total opcode _ _)

end Exec

end Swan
