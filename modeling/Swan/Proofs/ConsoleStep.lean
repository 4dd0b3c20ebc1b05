import Swan.Proofs.ConsoleRun
import Swan.Proofs.InstructionCost

/-! A step of the console, taken apart: the hook has its say, an interrupt is served, the
processor or the transfer engine runs, and the devices catch up. No step is free. -/
namespace Swan

theorem Transfer.next?_none {t u : Transfer} (next : t.next? = (none, u)) : t.active = false := by
  unfold Transfer.next? at next
  split at next
  · simp_all
  · cases next

theorem Transfer.next?_cycles {t u : Transfer} {slice : Slice} (next : t.next? = (some slice, u)) :
    2 ≤ slice.cycles := by
  unfold Transfer.next? at next
  split at next
  · cases next
  · cases next
    dsimp only
    split <;> decide

namespace Board

variable {δ ω : Type} [Device δ] [Observer ω]

/-- A slice of an active transfer takes two cycles at least. -/
theorem runSlice_cycles {b : Board δ ω} (active : b.transferActive = true) :
    2 ≤ b.runSlice.1 := by
  have running : b.transfer.active = true := by
    simp only [transferActive, Bool.and_eq_true] at active
    exact active.2
  unfold runSlice
  rcases next : b.transfer.next? with ⟨_ | slice, after⟩
  · rw [Transfer.next?_none next] at running
    cases running
  · exact Transfer.next?_cycles next

end Board

namespace Console

variable {δ ω η : Type} [Device δ] [Observer ω]

theorem runCore_active {core : Core (Board δ ω)} (active : core.bus.transferActive = true) :
    runCore core = (some core.bus.runSlice.1, ⟨core.cpu, core.bus.runSlice.2⟩) := by
  simp only [runCore, active, if_true]

theorem runCore_free {core : Core (Board δ ω)} (free : core.bus.transferActive = false) :
    runCore core = Exec.step core := by
  simp only [runCore, free, Bool.false_eq_true, if_false]

theorem runCore_cycles_pos {core after : Core (Board δ ω)} {cycles : Nat}
    (ran : runCore core = (some cycles, after)) : 1 ≤ cycles := by
  cases active : core.bus.transferActive with
  | true =>
    rw [runCore_active active] at ran
    cases ran
    exact Nat.le_of_succ_le (Board.runSlice_cycles active)
  | false =>
    rw [runCore_free active] at ran
    exact Nat.le_trans (Nat.le_add_left 1 _) (Exec.step_cycles ran)

/-- The rest of a step, once the hook has let it pass and interrupts are served. -/
def proceed (c : Console δ ω η) (hook : Option η) (core : Core (Board δ ω)) :
    RunOutcome × Console δ ω η :=
  match runCore core with
  | (none, core) => (.stalled, { c with hook, core })
  | (some cycles, ⟨cpu, board⟩) =>
    (.completed,
      { c with
        hook
        core := ⟨cpu, board.stepDevices cycles⟩
        lineCycles := c.lineCycles + cycles
        clock := c.clock.advance cycles
        cancelled := false
        overflowed := c.overflowed || c.stepOverflows core.cpu.deferred board.raster.dot cycles })

theorem proceed_cases (c : Console δ ω η) (hook : Option η) (core : Core (Board δ ω)) :
    (∃ after, runCore core = (none, after) ∧
      c.proceed hook core = (.stalled, { c with hook, core := after })) ∨
    ∃ cycles cpu board, runCore core = (some cycles, ⟨cpu, board⟩) ∧ 1 ≤ cycles ∧
      c.proceed hook core = (.completed,
        { c with
          hook
          core := ⟨cpu, board.stepDevices cycles⟩
          lineCycles := c.lineCycles + cycles
          clock := c.clock.advance cycles
          cancelled := false
          overflowed :=
            c.overflowed || c.stepOverflows core.cpu.deferred board.raster.dot cycles }) := by
  unfold proceed
  rcases ran : runCore core with ⟨_ | cycles, ⟨cpu, board⟩⟩
  · exact .inl ⟨_, rfl, rfl⟩
  · exact .inr ⟨cycles, cpu, board, rfl, runCore_cycles_pos ran, rfl⟩

variable [StepHook η]

theorem runStep_intercepted {c : Console δ ω η} {hook : Option η}
    (stops : consultHook c.hook c.cpu = (true, hook)) :
    c.runStep = (.intercepted, { c with hook, cancelled := true }) := by
  unfold runStep
  rw [stops]

theorem runStep_passed {c : Console δ ω η} {hook : Option η}
    (passes : consultHook c.hook c.cpu = (false, hook)) :
    c.runStep = c.proceed hook (serveInterrupt c.core) := by
  unfold runStep
  rw [passes]
  rfl

/-- All that a step can do: the hook stops it, no opcode comes, or it runs for some cycles. -/
theorem runStep_cases (c : Console δ ω η) :
    (∃ hook, consultHook c.hook c.cpu = (true, hook) ∧
      c.runStep = (.intercepted, { c with hook, cancelled := true })) ∨
    (∃ hook core, consultHook c.hook c.cpu = (false, hook) ∧
      runCore (serveInterrupt c.core) = (none, core) ∧
      c.runStep = (.stalled, { c with hook, core })) ∨
    ∃ hook cycles cpu board, consultHook c.hook c.cpu = (false, hook) ∧
      runCore (serveInterrupt c.core) = (some cycles, ⟨cpu, board⟩) ∧ 1 ≤ cycles ∧
      c.runStep = (.completed,
        { c with
          hook
          core := ⟨cpu, board.stepDevices cycles⟩
          lineCycles := c.lineCycles + cycles
          clock := c.clock.advance cycles
          cancelled := false
          overflowed := c.overflowed ||
            c.stepOverflows (serveInterrupt c.core).cpu.deferred board.raster.dot cycles }) := by
  rcases consulted : consultHook c.hook c.cpu with ⟨_ | _, hook⟩
  · rw [runStep_passed consulted]
    obtain ⟨core, ran, stalls⟩ | ⟨cycles, cpu, board, ran, paid, completes⟩ :=
      proceed_cases c hook (serveInterrupt c.core)
    · exact .inr (.inl ⟨hook, core, rfl, ran, stalls⟩)
    · exact .inr (.inr ⟨hook, cycles, cpu, board, rfl, ran, paid, completes⟩)
  · exact .inl ⟨hook, rfl, runStep_intercepted consulted⟩

end Console

end Swan
