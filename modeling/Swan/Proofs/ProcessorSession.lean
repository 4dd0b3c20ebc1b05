import Swan.Proofs.TransferPriority

/-! The processor of a console, over a whole session. A processor that halts is between two
instructions and owes nothing for an interrupt, whatever its host ran before. -/
namespace Swan

/-- A halted processor owes nothing, and is not in the middle of a repeated instruction. -/
def Cpu.Rests (cpu : Cpu) : Prop := cpu.halted = true → cpu.prefixes = .empty ∧ cpu.deferred = 0

namespace Exec

variable {β : Type} [Bus β]

/-- An instruction that is to be run again is a string instruction, and does not halt. -/
theorem retire_rests (opcode : Byte) (trap : Bool) {c : Core β} (running : c.cpu.halted = false) :
    (retire opcode trap c).2.cpu.halted = true → (retire opcode trap c).2.cpu.prefixes = .empty := by
  rcases run : (Operation.decode opcode).execute ⟨{ c.cpu with opcode }, c.bus⟩ with ⟨r, d⟩
  cases trap with
  | true =>
    rw [retire_trapped run]
    exact fun halted => ((Cpu.interrupt_invariant _ _).waiting halted).1
  | false =>
    rw [retire_untrapped run]
    cases again : r.again with
    | false => exact fun _ => rfl
    | true =>
      have asked :
          ((Operation.decode opcode).execute ⟨{ c.cpu with opcode }, c.bus⟩).1.again = true := by
        rw [run, again]
      obtain ⟨w, op, decoded⟩ := string_of_again asked
      have quiet : Quiet (string w op : Exec β Retired) := inferInstance
      obtain ⟨regs, bus, eq⟩ := quiet.frame ⟨{ c.cpu with opcode }, c.bus⟩
      rw [decoded, Operation.execute] at run
      rw [run] at eq
      intro halted
      rw [if_pos rfl, show d = _ from eq] at halted
      exact absurd (running.symm.trans halted) Bool.false_ne_true

theorem step_rests {c : Core β} (rests : c.cpu.Rests) : (step c).2.cpu.Rests := by
  cases halted : c.cpu.halted with
  | true =>
    rw [step, stepWithin_halted _ halted]
    exact fun _ => ⟨(rests halted).1, rfl⟩
  | false =>
    rw [step, stepWithin_running _ halted]
    obtain ⟨regs, prefixes, bus, frame⟩ :=
      fetchOpcode?_frame 0 fetchLimit ⟨{ c.cpu with deferred := 0 }, c.bus⟩
    rcases fetched : fetchOpcode? 0 fetchLimit ⟨{ c.cpu with deferred := 0 }, c.bus⟩ with
      ⟨_ | ⟨opcode, n⟩, d⟩
    all_goals
      rw [fetched] at frame
      obtain rfl : d = _ := frame
      intro waits
    · exact absurd (halted.symm.trans waits) Bool.false_ne_true
    · exact ⟨retire_rests opcode _ halted waits, rfl⟩

end Exec

namespace Console

variable {δ ω η : Type} [Device δ] [Observer ω] {c : Console δ ω η}

theorem serveInterrupt_rests (rests : c.cpu.Rests) : (serveInterrupt c.core).cpu.Rests := by
  by_cases enters : c.Enters
  · obtain ⟨line, -, entered⟩ := serveInterrupt_pending enters.1 enters.2
    rw [entered.served]
    exact (Cpu.interrupt_invariant _ _).waiting
  · rw [serveInterrupt_unless enters]
    exact rests

theorem runCore_rests {core : Core (Board δ ω)} (rests : core.cpu.Rests) :
    (runCore core).2.cpu.Rests := by
  cases active : core.bus.transferActive with
  | true =>
    rw [runCore_active active]
    exact rests
  | false =>
    rw [runCore_free active]
    exact Exec.step_rests rests

/-- A host that sets the processor does not leave it halted in the middle of something. -/
def Act.Rests : Act η → Prop
  | host (.processor cpu) => cpu.Rests
  | _ => True

variable [StepHook η]

theorem runStep_rests (rests : c.cpu.Rests) : c.runStep.2.cpu.Rests := by
  have ran := runCore_rests (serveInterrupt_rests rests)
  obtain ⟨hook, -, stops⟩ | ⟨hook, core, -, eq, stalls⟩ |
    ⟨hook, cycles, cpu, board, -, eq, -, completes⟩ := c.runStep_cases
  · rw [stops]
    exact rests
  · rw [stalls]
    rwa [eq] at ran
  · rw [completes]
    rwa [eq] at ran

theorem rests_carried : Carried fun c d : Console δ ω η => c.cpu.Rests → d.cpu.Rests where
  refl _ := id
  trans first second rests := second (first rests)
  step _ := runStep_rests
  line _ _ := id

theorem Act.run_rests {act : Act η} (sets : act.Rests) (rests : c.cpu.Rests) :
    (act.run c).cpu.Rests := by
  cases act with
  | step => exact runStep_rests rests
  | line => exact rests_carried.runLine c rests
  | frame => exact rests_carried.runFrame (fun _ _ => id) c rests
  | host act =>
    cases act with
    | processor cpu => exact sets
    | access | request | hold | hook => exact rests

theorem session_rests {acts : List (Act η)} (sets : ∀ act ∈ acts, act.Rests)
    (rests : c.cpu.Rests) : (c.session acts).cpu.Rests := by
  induction acts generalizing c with
  | nil => exact rests
  | cons act acts ih =>
    have first := Act.run_rests (sets act List.mem_cons_self) rests
    exact ih (fun later member => sets later (List.mem_cons_of_mem act member)) first

end Console

end Swan
