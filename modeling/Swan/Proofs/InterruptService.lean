import Swan.Proofs.ConsoleHistory
import Swan.Proofs.StepEquation

/-! How a console serves interrupts. A step enters the highest line that is latched and
enabled, if the processor accepts interrupts, and no other. Entering masks interrupts, so the
next one waits for an instruction. -/
namespace Swan

def LineSet.Highest (s : LineSet) (line : BitVec 3) : Prop :=
  s.getLsbD line.toNat = true ∧ ∀ higher, line < higher → s.getLsbD higher.toNat = false

theorem LineSet.highest?_spec (s : LineSet) (line : BitVec 3) :
    highest? s = some line ↔ Highest s line := by
  unfold Highest
  revert s line
  decide +kernel

theorem LineSet.highest?_eq_none (s : LineSet) : highest? s = none ↔ s = 0 := by
  revert s
  decide +kernel

namespace Exec

variable {β : Type} [Bus β]

/-- A handler runs with interrupts and traps masked. -/
theorem interrupt_flags (vector : Byte) (c : Core β) : (interrupt vector c).2.cpu.regs.flags =
    { c.cpu.regs.flags with interrupt := false, trap := false } := rfl

theorem interrupt_ne (vector : Byte) (c : Core β) : (interrupt vector c).2 ≠ c := by
  intro same
  obtain ⟨regs, bus, entered⟩ := interrupt_frame vector c
  have owed : c.cpu.deferred + interruptCycles = c.cpu.deferred :=
    congrArg (·.cpu.deferred) (entered.symm.trans same)
  exact absurd owed (by simp [interruptCycles])

end Exec

namespace Console

variable {δ ω η : Type} [Device δ] [Observer ω]

/-- An interrupt is entered for a vector: nothing is said to the interrupt controller, and
the handler is not interrupted. -/
structure Entered (core : Core (Board δ ω)) (vector : Byte) : Prop where
  served : serveInterrupt core = (Exec.interrupt vector core).2
  status : (serveInterrupt core).bus.interrupts.status = core.bus.interrupts.status
  enabled : (serveInterrupt core).bus.interrupts.enabled = core.bus.interrupts.enabled
  masked : (serveInterrupt core).cpu.regs.flags.interrupt = false
  untraced : (serveInterrupt core).cpu.regs.flags.trap = false

theorem serveInterrupt_masked {core : Core (Board δ ω)}
    (masked : core.cpu.regs.flags.interrupt = false) : serveInterrupt core = core := by
  unfold serveInterrupt
  rw [masked]
  rfl

theorem serveInterrupt_quiet {core : Core (Board δ ω)}
    (quiet : core.bus.interrupts.status &&& core.bus.interrupts.enabled = 0) :
    serveInterrupt core = core := by
  have none : core.bus.interrupts.pending? = none := (LineSet.highest?_eq_none _).mpr quiet
  unfold serveInterrupt
  split
  · rfl
  · rw [none]

theorem serveInterrupt_pending {core : Core (Board δ ω)}
    (accepts : core.cpu.regs.flags.interrupt = true)
    (pending : core.bus.interrupts.status &&& core.bus.interrupts.enabled ≠ 0) :
    ∃ line, LineSet.Highest (core.bus.interrupts.status &&& core.bus.interrupts.enabled) line ∧
      Entered core (core.bus.interrupts.base ||| line.setWidth 8) := by
  rcases found : core.bus.interrupts.pending? with _ | line
  · exact absurd ((LineSet.highest?_eq_none _).mp found) pending
  · have served : serveInterrupt core =
        (Exec.interrupt (core.bus.interrupts.vector line) core).2 := by
      unfold serveInterrupt
      rw [accepts, found]
      rfl
    have heard : (serveInterrupt core).bus.Hears core.bus.model core.bus.interrupts :=
      serveInterrupt_keeps (Board.hears_memoryStable _ _) ⟨rfl, rfl⟩
    refine ⟨line, (LineSet.highest?_spec _ line).mp found, served, ?_, ?_, ?_, ?_⟩
    · rw [heard.2]
    · rw [heard.2]
    · rw [served, Exec.interrupt_flags]
    · rw [served, Exec.interrupt_flags]

/-- An interrupt is entered exactly when the processor accepts one and a line is both latched
and enabled. -/
theorem serveInterrupt_ne_iff (core : Core (Board δ ω)) : serveInterrupt core ≠ core ↔
    core.cpu.regs.flags.interrupt = true ∧
      core.bus.interrupts.status &&& core.bus.interrupts.enabled ≠ 0 := by
  constructor
  · intro entered
    constructor
    · by_cases accepts : core.cpu.regs.flags.interrupt = true
      · exact accepts
      · exact absurd (serveInterrupt_masked (Bool.not_eq_true _ ▸ accepts)) entered
    · intro quiet
      exact entered (serveInterrupt_quiet quiet)
  · rintro ⟨accepts, pending⟩
    obtain ⟨line, _, entered⟩ := serveInterrupt_pending accepts pending
    rw [entered.served]
    exact Exec.interrupt_ne _ core

/-- Without an instruction, because a transfer has the bus or the processor waits, the
registers stay as they are. -/
theorem runCore_idle {core : Core (Board δ ω)}
    (idle : ¬ (core.bus.transferActive = false ∧ core.cpu.halted = false)) :
    (runCore core).2.cpu.regs = core.cpu.regs := by
  cases active : core.bus.transferActive with
  | true => rw [runCore_active active]
  | false =>
    have halted : core.cpu.halted = true :=
      Bool.of_not_eq_false fun running => idle ⟨active, running⟩
    rw [runCore_free active, Exec.step, Exec.stepWithin_halted _ halted]

theorem proceed_regs (c : Console δ ω η) (hook : Option η) (core : Core (Board δ ω)) :
    (c.proceed hook core).2.cpu.regs = (runCore core).2.cpu.regs := by
  obtain ⟨after, ran, eq⟩ | ⟨cycles, cpu, board, ran, _, eq⟩ := proceed_cases c hook core
  · rw [eq, ran]
  · rw [eq, ran]

variable [StepHook η]

/-- The next step executes an instruction: the hook lets it pass, no transfer has the bus and
the processor does not wait. -/
def Executes (c : Console δ ω η) : Prop :=
  (consultHook c.hook c.cpu).1 = false ∧ (serveInterrupt c.core).bus.transferActive = false ∧
    (serveInterrupt c.core).cpu.halted = false

def HostAct.SparesProcessor : HostAct η → Prop
  | processor _ => False
  | access _ | request _ | hold _ | hook _ => True

/-- What a console comes to before the next instruction. -/
inductive Idle (c : Console δ ω η) : Console δ ω η → Prop where
  | refl : Idle c c
  | step {d : Console δ ω η} : Idle c d → ¬ d.Executes → Idle c d.runStep.2
  | line {d : Console δ ω η} : Idle c d → Idle c d.foldLine
  | frame {d : Console δ ω η} : Idle c d → Idle c d.foldFrame
  | host {d : Console δ ω η} (act : HostAct η) : Idle c d → act.SparesProcessor →
      Idle c (act.run d)

variable {c d : Console δ ω η}

theorem runStep_idle (masked : (serveInterrupt c.core).cpu.regs.flags.interrupt = false)
    {hook : Option η} (passes : consultHook c.hook c.cpu = (false, hook))
    (idle : ¬ c.Executes) : c.runStep.2.cpu.regs.flags.interrupt = false := by
  have waits : ¬ ((serveInterrupt c.core).bus.transferActive = false ∧
      (serveInterrupt c.core).cpu.halted = false) := fun both => idle ⟨by rw [passes], both⟩
  rw [runStep_passed passes, proceed_regs, runCore_idle waits]
  exact masked

/-- Interrupts stay masked until an instruction. -/
theorem Idle.masked (idle : Idle c d) (masked : c.cpu.regs.flags.interrupt = false) :
    d.cpu.regs.flags.interrupt = false := by
  induction idle with
  | refl => exact masked
  | line _ ih => exact ih
  | frame _ ih => exact ih
  | host act _ spares ih =>
    cases act with
    | processor cpu => cases spares
    | access a => exact ih
    | request r => exact ih
    | hold buttons => exact ih
    | hook hook => exact ih
  | @step d _ waits ih =>
    rcases consulted : consultHook d.hook d.cpu with ⟨stop, hook⟩
    cases stop with
    | true =>
      rw [runStep_intercepted consulted]
      exact ih
    | false =>
      refine runStep_idle ?_ consulted waits
      rw [serveInterrupt_masked ih]
      exact ih

/-- The interrupt law of a step of a console that has heard a history. Interrupts are served once,
before the instruction: one is entered exactly when it is accepted and pending, for the highest
line. -/
structure Serves (c : Console δ ω η) (history : List Interrupts.Event) : Prop where
  told : c.board.interrupts.Told c.board.model history
  once : ∀ hook, consultHook c.hook c.cpu = (false, hook) →
    c.runStep = c.proceed hook (serveInterrupt c.core)
  entered_iff : serveInterrupt c.core ≠ c.core ↔ c.cpu.regs.flags.interrupt = true ∧
    c.board.interrupts.status &&& c.board.interrupts.enabled ≠ 0
  entered : serveInterrupt c.core ≠ c.core →
    ∃ line, LineSet.Highest (c.board.interrupts.status &&& c.board.interrupts.enabled) line ∧
      Entered c.core ((Interrupts.lastWritten 0xB0 history &&& c.board.model.vectorBaseMask) |||
        line.setWidth 8)
  waits : ∀ hook, consultHook c.hook c.cpu = (false, hook) → serveInterrupt c.core ≠ c.core →
    ¬ c.Executes → ∀ d, Idle c.runStep.2 d → serveInterrupt d.core = d.core

theorem Heard.serves {history : List Interrupts.Event} (heard : Heard c history) :
    c.Serves history := by
  have told : c.board.interrupts.Told c.board.model history := by
    rw [heard.hears]
    exact Interrupts.after_told _ history
  constructor
  case told => exact told
  case once =>
    intro hook passes
    exact runStep_passed passes
  case entered_iff => exact serveInterrupt_ne_iff c.core
  case entered =>
    intro entered
    obtain ⟨accepts, pending⟩ := (serveInterrupt_ne_iff c.core).mp entered
    rw [← told.base]
    exact serveInterrupt_pending accepts pending
  case waits =>
    intro hook passes entered idle d later
    obtain ⟨accepts, pending⟩ := (serveInterrupt_ne_iff c.core).mp entered
    obtain ⟨line, _, entry⟩ := serveInterrupt_pending accepts pending
    have after := runStep_idle entry.masked passes idle
    exact serveInterrupt_masked (later.masked after)

/-- The interrupt law. Whatever happens to a controller, it holds what its history tells;
every session of a console gives its controller a history; and every step of a console serves
interrupts by what its controller holds. -/
theorem interrupts_served :
    (∀ (model : Model) (history : List Interrupts.Event),
      (Interrupts.after model history {}).Told model history) ∧
    (∀ (c : Console δ ω η) (acts : List (Act η)), ∃ history,
      Heard (c.reset.session acts) history) ∧
    ∀ (c : Console δ ω η) (history : List Interrupts.Event), Heard c history →
      c.Serves history := by
  refine ⟨Interrupts.after_told, ?_, fun _ _ heard => heard.serves⟩
  intro c acts
  exact session_heard acts ⟨[], .powerOn c⟩

def bare : Console Empty Empty Empty where
  core.cpu := {}
  core.bus :=
    { model := .color
      bootstrapLocked := true
      sound := ⟨0, none⟩
      serial := ⟨0, none⟩
      cartridge := { rom := ⟨⟨#[0]⟩⟩, rom_pos := Nat.zero_lt_one, sramSize := 0 } }

/-- All lines are enabled, two of them are raised, and the processor accepts interrupts. -/
def requested : Console Empty Empty Empty :=
  bare.reset.session [
    .host (.access (.portOut 0xB2 0xFF)),
    .host (.access (.portOut 0xB0 0x21)),
    .host (.request { raise := LineSet.vblank ||| LineSet.key }),
    .host (.processor { regs := { flags := { interrupt := true } } })]

theorem interrupts_served_requested :
    Heard requested [.apply { raise := LineSet.vblank ||| LineSet.key }, .write 0xB0 0x21,
      .write 0xB2 0xFF] ∧
    serveInterrupt requested.core = (Exec.interrupt 0x26 requested.core).2 := by
  have heard : Heard requested [.apply { raise := LineSet.vblank ||| LineSet.key },
      .write 0xB0 0x21, .write 0xB2 0xFF] := by
    have wrote := (Heard.powerOn bare).host (.access (.portOut 0xB2 0xFF))
      |>.host (.access (.portOut 0xB0 0x21))
    exact (wrote.host (.request { raise := LineSet.vblank ||| LineSet.key })).host
      (.processor { regs := { flags := { interrupt := true } } })
  have serves := interrupts_served.2.2 requested _ heard
  have entered := serves.entered_iff.mpr (by decide)
  obtain ⟨line, highest, entry⟩ := serves.entered entered
  have status : requested.board.interrupts.status &&& requested.board.interrupts.enabled = 0x42 := by
    decide
  have vblank : ∀ line, LineSet.Highest 0x42 line → line = 6 := by
    unfold LineSet.Highest
    decide
  rw [status] at highest
  rw [vblank line highest] at entry
  exact ⟨heard, entry.served⟩

end Console

end Swan
