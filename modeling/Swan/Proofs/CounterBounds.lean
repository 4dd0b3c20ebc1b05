import Swan.Proofs.CycleLedger
import Swan.Proofs.FrameEnd
import Swan.Proofs.InterruptService
import Swan.Proofs.RasterPhase

/-! How far the counters of a console run up. A line and a frame keep what the last step overshoots
them by, and an interrupt that is entered while a transfer holds the processor waits for the step
that pays for it. So the counters depend on each other, and on what a single step can cost, but on
nothing else: however long a console runs, no counter is ever more than a step ahead of the
others, and only one interrupt is owed for. -/
namespace Swan

/-- Nothing is owed, or a single interrupt from outside, and then no other is accepted. -/
def Cpu.OwesOne (cpu : Cpu) : Prop :=
  cpu.deferred = 0 ∨ cpu.deferred = interruptCycles ∧ cpu.regs.flags.interrupt = false

namespace Exec

variable {β : Type} [Bus β]

/-- However a step ends, it takes over what is owed. -/
theorem step_deferred (c : Core β) : (step c).2.cpu.deferred = 0 := by
  rcases stepped : step c with ⟨_ | cycles, d⟩
  · obtain ⟨regs, prefixes, bus, rfl⟩ := stepWithin_stalled stepped
    rfl
  · exact (stepWithin_bill stepped).2

/-- Before a step counts its cycles it owes for a trap of its own at most. -/
theorem retire_owes {c d : Core β} {opcode : Byte} {n : Nat}
    (fetched : fetchOpcode? 0 fetchLimit (takeDeferred c).2 = (some (opcode, n), d))
    (trap : Bool) :
    (retire opcode trap d).2.cpu.deferred = 0 ∨ (retire opcode trap d).2.cpu.deferred = 32 := by
  obtain ⟨_, l, _, _, regs, bus, rfl⟩ := fetchOpcode?_some fetched
  rw [(retire_bill opcode trap _).2]
  cases trap
  · exact .inl rfl
  · exact .inr rfl

end Exec

namespace Board

variable {δ ω : Type} [Device δ] [Observer ω]

theorem dot_stable (dot : Nat) : Stable fun b : Board δ ω => b.raster.dot = dot :=
  raster_stable fun r p v kept => (r.writePort_place p v).2.trans kept

end Board

namespace Console

variable {δ ω η : Type}

section Loop

variable {body : Console δ ω η → RunOutcome × Console δ ω η} {filled : Console δ ω η → Nat}
  {budget : Nat}

/-- What holds where a loop starts, and after each of its calls if it held before, holds wherever
it comes to. -/
theorem Rounds.reaches {P : Console δ ω η → Prop} {n : Nat} {c d : Console δ ω η}
    (rounds : Rounds body filled budget n c d) (start : P c)
    (next : ∀ n d e, Rounds body filled budget n c d → P d → filled d < budget →
      body d = (.completed, e) → P e) : P d := by
  induction rounds with
  | zero => exact start
  | next short once _ ih =>
    refine ih (next 0 _ _ (.zero _) start short once) fun n e f rounds => ?_
    exact next (n + 1) e f (.next short once rounds)

/-- A loop has not called yet, or has gone on from its first call. -/
theorem Rounds.first {n : Nat} {c d : Console δ ω η} (rounds : Rounds body filled budget n c d) :
    d = c ∨ (body c).1 = .completed ∧ ∃ n, Rounds body filled budget n (body c).2 d := by
  cases rounds with
  | zero => exact .inl rfl
  | next _ once rest =>
    rw [once]
    exact .inr ⟨rfl, _, rest⟩

theorem finish_stopped {fold : Console δ ω η → Console δ ω η} {ran : RunOutcome × Console δ ω η}
    (stopped : ran.1 ≠ .completed) : finish fold ran = ran := by
  rcases ran with ⟨_ | _ | _, c⟩
  · exact absurd rfl stopped
  · rfl
  · rfl

/-- Where a loop ends: full, after calls that completed; or short of its budget, at its limit or
in a call that did not complete. -/
theorem fill_reaches (body : Console δ ω η → RunOutcome × Console δ ω η)
    (filled : Console δ ω η → Nat) (budget limit : Nat) (c : Console δ ω η) :
    ∃ n e, Rounds body filled budget n c e ∧
      (fill body filled budget limit c = (.completed, e) ∧ budget ≤ filled e ∨
        filled e < budget ∧ (fill body filled budget limit c).1 ≠ .completed ∧
          (fill body filled budget limit c = (.stalled, e) ∨
            fill body filled budget limit c = body e)) := by
  fun_induction fill body filled budget limit c with
  | case1 limit c full => exact ⟨0, c, .zero c, .inl ⟨rfl, full⟩⟩
  | case2 c short => exact ⟨0, c, .zero c, .inr ⟨Nat.lt_of_not_le short, RunOutcome.noConfusion, .inl rfl⟩⟩
  | case3 c short limit d once ih =>
    obtain ⟨n, e, rounds, ends⟩ := ih
    exact ⟨n + 1, e, .next (Nat.lt_of_not_le short) once rounds, ends⟩
  | case4 c short limit stopped =>
    refine ⟨0, c, .zero c, .inr ⟨Nat.lt_of_not_le short, ?_, .inr rfl⟩⟩
    exact fun completed => stopped _ (Prod.ext completed rfl)

end Loop

/-- What is known of a console between two steps, if no step costs more than a bound. -/
structure Bounded (m : Nat) (c : Console δ ω η) : Prop where
  line : c.lineCycles ≤ 255 + m
  frame : c.frameCycles ≤ 40958 + m
  dot : c.board.raster.dot < 256
  owes : c.cpu.OwesOne

/-- What is known of a console between two calls. A line is under way only in a frame that is. -/
structure Rests (m : Nat) (c : Console δ ω η) : Prop extends Bounded m c where
  short : c.lineCycles < 256
  within : c.lineCycles = 0 ∨ c.frameCycles < 40704

theorem Bounded.foldLine {m : Nat} {e : Console δ ω η} (bounded : Bounded m e)
    (within : e.frameCycles < 40704) : Rests m e.foldLine := by
  have line := bounded.line
  have frame : e.frameCycles + e.lineCycles ≤ 40958 + m := by omega
  exact {
    line := Nat.zero_le _
    frame
    dot := bounded.dot
    owes := bounded.owes
    short := Nat.zero_lt_succ _
    within := .inl rfl }

theorem Rests.foldFrame {m : Nat} {d : Console δ ω η} (rests : Rests m d)
    (full : 40704 ≤ d.frameCycles) :
    Rests m d.foldFrame ∧ d.foldFrame.frameCycles ≤ 254 + m ∧ d.foldFrame.lineCycles = 0 := by
  have frame := rests.frame
  have carried : d.frameCycles - 40704 ≤ 254 + m := by omega
  have noLine : d.lineCycles = 0 := rests.within.resolve_right (Nat.not_lt.mpr full)
  refine ⟨?_, carried, noLine⟩
  exact {
    line := rests.line
    frame := Nat.le_trans carried (by omega)
    dot := rests.dot
    owes := rests.owes
    short := rests.short
    within := .inl noLine }

variable [Device δ] [Observer ω]

theorem serveInterrupt_owes {core : Core (Board δ ω)} (owes : core.cpu.OwesOne) :
    (serveInterrupt core).cpu.OwesOne := by
  unfold serveInterrupt
  split
  case isTrue => exact owes
  case isFalse accepts =>
    split
    · exact owes
    · rename_i line _
      have settled : core.cpu.deferred = 0 := owes.resolve_right fun ⟨_, masked⟩ => by
        rw [masked] at accepts
        exact accepts rfl
      obtain ⟨regs, bus, entered⟩ := Exec.interrupt_frame (core.bus.interrupts.vector line) core
      refine .inr ⟨?_, by rw [Exec.interrupt_flags]⟩
      rw [entered]
      exact congrArg (· + interruptCycles) settled

theorem runCore_owes {core : Core (Board δ ω)} (owes : core.cpu.OwesOne) :
    (runCore core).2.cpu.OwesOne := by
  cases active : core.bus.transferActive with
  | true =>
    rw [runCore_active active]
    exact owes
  | false =>
    rw [runCore_free active]
    exact .inl (Exec.step_deferred core)

/-- Up to where the devices are stepped, the raster stands still. -/
theorem runCore_dot (core : Core (Board δ ω)) :
    (runCore (serveInterrupt core)).2.bus.raster.dot = core.bus.raster.dot :=
  runCore_keeps (Board.dot_stable _) (fun _ h => h)
    (serveInterrupt_keeps (Board.dot_stable _).toMemoryStable rfl)

variable [StepHook η]

/-- The states that a frame call comes to between two steps. -/
def Visits (c e : Console δ ω η) : Prop :=
  ∃ k d n, Lines k c d ∧ d.frameCycles < Model.cyclesPerFrame ∧ Steps n d e

/-- No step that a frame call completes costs more than a bound. -/
def Costs (m : Nat) (c : Console δ ω η) : Prop :=
  ∀ e f, Visits c e → e.lineCycles < Model.cyclesPerLine → e.runStep = (.completed, f) →
    f.lineCycles ≤ e.lineCycles + m

theorem runStep_places {c : Console δ ω η} (dot : c.board.raster.dot < 256)
    (owes : c.cpu.OwesOne) :
    c.runStep.2.board.raster.dot < 256 ∧ c.runStep.2.cpu.OwesOne := by
  have still := runCore_dot c.core
  have settles := runCore_owes (serveInterrupt_owes owes)
  obtain ⟨hook, -, stops⟩ | ⟨hook, core, -, ran, stalls⟩ |
    ⟨hook, cycles, cpu, board, -, ran, -, completes⟩ := c.runStep_cases
  · rw [stops]
    exact ⟨dot, owes⟩
  · rw [stalls]
    rw [ran] at still settles
    exact ⟨still ▸ dot, settles⟩
  · rw [completes]
    rw [ran] at settles
    refine ⟨?_, settles⟩
    show (board.raster.step cycles).2.dot < 256
    rw [Raster.step_dot]
    exact Nat.mod_lt _ (by decide)

/-- A step that does not complete counts nothing. -/
theorem runStep_stopped {c : Console δ ω η} (stopped : c.runStep.1 ≠ .completed) :
    c.runStep.2.lineCycles = c.lineCycles := by
  obtain ⟨hook, -, stops⟩ | ⟨hook, core, -, -, stalls⟩ |
    ⟨hook, cycles, cpu, board, -, -, -, completes⟩ := c.runStep_cases
  · rw [stops]
  · rw [stalls]
  · exact absurd (congrArg Prod.fst completes) stopped

theorem Bounded.completed {m : Nat} {c d : Console δ ω η} (bounded : Bounded m c)
    (short : c.lineCycles < 256) (ran : c.runStep = (.completed, d))
    (cost : d.lineCycles ≤ c.lineCycles + m) : Bounded m d := by
  have frame := c.runStep_frameCycles
  have places := runStep_places bounded.dot bounded.owes
  rw [ran] at frame places
  obtain ⟨dot, owes⟩ := places
  constructor
  case line => omega
  case frame => exact frame ▸ bounded.frame
  case dot => exact dot
  case owes => exact owes

/-- A step that does not complete leaves a console where it can rest. -/
theorem Bounded.stopped {m : Nat} {c : Console δ ω η} (bounded : Bounded m c)
    (short : c.lineCycles < 256) (within : c.frameCycles < 40704)
    (stopped : c.runStep.1 ≠ .completed) : Rests m c.runStep.2 := by
  have frame := c.runStep_frameCycles
  have line := runStep_stopped stopped
  obtain ⟨dot, owes⟩ := runStep_places bounded.dot bounded.owes
  exact {
    line := line ▸ bounded.line
    frame := frame ▸ bounded.frame
    dot
    owes
    short := line ▸ short
    within := .inr (frame ▸ within) }

section Call

variable {m : Nat} {c : Console δ ω η}

/-- In a line, a step is made short of the line's end only. -/
theorem Rests.steps (costs : Costs m c) {k n : Nat} {d e : Console δ ω η} (lines : Lines k c d)
    (rests : Rests m d) (within : d.frameCycles < 40704) (steps : Steps n d e) :
    Bounded m e ∧ e.frameCycles < 40704 := by
  have start : Bounded m d ∧ d.frameCycles < 40704 := ⟨rests.toBounded, within⟩
  refine steps.reaches (P := fun e => Bounded m e ∧ e.frameCycles < 40704) start
    fun n e f steps reached short ran => ?_
  have cost := costs e f ⟨k, d, n, lines, within, steps⟩ short ran
  have frame := e.runStep_frameCycles
  rw [ran] at frame
  exact ⟨reached.1.completed short ran cost, frame ▸ reached.2⟩

/-- However a line ends, the console can rest there. -/
theorem Rests.runLine (costs : Costs m c) {k : Nat} {d : Console δ ω η} (lines : Lines k c d)
    (rests : Rests m d) (within : d.frameCycles < 40704) : Rests m d.runLine.2 := by
  rw [runLine_eq]
  obtain ⟨n, e, steps, ends⟩ := fill_reaches runStep lineCycles Model.cyclesPerLine
    Model.cyclesPerLine d
  obtain ⟨bounded, within⟩ := rests.steps costs lines within steps
  obtain ⟨full, -⟩ | ⟨short, stops, limit | stopped⟩ := ends
  · rw [full]
    exact bounded.foldLine within
  · rw [finish_stopped stops, limit]
    exact { bounded with short, within := .inr within }
  · rw [finish_stopped stops, stopped]
    exact bounded.stopped short within (stopped ▸ stops)

/-- In a frame, the console can rest at the end of each line. -/
theorem Rests.lines (costs : Costs m c) (rests : Rests m c) {k : Nat} {d : Console δ ω η}
    (lines : Lines k c d) : Rests m d := by
  refine lines.reaches (P := Rests m) rests fun k d e lines rests within ran => ?_
  have after := rests.runLine costs lines within
  rwa [ran] at after

theorem Rests.runFrame (costs : Costs m c) (rests : Rests m c) : Rests m c.runFrame.2 ∧
    ∀ d, c.runFrame = (.completed, d) → d.frameCycles ≤ 254 + m ∧ d.lineCycles = 0 := by
  rw [runFrame_eq]
  obtain ⟨k, d, lines, ends⟩ := fill_reaches Console.runLine frameCycles Model.cyclesPerFrame
    Model.linesPerFrame c
  have resting := rests.lines costs lines
  obtain ⟨completed, full⟩ | ⟨within, stops, ends⟩ := ends
  · obtain ⟨after, carried⟩ := resting.foldFrame full
    rw [completed]
    refine ⟨after, ?_⟩
    rintro e ⟨⟩
    exact carried
  · rw [finish_stopped stops]
    refine ⟨?_, fun e ran => absurd (congrArg Prod.fst ran) stops⟩
    obtain limit | stopped := ends
    · rw [limit]
      exact resting
    · rw [stopped]
      exact resting.runLine costs lines within

end Call

def RunsFor (e : Console δ ω η) (cycles : Nat) (after : Core (Board δ ω)) : Prop :=
  (consultHook e.hook e.cpu).1 = false ∧ runCore (serveInterrupt e.core) = (some cycles, after)

theorem RunsFor.completes {e : Console δ ω η} {cycles : Nat} {after : Core (Board δ ω)}
    (runs : RunsFor e cycles after) :
    ∃ f, e.runStep = (.completed, f) ∧ f.lineCycles = e.lineCycles + cycles := by
  obtain ⟨passed, ran⟩ := runs
  have passes : consultHook e.hook e.cpu = (false, (consultHook e.hook e.cpu).2) :=
    Prod.ext passed rfl
  rw [runStep_passed passes, proceed, ran]
  exact ⟨_, rfl, rfl⟩

/-- Every sum that a frame call forms on the counters is in range: of what is owed, of a step, of a
line and of a frame. A frame is taken off a full one only. -/
structure InRange (step frame : Nat) (c : Console δ ω η) : Prop where
  served : ∀ e, Visits c e → (serveInterrupt e.core).cpu.OwesOne
  trapped : ∀ e, Visits c e → ∀ opcode n d, Exec.fetchOpcode? 0 Exec.fetchLimit
      (Exec.takeDeferred (serveInterrupt e.core)).2 = (some (opcode, n), d) →
    ∀ trap, (Exec.retire opcode trap d).2.cpu.deferred = 0 ∨
      (Exec.retire opcode trap d).2.cpu.deferred = 32
  line : ∀ e cycles after, Visits c e → e.lineCycles < 256 → RunsFor e cycles after →
    e.lineCycles + cycles ≤ step
  raster : ∀ e cycles after, Visits c e → e.lineCycles < 256 → RunsFor e cycles after →
    after.bus.raster.dot + cycles ≤ step
  frame : ∀ e, Visits c e → e.frameCycles + e.lineCycles ≤ frame
  full : ∀ d, c.fillFrame Model.linesPerFrame = (.completed, d) → 40704 ≤ d.frameCycles

theorem InRange.mono {step frame step' frame' : Nat} {c : Console δ ω η}
    (inRange : InRange step frame c) (wider : step ≤ step') (wider' : frame ≤ frame') :
    InRange step' frame' c :=
  { inRange with
    line := fun e cycles after visits short runs =>
      Nat.le_trans (inRange.line e cycles after visits short runs) wider
    raster := fun e cycles after visits short runs =>
      Nat.le_trans (inRange.raster e cycles after visits short runs) wider
    frame := fun e visits => Nat.le_trans (inRange.frame e visits) wider' }

theorem Rests.visits {m : Nat} {c e : Console δ ω η} (costs : Costs m c) (rests : Rests m c)
    (visits : Visits c e) : Bounded m e ∧ e.frameCycles < 40704 := by
  obtain ⟨k, d, n, lines, within, steps⟩ := visits
  exact (rests.lines costs lines).steps costs lines within steps

theorem Rests.inRange {m : Nat} {c : Console δ ω η} (costs : Costs m c) (rests : Rests m c) :
    InRange (255 + m) (40958 + m) c := by
  have cost {e : Console δ ω η} {cycles : Nat} {after : Core (Board δ ω)} (visits : Visits c e)
      (short : e.lineCycles < 256) (runs : RunsFor e cycles after) : cycles ≤ m := by
    obtain ⟨f, ran, counted⟩ := runs.completes
    have bound := costs e f visits short ran
    omega
  constructor
  case served => exact fun e visits => serveInterrupt_owes (rests.visits costs visits).1.owes
  case trapped => exact fun e _ opcode n d fetched trap => Exec.retire_owes fetched trap
  case line =>
    intro e cycles after visits short runs
    have := cost visits short runs
    omega
  case raster =>
    intro e cycles after visits short runs
    have := cost visits short runs
    have placed : e.core.bus.raster.dot < 256 := (rests.visits costs visits).1.dot
    have still : after.bus.raster.dot = e.core.bus.raster.dot := by
      rw [← runCore_dot e.core, runs.2]
    omega
  case frame =>
    intro e visits
    obtain ⟨bounded, within⟩ := rests.visits costs visits
    have line := bounded.line
    omega
  case full => exact fun d filled => (fillFrame_completed filled).1

/-- A frame whose first line does not complete is that line. -/
theorem runFrame_of_stopped {c : Console δ ω η} (within : c.frameCycles < 40704)
    (stops : c.runLine.1 ≠ .completed) : c.runFrame = c.runLine := by
  have room : ¬ Model.cyclesPerFrame ≤ c.frameCycles := Nat.not_le.mpr within
  rw [runFrame_eq, Model.linesPerFrame, fill_succ room]
  rcases ran : c.runLine with ⟨_ | _ | _, d⟩
  · rw [ran] at stops
    exact absurd rfl stops
  · rfl
  · rfl

/-- A console that was built and then run by frames and resets, no step of which cost more than a
bound. A host may change its hook and all of its board but the raster's place. -/
inductive Ran (m : Nat) : Console δ ω η → Prop where
  | built {config : Config} {c : Console δ ω η} : build config = .ok c → Ran m c
  | reset {c : Console δ ω η} : Ran m c → Ran m c.reset
  | frame {c : Console δ ω η} : Ran m c → Costs m c → Ran m c.runFrame.2
  | host {c : Console δ ω η} (board : Board δ ω) (hook : Option η) : Ran m c →
      board.raster.dot = c.board.raster.dot → Ran m { c with core.bus := board, hook }

omit [Observer ω] [StepHook η] in
theorem rests_reset (m : Nat) (c : Console δ ω η) : Rests m c.reset where
  line := Nat.zero_le _
  frame := Nat.zero_le _
  dot := Nat.zero_lt_succ _
  owes := .inl rfl
  short := Nat.zero_lt_succ _
  within := .inl rfl

theorem Ran.rests {m : Nat} {c : Console δ ω η} (ran : Ran m c) : Rests m c := by
  induction ran with
  | built built =>
    obtain ⟨d, rfl⟩ := build_eq_reset built
    exact rests_reset m d
  | reset => exact rests_reset m _
  | frame _ costs ih => exact (ih.runFrame costs).1
  | host board hook _ same ih =>
    exact {
      line := ih.line
      frame := ih.frame
      dot := same ▸ ih.dot
      owes := ih.owes
      short := ih.short
      within := ih.within }

/-- The counters stay small. However long a console is run by frames and resets, none is ever ahead
by more than a step; so 32 bits hold every sum if no step costs over 4294901760 cycles. -/
theorem counters_bounded {m : Nat} {c : Console δ ω η} (ran : Ran m c) :
    (Bounded m c ∧ c.lineCycles < 256) ∧
    (Costs m c →
      (∀ e, Visits c e → Bounded m e) ∧
      (∀ k d, Lines k c d → Bounded m d ∧ d.lineCycles < 256) ∧
      InRange (255 + m) (40958 + m) c ∧
      (m ≤ 4294901760 → InRange 4294967295 4294967295 c) ∧
      ∀ d, c.runFrame = (.completed, d) → d.frameCycles ≤ 254 + m ∧ d.lineCycles = 0) := by
  have rests := ran.rests
  refine ⟨⟨rests.toBounded, rests.short⟩, fun costs => ⟨?_, ?_, ?_, ?_, ?_⟩⟩
  · exact fun e visits => (rests.visits costs visits).1
  · intro k d lines
    have resting := rests.lines costs lines
    exact ⟨resting.toBounded, resting.short⟩
  · exact rests.inRange costs
  · intro small
    exact (rests.inRange costs).mono (by omega) (by omega)
  · exact (rests.runFrame costs).2

omit [Device δ] [Observer ω] [StepHook η] in
/-- But for its board, a console that was just built is always the same. -/
theorem build_core [Device δ] {config : Config} {c : Console δ ω η} (built : build config = .ok c) :
    c = { core := { cpu := {}, bus := c.board } } := by
  simp only [build, bind, Except.bind, pure, Except.pure] at built
  repeat' split at built
  all_goals cases built
  all_goals rfl

/-- A new console in which the host has put a cartridge that pushes all registers, again and again,
and a hook that stops the third step. -/
def pushing : Console Empty Empty Answers where
  core.cpu := {}
  core.bus := { bare.board with cartridge.rom := ⟨⟨#[0x60]⟩⟩ }
  hook := some ⟨[false, false, true]⟩

theorem pushing_runLine : pushing.runLine.1 = .intercepted := by decide +kernel

theorem pushing_third : pushing.runStep.2.runStep.2.runStep.1 = .intercepted := by decide +kernel

theorem pushing_visits {e : Console Empty Empty Answers} (visits : Visits pushing e) :
    e = pushing ∨ e = pushing.runStep.2 ∨ e = pushing.runStep.2.runStep.2 := by
  obtain ⟨k, d, n, lines, -, steps⟩ := visits
  have start : d = pushing := lines.first.resolve_right fun ⟨completed, _⟩ => by
    rw [pushing_runLine] at completed
    cases completed
  rw [start] at steps
  rcases steps.first with first | ⟨-, n, steps⟩
  · exact .inl first
  rcases steps.first with second | ⟨-, n, steps⟩
  · exact .inr (.inl second)
  rcases steps.first with third | ⟨completed, -⟩
  · exact .inr (.inr third)
  · rw [pushing_third] at completed
    cases completed

theorem pushing_costs : Costs 9 pushing := by
  intro e f visits _ ran
  have after : f = e.runStep.2 := by rw [ran]
  rw [after]
  rcases pushing_visits visits with state | state | state <;> rw [state] <;> decide +kernel

theorem counters_bounded_pushing :
    Ran 9 pushing ∧ Costs 9 pushing ∧ pushing.runFrame.2.lineCycles = 18 ∧
      Bounded 9 pushing.runFrame.2 ∧ InRange 4294967295 4294967295 pushing := by
  have ran : Ran 9 pushing := by
    obtain ⟨c, built⟩ := build_zeros_bank (δ := Empty) (ω := Empty) (η := Answers) .color 0
    have start : c.board.raster.dot = 0 := by
      obtain ⟨_, _, _, _, eq⟩ := build_board built
      rw [eq]
      rfl
    have placed := Ran.host (m := 9) pushing.board pushing.hook (.built built) start.symm
    rw [build_core built] at placed
    exact placed
  have bounds := counters_bounded ran
  refine ⟨ran, pushing_costs, ?_, ?_, ?_⟩
  · have stops : pushing.runLine.1 ≠ .completed := by
      rw [pushing_runLine]
      nofun
    rw [runFrame_of_stopped (Nat.zero_lt_succ _) stops]
    decide +kernel
  · exact (counters_bounded (.frame ran pushing_costs)).1.1
  · exact (bounds.2 pushing_costs).2.2.2.1 (by decide)

end Console

end Swan
