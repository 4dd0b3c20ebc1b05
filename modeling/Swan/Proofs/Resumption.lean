import Swan.Proofs.ConsoleStep
import Swan.Proofs.CycleAccounting

/-! Runs that the hook stops and the host takes up again. A line and a frame are the same
loop over different bodies, so resuming is shown once, of that loop: a body that can be
stopped and resumed makes a loop that can be. What a resumed run ends in is what a single
run without a hook ends in. -/
namespace Swan.Console

variable {δ ω η : Type}

def unhooked (c : Console δ ω η) : Console δ ω η := { c with hook := none }

def fill (body : Console δ ω η → RunOutcome × Console δ ω η) (filled : Console δ ω η → Nat)
    (budget : Nat) : (limit : Nat) → Console δ ω η → RunOutcome × Console δ ω η
  | limit, c =>
    if budget ≤ filled c then (.completed, c)
    else match limit with
      | 0 => (.stalled, c)
      | limit + 1 =>
        match body c with
        | (.completed, c) => fill body filled budget limit c
        | stopped => stopped

def finish (fold : Console δ ω η → Console δ ω η) :
    RunOutcome × Console δ ω η → RunOutcome × Console δ ω η
  | (.completed, c) => (.completed, fold c)
  | stopped => stopped

theorem finish_completed {fold : Console δ ω η → Console δ ω η} {ran : RunOutcome × Console δ ω η}
    {d : Console δ ω η} :
    finish fold ran = (.completed, d) ↔ ∃ e, ran = (.completed, e) ∧ fold e = d := by
  rcases ran with ⟨_ | _ | _, c⟩ <;> simp [finish]

theorem finish_intercepted {fold : Console δ ω η → Console δ ω η}
    {ran : RunOutcome × Console δ ω η} {d : Console δ ω η} :
    finish fold ran = (.intercepted, d) ↔ ran = (.intercepted, d) := by
  rcases ran with ⟨_ | _ | _, c⟩ <;> simp [finish]

theorem finish_stalled {fold : Console δ ω η → Console δ ω η}
    {ran : RunOutcome × Console δ ω η} {d : Console δ ω η} :
    finish fold ran = (.stalled, d) ↔ ran = (.stalled, d) := by
  rcases ran with ⟨_ | _ | _, c⟩ <;> simp [finish]

/-- Two states of which the later one has run a step, or else nothing that the clock or
the cancelled flag would show. -/
def Settled (c d : Console δ ω η) : Prop :=
  d.cancelled = false ∨ d.clock = c.clock ∧ d.cancelled = c.cancelled

theorem Settled.trans {c d e : Console δ ω η} (first : Settled c d) (second : Settled d e) :
    Settled c e := by
  rcases second with ran | ⟨clock, cancelled⟩
  · exact .inl ran
  · unfold Settled
    rwa [clock, cancelled]

/-- A call that the hook may stop at any point: stopped calls lose nothing of what the same
call does without a hook, and the hook changes nothing of what it does. -/
structure Resumable (run : Console δ ω η → RunOutcome × Console δ ω η) : Prop where
  completed : ∀ {c d}, run c = (.completed, d) →
    run c.unhooked = (.completed, d.unhooked) ∧ Settled c d
  intercepted : ∀ {c d}, run c = (.intercepted, d) →
    ∀ e, run d.unhooked = (.completed, e) ↔ run c.unhooked = (.completed, e)
  stalled : ∀ {c d}, run c = (.stalled, d) → ∀ e, run c.unhooked ≠ (.completed, e)

/-- Every completed call fills a unit at least, and a stopped one fills nothing. -/
structure Paced (body : Console δ ω η → RunOutcome × Console δ ω η)
    (filled : Console δ ω η → Nat) (unit : Nat) : Prop where
  progress : ∀ {c d}, body c = (.completed, d) → filled c + unit ≤ filled d
  kept : ∀ {c d}, body c = (.intercepted, d) → filled d = filled c
  unhooked : ∀ c : Console δ ω η, filled c.unhooked = filled c

section Fill

variable {body : Console δ ω η → RunOutcome × Console δ ω η} {filled : Console δ ω η → Nat}
  {budget unit : Nat} {c d : Console δ ω η}

theorem fill_full (full : budget ≤ filled c) (limit : Nat) :
    fill body filled budget limit c = (.completed, c) := by
  unfold fill
  rw [if_pos full]

theorem fill_succ (short : ¬ budget ≤ filled c) (limit : Nat) :
    fill body filled budget (limit + 1) c =
      match body c with
      | (.completed, d) => fill body filled budget limit d
      | stopped => stopped := by
  conv => lhs; unfold fill
  rw [if_neg short]

/-- Short of its budget, the loop completes from wherever a completed call leaves it. -/
theorem fill_succ_completed (short : ¬ budget ≤ filled c) (limit : Nat) :
    fill body filled budget (limit + 1) c = (.completed, d) ↔
      ∃ e, body c = (.completed, e) ∧ fill body filled budget limit e = (.completed, d) := by
  rw [fill_succ short]
  constructor
  · intro ran
    rcases once : body c with ⟨_ | _ | _, e⟩ <;> rw [once] at ran
    · exact ⟨e, rfl, ran⟩
    · cases ran
    · cases ran
  · rintro ⟨e, once, rest⟩
    rw [once]
    exact rest

/-- What the body keeps, the loop keeps. -/
theorem fill_keeps {α : Type} {q : Console δ ω η → α} (kept : ∀ c, q (body c).2 = q c) (limit : Nat)
    (c : Console δ ω η) : q (fill body filled budget limit c).2 = q c := by
  fun_induction fill body filled budget limit c with
  | case1 => rfl
  | case2 => rfl
  | case3 c short limit d once ih =>
    have first := kept c
    rw [once] at first
    exact ih.trans first
  | case4 c short limit stopped => exact kept c

variable (paced : Paced body filled unit)

include paced

/-- A limit that leaves room for enough units is never the reason to stop. -/
theorem fill_limit {m n : Nat} (hm : budget ≤ filled c + unit * m)
    (hn : budget ≤ filled c + unit * n) :
    fill body filled budget m c = fill body filled budget n c := by
  induction m generalizing c n with
  | zero => rw [fill_full hm, fill_full hm]
  | succ m ih =>
    by_cases full : budget ≤ filled c
    · rw [fill_full full, fill_full full]
    cases n with
    | zero => exact absurd hn full
    | succ n =>
      rw [Nat.mul_succ] at hm hn
      rw [fill_succ full, fill_succ full]
      rcases once : body c with ⟨_ | _ | _, d⟩
      · have progress := paced.progress once
        exact ih (by omega) (by omega)
      · rfl
      · rfl

variable (resumable : Resumable body)

include resumable

theorem fill_completed {limit : Nat} (ran : fill body filled budget limit c = (.completed, d)) :
    fill body filled budget limit c.unhooked = (.completed, d.unhooked) ∧ Settled c d := by
  fun_induction fill body filled budget limit c with
  | case1 limit c full =>
    cases ran
    rw [← paced.unhooked] at full
    exact ⟨fill_full full _, .inr ⟨rfl, rfl⟩⟩
  | case2 => cases ran
  | case3 c short limit e once ih =>
    obtain ⟨plain, settled⟩ := resumable.completed once
    obtain ⟨rest, settled'⟩ := ih ran
    refine ⟨(fill_succ_completed ?_ limit).mpr ⟨_, plain, rest⟩, settled.trans settled'⟩
    rwa [paced.unhooked]
  | case4 c short limit stopped => exact absurd ran (stopped d)

theorem fill_stalled {limit : Nat} (ran : fill body filled budget limit c = (.stalled, d))
    (e : Console δ ω η) : fill body filled budget limit c.unhooked ≠ (.completed, e) := by
  fun_induction fill body filled budget limit c with
  | case1 => cases ran
  | case2 c short =>
    unfold fill
    rw [if_neg (by rwa [paced.unhooked])]
    nofun
  | case3 c short limit c' once ih =>
    rw [ne_eq, fill_succ_completed (by rwa [paced.unhooked])]
    rintro ⟨p, plain, rest⟩
    rw [(resumable.completed once).1] at plain
    cases plain
    exact ih ran rest
  | case4 c short limit stopped =>
    rw [ne_eq, fill_succ_completed (by rwa [paced.unhooked])]
    rintro ⟨p, plain, _⟩
    exact resumable.stalled ran p plain

/-- A stopped loop is taken up where it was: it still has to call the body, which goes on
from where it was stopped itself. -/
theorem fill_intercepted {limit again : Nat} (room : budget ≤ filled c + unit * limit)
    (ample : budget ≤ unit * again) (ran : fill body filled budget limit c = (.intercepted, d))
    (e : Console δ ω η) :
    fill body filled budget again d.unhooked = (.completed, e) ↔
      fill body filled budget limit c.unhooked = (.completed, e) := by
  fun_induction fill body filled budget limit c with
  | case1 => cases ran
  | case2 => cases ran
  | case3 c short limit c' once ih =>
    have progress := paced.progress once
    rw [Nat.mul_succ] at room
    rw [ih (by omega) ran, fill_succ_completed (by rwa [paced.unhooked])]
    constructor
    · intro rest
      exact ⟨_, (resumable.completed once).1, rest⟩
    · rintro ⟨p, plain, rest⟩
      rw [(resumable.completed once).1] at plain
      cases plain
      exact rest
  | case4 c short limit stopped =>
    have kept : filled d.unhooked = filled c := by rw [paced.unhooked, paced.kept ran]
    -- Both loops call the body once more, and then have room to go on alike.
    cases again with
    | zero => exact absurd (Nat.le_trans ample (Nat.zero_le _)) short
    | succ again =>
      rw [fill_succ_completed (by rwa [kept]), fill_succ_completed (by rwa [paced.unhooked])]
      refine exists_congr fun p => ?_
      rw [resumable.intercepted ran p]
      refine and_congr_right fun plain => ?_
      have progress := paced.progress plain
      rw [paced.unhooked] at progress
      rw [Nat.mul_succ] at room ample
      rw [fill_limit paced (m := again) (n := limit) (by omega) (by omega)]

/-- The loop over a resumable body, followed by a fold that no hook sees, is resumable. -/
theorem Resumable.fill {limit : Nat} (ample : budget ≤ unit * limit)
    {fold : Console δ ω η → Console δ ω η} (blind : ∀ c, (fold c).unhooked = fold c.unhooked)
    (settles : ∀ c, Settled c (fold c)) :
    Resumable fun c => finish fold (Console.fill body filled budget limit c) where
  completed := by
    intro c d ran
    obtain ⟨e, filled, rfl⟩ := finish_completed.mp ran
    obtain ⟨plain, settled⟩ := fill_completed paced resumable filled
    rw [plain, blind]
    exact ⟨rfl, settled.trans (settles e)⟩
  intercepted := by
    intro c d ran e
    have room : budget ≤ filled c + unit * limit := Nat.le_trans ample (Nat.le_add_left _ _)
    rw [finish_completed, finish_completed]
    refine exists_congr fun f => and_congr_left fun _ => ?_
    exact fill_intercepted paced resumable room ample (finish_intercepted.mp ran) f
  stalled := by
    intro c d ran e completes
    obtain ⟨f, plain, _⟩ := finish_completed.mp completes
    exact fill_stalled paced resumable (finish_stalled.mp ran) f plain

end Fill

variable [Device δ] [Observer ω]

theorem proceed_unhooked (c : Console δ ω η) (hook : Option η) (core : Core (Board δ ω)) :
    c.unhooked.proceed none core = ((c.proceed hook core).1, (c.proceed hook core).2.unhooked) := by
  unfold proceed
  rcases runCore core with ⟨_ | cycles, after⟩ <;> rfl

variable [StepHook η]

theorem runStep_unhooked (c : Console δ ω η) :
    c.unhooked.runStep = c.unhooked.proceed none (serveInterrupt c.core) :=
  runStep_passed rfl

theorem runStep_completed {c d : Console δ ω η} (ran : c.runStep = (.completed, d)) :
    c.lineCycles < d.lineCycles ∧ c.clock.count < d.clock.count ∧ d.cancelled = false := by
  obtain ⟨hook, -, stops⟩ | ⟨hook, core, -, -, stalls⟩ |
    ⟨hook, cycles, cpu, board, -, -, paid, completes⟩ := c.runStep_cases
  · rw [stops] at ran
    cases ran
  · rw [stalls] at ran
    cases ran
  · rw [completes] at ran
    cases ran
    exact ⟨Nat.lt_add_of_pos_right paid, Nat.lt_add_of_pos_right paid, rfl⟩

/-- An intercepted step leaves everything but the hook and the cancelled flag alone. -/
theorem runStep_intercepted_eq {c d : Console δ ω η} (ran : c.runStep = (.intercepted, d)) :
    d = { c with hook := d.hook, cancelled := true } := by
  obtain ⟨hook, -, stops⟩ | ⟨hook, core, -, -, stalls⟩ |
    ⟨hook, cycles, cpu, board, -, -, -, completes⟩ := c.runStep_cases
  · rw [stops] at ran
    cases ran
    rfl
  · rw [stalls] at ran
    cases ran
  · rw [completes] at ran
    cases ran

theorem runStep_resumable : Resumable (runStep (δ := δ) (ω := ω) (η := η)) where
  completed := by
    intro c d ran
    have settled : Settled c d := .inl (runStep_completed ran).2.2
    rcases consulted : consultHook c.hook c.cpu with ⟨_ | _, hook⟩
    · rw [runStep_passed consulted] at ran
      rw [runStep_unhooked, proceed_unhooked c hook, ran]
      exact ⟨rfl, settled⟩
    · rw [runStep_intercepted consulted] at ran
      cases ran
  intercepted := by
    intro c d ran e
    rw [runStep_intercepted_eq ran, runStep_unhooked, runStep_unhooked]
    unfold proceed unhooked
    rcases runCore (serveInterrupt c.core) with ⟨_ | cycles, after⟩
    · exact ⟨nofun, nofun⟩
    · rfl
  stalled := by
    intro c d ran e
    rcases consulted : consultHook c.hook c.cpu with ⟨_ | _, hook⟩
    · rw [runStep_passed consulted] at ran
      rw [runStep_unhooked, proceed_unhooked c hook, ran]
      nofun
    · rw [runStep_intercepted consulted] at ran
      cases ran

theorem runStep_paced : Paced (runStep (δ := δ) (ω := ω) (η := η)) lineCycles 1 where
  progress ran := (runStep_completed ran).1
  kept ran := by rw [runStep_intercepted_eq ran]
  unhooked _ := rfl

theorem fillLine_eq (limit : Nat) (c : Console δ ω η) :
    c.fillLine limit = fill runStep lineCycles Model.cyclesPerLine limit c := by
  fun_induction Console.fillLine limit c with
  | case1 limit c full => rw [fill_full full]
  | case2 c short => unfold fill; rw [if_neg short]
  | case3 c short limit d ran ih => rw [fill_succ short, ran, ih]
  | case4 c short limit stopped =>
    rw [fill_succ short]
    rcases ran : c.runStep with ⟨_ | _ | _, d⟩
    · exact absurd ran (stopped d)
    · rfl
    · rfl

theorem runLine_eq (c : Console δ ω η) :
    c.runLine =
      finish foldLine (fill runStep lineCycles Model.cyclesPerLine Model.cyclesPerLine c) := by
  rw [runLine, fillLine_eq]
  rfl

theorem runLine_resumable : Resumable (runLine (δ := δ) (ω := ω) (η := η)) := by
  have paced : Paced (runStep (δ := δ) (ω := ω) (η := η)) lineCycles 1 := runStep_paced
  have ample : Model.cyclesPerLine ≤ 1 * Model.cyclesPerLine := by decide
  have blind (c : Console δ ω η) : c.foldLine.unhooked = c.unhooked.foldLine := rfl
  have settles (c : Console δ ω η) : Settled c c.foldLine := .inr ⟨rfl, rfl⟩
  rw [funext (runLine_eq (δ := δ) (ω := ω) (η := η))]
  exact .fill paced runStep_resumable ample blind settles

theorem runStep_frameCycles (c : Console δ ω η) : c.runStep.2.frameCycles = c.frameCycles := by
  obtain ⟨hook, -, stops⟩ | ⟨hook, core, -, -, stalls⟩ |
    ⟨hook, cycles, cpu, board, -, -, -, completes⟩ := c.runStep_cases
  · rw [stops]
  · rw [stalls]
  · rw [completes]

theorem runLine_paced : Paced (runLine (δ := δ) (ω := ω) (η := η)) frameCycles
    Model.cyclesPerLine where
  progress ran := (runLine_frameCycles ran).2
  kept := by
    intro c d ran
    rw [runLine_eq] at ran
    have stopped := finish_intercepted.mp ran
    have kept : (fill runStep lineCycles Model.cyclesPerLine Model.cyclesPerLine c).2.frameCycles =
        c.frameCycles := fill_keeps runStep_frameCycles Model.cyclesPerLine c
    rwa [stopped] at kept
  unhooked _ := rfl

theorem fillFrame_eq (limit : Nat) (c : Console δ ω η) :
    c.fillFrame limit = fill runLine frameCycles Model.cyclesPerFrame limit c := by
  fun_induction Console.fillFrame limit c with
  | case1 limit c full => rw [fill_full full]
  | case2 c short => unfold fill; rw [if_neg short]
  | case3 c short limit d ran ih => rw [fill_succ short, ran, ih]
  | case4 c short limit stopped =>
    rw [fill_succ short]
    rcases ran : c.runLine with ⟨_ | _ | _, d⟩
    · exact absurd ran (stopped d)
    · rfl
    · rfl

theorem runFrame_eq (c : Console δ ω η) :
    c.runFrame =
      finish foldFrame (fill runLine frameCycles Model.cyclesPerFrame Model.linesPerFrame c) := by
  rw [runFrame, fillFrame_eq]
  rfl

theorem runFrame_resumable : Resumable (runFrame (δ := δ) (ω := ω) (η := η)) := by
  have paced : Paced (runLine (δ := δ) (ω := ω) (η := η)) frameCycles Model.cyclesPerLine :=
    runLine_paced
  have ample : Model.cyclesPerFrame ≤ Model.cyclesPerLine * Model.linesPerFrame := by decide
  have blind (c : Console δ ω η) : c.foldFrame.unhooked = c.unhooked.foldFrame := rfl
  have settles (c : Console δ ω η) : Settled c c.foldFrame := .inr ⟨rfl, rfl⟩
  rw [funext (runFrame_eq (δ := δ) (ω := ω) (η := η))]
  exact .fill paced runLine_resumable ample blind settles

omit [Device δ] [Observer ω] [StepHook η] in
/-- A call made again and again, as long as the hook stops it. The host may put in another
hook before it calls again. -/
inductive Stopped (run : Console δ ω η → RunOutcome × Console δ ω η) :
    Console δ ω η → Console δ ω η → Prop where
  | refl (c : Console δ ω η) : Stopped run c c
  | again {c d e : Console δ ω η} (hook : Option η) : run c = (.intercepted, d) →
      Stopped run { d with hook } e → Stopped run c e

omit [Device δ] [Observer ω] [StepHook η] in
theorem Resumable.stopped {run : Console δ ω η → RunOutcome × Console δ ω η}
    (resumable : Resumable run) {c d : Console δ ω η} (stopped : Stopped run c d)
    (e : Console δ ω η) :
    run d.unhooked = (.completed, e) ↔ run c.unhooked = (.completed, e) := by
  induction stopped with
  | refl => rfl
  | again hook once _ ih => exact ih.trans (resumable.intercepted once e)

/-- The hook is transparent. A line or a frame that is called again until it completes, whatever
the hook answers on the way, ends in the state in which one call without a hook ends. -/
theorem interception_transparent (c : Console δ ω η) :
    (∀ d, c.runStep = (.intercepted, d) → d = { c with hook := d.hook, cancelled := true }) ∧
    (∀ d, c.runStep = (.completed, d) → c.clock.count < d.clock.count ∧ d.cancelled = false) ∧
    ∀ run ∈ [runLine (δ := δ) (ω := ω) (η := η), runFrame], ∀ d, Stopped run c d →
      (∀ e, run d = (.completed, e) →
        run c.unhooked = (.completed, e.unhooked) ∧ (e.clock ≠ d.clock → e.cancelled = false)) ∧
      (∀ e, run c.unhooked = (.completed, e) →
        run d.unhooked = (.completed, e) ∧ (run d).1 ≠ .stalled) := by
  refine ⟨fun d => runStep_intercepted_eq, fun d ran => (runStep_completed ran).2, ?_⟩
  intro run member d stopped
  have resumable : Resumable run := by
    simp only [List.mem_cons, List.not_mem_nil, or_false] at member
    rcases member with rfl | rfl
    · exact runLine_resumable
    · exact runFrame_resumable
  constructor
  · intro e ran
    obtain ⟨plain, settled⟩ := resumable.completed ran
    refine ⟨(resumable.stopped stopped e.unhooked).mp plain, fun moved => ?_⟩
    rcases settled with cleared | ⟨clock, _⟩
    · exact cleared
    · exact absurd clock moved
  · intro e plain
    have resumed := (resumable.stopped stopped e).mpr plain
    exact ⟨resumed, fun stuck => resumable.stalled (Prod.ext stuck rfl) e resumed⟩

/-- A hook that gives its answers from a list, and lets every step pass after that. -/
structure Answers where
  list : List Bool

instance : StepHook Answers where
  intercept
    | ⟨[]⟩, _ => (false, ⟨[]⟩)
    | ⟨answer :: rest⟩, _ => (answer, ⟨rest⟩)

/-- Two cycles before the end of a line, with a halted processor, and a hook that stops the
first step and then one between the two that are left. -/
def waiting : Console Empty Empty Answers where
  core.cpu.halted := true
  core.bus :=
    { model := .mono
      bootstrapLocked := true
      sound := ⟨0, none⟩
      serial := ⟨0, none⟩
      cartridge := { rom := ⟨⟨#[0]⟩⟩, rom_pos := by decide, sramSize := 0 } }
  lineCycles := 254
  hook := some ⟨[true, false, true]⟩

theorem interception_transparent_waiting :
    let d := waiting.runLine.2
    let e := d.runLine.2
    let f := e.runLine.2
    waiting.runLine.1 = .intercepted ∧ d.runLine.1 = .intercepted ∧ e.runLine.1 = .completed ∧
      waiting.unhooked.runLine = (.completed, f.unhooked) ∧ f.clock = ⟨2⟩ ∧
      f.cancelled = false := by
  intro d e f
  have first : waiting.runLine = (.intercepted, d) := Prod.ext (by decide +kernel) rfl
  have second : d.runLine = (.intercepted, e) := Prod.ext (by decide +kernel) rfl
  have third : e.runLine = (.completed, f) := Prod.ext (by decide +kernel) rfl
  have stopped : Stopped runLine waiting e := .again d.hook first (.again e.hook second (.refl e))
  obtain ⟨plain, cleared⟩ := ((interception_transparent waiting).2.2 runLine
    List.mem_cons_self e stopped).1 f third
  have clock : f.clock = ⟨2⟩ := by decide +kernel
  have moved : f.clock ≠ e.clock := by decide +kernel
  exact ⟨by rw [first], by rw [second], by rw [third], plain, clock, cleared moved⟩

end Swan.Console
