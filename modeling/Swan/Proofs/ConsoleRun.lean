import Swan.Console.Scheduler

/-! The run calls of a console. A line and a frame are made of steps and of the two folds
that end them, so what every step and every fold carries from one state to the next is
carried by whole calls, wherever the hook stops them. -/
namespace Swan.Console

variable {δ ω η : Type} [Device δ] [Observer ω] [StepHook η]

/-- A relation that steps and line ends carry on. -/
structure Carried (R : Console δ ω η → Console δ ω η → Prop) : Prop where
  refl : ∀ c, R c c
  trans : ∀ {c d e}, R c d → R d e → R c e
  step : ∀ c, R c c.runStep.2
  line : ∀ c, Model.cyclesPerLine ≤ c.lineCycles → R c c.foldLine

theorem fillLine_completed {limit : Nat} {c d : Console δ ω η}
    (run : c.fillLine limit = (.completed, d)) : Model.cyclesPerLine ≤ d.lineCycles := by
  induction limit generalizing c with
  | zero =>
    unfold fillLine at run
    split at run
    · cases run
      assumption
    · cases run
  | succ limit ih =>
    unfold fillLine at run
    split at run
    · cases run
      assumption
    · rcases stepped : c.runStep with ⟨outcome, e⟩
      rw [stepped] at run
      cases outcome with
      | completed => exact ih run
      | intercepted => cases run
      | stalled => cases run

theorem runLine_completed {c d : Console δ ω η} (run : c.runLine = (.completed, d)) :
    ∃ e, c.fillLine Model.cyclesPerLine = (.completed, e) ∧ d = e.foldLine := by
  rcases filled : c.fillLine Model.cyclesPerLine with ⟨outcome, e⟩
  rw [runLine, filled] at run
  cases outcome with
  | completed =>
    cases run
    exact ⟨e, rfl, rfl⟩
  | intercepted => cases run
  | stalled => cases run

theorem fillFrame_completed {limit : Nat} {c d : Console δ ω η}
    (run : c.fillFrame limit = (.completed, d)) :
    Model.cyclesPerFrame ≤ d.frameCycles ∧ (c.lineCycles = 0 → d.lineCycles = 0) := by
  induction limit generalizing c with
  | zero =>
    unfold fillFrame at run
    split at run
    · cases run
      exact ⟨by assumption, id⟩
    · cases run
  | succ limit ih =>
    unfold fillFrame at run
    split at run
    · cases run
      exact ⟨by assumption, id⟩
    · rcases line : c.runLine with ⟨outcome, e⟩
      rw [line] at run
      cases outcome with
      | completed =>
        obtain ⟨full, _, rfl⟩ := runLine_completed line
        exact ⟨(ih run).1, fun _ => (ih run).2 rfl⟩
      | intercepted => cases run
      | stalled => cases run

theorem runFrame_completed {c d : Console δ ω η} (run : c.runFrame = (.completed, d)) :
    ∃ e, c.fillFrame Model.linesPerFrame = (.completed, e) ∧ d = e.foldFrame := by
  rcases filled : c.fillFrame Model.linesPerFrame with ⟨outcome, e⟩
  rw [runFrame, filled] at run
  cases outcome with
  | completed =>
    cases run
    exact ⟨e, rfl, rfl⟩
  | intercepted => cases run
  | stalled => cases run

namespace Carried

variable {R : Console δ ω η → Console δ ω η → Prop}

theorem fillLine (carried : Carried R) (limit : Nat) (c : Console δ ω η) :
    R c (c.fillLine limit).2 := by
  induction limit generalizing c with
  | zero =>
    unfold Console.fillLine
    split <;> exact carried.refl c
  | succ limit ih =>
    have first := carried.step c
    unfold Console.fillLine
    split
    · exact carried.refl c
    · rcases stepped : c.runStep with ⟨outcome, d⟩
      rw [stepped] at first
      cases outcome with
      | completed => exact carried.trans first (ih d)
      | intercepted => exact first
      | stalled => exact first

theorem runLine (carried : Carried R) (c : Console δ ω η) : R c c.runLine.2 := by
  have filled := carried.fillLine Model.cyclesPerLine c
  unfold Console.runLine
  rcases run : c.fillLine Model.cyclesPerLine with ⟨outcome, d⟩
  rw [run] at filled
  cases outcome with
  | completed => exact carried.trans filled (carried.line d (fillLine_completed run))
  | intercepted => exact filled
  | stalled => exact filled

theorem fillFrame (carried : Carried R) (limit : Nat) (c : Console δ ω η) :
    R c (c.fillFrame limit).2 := by
  induction limit generalizing c with
  | zero =>
    unfold Console.fillFrame
    split <;> exact carried.refl c
  | succ limit ih =>
    have first := carried.runLine c
    unfold Console.fillFrame
    split
    · exact carried.refl c
    · rcases line : c.runLine with ⟨outcome, d⟩
      rw [line] at first
      cases outcome with
      | completed => exact carried.trans first (ih d)
      | intercepted => exact first
      | stalled => exact first

/-- A frame may also end, if that is carried on. -/
theorem runFrame (carried : Carried R)
    (frame : ∀ c : Console δ ω η, Model.cyclesPerFrame ≤ c.frameCycles → R c c.foldFrame)
    (c : Console δ ω η) : R c c.runFrame.2 := by
  have filled := carried.fillFrame Model.linesPerFrame c
  unfold Console.runFrame
  rcases run : c.fillFrame Model.linesPerFrame with ⟨outcome, d⟩
  rw [run] at filled
  cases outcome with
  | completed => exact carried.trans filled (frame d (fillFrame_completed run).1)
  | intercepted => exact filled
  | stalled => exact filled

end Carried

/-- What a step keeps of the board, a line keeps. -/
theorem runLine_keeps {P : Board δ ω → Prop}
    (kept : ∀ {c : Console δ ω η}, P c.board → P c.runStep.2.board) {c : Console δ ω η}
    (h : P c.board) : P c.runLine.2.board := by
  have carried : Carried fun c d : Console δ ω η => P c.board → P d.board :=
    { refl := fun _ => id
      trans := fun first second h => second (first h)
      step := fun _ => kept
      line := fun _ _ => id }
  exact carried.runLine c h

/-- What a host does with a console. Between two calls it may change the processor, what is
behind its bus, and the hook. -/
inductive Call (δ ω η : Type) where
  | step
  | line
  | frame
  | reset
  | host (core : Core (Board δ ω)) (hook : Option η)

def Call.run (c : Console δ ω η) : Call δ ω η → Console δ ω η
  | step => c.runStep.2
  | line => c.runLine.2
  | frame => c.runFrame.2
  | reset => c.reset
  | host core hook => { c with core, hook }

omit [Observer ω] [StepHook η] in
/-- A console is built in the state that a reset leaves. -/
theorem build_eq_reset {config : Config} {c : Console δ ω η} (built : build config = .ok c) :
    ∃ d : Console δ ω η, c = d.reset := by
  simp only [build, bind, Except.bind, pure, Except.pure] at built
  repeat' split at built
  all_goals cases built
  all_goals exact ⟨_, rfl⟩

end Swan.Console
