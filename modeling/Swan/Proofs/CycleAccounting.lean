import Swan.Proofs.ConsoleStep

/-! Where the cycles of a console go. Every cycle on the clock since a reset is one of a
completed frame, of the frame under way or of the line under way. Calls that the hook stops
in the middle of a line or a frame lose none and count none twice. -/
namespace Swan.Console

variable {δ ω η : Type} {c d e : Console δ ω η}

/-- Two states with the end of no frame between them: all time that has passed is in the
counters of the frame and the line. -/
structure WithinFrame (c d : Console δ ω η) : Prop where
  frames : d.frames = c.frames
  clock : c.clock.count ≤ d.clock.count
  lines : c.frameCycles ≤ d.frameCycles
  conserved : d.clock.count + c.frameCycles + c.lineCycles =
    c.clock.count + d.frameCycles + d.lineCycles

/-- Two states with any number of frame ends between them, each worth a frame's cycles. -/
structure Balanced (c d : Console δ ω η) : Prop where
  frames : c.frames ≤ d.frames
  clock : c.clock.count ≤ d.clock.count
  conserved : d.clock.count + Model.cyclesPerFrame * c.frames + c.frameCycles + c.lineCycles =
    c.clock.count + Model.cyclesPerFrame * d.frames + d.frameCycles + d.lineCycles

theorem WithinFrame.refl (c : Console δ ω η) : WithinFrame c c :=
  ⟨rfl, Nat.le_refl _, Nat.le_refl _, rfl⟩

theorem WithinFrame.trans (first : WithinFrame c d) (second : WithinFrame d e) :
    WithinFrame c e where
  frames := second.frames.trans first.frames
  clock := Nat.le_trans first.clock second.clock
  lines := Nat.le_trans first.lines second.lines
  conserved := by
    have conserved := first.conserved
    have conserved' := second.conserved
    omega

theorem WithinFrame.balanced (within : WithinFrame c d) : Balanced c d where
  frames := Nat.le_of_eq within.frames.symm
  clock := within.clock
  conserved := by
    have conserved := within.conserved
    rw [within.frames]
    omega

theorem Balanced.trans (first : Balanced c d) (second : Balanced d e) : Balanced c e where
  frames := Nat.le_trans first.frames second.frames
  clock := Nat.le_trans first.clock second.clock
  conserved := by
    have conserved := first.conserved
    have conserved' := second.conserved
    omega

theorem foldLine_within (c : Console δ ω η) : WithinFrame c c.foldLine where
  frames := rfl
  clock := Nat.le_refl _
  lines := Nat.le_add_right _ _
  conserved := by
    simp only [foldLine]
    omega

theorem foldFrame_balanced (full : Model.cyclesPerFrame ≤ c.frameCycles) :
    Balanced c c.foldFrame where
  frames := Nat.le_succ _
  clock := Nat.le_refl _
  conserved := by
    simp only [foldFrame]
    rw [Nat.mul_succ]
    omega

variable [Device δ] [Observer ω] [StepHook η]

theorem runStep_within (c : Console δ ω η) : WithinFrame c c.runStep.2 := by
  obtain ⟨hook, -, stops⟩ | ⟨hook, core, -, -, stalls⟩ |
    ⟨hook, cycles, cpu, board, -, -, -, completes⟩ := c.runStep_cases
  · rw [stops]
    exact ⟨rfl, Nat.le_refl _, Nat.le_refl _, rfl⟩
  · rw [stalls]
    exact ⟨rfl, Nat.le_refl _, Nat.le_refl _, rfl⟩
  · rw [completes]
    refine ⟨rfl, Nat.le_add_right _ cycles, Nat.le_refl _, ?_⟩
    simp only [Ticks.advance]
    omega

theorem within_carried : Carried (WithinFrame (δ := δ) (ω := ω) (η := η)) where
  refl := .refl
  trans := .trans
  step := runStep_within
  line c _ := foldLine_within c

theorem balanced_carried : Carried (Balanced (δ := δ) (ω := ω) (η := η)) where
  refl c := (WithinFrame.refl c).balanced
  trans := .trans
  step c := (runStep_within c).balanced
  line c _ := (foldLine_within c).balanced

theorem runFrame_balanced (c : Console δ ω η) : Balanced c c.runFrame.2 :=
  balanced_carried.runFrame (fun _ full => foldFrame_balanced full) c

/-- A completed frame is paid for with what was carried into it, what is carried on from it
and the clock. -/
theorem runFrame_clock (run : c.runFrame = (.completed, d)) (fresh : c.lineCycles = 0) :
    d.lineCycles = 0 ∧
      d.clock.count + c.frameCycles = c.clock.count + Model.cyclesPerFrame + d.frameCycles := by
  obtain ⟨e, filled, rfl⟩ := runFrame_completed run
  obtain ⟨full, lines⟩ := fillFrame_completed filled
  have within := within_carried.fillFrame Model.linesPerFrame c
  rw [filled] at within
  have conserved := within.conserved
  refine ⟨lines fresh, ?_⟩
  dsimp only at conserved
  rw [fresh, lines fresh] at conserved
  simp only [foldFrame]
  omega

/-- A completed line leaves none of its cycles behind, and it has as many as a line needs. -/
theorem runLine_frameCycles (run : c.runLine = (.completed, d)) :
    d.lineCycles = 0 ∧ c.frameCycles + Model.cyclesPerLine ≤ d.frameCycles := by
  obtain ⟨e, filled, rfl⟩ := runLine_completed run
  have within := within_carried.fillLine Model.cyclesPerLine c
  rw [filled] at within
  have lines := within.lines
  have full := fillLine_completed filled
  refine ⟨rfl, ?_⟩
  simp only [foldLine]
  dsimp only at lines
  omega

theorem Call.clock_le (c : Console δ ω η) (call : Call δ ω η) :
    c.clock.count ≤ (call.run c).clock.count := by
  cases call with
  | step => exact (runStep_within c).clock
  | line => exact (within_carried.runLine c).clock
  | frame => exact (runFrame_balanced c).clock
  | reset => exact Nat.le_refl _
  | host core hook => exact Nat.le_refl _

def audit : List (Call δ ω η) → (mark c : Console δ ω η) → Console δ ω η × Console δ ω η
  | [], mark, c => (mark, c)
  | .reset :: rest, _, c => audit rest c.reset c.reset
  | call :: rest, mark, c => audit rest mark (call.run c)

/-- A console and its state at the last reset, when nothing was under way. -/
structure Audited (mark c : Console δ ω η) : Prop extends Balanced mark c where
  noFrame : mark.frameCycles = 0
  noLine : mark.lineCycles = 0

omit [Observer ω] [StepHook η] in
theorem audited_reset (c : Console δ ω η) : Audited c.reset c.reset where
  toBalanced := (WithinFrame.refl c.reset).balanced
  noFrame := rfl
  noLine := rfl

theorem audit_audited (calls : List (Call δ ω η)) {mark c : Console δ ω η}
    (before : Audited mark c) : Audited (audit calls mark c).1 (audit calls mark c).2 := by
  induction calls generalizing mark c with
  | nil => exact before
  | cons call rest ih =>
    cases call with
    | reset => exact ih (audited_reset c)
    | step =>
      exact ih { before with toBalanced := before.toBalanced.trans (runStep_within c).balanced }
    | line =>
      exact ih { before with toBalanced := before.toBalanced.trans (within_carried.runLine c).balanced }
    | frame => exact ih { before with toBalanced := before.toBalanced.trans (runFrame_balanced c) }
    | host core hook =>
      exact ih { before with toBalanced := ⟨before.frames, before.clock, before.conserved⟩ }

/-- However a console is run from a reset on, the clock has counted the cycles of the frames
completed since, of the frame under way and of the line under way, and it is never set back. -/
theorem cycles_conserved (start : Console δ ω η) (calls : List (Call δ ω η)) :
    let mark := (audit calls start.reset start.reset).1
    let c := (audit calls start.reset start.reset).2
    (mark.clock.count ≤ c.clock.count ∧ mark.frames ≤ c.frames ∧
      c.clock.count - mark.clock.count =
        40704 * (c.frames - mark.frames) + c.frameCycles + c.lineCycles) ∧
    (∀ call : Call δ ω η, c.clock.count ≤ (call.run c).clock.count) ∧
    (∀ d, c.runFrame = (.completed, d) → c.lineCycles = 0 → d.lineCycles = 0 ∧
      (d.clock.count : Int) - c.clock.count = 40704 - c.frameCycles + d.frameCycles) ∧
    (∀ d, c.runLine = (.completed, d) →
      d.lineCycles = 0 ∧ c.frameCycles + 256 ≤ d.frameCycles) := by
  intro mark c
  have audited : Audited mark c := audit_audited calls (audited_reset start)
  have budget : Model.cyclesPerFrame = 40704 := rfl
  refine ⟨⟨audited.clock, audited.frames, ?_⟩, Call.clock_le c, ?_, ?_⟩
  · have conserved := audited.conserved
    have clock := audited.clock
    have frames := audited.frames
    rw [budget, audited.noFrame, audited.noLine] at conserved
    omega
  · intro d run fresh
    obtain ⟨settled, paid⟩ := runFrame_clock run fresh
    exact ⟨settled, by omega⟩
  · intro d run
    exact runLine_frameCycles run

end Swan.Console
