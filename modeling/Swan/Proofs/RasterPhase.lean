import Swan.Proofs.Construction
import Swan.Proofs.CycleAccounting
import Swan.Proofs.InterruptService
import Swan.Proofs.RasterLines

/-! The raster and the scheduler count the same cycles, each in its own way: the raster in
lines and dots that wrap at the end of a frame, the scheduler in a line and a frame that
keep what a step overshoots. However a console is run and whatever a program writes, the
two never drift apart. -/
namespace Swan

namespace Raster

/-- A raster is on its frame, as many dots into it as a number of cycles leaves over from
whole frames. -/
structure OnPhase (cycles : Nat) (r : Raster) : Prop where
  line : r.line < Model.linesPerFrame
  dot : r.dot < Model.cyclesPerLine
  phase : (r.line * Model.cyclesPerLine + r.dot) % Model.cyclesPerFrame =
    cycles % Model.cyclesPerFrame

theorem onPhase_zero : OnPhase 0 {} where
  line := by decide
  dot := by decide
  phase := by decide

/-- Whole lines carried out of the dots, and whole frames out of the lines, change a place
by whole frames. -/
theorem wrap (line dots : Nat) :
    ((line + dots / Model.cyclesPerLine) % Model.linesPerFrame * Model.cyclesPerLine +
        dots % Model.cyclesPerLine) % Model.cyclesPerFrame =
      (line * Model.cyclesPerLine + dots) % Model.cyclesPerFrame := by
  simp only [Model.cyclesPerFrame, Model.cyclesPerLine, Model.linesPerFrame]
  omega

theorem OnPhase.congr {m n : Nat} {r : Raster} (h : r.OnPhase m)
    (same : m % Model.cyclesPerFrame = n % Model.cyclesPerFrame) : r.OnPhase n :=
  ⟨h.line, h.dot, h.phase.trans same⟩

/-- A step moves the raster on by its cycles, around the frame. -/
theorem OnPhase.step {n : Nat} {r : Raster} (h : r.OnPhase n) (cycles : Nat) :
    (r.step cycles).2.OnPhase (n + cycles) := by
  have line : (r.step cycles).2.line =
      (r.line + (r.dot + cycles) / Model.cyclesPerLine) % Model.linesPerFrame :=
    step_line h.line cycles
  have dot := r.step_dot cycles
  constructor
  · rw [line]
    exact Nat.mod_lt _ (by decide)
  · rw [dot]
    exact Nat.mod_lt _ (by decide)
  · rw [line, dot, wrap, ← Nat.add_assoc, Nat.add_mod, h.phase, ← Nat.add_mod]

theorem OnPhase.writePort {n : Nat} {r : Raster} (h : r.OnPhase n) (p v : Byte) :
    (r.writePort p v).OnPhase n := by
  obtain ⟨line, dot⟩ := r.writePort_place p v
  constructor
  · exact line ▸ h.line
  · exact dot ▸ h.dot
  · rw [line, dot]
    exact h.phase

end Raster

section Board

variable {δ ω : Type} [Device δ] [Observer ω]

/-- What no write to a port changes of the raster, no access over the bus changes. -/
theorem Board.raster_stable {P : Raster → Prop} (kept : ∀ r p v, P r → P (r.writePort p v)) :
    Stable fun b : Board δ ω => P b.raster where
  toMemoryStable := memoryStable fun _ _ _ h => h
  portIn {b} h p := by
    obtain ⟨sound, serial, v, eq⟩ := b.portIn_frame p
    rw [eq]
    exact h
  portOut {b} h p v := by
    rw [b.portOut_eq]
    obtain same | written :=
      writePort_raster { b with observer := (b.portSeen p v).2 } p (b.portSeen p v).1
    · rwa [same]
    · rw [written]
      exact kept _ p _ h

/-- No access over the bus moves the raster, not even one of its own ports. -/
theorem Board.onPhase_stable (n : Nat) :
    Stable fun b : Board δ ω => b.raster.OnPhase n :=
  raster_stable fun _ p v h => h.writePort p v

end Board

namespace Console

variable {δ ω η : Type} {c mark : Console δ ω η}

/-- The raster is as far into its frame as the scheduler is. -/
def InPhase (c : Console δ ω η) : Prop :=
  c.board.raster.OnPhase (c.frameCycles + c.lineCycles)

/-- The raster, the scheduler and the clock since a mark agree on the place in the frame. -/
structure PhaseLocked (mark c : Console δ ω η) : Prop where
  line : c.board.raster.line < 159
  dot : c.board.raster.dot < 256
  scheduler : (c.board.raster.line * 256 + c.board.raster.dot) % 40704 =
    (c.frameCycles + c.lineCycles) % 40704
  elapsed : mark.clock.count ≤ c.clock.count
  clock : (c.board.raster.line * 256 + c.board.raster.dot) % 40704 =
    (c.clock.count - mark.clock.count) % 40704

theorem foldFrame_inPhase (full : Model.cyclesPerFrame ≤ c.frameCycles) (h : InPhase c) :
    InPhase c.foldFrame := by
  have rest : c.frameCycles + c.lineCycles =
      c.frameCycles - Model.cyclesPerFrame + c.lineCycles + Model.cyclesPerFrame := by omega
  refine Raster.OnPhase.congr h ?_
  rw [rest, Nat.add_mod_right]
  rfl

/-- From a state with nothing under way on, the clock counts what the scheduler holds, up
to whole frames. -/
theorem Balanced.elapsed (balanced : Balanced mark c) (noFrame : mark.frameCycles = 0)
    (noLine : mark.lineCycles = 0) :
    (c.clock.count - mark.clock.count) % Model.cyclesPerFrame =
      (c.frameCycles + c.lineCycles) % Model.cyclesPerFrame := by
  have conserved := balanced.conserved
  have frames : Model.cyclesPerFrame * c.frames =
      Model.cyclesPerFrame * (c.frames - mark.frames) + Model.cyclesPerFrame * mark.frames := by
    rw [← Nat.mul_add, Nat.sub_add_cancel balanced.frames]
  have paid : c.clock.count - mark.clock.count =
      c.frameCycles + c.lineCycles + Model.cyclesPerFrame * (c.frames - mark.frames) := by
    rw [frames, noFrame, noLine] at conserved
    omega
  rw [paid, Nat.add_mul_mod_self_left]

variable [Device δ]

theorem reset_inPhase (c : Console δ ω η) : InPhase c.reset := Raster.onPhase_zero

variable [Observer ω]

theorem HostAct.run_inPhase (act : HostAct η) (h : InPhase c) : InPhase (act.run c) := by
  cases act with
  | access a => exact (Board.onPhase_stable _).access h a
  | request r => exact h
  | hold buttons => exact h
  | processor cpu => exact h
  | hook hook => exact h

variable [StepHook η]

/-- Whatever runs, the raster moves on by the cycles that the scheduler counts. -/
theorem runStep_inPhase (h : InPhase c) : InPhase c.runStep.2 := by
  have stable := Board.onPhase_stable (δ := δ) (ω := ω) (c.frameCycles + c.lineCycles)
  have kept := runCore_keeps stable (fun _ h => h)
    (serveInterrupt_keeps stable.toMemoryStable h)
  obtain ⟨hook, -, stops⟩ | ⟨hook, core, -, ran, stalls⟩ |
    ⟨hook, cycles, cpu, board, -, ran, -, completes⟩ := c.runStep_cases
  · rw [stops]
    exact h
  · rw [stalls]
    rw [ran] at kept
    exact kept
  · rw [completes, InPhase]
    rw [ran] at kept
    dsimp only at kept ⊢
    rw [← Nat.add_assoc]
    exact kept.step cycles

theorem inPhase_carried : Carried fun c d : Console δ ω η => InPhase c → InPhase d where
  refl _ h := h
  trans first second h := second (first h)
  step _ h := runStep_inPhase h
  line _ _ h := h

theorem session_inPhase (acts : List (Act η)) (h : InPhase c) : InPhase (c.session acts) :=
  inPhase_carried.session (fun _ full h => foldFrame_inPhase full h)
    (fun _ act h => act.run_inPhase h) c acts h

theorem session_balanced (acts : List (Act η)) (c : Console δ ω η) :
    Balanced c (c.session acts) := by
  refine balanced_carried.session (fun _ full => foldFrame_balanced full) (fun c act => ?_) c acts
  cases act <;> exact ⟨Nat.le_refl _, Nat.le_refl _, rfl⟩

theorem session_phaseLocked (start : Console δ ω η) (acts : List (Act η)) :
    PhaseLocked start.reset (start.reset.session acts) := by
  have inPhase := session_inPhase acts (reset_inPhase start)
  have balanced := session_balanced acts start.reset
  exact {
    line := inPhase.line
    dot := inPhase.dot
    scheduler := inPhase.phase
    elapsed := balanced.clock
    clock := inPhase.phase.trans (balanced.elapsed rfl rfl).symm }

/-- However a console is run from its construction or a reset on, as long as its calls return its
raster stays on the frame, in phase with the clock and with the scheduler, whose counters fit. -/
theorem raster_phase_locked :
    (∀ (config : Config) (c d : Console δ ω η) (acts), build config = .ok c →
      c.session? acts = some d → PhaseLocked c d ∧ d.Fits) ∧
    ∀ (c d : Console δ ω η) (acts), c.reset.session? acts = some d →
      PhaseLocked c.reset d ∧ d.Fits := by
  have runs (c d : Console δ ω η) (acts) (ran : c.reset.session? acts = some d) :
      PhaseLocked c.reset d ∧ d.Fits := by
    have locked := session_phaseLocked c acts
    rw [← session?_some ran] at locked
    exact ⟨locked, session?_fits ran⟩
  refine ⟨fun config c d acts built ran => ?_, runs⟩
  obtain ⟨start, rfl⟩ := build_eq_reset built
  exact runs start d acts ran

theorem raster_phase_locked_built :
    (∃ c d : Console Empty Empty Empty,
      build { model := .color, rom := .zeros Cartridge.bankSize } = .ok c ∧
      c.session? [.host (.hold 0x0400)] = some d ∧ PhaseLocked c d ∧ d.Fits) ∧
    ∃ d, bare.reset.session? [.step, .line, .host (.access (.portOut 0x03 7)), .line] = some d ∧
      PhaseLocked bare.reset d ∧ d.Fits := by
  have law := raster_phase_locked (δ := Empty) (ω := Empty) (η := Empty)
  constructor
  · obtain ⟨c, built⟩ := build_zeros_bank (δ := Empty) (ω := Empty) (η := Empty) .color 0
    obtain ⟨clock, frames, total, within⟩ := build_counts built
    have idle : c.session? [.host (.hold 0x0400)] = some (Act.run c (.host (.hold 0x0400))) := by
      refine congrArg (Option.bind · some) (if_neg ?_)
      have counts : crashed (Act.run c (.host (.hold 0x0400))) =
        (c.overflowed || overflows 64 c.clock.count || overflows 64 c.frames ||
          overflows 64 c.cpu.total.count) := rfl
      rw [counts, clock, frames, total, within]
      decide
    exact ⟨c, _, built, idle, law.1 _ c _ _ built idle⟩
  · obtain ⟨d, ran⟩ : ∃ d, bare.reset.session?
        [.step, .line, .host (.access (.portOut 0x03 7)), .line] = some d :=
      Option.isSome_iff_exists.mp (by decide +kernel)
    exact ⟨d, ran, law.2 _ _ _ ran⟩

end Console

end Swan
