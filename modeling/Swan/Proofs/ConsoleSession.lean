import Swan.Bus.Traced
import Swan.Proofs.BoardAccess
import Swan.Proofs.ConsoleStep

/-! Sessions: a host runs a console by steps, lines and frames, in any order, and meanwhile
uses its bus, raises interrupt lines, holds buttons and sets the processor and the hook.
Whatever every access over the bus keeps is kept by what runs between two device steps. -/
namespace Swan

def Access.run {β : Type} [Bus β] (b : β) : Access → β
  | .read a _ => (Bus.read b a).2
  | .write a v => Bus.write b a v
  | .portIn p _ => (Bus.portIn b p).2
  | .portOut p v => Bus.portOut b p v

theorem Stable.access {β : Type} [Bus β] {P : β → Prop} (stable : Stable P) {b : β} (h : P b)
    (a : Access) : P (a.run b) := by
  cases a with
  | read a _ => exact stable.read h a
  | write a v => exact stable.write h a v
  | portIn p _ => exact stable.portIn h p
  | portOut p v => exact stable.portOut h p v

namespace Board

variable {δ ω : Type} [Device δ] [Observer ω] {P : Board δ ω → Prop}

theorem runSlice_keeps (stable : MemoryStable P) (engine : ∀ {b} t, P b → P { b with transfer := t })
    {b : Board δ ω} (h : P b) : P b.runSlice.2 := by
  unfold runSlice
  rcases b.transfer.next? with ⟨_ | slice, transfer⟩
  · exact h
  · exact stable.write (stable.write (stable.read (stable.read (engine transfer h) _) _) _ _) _ _

end Board

namespace Console

variable {δ ω η : Type}

/-- What a host does besides running a console. -/
inductive HostAct (η : Type) where
  | access (a : Access)
  | request (r : Request)
  | hold (buttons : ButtonSet)
  | processor (cpu : Cpu)
  | hook (hook : Option η)

inductive Act (η : Type) where
  | step
  | line
  | frame
  | host (act : HostAct η)

variable [Device δ] [Observer ω]

section Core

variable {P : Board δ ω → Prop} {core : Core (Board δ ω)}

theorem serveInterrupt_keeps (stable : MemoryStable P) (h : P core.bus) :
    P (serveInterrupt core).bus := by
  unfold serveInterrupt
  split
  · exact h
  · split
    · exact h
    · exact stable.interrupt _ h

theorem runCore_keeps (stable : Stable P) (engine : ∀ {b} t, P b → P { b with transfer := t })
    (h : P core.bus) : P (runCore core).2.bus := by
  cases active : core.bus.transferActive with
  | true =>
    rw [runCore_active active]
    exact Board.runSlice_keeps stable.toMemoryStable engine h
  | false =>
    rw [runCore_free active]
    exact stable.step h

end Core

def HostAct.run (c : Console δ ω η) : HostAct η → Console δ ω η
  | access a => { c with core.bus := a.run c.core.bus }
  | request r => { c with core.bus.interrupts := c.core.bus.interrupts.apply r }
  | hold buttons => { c with core.bus.keypad := c.core.bus.keypad.hold buttons }
  | processor cpu => { c with core.cpu := cpu }
  | hook h => { c with hook := h }

variable [StepHook η]

/-- What accesses, the engine and the devices keep of a board, a whole step keeps. -/
theorem runStep_keeps {P : Board δ ω → Prop} (stable : Stable P)
    (engine : ∀ {b} t, P b → P { b with transfer := t })
    (devices : ∀ {b} cycles, P b → P (b.stepDevices cycles)) {c : Console δ ω η} (h : P c.board) :
    P c.runStep.2.board := by
  have ran := runCore_keeps stable engine (serveInterrupt_keeps stable.toMemoryStable h)
  obtain ⟨hook, -, stops⟩ | ⟨hook, core, -, eq, stalls⟩ |
    ⟨hook, cycles, cpu, board, -, eq, -, completes⟩ := c.runStep_cases
  · rw [stops]
    exact h
  · rw [stalls]
    rwa [eq] at ran
  · rw [completes]
    rw [eq] at ran
    exact devices cycles ran

def Act.run (c : Console δ ω η) : Act η → Console δ ω η
  | step => c.runStep.2
  | line => c.runLine.2
  | frame => c.runFrame.2
  | host act => act.run c

def session (c : Console δ ω η) (acts : List (Act η)) : Console δ ω η := acts.foldl Act.run c

/-- A call as its host sees it: nothing is answered if a counter overflows. -/
def Act.run? (c : Console δ ω η) (act : Act η) : Option (Console δ ω η) :=
  if (act.run c).crashed then none else some (act.run c)

def session? (c : Console δ ω η) : List (Act η) → Option (Console δ ω η)
  | [] => some c
  | act :: acts => (act.run? c).bind fun d => d.session? acts

theorem Act.run?_some {c d : Console δ ω η} {act : Act η} (ran : act.run? c = some d) :
    d = act.run c := by
  unfold run? at ran
  split at ran
  · cases ran
  · exact (Option.some.inj ran).symm

/-- A session that returns is the session that overflows no counter. -/
theorem session?_some {c d : Console δ ω η} {acts : List (Act η)}
    (ran : c.session? acts = some d) : d = c.session acts := by
  induction acts generalizing c with
  | nil => exact (Option.some.inj ran).symm
  | cons act acts ih =>
    obtain ⟨e, first, rest⟩ := Option.bind_eq_some_iff.mp ran
    rw [Act.run?_some first] at rest
    exact ih rest

namespace Carried

variable {R : Console δ ω η → Console δ ω η → Prop} (carried : Carried R)
  (frame : ∀ c : Console δ ω η, Model.cyclesPerFrame ≤ c.frameCycles → R c c.foldFrame)
  (host : ∀ (c : Console δ ω η) (act : HostAct η), R c (act.run c))

include carried frame host

theorem act (c : Console δ ω η) (act : Act η) : R c (act.run c) := by
  cases act with
  | step => exact carried.step c
  | line => exact carried.runLine c
  | frame => exact carried.runFrame frame c
  | host act => exact host c act

/-- What steps, the ends of lines and frames, and a host carry on is carried by a session. -/
theorem session (c : Console δ ω η) (acts : List (Act η)) : R c (c.session acts) := by
  induction acts generalizing c with
  | nil => exact carried.refl c
  | cons act acts ih => exact carried.trans (carried.act frame host c act) (ih (act.run c))

end Carried

/-- The counters of the scheduler are numbers of 32 bits. -/
structure Fits (c : Console δ ω η) : Prop where
  line : c.lineCycles < 4294967296
  frame : c.frameCycles < 4294967296

theorem runStep_fits {c : Console δ ω η} (h : c.overflowed = false → c.Fits)
    (sound : c.runStep.2.overflowed = false) : c.runStep.2.Fits := by
  obtain ⟨hook, -, stops⟩ | ⟨hook, core, -, -, stalls⟩ |
    ⟨hook, cycles, cpu, board, -, -, -, completes⟩ := c.runStep_cases
  · rw [stops] at sound ⊢
    exact ⟨(h sound).line, (h sound).frame⟩
  · rw [stalls] at sound ⊢
    exact ⟨(h sound).line, (h sound).frame⟩
  · rw [completes] at sound ⊢
    simp only [stepOverflows, Bool.or_eq_false_iff] at sound
    obtain ⟨before, -, line⟩ := sound
    exact ⟨overflows_eq_false.mp line, (h before).frame⟩

omit [Device δ] [Observer ω] [StepHook η] in
theorem foldLine_fits {c : Console δ ω η} (sound : c.foldLine.overflowed = false) :
    c.foldLine.Fits := by
  simp only [foldLine, Bool.or_eq_false_iff] at sound
  exact ⟨Nat.succ_pos _, overflows_eq_false.mp sound.2⟩

theorem fits_carried : Carried fun c d : Console δ ω η =>
    (c.overflowed = false → c.Fits) → d.overflowed = false → d.Fits where
  refl _ := id
  trans first second h := second (first h)
  step _ := runStep_fits
  line _ _ _ := foldLine_fits

theorem session_fits {c : Console δ ω η} (acts : List (Act η)) (h : c.Fits)
    (sound : (c.session acts).overflowed = false) : (c.session acts).Fits := by
  refine fits_carried.session (fun c _ h sound => ?_) (fun c act h sound => ?_) c acts
    (fun _ => h) sound
  · exact ⟨(h sound).line, Nat.lt_of_le_of_lt (Nat.sub_le _ _) (h sound).frame⟩
  · cases act <;> exact ⟨(h sound).line, (h sound).frame⟩

theorem session?_overflowed {c d : Console δ ω η} {acts : List (Act η)}
    (ran : c.session? acts = some d) (sound : c.overflowed = false) : d.overflowed = false := by
  induction acts generalizing c with
  | nil => exact Option.some.inj ran ▸ sound
  | cons act acts ih =>
    obtain ⟨e, first, rest⟩ := Option.bind_eq_some_iff.mp ran
    refine ih rest ?_
    unfold Act.run? at first
    split at first
    · cases first
    · rename_i returns
      simp only [crashed, Bool.or_eq_true, not_or, Bool.not_eq_true] at returns
      exact Option.some.inj first ▸ returns.1.1.1

/-- A session that returns leaves no counter of the scheduler out of range. -/
theorem session?_fits {c d : Console δ ω η} {acts : List (Act η)}
    (ran : c.reset.session? acts = some d) : d.Fits := by
  have sound := session?_overflowed ran rfl
  obtain rfl := session?_some ran
  exact session_fits acts ⟨Nat.succ_pos _, Nat.succ_pos _⟩ sound

end Console

end Swan
