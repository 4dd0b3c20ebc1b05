import Mathlib.Order.Bounds.Defs
import Swan.Proofs.FrameEnd
import Swan.Proofs.ProcessorSession
import Swan.Proofs.RasterPhase

/-! A halted processor waits for the display. With interrupts accepted and vblank alone enabled,
every step is one cycle in which nothing happens but that the raster moves on, up to the cycle
that enters the vblank line; and the step after that cycle enters the handler. -/
namespace Swan

theorem LineSet.highest_vblank {line : BitVec 3} (highest : Highest vblank line) : line = 6 := by
  revert line
  unfold Highest
  decide

namespace Raster

theorem linesIf_and_vblank (hblank vblank timer compare : Bool) :
    (linesIf hblank .hblankTimer ||| linesIf vblank .vblank ||| linesIf timer .vblankTimer |||
      linesIf compare .lineCompare) &&& LineSet.vblank = linesIf vblank .vblank := by
  revert hblank vblank timer compare
  decide

theorem endLine_vblank (r : Raster) :
    r.endLine.1 &&& LineSet.vblank =
      linesIf ((r.line + 1) % Model.linesPerFrame == vblankLine) .vblank :=
  linesIf_and_vblank _ _ _ _

/-- The one cycle of a frame that raises vblank is the last before the vblank line. -/
theorem OnPhase.raises_vblank {n : Nat} {r : Raster} (h : r.OnPhase n) :
    (r.step 1).1.raise &&& LineSet.vblank = linesIf ((n + 1) % 40704 == 144 * 256) .vblank := by
  obtain ⟨line, dot, phase⟩ := h
  simp only [Model.cyclesPerFrame, Model.cyclesPerLine, Model.linesPerFrame] at line dot phase
  by_cases last : r.dot + 1 = 256
  · have next : ((r.line + 1) % Model.linesPerFrame == vblankLine) =
        ((n + 1) % 40704 == 144 * 256) := by
      rw [Bool.eq_iff_iff, beq_iff_eq, beq_iff_eq, Model.linesPerFrame, vblankLine]
      omega
    rw [step_last last, ← next]
    exact endLine_vblank r
  · have early : ((n + 1) % 40704 == 144 * 256) = false := by
      rw [beq_eq_false_iff_ne]
      omega
    rw [step_within (Nat.lt_of_le_of_ne dot last), early]
    exact BitVec.zero_and

end Raster

namespace Interrupts

theorem raise_zero (i : Interrupts) : i.raise 0 = i := by simp [raise]

theorem lower_zero (i : Interrupts) : i.lower 0 = i :=
  congrArg (fun status => { i with status }) BitVec.and_allOnes

theorem apply_empty (i : Interrupts) : i.apply {} = i := by
  rw [apply, raise_zero, lower_zero]

theorem raise_vblank {i : Interrupts} (enabled : i.enabled = LineSet.vblank) :
    (i.raise .vblank).status &&& LineSet.vblank = LineSet.vblank := by
  have absorbed (s : LineSet) :
      (s ||| LineSet.vblank &&& LineSet.vblank) &&& LineSet.vblank = LineSet.vblank := by
    revert s
    decide
  rw [raise, enabled]
  exact absorbed i.status

/-- Where vblank alone is enabled, a request that lowers nothing latches vblank or nothing. -/
theorem apply_vblank {i : Interrupts} (enabled : i.enabled = LineSet.vblank) (lines : LineSet) :
    i.apply { raise := lines } = i.raise (lines &&& LineSet.vblank) := by
  rw [apply, lower_zero]
  simp [raise, enabled, BitVec.and_assoc]

end Interrupts

/-- Where nothing is attached, stepping the devices steps the raster. -/
theorem Board.stepDevices_unattached {δ ω : Type} [Device δ] {b : Board δ ω}
    (sound : b.sound.device = none) (serial : b.serial.device = none) (cycles : Nat) :
    b.stepDevices cycles = { b with
      raster := (b.raster.step cycles).2
      interrupts := b.interrupts.apply (b.raster.step cycles).1 } := by
  rw [stepDevices, Slot.step_idle sound, Slot.step_idle serial]
  simp only [Interrupts.apply_empty]

namespace Console

variable {δ ω η : Type}

def framePlace (c : Console δ ω η) : Nat := c.board.raster.line * 256 + c.board.raster.dot

/-- The processor is halted and accepts interrupts, of which vblank alone is enabled and none is
latched. Nothing is attached, and no transfer runs. -/
structure AwaitsVblank (c : Console δ ω η) : Prop where
  hook : c.hook = none
  observer : c.board.observer = none
  sound : c.board.sound.device = none
  serial : c.board.serial.device = none
  transfer : c.board.transferActive = false
  halted : c.cpu.halted = true
  accepts : c.cpu.regs.flags.interrupt = true
  enabled : c.board.interrupts.enabled = LineSet.vblank
  quiet : c.board.interrupts.status &&& c.board.interrupts.enabled = 0

def waitCycle (c : Console δ ω η) : Console δ ω η :=
  { c with
    core.cpu.total := c.cpu.total.advance 1
    core.bus.raster := (c.board.raster.step 1).2
    core.bus.interrupts := c.board.interrupts.apply (c.board.raster.step 1).1
    lineCycles := c.lineCycles + 1
    clock := c.clock.advance 1
    cancelled := false
    overflowed := c.overflowed || c.stepOverflows 0 c.board.raster.dot 1 }

@[simp] theorem waitCycle_clock (c : Console δ ω η) : c.waitCycle.clock = c.clock.advance 1 := rfl

@[simp] theorem waitCycle_cpu (c : Console δ ω η) :
    c.waitCycle.cpu = { c.cpu with total := c.cpu.total.advance 1 } := rfl

@[simp] theorem waitCycle_board (c : Console δ ω η) :
    c.waitCycle.board = { c.board with
      raster := (c.board.raster.step 1).2
      interrupts := c.board.interrupts.apply (c.board.raster.step 1).1 } := rfl

/-- A console as it is after waiting `k` cycles of `n`: what it was, but that the counts and the
raster have moved on and, once all `n` cycles are over, that vblank is latched. -/
structure Waited (c : Console δ ω η) (n k : Nat) (d : Console δ ω η) : Prop where
  hook : d.hook = c.hook
  clock : d.clock = c.clock.advance k
  cpu : d.cpu = { c.cpu with total := c.cpu.total.advance k }
  board : d.board = { c.board with
    raster := (c.board.raster.step k).2
    interrupts := if k < n then c.board.interrupts else c.board.interrupts.raise .vblank }

/-- The first cycle, from now on, in which the raster enters the vblank line. -/
def VblankIn (c : Console δ ω η) (n : Nat) : Prop :=
  IsLeast { m | 1 ≤ m ∧ (c.framePlace + m) % 40704 = 144 * 256 } n

theorem exists_vblankIn (c : Console δ ω η) : ∃ n ≤ 40704, c.VblankIn n := by
  refine ⟨(144 * 256 + 40703 - c.framePlace % 40704) % 40704 + 1, by omega, ⟨by omega, by omega⟩, ?_⟩
  rintro m ⟨later, there⟩
  omega

variable {c d : Console δ ω η} {n k : Nat}

theorem Waited.awaits (waits : c.AwaitsVblank) (waited : c.Waited n k d) (more : k < n) :
    d.AwaitsVblank := by
  have board := waited.board
  rw [if_pos more] at board
  constructor
  case hook => rw [waited.hook, waits.hook]
  case halted => rw [waited.cpu, waits.halted]
  case accepts => rw [waited.cpu, waits.accepts]
  all_goals rw [board]
  case observer => exact waits.observer
  case sound => exact waits.sound
  case serial => exact waits.serial
  case transfer => exact waits.transfer
  case enabled => exact waits.enabled
  case quiet => exact waits.quiet

/-- The cycle that the raster needs to the vblank line, and no earlier one, latches vblank. -/
theorem VblankIn.latches (least : c.VblankIn n)
    (enabled : c.board.interrupts.enabled = LineSet.vblank)
    (place : c.board.raster.OnPhase c.framePlace) (more : k < n) :
    c.board.interrupts.apply ((c.board.raster.step k).2.step 1).1 =
      if k + 1 < n then c.board.interrupts else c.board.interrupts.raise .vblank := by
  have raised := Interrupts.apply_vblank enabled ((c.board.raster.step k).2.step 1).1.raise
  rw [(place.step k).raises_vblank, Nat.add_assoc] at raised
  refine raised.trans ?_
  split
  case isTrue early =>
    have before : (c.framePlace + (k + 1)) % 40704 ≠ 144 * 256 := fun there =>
      absurd (least.2 ⟨Nat.le_add_left 1 k, there⟩) (Nat.not_le.mpr early)
    rw [beq_false_of_ne before]
    exact Interrupts.raise_zero _
  case isFalse late =>
    obtain rfl : n = k + 1 := by omega
    have there : (c.framePlace + (k + 1)) % 40704 = 144 * 256 := least.1.2
    rw [beq_iff_eq.mpr there]
    rfl

variable [StepHook η]

theorem passes_unhooked (unhooked : c.hook = none) :
    consultHook c.hook c.cpu = (false, c.hook) := by
  rw [unhooked]
  rfl

variable [Device δ] [Observer ω]

theorem runStep_waits (waits : c.AwaitsVblank) (settled : c.cpu.deferred = 0) :
    c.runStep = (.completed, c.waitCycle) := by
  have stays : ¬ c.Enters := fun enters => enters.2 waits.quiet
  have paid : ({ c.cpu with deferred := 0, total := c.cpu.total.advance 1 } : Cpu) =
      { c.cpu with total := c.cpu.total.advance 1 } := by rw [← settled]
  rw [runStep_passed (passes_unhooked waits.hook), serveInterrupt_unless stays, proceed,
    runCore_free waits.transfer, Exec.step, Exec.stepWithin_halted _ waits.halted, settled]
  dsimp only
  rw [Board.stepDevices_unattached waits.sound waits.serial]
  exact congrArg (fun cpu => (RunOutcome.completed, { c.waitCycle with core.cpu := cpu })) paid

/-- One cycle more. -/
theorem Waited.step (waits : c.AwaitsVblank) (settled : c.cpu.deferred = 0)
    (place : c.board.raster.OnPhase c.framePlace) (least : c.VblankIn n) (waited : c.Waited n k d)
    (more : k < n) : d.runStep.1 = .completed ∧ c.Waited n (k + 1) d.runStep.2 := by
  have awaits := waited.awaits waits more
  have owed : d.cpu.deferred = 0 := by rw [waited.cpu, settled]
  rw [runStep_waits awaits owed]
  refine ⟨rfl, ?_⟩
  constructor
  case hook => exact waited.hook
  case clock =>
    rw [waitCycle_clock, waited.clock]
    rfl
  case cpu =>
    rw [waitCycle_cpu, waited.cpu]
    rfl
  case board =>
    rw [waitCycle_board, waited.board, if_pos more]
    dsimp only
    rw [least.latches waits.enabled place more, Raster.step_add _ k 1]

theorem waited (waits : c.AwaitsVblank) (settled : c.cpu.deferred = 0)
    (place : c.board.raster.OnPhase c.framePlace) (least : c.VblankIn n) (within : k ≤ n) :
    c.Waited n k (c.afterSteps k) := by
  induction k with
  | zero =>
    have still : (c.board.raster.step 0).2 = c.board.raster := by rw [Raster.step_zero place.dot]
    refine ⟨rfl, rfl, rfl, ?_⟩
    rw [still, if_pos (show 0 < n from least.1.1)]
    rfl
  | succ k ih =>
    exact ((ih (Nat.le_of_succ_le within)).step waits settled place least within).2

/-- The step in which a console leaves its wait. It enters the handler of a vector, pushes the
place of the wait, and executes the first instruction there, if the handler's code segment holds
one. -/
structure Wakes (c : Console δ ω η) (vector : Byte) : Prop where
  entered : serveInterrupt c.core = (Exec.interrupt vector c.core).2
  handler :
    let b := c.board.storeAll c.cpu.regs.frameBytes
    let entry : Word := vector.setWidth 16 * 4
    serveInterrupt c.core = ⟨{ c.cpu with
      regs := { c.cpu.regs with
        sp := c.cpu.regs.sp - 6
        flags := { c.cpu.regs.flags with interrupt := false, trap := false }
        ip := b.word 0 entry
        cs := b.word 0 (entry + 2) }
      halted := false
      prefixes := .empty
      deferred := 32 }, b⟩
  executes : ∀ cycles d, Exec.step (serveInterrupt c.core) = (some cycles, d) →
    cycles = 32 + Exec.ownCycles (serveInterrupt c.core) ∧
      c.runStep = (.completed, { c with
        core := ⟨d.cpu, d.bus.stepDevices cycles⟩
        lineCycles := c.lineCycles + cycles
        clock := c.clock.advance cycles
        cancelled := false
        overflowed := c.overflowed || c.stepOverflows 32 d.bus.raster.dot cycles })
  returns : Legible (serveInterrupt c.core).bus.peek (serveInterrupt c.core).cpu.regs →
    ∃ cycles d, Exec.step (serveInterrupt c.core) = (some cycles, d)

theorem wakes (hook : c.hook = none) (observer : c.board.observer = none)
    (transfer : c.board.transferActive = false) (accepts : c.cpu.regs.flags.interrupt = true)
    (rests : c.cpu.prefixes = .empty ∧ c.cpu.deferred = 0)
    (pending : c.board.interrupts.status &&& c.board.interrupts.enabled = LineSet.vblank) :
    c.Wakes (c.board.interrupts.base ||| 6) := by
  have latched : c.core.bus.interrupts.status &&& c.core.bus.interrupts.enabled ≠ 0 := by
    rw [pending]
    decide
  obtain ⟨line, highest, entry⟩ := serveInterrupt_pending accepts latched
  rw [pending] at highest
  obtain rfl := LineSet.highest_vblank highest
  have served : serveInterrupt c.core =
      (Exec.interrupt (c.board.interrupts.base ||| 6) c.core).2 := entry.served
  have explicit := Exec.interrupt_unobserved (c := c.core) observer (c.board.interrupts.base ||| 6)
  have owed : (serveInterrupt c.core).cpu.deferred = 32 := by
    rw [served, explicit]
    dsimp only
    rw [rests.2]
    rfl
  have untraced : Exec.traps (serveInterrupt c.core).cpu = false := by
    rw [Exec.traps, entry.untraced, Bool.and_false]
  constructor
  case entered => exact served
  case handler =>
    have place : ({ c.cpu.regs with
        ip := c.cpu.regs.ip - BitVec.ofNat 16 c.cpu.prefixes.length } : Registers) = c.cpu.regs := by
      rw [rests.1]
      exact congrArg (fun ip => { c.cpu.regs with ip }) (BitVec.sub_zero _)
    rw [served, explicit, place, show c.core.cpu.deferred = 0 from rests.2]
    rfl
  case executes =>
    intro cycles d stepped
    obtain ⟨bill, -⟩ := Exec.stepWithin_bill stepped
    have free : (serveInterrupt c.core).bus.transferActive = false := by
      rw [serveInterrupt_transferActive]
      exact transfer
    rw [owed, untraced] at bill
    refine ⟨bill, ?_⟩
    rw [runStep_passed (passes_unhooked hook), proceed, runCore_free free, stepped, owed]
  case returns =>
    intro legible
    have still : (serveInterrupt c.core).bus.observer = none :=
      serveInterrupt_keeps Board.unobserved_stable.toMemoryStable observer
    exact Exec.step_legible (Board.steady still) fun _ => legible

/-- When the wait is over, the handler is entered at the vector that the base gives. -/
theorem Waited.wakes (waits : c.AwaitsVblank)
    (rests : c.cpu.prefixes = .empty ∧ c.cpu.deferred = 0) (waited : c.Waited n n d) :
    d.Wakes (c.board.interrupts.base ||| 6) := by
  have board := waited.board
  rw [if_neg (Nat.lt_irrefl n)] at board
  have base : d.board.interrupts.base = c.board.interrupts.base := by
    rw [board]
    rfl
  rw [← base]
  apply Console.wakes
  case hook => rw [waited.hook, waits.hook]
  case accepts => rw [waited.cpu, waits.accepts]
  case rests =>
    rw [waited.cpu]
    exact rests
  all_goals rw [board]
  case observer => exact waits.observer
  case transfer => exact waits.transfer
  case pending =>
    have enabled : (c.board.interrupts.raise .vblank).enabled = LineSet.vblank := waits.enabled
    rw [enabled]
    exact Interrupts.raise_vblank waits.enabled

/-- A wait of `n` cycles. Every step of it completes and changes nothing but what a wait
changes, and the last one latches vblank. -/
structure Idles (c : Console δ ω η) (n : Nat) : Prop where
  completed : ∀ k < n, (c.afterSteps k).runStep.1 = .completed
  waited : ∀ k ≤ n, c.Waited n k (c.afterSteps k)
  memory : ∀ k ≤ n, (c.afterSteps k).board.peek = c.board.peek
  clear : ∀ k < n, (c.afterSteps k).board.interrupts.status &&& LineSet.vblank = 0
  latched : (c.afterSteps n).board.interrupts.status &&& LineSet.vblank = LineSet.vblank

theorem idles (waits : c.AwaitsVblank) (settled : c.cpu.deferred = 0)
    (place : c.board.raster.OnPhase c.framePlace) (least : c.VblankIn n) : c.Idles n := by
  have waited (k : Nat) (within : k ≤ n) : c.Waited n k (c.afterSteps k) :=
    waited waits settled place least within
  constructor
  case completed =>
    intro k more
    exact ((waited k (Nat.le_of_lt more)).step waits settled place least more).1
  case waited => exact waited
  case memory =>
    intro k within
    rw [(waited k within).board]
    rfl
  case clear =>
    intro k more
    have awaits := (waited k (Nat.le_of_lt more)).awaits waits more
    rw [← awaits.enabled]
    exact awaits.quiet
  case latched =>
    rw [(waited n (Nat.le_refl n)).board, if_neg (Nat.lt_irrefl n)]
    exact Interrupts.raise_vblank waits.enabled

/-- A halted processor that accepts interrupts, with vblank alone enabled and none latched, waits
for as many cycles as the raster is away from the vblank line. Then it enters the handler and
executes one instruction. -/
theorem halt_waits_for_vblank (start : Console δ ω η) (acts : List (Act η))
    (sets : ∀ act ∈ acts, act.Rests) (waits : (start.reset.session acts).AwaitsVblank) :
    let c := start.reset.session acts
    ∃ n ≤ 40704, c.VblankIn n ∧ c.Idles n ∧ (∃ history, Heard c history) ∧
      ∀ history, Heard c history → (c.afterSteps n).Wakes
        ((Interrupts.lastWritten 0xB0 history &&& c.board.model.vectorBaseMask) ||| 6) := by
  intro c
  have rests : c.cpu.prefixes = .empty ∧ c.cpu.deferred = 0 :=
    session_rests (c := start.reset) sets nofun waits.halted
  have inPhase : c.InPhase := session_inPhase acts (reset_inPhase start)
  have place : c.board.raster.OnPhase c.framePlace := ⟨inPhase.line, inPhase.dot, rfl⟩
  obtain ⟨n, bound, least⟩ := exists_vblankIn c
  have idles := idles waits rests.2 place least
  refine ⟨n, bound, least, idles, session_heard acts ⟨[], .powerOn start⟩, fun history heard => ?_⟩
  rw [← heard.serves.told.base]
  exact (idles.waited n (Nat.le_refl n)).wakes waits rests

def dozingActs : List (Act Empty) := [
  .host (.access (.portOut 0xB2 0x40)),
  .host (.access (.portOut 0xB0 0x20)),
  .host (.processor { halted := true, regs := { sp := 0x100, flags := { interrupt := true } } })]

/-- Halted at power on, with vblank enabled. -/
def dozing : Console Empty Empty Empty := bare.reset.session dozingActs

/-- The handler is at the bottom of memory, which its frame does not reach. -/
theorem dozing_handler {n : Nat} {w : Console Empty Empty Empty} (waited : dozing.Waited n n w)
    (wakes : w.Wakes 0x26) :
    Legible (serveInterrupt w.core).bus.peek (serveInterrupt w.core).cpu.regs := by
  have same : dozing.board.SameMemory w.board := by
    rw [waited.board]
    exact ⟨_, _, _, _, _, _, _, rfl⟩
  have shown := (same.storeAll dozing.cpu.regs.frameBytes).peek
  have regs : w.cpu.regs = dozing.cpu.regs := by rw [waited.cpu]
  rw [wakes.handler, regs]
  simp only [Board.word, shown]
  exact ⟨0, by decide +kernel⟩

/-- It sleeps to the end of line 143, and its handler has something to execute. -/
theorem halt_waits_for_vblank_dozing :
    dozing.VblankIn 36864 ∧ dozing.Idles 36864 ∧ (dozing.afterSteps 36864).Wakes 0x26 ∧
      ∃ cycles d, Exec.step (serveInterrupt (dozing.afterSteps 36864).core) = (some cycles, d) := by
  have waits : dozing.AwaitsVblank := by constructor <;> decide
  have sets : ∀ act ∈ dozingActs, act.Rests := by simp [dozingActs, Act.Rests, Cpu.Rests]
  have heard : Heard dozing [.write 0xB0 0x20, .write 0xB2 0x40] :=
    (Heard.powerOn bare).host (.access (.portOut 0xB2 0x40))
      |>.host (.access (.portOut 0xB0 0x20))
      |>.host (.processor
        { halted := true, regs := { sp := 0x100, flags := { interrupt := true } } })
  obtain ⟨n, -, least, idles, -, wakes⟩ := halt_waits_for_vblank bare dozingActs sets waits
  have place : dozing.framePlace = 0 := rfl
  obtain rfl : n = 36864 := by
    have there : (0 + n) % 40704 = 144 * 256 := place ▸ least.1.2
    have first : n ≤ 144 * 256 := least.2 ⟨by decide, place ▸ rfl⟩
    omega
  have handler := dozing_handler (idles.waited 36864 (Nat.le_refl _)) (wakes _ heard)
  exact ⟨least, idles, wakes _ heard, (wakes _ heard).returns handler⟩

end Console

end Swan
