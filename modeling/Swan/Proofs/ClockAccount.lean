import Mathlib.Algebra.GroupWithZero.Nat
import Mathlib.Logic.Function.Iterate
import Swan.Bus.Flat
import Swan.Proofs.Construction
import Swan.Proofs.CycleLedger
import Swan.Proofs.InterruptService
import Swan.Proofs.Resumption

/-! The books of a console. Its clock counts the cycles that the processor counts, and those
of the transfer slices that run in place of the processor. What a line or a frame adds is what
the steps add that it is made of. -/
namespace Swan

namespace Exec

variable {β : Type} [Bus β]

/-- A step that finds no opcode counts nothing. -/
theorem step_stalled_total {c d : Core β} (stalled : step c = (none, d)) :
    d.cpu.total = c.cpu.total := by
  obtain ⟨regs, prefixes, bus, rfl⟩ := stepWithin_stalled stalled
  rfl

end Exec

namespace Console

variable {δ ω η : Type}

/-- From one state to another, the clock counts what the processor counts, and `n` more. -/
def Spends (n : Nat) (c d : Console δ ω η) : Prop :=
  ∃ own, d.cpu.total = c.cpu.total.advance own ∧ d.clock = c.clock.advance (own + n)

theorem Spends.of_kept {c d : Console δ ω η} (clock : d.clock = c.clock)
    (total : d.cpu.total = c.cpu.total) : Spends 0 c d :=
  ⟨0, total, clock⟩

theorem Spends.trans {m n : Nat} {c d e : Console δ ω η} (first : Spends m c d)
    (second : Spends n d e) : Spends (m + n) c e := by
  obtain ⟨own, total, clock⟩ := first
  obtain ⟨own', total', clock'⟩ := second
  refine ⟨own + own', ?_, ?_⟩
  · rw [total', total, Ticks.advance_advance]
  · rw [clock', clock, Ticks.advance_advance]
    exact congrArg c.clock.advance (by omega)

def sumOver (cost : Console δ ω η → Nat) (call : Console δ ω η → Console δ ω η) (n : Nat)
    (c : Console δ ω η) : Nat :=
  ((List.range n).map fun k => cost (call^[k] c)).sum

theorem Spends.iterate {cost : Console δ ω η → Nat} {call : Console δ ω η → Console δ ω η}
    (spends : ∀ c, Spends (cost c) c (call c)) (n : Nat) (c : Console δ ω η) :
    Spends (sumOver cost call n c) c (call^[n] c) := by
  induction n with
  | zero => exact .of_kept rfl rfl
  | succ n ih =>
    rw [sumOver, List.range_succ, List.map_append, List.sum_append, Function.iterate_succ_apply']
    exact ih.trans (spends _)

def rounds (body : Console δ ω η → RunOutcome × Console δ ω η) (filled : Console δ ω η → Nat)
    (budget : Nat) : (limit : Nat) → Console δ ω η → Nat
  | limit, c =>
    if budget ≤ filled c then 0
    else match limit with
      | 0 => 0
      | limit + 1 =>
        match body c with
        | (.completed, d) => rounds body filled budget limit d + 1
        | _ => 1

/-- A loop is its body, called again and again. -/
theorem fill_iterate (body : Console δ ω η → RunOutcome × Console δ ω η)
    (filled : Console δ ω η → Nat) (budget limit : Nat) (c : Console δ ω η) :
    (fill body filled budget limit c).2 =
      (fun d => (body d).2)^[rounds body filled budget limit c] c := by
  fun_induction fill body filled budget limit c with
  | case1 limit c full =>
    unfold rounds
    rw [if_pos full]
    rfl
  | case2 c short =>
    unfold rounds
    rw [if_neg short]
    rfl
  | case3 c short limit d once ih =>
    unfold rounds
    rw [if_neg short, once, Function.iterate_succ_apply, once]
    exact ih
  | case4 c short limit stopped =>
    unfold rounds
    rw [if_neg short]
    rcases once : body c with ⟨_ | _ | _, d⟩
    · exact absurd once (stopped d)
    · exact congrArg Prod.snd once.symm
    · exact congrArg Prod.snd once.symm

/-- A fold at the end of a loop that leaves both counts alone spends nothing. -/
theorem Spends.finish (fold : Console δ ω η → Console δ ω η)
    (kept : ∀ c : Console δ ω η, (fold c).clock = c.clock ∧ (fold c).cpu.total = c.cpu.total)
    {n : Nat} {c : Console δ ω η} {ran : RunOutcome × Console δ ω η} (spends : Spends n c ran.2) :
    Spends n c (Console.finish fold ran).2 := by
  rcases ran with ⟨_ | _ | _, d⟩
  · obtain ⟨clock, total⟩ := kept d
    exact spends.trans (.of_kept clock total)
  · exact spends
  · exact spends

variable [Device δ] [Observer ω]

theorem serveInterrupt_total (core : Core (Board δ ω)) :
    (serveInterrupt core).cpu.total = core.cpu.total := by
  unfold serveInterrupt
  split
  · rfl
  · split
    · rfl
    · rename_i line _
      obtain ⟨regs, bus, entered⟩ := Exec.interrupt_frame (core.bus.interrupts.vector line) core
      rw [entered]

variable [StepHook η]

/-- The cycles of the slice that the next step runs, if it runs one. -/
def sliceCycles (c : Console δ ω η) : Nat :=
  if (consultHook c.hook c.cpu).1 = false ∧ (serveInterrupt c.core).bus.transferActive = true then
    (serveInterrupt c.core).bus.runSlice.1
  else 0

def lineSlices (c : Console δ ω η) : Nat :=
  sumOver sliceCycles (fun d => d.runStep.2)
    (rounds runStep lineCycles Model.cyclesPerLine Model.cyclesPerLine c) c

def frameSlices (c : Console δ ω η) : Nat :=
  sumOver lineSlices (fun d => d.runLine.2)
    (rounds runLine frameCycles Model.cyclesPerFrame Model.linesPerFrame c) c

theorem runStep_spends (c : Console δ ω η) : Spends c.sliceCycles c c.runStep.2 := by
  have served := serveInterrupt_total c.core
  rcases consulted : consultHook c.hook c.cpu with ⟨_ | _, hook⟩
  case true =>
    rw [runStep_intercepted consulted, sliceCycles, consulted, if_neg (by simp)]
    exact .of_kept rfl rfl
  rw [runStep_passed consulted, sliceCycles, consulted, proceed]
  cases active : (serveInterrupt c.core).bus.transferActive with
  | true =>
    rw [runCore_active active, if_pos ⟨rfl, rfl⟩]
    exact ⟨0, served, by rw [Nat.zero_add]⟩
  | false =>
    rw [runCore_free active, if_neg (by simp)]
    rcases stepped : Exec.step (serveInterrupt c.core) with ⟨_ | cycles, d⟩
    · exact .of_kept rfl ((Exec.step_stalled_total stepped).trans served)
    · have total : d.cpu.total = c.cpu.total.advance cycles :=
        (Exec.stepWithin_total stepped).trans (congrArg (Ticks.advance · cycles) served)
      exact ⟨cycles, total, rfl⟩

theorem runLine_spends (c : Console δ ω η) : Spends c.lineSlices c c.runLine.2 := by
  rw [runLine_eq]
  refine .finish foldLine (fun _ => ⟨rfl, rfl⟩) ?_
  rw [fill_iterate]
  exact .iterate runStep_spends _ c

theorem runFrame_spends (c : Console δ ω η) : Spends c.frameSlices c c.runFrame.2 := by
  rw [runFrame_eq]
  refine .finish foldFrame (fun _ => ⟨rfl, rfl⟩) ?_
  rw [fill_iterate]
  exact .iterate runLine_spends _ c

/-- A console that was built and then run, with the cycles of all slices that its steps ran.
Between two calls a host may change anything but the two counts. -/
inductive Metered : Console δ ω η → Nat → Prop where
  | built {config : Config} {c : Console δ ω η} : build config = .ok c → Metered c 0
  | step {c : Console δ ω η} {n : Nat} : Metered c n → c.runStep.2.crashed = false →
      Metered c.runStep.2 (n + c.sliceCycles)
  | line {c : Console δ ω η} {n : Nat} : Metered c n → c.runLine.2.crashed = false →
      Metered c.runLine.2 (n + c.lineSlices)
  | frame {c : Console δ ω η} {n : Nat} : Metered c n → c.runFrame.2.crashed = false →
      Metered c.runFrame.2 (n + c.frameSlices)
  | reset {c : Console δ ω η} {n : Nat} : Metered c n → Metered c.reset n
  | host {c d : Console δ ω η} {n : Nat} : Metered c n → d.clock = c.clock →
      d.cpu.total = c.cpu.total → Metered d n

theorem Metered.clock {c : Console δ ω η} {n : Nat} (metered : Metered c n) :
    c.clock.count = c.cpu.total.count + n := by
  have call {c d : Console δ ω η} {m n : Nat} (spends : Spends m c d)
      (before : c.clock.count = c.cpu.total.count + n) :
      d.clock.count = d.cpu.total.count + (n + m) := by
    obtain ⟨own, total, clock⟩ := spends
    have more : d.clock.count = c.clock.count + (own + m) := congrArg Ticks.count clock
    have counted : d.cpu.total.count = c.cpu.total.count + own := congrArg Ticks.count total
    omega
  induction metered with
  | built built =>
    obtain ⟨clock, -, total, -⟩ := build_counts built
    rw [clock, total]
  | step _ _ ih => exact call (runStep_spends _) ih
  | line _ _ ih => exact call (runLine_spends _) ih
  | frame _ _ ih => exact call (runFrame_spends _) ih
  | reset _ ih => exact ih
  | host _ clock total ih =>
    rw [clock, total]
    exact ih

theorem Metered.fits {c : Console δ ω η} {n : Nat} (metered : Metered c n) :
    overflows 64 c.clock.count = false := by
  have returned {d : Console δ ω η} (returns : d.crashed = false) :
      overflows 64 d.clock.count = false := by
    simp only [crashed, Bool.or_eq_false_iff] at returns
    exact returns.1.1.2
  induction metered with
  | built built =>
    obtain ⟨clock, -⟩ := build_counts built
    rw [clock]
    rfl
  | step _ returns => exact returned returns
  | line _ returns => exact returned returns
  | frame _ returns => exact returned returns
  | reset _ ih => exact ih
  | host _ clock _ ih => exact clock ▸ ih

/-- No cycle is lost or counted twice. The clock counts the processor's cycles and the slices; and
the processor's are those of its steps' own work, and the price of each interrupt that was paid
for. -/
theorem cycles_accounted :
    (∀ (c : Console δ ω η) (slices : Nat), Metered c slices →
      c.clock.count = c.cpu.total.count + slices ∧ overflows 64 c.clock.count = false) ∧
    ∀ (β : Type) [Bus β],
      (∀ (cpu : Cpu) (l : Ledger), Cpu.Accounted β cpu l → cpu.Balances l) ∧
      (∀ (limit : Nat) (c d : Core β) (cycles : Nat), Exec.stepWithin limit c = (some cycles, d) →
        cycles = c.cpu.deferred + Exec.ownCyclesWithin limit c +
            interruptCycles * (Exec.traps c.cpu).toNat ∧
          d.cpu.deferred = 0) ∧
      ∀ opcode ∈ Exec.interruptingOpcodes, ∀ c : Core β,
        ((Operation.decode opcode).execute c).1.cycles < interruptCycles ∧
          ((Operation.decode opcode).execute c).2.cpu.deferred = c.cpu.deferred := by
  refine ⟨fun c slices metered => ⟨metered.clock, metered.fits⟩, fun β _ => ⟨?_, ?_, ?_⟩⟩
  · intro cpu l accounted
    exact accounted.balances
  · intro limit c d cycles stepped
    exact Exec.stepWithin_bill stepped
  · intro opcode interrupting c
    exact ⟨Exec.interrupting_cheap interrupting c, Exec.execute_deferred _ c⟩

/-- An interrupt is entered while a transfer of two words holds the processor. -/
def held : Console Empty Empty Empty :=
  { bare with
    core.cpu.regs.flags.interrupt := true
    core.bus.interrupts := { status := 0x40, enabled := 0x40 }
    core.bus.transfer := { length := 4, active := true, fresh := true } }

/-- The entry is paid for by the step behind the transfer, and an entry before a reset never
is. -/
theorem cycles_accounted_held :
    let c := held.runStep.2.runStep.2.runStep.2
    let memory : Flat := {}
    let lost := (Exec.interrupt 8 ⟨{}, memory⟩).2.cpu
    let entered := (Exec.interrupt 8 ⟨lost.reset, memory⟩).2.cpu
    (Metered c 9 ∧ c.clock.count = c.cpu.total.count + 9 ∧ 32 < c.cpu.total.count) ∧
    ∃ cycles d l, Exec.step? 1 ⟨entered, memory⟩ = some (cycles, d) ∧ Cpu.Accounted Flat d.cpu l ∧
      d.cpu.Balances l ∧ l.entries = 2 ∧ l.discarded = 1 := by
  intro c memory lost entered
  have law := cycles_accounted (δ := Empty) (ω := Empty) (η := Empty)
  constructor
  · obtain ⟨fresh, built⟩ := build_zeros_bank (δ := Empty) (ω := Empty) (η := Empty) .color 0
    obtain ⟨clock, -, total, -⟩ := build_counts built
    have start : Metered held 0 := .host (.built built) clock.symm total.symm
    have slices : 0 + held.sliceCycles + held.runStep.2.sliceCycles +
        held.runStep.2.runStep.2.sliceCycles = 9 := by decide +kernel
    have metered : Metered c 9 := slices ▸ ((start.step (by decide +kernel)).step
      (by decide +kernel)).step (by decide +kernel)
    exact ⟨metered, (law.1 c 9 metered).1, by decide +kernel⟩
  · obtain ⟨⟨cycles, d⟩, returned⟩ : ∃ answer, Exec.step? 1 ⟨entered, memory⟩ = some answer :=
      Option.isSome_iff_exists.mp (by decide +kernel)
    have untrapped : Exec.traps entered = false := by decide +kernel
    have first : Cpu.Accounted Flat lost { entries := 1, pending := 1 } :=
      .interrupt .initial (Exec.interrupt?_eq_some.mpr ⟨by decide +kernel, rfl⟩)
    have start : Cpu.Accounted Flat entered { entries := 2, pending := 1, discarded := 1 } :=
      first.reset.interrupt (Exec.interrupt?_eq_some.mpr ⟨by decide +kernel, rfl⟩)
    have accounted := start.step returned
    rw [untrapped] at accounted
    exact ⟨cycles, d, _, returned, accounted, (law.2 Flat).1 _ _ accounted, rfl, rfl⟩

end Console

end Swan
