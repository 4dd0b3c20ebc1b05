import Swan.Proofs.BoardStores
import Swan.Proofs.ClockAccount
import Swan.Proofs.HostCommand

/-! A transfer has priority over the processor. As long as it is active, every step runs one
slice of it and no instruction; an interrupt may be entered meanwhile, but only one, since its
handler waits. Once the last word is copied the processor goes on. On the model without the
engine no transfer ever starts. -/
namespace Swan

/-- A slice of a transfer that has some words left. -/
theorem Transfer.next?_left {t : Transfer} {m : Nat} (active : t.active = true)
    (left : t.length.toNat = 2 * (m + 1)) :
    ∃ slice u, t.next? = (some slice, u) ∧ slice.cycles = 2 + (if t.fresh then 5 else 0) ∧
      u.length.toNat = 2 * m ∧ u.active = decide (0 < m) ∧ u.fresh = false := by
  have some_left : ¬ t.length < 2 := by
    rw [BitVec.lt_def, left]
    exact Nat.not_lt.mpr (Nat.le_mul_of_pos_right 2 (Nat.succ_pos m))
  have fewer : (t.length - 2).toNat = 2 * m := by
    rw [BitVec.toNat_sub_of_le (BitVec.not_lt.mp some_left), left]
    exact Nat.add_sub_cancel (2 * m) 2
  have stops : (t.length - 2 != 0) = decide (0 < m) := by
    have zero : (0 : Word).toNat = 0 := rfl
    rw [Bool.eq_iff_iff, bne_iff_ne, ne_eq, ← BitVec.toNat_inj, fewer, zero, decide_eq_true_eq]
    omega
  unfold next?
  rw [active, if_neg some_left]
  refine ⟨_, _, rfl, ?_, fewer, stops, rfl⟩
  cases t.fresh <;> rfl

/-- On the model without the engine, no port is the engine's. -/
theorem PortOwner.of_mono_ne_transfer (p : Byte) : PortOwner.of .mono p ≠ .transfer := by
  revert p
  decide +kernel

namespace Board

variable {δ ω : Type} [Device δ] [Observer ω]

/-- Storing in memory reaches neither the model nor the engine. -/
theorem engine_memoryStable (model : Model) (t : Transfer) :
    MemoryStable fun b : Board δ ω => b.model = model ∧ b.transfer = t :=
  memoryStable fun _ _ _ h => h

omit [Observer ω] in
theorem stepDevices_engine (b : Board δ ω) (cycles : Nat) :
    (b.stepDevices cycles).model = b.model ∧ (b.stepDevices cycles).transfer = b.transfer :=
  ⟨rfl, rfl⟩

theorem runSlice_claims {b : Board δ ω} {slice : Slice} {t : Transfer}
    (next : b.transfer.next? = (some slice, t)) :
    b.runSlice.1 = slice.cycles ∧ b.runSlice.2.model = b.model ∧ b.runSlice.2.transfer = t := by
  have stable := engine_memoryStable (δ := δ) (ω := ω) b.model t
  have claimed : { b with transfer := t }.model = b.model ∧ { b with transfer := t }.transfer = t :=
    ⟨rfl, rfl⟩
  unfold runSlice
  rw [next]
  exact ⟨rfl, stable.write (stable.write (stable.read (stable.read claimed _) _) _ _) _ _⟩

/-- A board of the model without the engine, on which no transfer is active. -/
structure NoTransfer (b : Board δ ω) : Prop where
  model : b.model = .mono
  inactive : b.transfer.active = false

namespace NoTransfer

omit [Device δ] [Observer ω] in
theorem transferActive {b : Board δ ω} (none : b.NoTransfer) : b.transferActive = false := by
  rw [Board.transferActive, none.inactive, Bool.and_false]

omit [Observer ω] in
theorem writePort {b : Board δ ω} (none : b.NoTransfer) (p v : Byte) :
    (b.writePort p v).NoTransfer := by
  unfold Board.writePort
  cases owner : PortOwner.of b.model p
  case transfer =>
    rw [none.model] at owner
    exact absurd owner (PortOwner.of_mono_ne_transfer p)
  all_goals exact ⟨none.model, none.inactive⟩

theorem stable : Stable (NoTransfer (δ := δ) (ω := ω)) where
  toMemoryStable := memoryStable fun _ _ _ none => ⟨none.model, none.inactive⟩
  portIn {b} none p := by
    obtain ⟨sound, serial, v, eq⟩ := b.portIn_frame p
    rw [eq]
    exact ⟨none.model, none.inactive⟩
  portOut {b} none p v := by
    have observed : NoTransfer { b with observer := (b.portSeen p v).2 } :=
      ⟨none.model, none.inactive⟩
    exact observed.writePort p _

theorem runSlice {b : Board δ ω} (none : b.NoTransfer) : b.runSlice.2.NoTransfer := by
  unfold Board.runSlice
  rw [Transfer.next?, none.inactive]
  exact none

end NoTransfer

end Board

namespace Console

variable {δ ω η : Type} [Device δ] [Observer ω]

def Enters (c : Console δ ω η) : Prop :=
  c.cpu.regs.flags.interrupt = true ∧
    c.board.interrupts.status &&& c.board.interrupts.enabled ≠ 0

omit [Device δ] [Observer ω] in
instance (c : Console δ ω η) : Decidable c.Enters := inferInstanceAs (Decidable (_ ∧ _))

theorem serveInterrupt_unless {c : Console δ ω η} (stays : ¬ c.Enters) :
    serveInterrupt c.core = c.core :=
  not_not.mp (mt (serveInterrupt_ne_iff c.core).mp stays)

theorem serveInterrupt_engine (core : Core (Board δ ω)) :
    (serveInterrupt core).bus.model = core.bus.model ∧
      (serveInterrupt core).bus.transfer = core.bus.transfer :=
  serveInterrupt_keeps (Board.engine_memoryStable _ _) ⟨rfl, rfl⟩

theorem serveInterrupt_transferActive (core : Core (Board δ ω)) :
    (serveInterrupt core).bus.transferActive = core.bus.transferActive := by
  obtain ⟨model, engine⟩ := serveInterrupt_engine core
  rw [Board.transferActive, model, engine, Board.transferActive]

theorem serveInterrupt_stores (c : Console δ ω η) :
    Board.Stores (if c.Enters then c.cpu.regs.framePushes else []) c.board
      (serveInterrupt c.core).bus := by
  by_cases enters : c.Enters
  · obtain ⟨line, -, entered⟩ := serveInterrupt_pending enters.1 enters.2
    rw [if_pos enters, entered.served]
    exact Exec.interrupt_stores _ _
  · rw [if_neg enters, serveInterrupt_unless enters]
    exact ⟨[], rfl, .refl _⟩

def stored (c : Console δ ω η) : List Address :=
  (if c.Enters then c.cpu.regs.framePushes else []) ++ c.board.transfer.wordAt

variable [StepHook η]

def afterSteps (c : Console δ ω η) : Nat → Console δ ω η
  | 0 => c
  | k + 1 => (c.afterSteps k).runStep.2

/-- The next step runs a slice, and no instruction. -/
structure RunsSlice (c : Console δ ω η) (slice : Slice) : Prop where
  claimed : c.board.transfer.next? = (some slice, c.runStep.2.board.transfer)
  completed : c.runStep.1 = .completed
  cpu : c.runStep.2.cpu = (serveInterrupt c.core).cpu
  board : c.runStep.2.board = (serveInterrupt c.core).bus.runSlice.2.stepDevices slice.cycles
  clock : c.runStep.2.clock = c.clock.advance slice.cycles

theorem runsSlice_of_active {c : Console δ ω η} (color : c.board.model = .color)
    (active : c.board.transfer.active = true) (passes : (consultHook c.hook c.cpu).1 = false) :
    (∃ slice, c.RunsSlice slice) ∧ c.runStep.2.board.model = .color := by
  obtain ⟨model, engine⟩ := serveInterrupt_engine c.core
  have runs : (serveInterrupt c.core).bus.transferActive = true := by
    rw [Board.transferActive, model, engine, active, color]
    rfl
  rcases next : c.board.transfer.next? with ⟨_ | slice, t⟩
  · rw [Transfer.next?_none next] at active
    cases active
  obtain ⟨cycles, kept, moved⟩ := Board.runSlice_claims (engine ▸ next)
  have consulted : consultHook c.hook c.cpu = (false, (consultHook c.hook c.cpu).2) :=
    Prod.ext passes rfl
  have stepped := runStep_passed consulted
  rw [proceed, runCore_active runs, cycles] at stepped
  have board : c.runStep.2.board =
      (serveInterrupt c.core).bus.runSlice.2.stepDevices slice.cycles := by rw [stepped]
  refine ⟨⟨slice, ?_, by rw [stepped], by rw [stepped], board, by rw [stepped]⟩, ?_⟩
  · rw [board, (Board.stepDevices_engine _ _).2, moved]
    exact next
  · rw [board, (Board.stepDevices_engine _ _).1, kept, model]
    exact color

namespace RunsSlice

variable {c : Console δ ω η} {slice : Slice} (ran : c.RunsSlice slice)

include ran

theorem stores : Board.Stores c.stored c.board c.runStep.2.board := by
  have active : c.board.transfer.active = true := by
    refine Bool.of_not_eq_false fun idle => ?_
    have claimed := ran.claimed
    rw [Transfer.next?, idle] at claimed
    cases claimed
  have engine := (serveInterrupt_engine c.core).2
  have sliced := Board.runSlice_stores (engine ▸ active)
  rw [engine] at sliced
  rw [ran.board]
  exact ((serveInterrupt_stores c).trans sliced).kept (Board.stepDevices_sameMemory _ _)

theorem cpu_unless (stays : ¬ c.Enters) : c.runStep.2.cpu = c.cpu := by
  rw [ran.cpu, serveInterrupt_unless stays]

/-- A handler that is entered masks interrupts. -/
theorem masked (enters : c.Enters) : c.runStep.2.cpu.regs.flags.interrupt = false := by
  obtain ⟨line, -, entered⟩ := serveInterrupt_pending enters.1 enters.2
  rw [ran.cpu]
  exact entered.masked

end RunsSlice

/-- An interrupt is entered in one of the steps that a transfer of `n` words takes. The processor
is as it was before it, and stands at the start of the handler after it. -/
structure EnteredAt (c : Console δ ω η) (n j : Nat) : Prop where
  enters : (c.afterSteps j).Enters
  before : ∀ k ≤ j, (c.afterSteps k).cpu = c.cpu
  after : ∃ line, LineSet.Highest ((c.afterSteps j).board.interrupts.status &&&
      (c.afterSteps j).board.interrupts.enabled) line ∧
    ∀ k, j < k → k ≤ n → (c.afterSteps k).cpu = (Exec.interrupt
      ((c.afterSteps j).board.interrupts.base ||| line.setWidth 8) (c.afterSteps j).core).2.cpu

section Slices

variable {c : Console δ ω η} {n : Nat}
  (slices : ∀ k < n, ∃ slice, (c.afterSteps k).RunsSlice slice)

include slices

/-- Without an interrupt the processor stays as it is. -/
theorem cpu_afterSteps {k : Nat} (within : k ≤ n) (quiet : ∀ i < k, ¬ (c.afterSteps i).Enters) :
    (c.afterSteps k).cpu = c.cpu := by
  induction k with
  | zero => rfl
  | succ k ih =>
    obtain ⟨slice, ran⟩ := slices k within
    have before := ih (Nat.le_of_succ_le within) fun i below => quiet i (Nat.lt_succ_of_lt below)
    exact (ran.cpu_unless (quiet k (Nat.lt_succ_self k))).trans before

/-- With one, it stays at the start of the handler. -/
theorem cpu_entered {j k : Nat} (enters : (c.afterSteps j).Enters) (later : j < k)
    (within : k ≤ n) : (c.afterSteps k).cpu = (serveInterrupt (c.afterSteps j).core).cpu ∧
      (c.afterSteps k).cpu.regs.flags.interrupt = false := by
  induction later with
  | refl =>
    obtain ⟨slice, ran⟩ := slices j within
    exact ⟨ran.cpu, ran.masked enters⟩
  | @step k _ ih =>
    obtain ⟨handler, masked⟩ := ih (Nat.le_of_succ_le within)
    obtain ⟨slice, ran⟩ := slices k within
    have stays : ¬ (c.afterSteps k).Enters := fun again => by
      rw [again.1] at masked
      cases masked
    have same : (c.afterSteps (k + 1)).cpu = (c.afterSteps k).cpu := ran.cpu_unless stays
    rw [same]
    exact ⟨handler, masked⟩

theorem enters_once {i j : Nat} (first : i < n) (second : j < n)
    (enters : (c.afterSteps i).Enters) (again : (c.afterSteps j).Enters) : i = j := by
  have masked {i j : Nat} (enters : (c.afterSteps i).Enters) (later : i < j) (within : j < n) :
      ¬ (c.afterSteps j).Enters := fun again => by
    have masked := (cpu_entered slices enters later (Nat.le_of_lt within)).2
    rw [again.1] at masked
    cases masked
  rcases Nat.lt_trichotomy i j with before | same | after
  · exact absurd again (masked enters before second)
  · exact same
  · exact absurd enters (masked again after first)

theorem enteredAt {j : Nat} (within : j < n) (enters : (c.afterSteps j).Enters) :
    c.EnteredAt n j := by
  obtain ⟨line, highest, entry⟩ := serveInterrupt_pending enters.1 enters.2
  refine ⟨enters, fun k before => ?_, line, highest, fun k later inside => ?_⟩
  · refine cpu_afterSteps slices (Nat.le_trans before (Nat.le_of_lt within)) fun i below again => ?_
    have earlier : i < j := Nat.lt_of_lt_of_le below before
    exact Nat.ne_of_lt earlier
      (enters_once slices (Nat.lt_trans earlier within) within again enters)
  · rw [(cpu_entered slices enters later inside).1, entry.served]

theorem stores_afterSteps {k : Nat} (within : k ≤ n) :
    Board.Stores ((List.range k).flatMap fun i => (c.afterSteps i).stored) c.board
      (c.afterSteps k).board := by
  induction k with
  | zero => exact ⟨[], rfl, .refl _⟩
  | succ k ih =>
    obtain ⟨slice, ran⟩ := slices k within
    rw [List.range_succ, List.flatMap_append, List.flatMap_singleton]
    exact (ih (Nat.le_of_succ_le within)).trans ran.stores

end Slices

/-- What is left of a transfer of `n` words after `k` steps, and what it has cost. -/
structure Underway (c : Console δ ω η) (n k : Nat) : Prop where
  model : (c.afterSteps k).board.model = .color
  left : (c.afterSteps k).board.transfer.length.toNat = 2 * (n - k)
  active : (c.afterSteps k).board.transfer.active = decide (k < n)
  fresh : (c.afterSteps k).board.transfer.fresh = true ↔ c.board.transfer.fresh = true ∧ k = 0
  clock : (c.afterSteps k).clock =
    c.clock.advance (2 * k + if c.board.transfer.fresh = true ∧ 0 < k then 5 else 0)

theorem Underway.step {c : Console δ ω η} {n k : Nat} (underway : c.Underway n k) (more : k < n)
    (passes : (consultHook (c.afterSteps k).hook (c.afterSteps k).cpu).1 = false) :
    (∃ slice, (c.afterSteps k).RunsSlice slice) ∧ c.Underway n (k + 1) := by
  obtain ⟨m, rest⟩ := Nat.exists_eq_add_of_lt more
  have active : (c.afterSteps k).board.transfer.active = true :=
    underway.active.trans (decide_eq_true more)
  have left : (c.afterSteps k).board.transfer.length.toNat = 2 * (m + 1) := by
    rw [underway.left]
    omega
  obtain ⟨slice, u, next, cycles, left', active', fresh'⟩ := Transfer.next?_left active left
  obtain ⟨⟨slice', ran⟩, model⟩ := runsSlice_of_active underway.model active passes
  obtain ⟨same, rfl⟩ := Prod.mk.inj (next.symm.trans ran.claimed)
  obtain rfl := Option.some.inj same
  have rounds : decide (k + 1 < n) = decide (0 < m) := decide_eq_decide.mpr (by omega)
  refine ⟨⟨slice, ran⟩, model, left'.trans (by omega), active'.trans rounds.symm, ?_, ?_⟩
  · have settled : ¬ (c.afterSteps (k + 1)).board.transfer.fresh = true :=
      Bool.not_eq_true _ ▸ fresh'
    exact iff_of_false settled fun both => Nat.succ_ne_zero k both.2
  · have paid : (c.afterSteps (k + 1)).clock = (c.afterSteps k).clock.advance slice.cycles :=
      ran.clock
    rw [paid, underway.clock, cycles, Ticks.advance_advance, if_congr underway.fresh rfl rfl]
    refine congrArg c.clock.advance ?_
    by_cases fresh : c.board.transfer.fresh = true
    · simp only [fresh, true_and]
      split <;> split <;> split <;> omega
    · simp only [fresh, Bool.false_eq_true, false_and, if_false]
      omega

/-- The processor is held off while a transfer of `n` words runs. Every step runs a slice, at most
one interrupt is entered meanwhile, and the step after the last word is the processor's. -/
structure HeldOff (c : Console δ ω η) (n : Nat) : Prop where
  slices : ∀ k < n, ∃ slice, (c.afterSteps k).RunsSlice slice
  remaining : ∀ k ≤ n, (c.afterSteps k).board.transfer.length.toNat = 2 * (n - k)
  clock : (c.afterSteps n).clock =
    c.clock.advance (2 * n + if c.board.transfer.fresh = true then 5 else 0)
  processor : (∀ k ≤ n, (c.afterSteps k).cpu = c.cpu) ∨ ∃ j < n, c.EnteredAt n j
  quiet : (c.cpu.regs.flags.interrupt = false ∨ ∀ k < n,
      (c.afterSteps k).board.interrupts.status &&& (c.afterSteps k).board.interrupts.enabled = 0) →
    ∀ k ≤ n, (c.afterSteps k).cpu = c.cpu
  once : ∀ i < n, ∀ j < n, (c.afterSteps i).Enters → (c.afterSteps j).Enters → i = j
  memory : ∀ k ≤ n, ∃ stores,
    stores.map Prod.fst = (List.range k).flatMap (fun i => (c.afterSteps i).stored) ∧
      (c.afterSteps k).board.peek = (c.board.storeAll stores).peek
  released : (c.afterSteps n).board.transferActive = false
  resumes : ∀ hook, consultHook (c.afterSteps n).hook (c.afterSteps n).cpu = (false, hook) →
    (c.afterSteps n).runStep =
      (c.afterSteps n).proceed hook (serveInterrupt (c.afterSteps n).core) ∧
    runCore (serveInterrupt (c.afterSteps n).core) =
      Exec.step (serveInterrupt (c.afterSteps n).core)

section Priority

variable {c : Console δ ω η} {n : Nat} (color : c.board.model = .color)
  (active : c.board.transfer.active = true) (length : c.board.transfer.length.toNat = 2 * n)
  (some : 0 < n)
  (passes : ∀ k < n, (consultHook (c.afterSteps k).hook (c.afterSteps k).cpu).1 = false)

include color active length some passes

theorem underway {k : Nat} (within : k ≤ n) : c.Underway n k := by
  induction k with
  | zero =>
    exact {
      model := color
      left := length
      active := active.trans (decide_eq_true some).symm
      fresh := (and_iff_left rfl).symm
      clock := by simp [afterSteps, Ticks.advance] }
  | succ k ih =>
    exact ((ih (Nat.le_of_succ_le within)).step within (passes k within)).2

theorem heldOff : c.HeldOff n := by
  have underway {k : Nat} (within : k ≤ n) : c.Underway n k :=
    underway color active length some passes within
  have slices (k : Nat) (more : k < n) : ∃ slice, (c.afterSteps k).RunsSlice slice :=
    ((underway (Nat.le_of_lt more)).step more (passes k more)).1
  have processor : (∀ k ≤ n, (c.afterSteps k).cpu = c.cpu) ∨ ∃ j < n, c.EnteredAt n j := by
    by_cases entered : ∃ j < n, (c.afterSteps j).Enters
    · obtain ⟨j, within, enters⟩ := entered
      exact .inr ⟨j, within, enteredAt slices within enters⟩
    · refine .inl fun k within => cpu_afterSteps slices within fun i below enters => ?_
      exact entered ⟨i, Nat.lt_of_lt_of_le below within, enters⟩
  have released : (c.afterSteps n).board.transferActive = false := by
    rw [Board.transferActive, (underway (Nat.le_refl n)).active]
    simp
  constructor
  case slices => exact slices
  case remaining => exact fun k within => (underway within).left
  case clock =>
    rw [(underway (Nat.le_refl n)).clock]
    simp only [some, and_true]
  case processor => exact processor
  case quiet =>
    intro none
    rcases processor with same | ⟨j, within, entered⟩
    · exact same
    · rcases none with masked | silent
      · have accepts := entered.enters.1
        rw [entered.before j (Nat.le_refl j), masked] at accepts
        cases accepts
      · exact absurd (silent j within) entered.enters.2
  case once => exact fun i first j second => enters_once slices first second
  case memory =>
    intro k within
    obtain ⟨stores, addresses, same⟩ := stores_afterSteps slices within
    exact ⟨stores, addresses, same.peek⟩
  case released => exact released
  case resumes =>
    intro hook passed
    refine ⟨runStep_passed passed, runCore_free ?_⟩
    rw [serveInterrupt_transferActive]
    exact released

end Priority

theorem runStep_noTransfer {c : Console δ ω η} (none : c.board.NoTransfer) :
    c.runStep.2.board.NoTransfer := by
  have served := serveInterrupt_keeps Board.NoTransfer.stable.toMemoryStable none
  have stepped := Board.NoTransfer.stable.step served
  rw [← runCore_free served.transferActive] at stepped
  obtain ⟨hook, -, stops⟩ | ⟨hook, core, -, eq, stalls⟩ |
    ⟨hook, cycles, cpu, board, -, eq, -, completes⟩ := c.runStep_cases
  · rw [stops]
    exact none
  · rw [eq] at stepped
    rw [stalls]
    exact stepped
  · rw [eq] at stepped
    rw [completes]
    exact ⟨stepped.model, stepped.inactive⟩

/-- No command starts a transfer but one that sets the engine itself. -/
theorem Command.keepsNoTransfer {command : Command ω η}
    (indirect : ∀ change, command ≠ .transfer change) {c : Console δ ω η}
    (none : c.board.NoTransfer) : (command.run c).board.NoTransfer := by
  cases command with
  | act act =>
    have carried : Carried fun c d : Console δ ω η => c.board.NoTransfer → d.board.NoTransfer :=
      { refl := fun _ => id
        trans := fun first second none => second (first none)
        step := fun _ => runStep_noTransfer
        line := fun _ _ => id }
    refine carried.act (fun c _ none => ⟨none.model, none.inactive⟩) (fun c act none => ?_)
      c act none
    cases act with
    | access a => exact Board.NoTransfer.stable.access none a
    | request => exact ⟨none.model, none.inactive⟩
    | hold => exact ⟨none.model, none.inactive⟩
    | processor => exact none
    | hook => exact none
  | slice => exact none.runSlice
  | transfer change => exact absurd rfl (indirect change)
  | reset => exact ⟨none.model, rfl⟩
  | query => exact none
  | processor => exact none
  | devices | observe | interrupts | raster | keypad => exact ⟨none.model, none.inactive⟩

theorem obey_noTransfer {commands : List (Command ω η)}
    (indirect : ∀ change, .transfer change ∉ commands) {c : Console δ ω η}
    (none : c.board.NoTransfer) : (c.obey commands).board.NoTransfer := by
  induction commands generalizing c with
  | nil => exact none
  | cons command rest ih =>
    refine ih (fun change later => indirect change (List.mem_cons_of_mem _ later)) ?_
    refine Command.keepsNoTransfer (fun change same => ?_) none
    exact indirect change (same ▸ List.mem_cons_self)

/-- A transfer has priority over the processor for exactly its length: with the engine, an active
one of `n` words holds the processor off for `n` steps. On the other model none ever becomes
active. -/
theorem transfer_priority :
    (∀ (c : Console δ ω η) (n : Nat), c.board.model = .color → c.board.transfer.active = true →
      c.board.transfer.length.toNat = 2 * n → 0 < n →
      (∀ k < n, (consultHook (c.afterSteps k).hook (c.afterSteps k).cpu).1 = false) →
        c.HeldOff n) ∧
    ∀ (c : Console δ ω η) (commands : List (Command ω η)), c.board.model = .mono →
      c.board.transfer.active = false → (∀ change, .transfer change ∉ commands) →
        (c.obey commands).board.transfer.active = false ∧
          (c.obey commands).board.transferActive = false := by
  constructor
  · intro c n color active length some passes
    exact heldOff color active length some passes
  · intro c commands mono inactive indirect
    have none := obey_noTransfer indirect ⟨mono, inactive⟩
    exact ⟨none.inactive, none.transferActive⟩

/-- Without the engine, the writes that would start a transfer are lost. -/
theorem transfer_priority_held :
    (held.HeldOff 2 ∧ (held.afterSteps 2).clock = ⟨9⟩ ∧ held.EnteredAt 2 0) ∧
    let mono : Console Empty Empty Empty := { bare with core.bus.model := .mono }
    (mono.obey [.act (.host (.access (.portOut 0x46 4))),
      .act (.host (.access (.portOut 0x48 0x80))), .act .step]).board.transferActive = false := by
  have law := transfer_priority (δ := Empty) (ω := Empty) (η := Empty)
  constructor
  · have heldOff := law.1 held 2 rfl rfl (by decide) (by decide) (by decide +kernel)
    have clock : (held.afterSteps 2).clock = ⟨9⟩ := heldOff.clock
    have slices := heldOff.slices
    exact ⟨heldOff, clock, enteredAt slices (by decide) (by decide)⟩
  · refine (law.2 _ _ rfl rfl fun change member => ?_).2
    simp at member

end Console

end Swan
