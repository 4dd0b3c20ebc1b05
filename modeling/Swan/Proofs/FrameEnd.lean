import Swan.Proofs.BuildInvariant
import Swan.Proofs.FlatAccess
import Swan.Proofs.Resumption

/-! Every frame ends. Where the code holds an opcode, the fetch loop finds it, and no step is
free, so the calls that a line and a frame are made of use up what they have to fill. -/
namespace Swan

namespace Board

variable {δ ω : Type} [Device δ] [Observer ω]

/-- Only an observer can make a read change anything. -/
theorem steady {b : Board δ ω} (unobserved : b.observer = none) : Steady b b.peek :=
  read_unobserved unobserved

theorem unobserved_stable : Stable fun b : Board δ ω => b.observer = none where
  read h a := by
    rw [read_unobserved h]
    exact h
  write {b} h a v := by
    obtain ⟨ram, sram, eq⟩ := b.poke_frame a v
    rw [write_unobserved h, eq]
    exact h
  portIn h p := by
    obtain ⟨sound, serial, eq⟩ := portIn_unobserved h p
    rw [eq]
    exact h
  portOut {b} h p v := by
    rw [portOut_unobserved h, writePort]
    cases PortOwner.of b.model p <;> exact h

end Board

namespace Exec

variable {β : Type} [Bus β]

/-- A step that finds an opcode costs a cycle for every prefix, and one at least for the
instruction. -/
theorem step_fetched {c d : Core β} {opcode : Byte} {n : Nat} (running : c.cpu.halted = false)
    (found : fetchOpcode? 0 fetchLimit ⟨{ c.cpu with deferred := 0 }, c.bus⟩ =
      (some (opcode, n), d)) : ∃ cycles e, step c = (some cycles, e) ∧ n + 1 ≤ cycles := by
  rw [step, stepWithin_running _ running, found]
  have paid := retire_cycles_pos opcode c.cpu.regs.flags.trap d
  exact ⟨_, _, rfl, by omega⟩

/-- On a bus that reading leaves alone, a step finds the opcode that its code segment holds. -/
theorem step_legible {c : Core β} {view : Address → Byte} (steady : Steady c.bus view)
    (legible : c.cpu.halted = false → Legible view c.cpu.regs) :
    ∃ cycles d, step c = (some cycles, d) := by
  cases halted : c.cpu.halted with
  | true => exact ⟨_, _, stepWithin_halted _ halted⟩
  | false =>
    obtain ⟨prefixes, opcode, short, meets⟩ := (legible halted).meets
    have found := fetchOpcode?_meets (c := ⟨{ c.cpu with deferred := 0 }, c.bus⟩) steady meets
      (Nat.lt_succ_of_le short) 0
    obtain ⟨cycles, d, stepped, -⟩ := step_fetched halted found
    exact ⟨cycles, d, stepped⟩

end Exec

namespace Console

variable {δ ω η : Type}

/-- So many completed calls in a row, each made short of the budget. -/
inductive Rounds (body : Console δ ω η → RunOutcome × Console δ ω η)
    (filled : Console δ ω η → Nat) (budget : Nat) : Nat → Console δ ω η → Console δ ω η → Prop where
  | zero (c : Console δ ω η) : Rounds body filled budget 0 c c
  | next {n : Nat} {c d e : Console δ ω η} : filled c < budget → body c = (.completed, d) →
      Rounds body filled budget n d e → Rounds body filled budget (n + 1) c e

section Loop

variable {body : Console δ ω η → RunOutcome × Console δ ω η} {filled : Console δ ω η → Nat}
  {budget unit : Nat}

theorem Rounds.keeps {P : Console δ ω η → Prop} (kept : ∀ {c}, P c → P (body c).2) {n : Nat}
    {c d : Console δ ω η} (rounds : Rounds body filled budget n c d) (h : P c) : P d := by
  induction rounds with
  | zero => exact h
  | next _ once _ ih =>
    have after := kept h
    rw [once] at after
    exact ih after

/-- A loop whose calls complete, and that has room for them, goes round until it is full. -/
theorem fill_rounds (paced : Paced body filled unit) {limit : Nat} {c : Console δ ω η}
    (room : budget ≤ filled c + unit * limit)
    (completes : ∀ n d, Rounds body filled budget n c d → filled d < budget →
      ∃ e, body d = (.completed, e)) :
    ∃ n ≤ limit, ∃ d, Rounds body filled budget n c d ∧ budget ≤ filled d ∧
      fill body filled budget limit c = (.completed, d) := by
  induction limit generalizing c with
  | zero => exact ⟨0, Nat.le_refl 0, c, .zero c, room, fill_full room 0⟩
  | succ limit ih =>
    by_cases full : budget ≤ filled c
    · exact ⟨0, Nat.zero_le _, c, .zero c, full, fill_full full _⟩
    · have short : filled c < budget := Nat.lt_of_not_le full
      obtain ⟨d, once⟩ := completes 0 c (.zero c) short
      have progress := paced.progress once
      rw [Nat.mul_succ] at room
      obtain ⟨n, within, e, rounds, filled, ran⟩ := ih (by omega)
        fun n e rounds => completes (n + 1) e (.next short once rounds)
      refine ⟨n + 1, Nat.succ_le_succ within, e, .next short once rounds, filled, ?_⟩
      rw [fill_succ full, once]
      exact ran

end Loop

variable [Device δ] [Observer ω]

theorem runCore_legible {core : Core (Board δ ω)} (unobserved : core.bus.observer = none)
    (legible : core.bus.transferActive = false → core.cpu.halted = false →
      Legible core.bus.peek core.cpu.regs) :
    ∃ cycles after, runCore core = (some cycles, after) := by
  cases active : core.bus.transferActive with
  | true => exact ⟨_, _, runCore_active active⟩
  | false =>
    rw [runCore_free active]
    exact Exec.step_legible (Board.steady unobserved) (legible active)

variable [StepHook η]

/-- The hook lets the next step pass, and if it fetches an instruction, there is one: the code
segment holds a byte that is no prefix. -/
structure Proceeds (c : Console δ ω η) : Prop where
  passed : (consultHook c.hook c.cpu).1 = false
  legible : (serveInterrupt c.core).bus.transferActive = false →
    (serveInterrupt c.core).cpu.halted = false →
    Legible (serveInterrupt c.core).bus.peek (serveInterrupt c.core).cpu.regs

theorem Proceeds.completes {c : Console δ ω η} (proceeds : c.Proceeds)
    (unobserved : c.board.observer = none) : ∃ d, c.runStep = (.completed, d) := by
  have after := serveInterrupt_keeps Board.unobserved_stable.toMemoryStable unobserved
  obtain ⟨cycles, core, ran⟩ := runCore_legible after proceeds.legible
  have passes : consultHook c.hook c.cpu = (false, (consultHook c.hook c.cpu).2) :=
    Prod.ext proceeds.passed rfl
  rw [runStep_passed passes, proceed, ran]
  exact ⟨_, rfl⟩

theorem runStep_unobserved {c : Console δ ω η} (unobserved : c.board.observer = none) :
    c.runStep.2.board.observer = none :=
  runStep_keeps Board.unobserved_stable (fun _ h => h) (fun _ h => h) unobserved

theorem runLine_unobserved {c : Console δ ω η} (unobserved : c.board.observer = none) :
    c.runLine.2.board.observer = none :=
  runLine_keeps (P := fun b => b.observer = none) runStep_unobserved unobserved

abbrev Steps (n : Nat) (c d : Console δ ω η) : Prop :=
  Rounds runStep lineCycles Model.cyclesPerLine n c d

abbrev Lines (n : Nat) (c d : Console δ ω η) : Prop :=
  Rounds runLine frameCycles Model.cyclesPerFrame n c d

theorem runLine_rounds {c : Console δ ω η} (unobserved : c.board.observer = none)
    (proceeds : ∀ n d, Steps n c d → d.lineCycles < Model.cyclesPerLine → d.Proceeds) :
    ∃ n ≤ 256, ∃ d, Steps n c d ∧ Model.cyclesPerLine ≤ d.lineCycles ∧
      c.runLine = (.completed, d.foldLine) := by
  have room : Model.cyclesPerLine ≤ c.lineCycles + 1 * Model.cyclesPerLine := by omega
  have completes {n : Nat} {d : Console δ ω η} (steps : Steps n c d)
      (short : d.lineCycles < Model.cyclesPerLine) : ∃ e, d.runStep = (.completed, e) := by
    have still := steps.keeps (P := fun c => c.board.observer = none) runStep_unobserved unobserved
    exact (proceeds n d steps short).completes still
  obtain ⟨n, within, d, steps, full, ran⟩ :=
    fill_rounds runStep_paced room fun _ _ steps short => completes steps short
  refine ⟨n, within, d, steps, full, ?_⟩
  rw [runLine_eq, ran]
  rfl

theorem runFrame_rounds {c : Console δ ω η} (unobserved : c.board.observer = none)
    (proceeds : ∀ m d n e, Lines m c d → d.frameCycles < Model.cyclesPerFrame → Steps n d e →
      e.lineCycles < Model.cyclesPerLine → e.Proceeds) :
    ∃ n ≤ 159, ∃ d, Lines n c d ∧ Model.cyclesPerFrame ≤ d.frameCycles ∧
      c.runFrame = (.completed, d.foldFrame) := by
  have room : Model.cyclesPerFrame ≤ c.frameCycles + Model.cyclesPerLine * Model.linesPerFrame :=
    Nat.le_add_left _ _
  have completes {m : Nat} {d : Console δ ω η} (lines : Lines m c d)
      (short : d.frameCycles < Model.cyclesPerFrame) : ∃ e, d.runLine = (.completed, e) := by
    have still := lines.keeps (P := fun c => c.board.observer = none) runLine_unobserved unobserved
    obtain ⟨_, _, e, _, _, ran⟩ := runLine_rounds still fun n e => proceeds m d n e lines short
    exact ⟨_, ran⟩
  obtain ⟨n, within, d, lines, full, ran⟩ :=
    fill_rounds runLine_paced room fun _ _ lines short => completes lines short
  refine ⟨n, within, d, lines, full, ?_⟩
  rw [runFrame_eq, ran]
  rfl

/-- Every frame ends. A step costs a cycle more than it fetched prefixes, so a line whose steps all
return and pass the hook takes 256 steps at most, and a frame 159 such lines. -/
theorem frames_end :
    (∀ b : Flat, Steady b b.read) ∧
    (∀ b : Board δ ω, b.observer = none → Steady b b.peek) ∧
    (∀ {β : Type} [Bus β] (c : Core β) (view : Address → Byte),
      Steady c.bus view → Legible view c.cpu.regs →
      ∃ prefixes opcode, prefixes.length ≤ 65535 ∧ Meets view c.cpu.regs prefixes opcode ∧
        ∀ limit > prefixes.length,
          (Exec.fetchOpcode? 0 limit c).1 = some (opcode, prefixes.length)) ∧
    (∀ {β : Type} [Bus β] (c d : Core β) (opcode : Byte) (n : Nat), c.cpu.halted = false →
      Exec.fetchOpcode? 0 Exec.fetchLimit ⟨{ c.cpu with deferred := 0 }, c.bus⟩ =
        (some (opcode, n), d) →
      ∃ cycles e, Exec.step c = (some cycles, e) ∧ n + 1 ≤ cycles) ∧
    (∀ {β : Type} [Bus β] (c : Core β), c.cpu.halted = true →
      ∃ cycles d, Exec.step c = (some cycles, d) ∧ 1 ≤ cycles) ∧
    (∀ b : Board δ ω, b.transferActive = true → 2 ≤ b.runSlice.1) ∧
    ∀ c : Console δ ω η, c.board.observer = none →
      ((∀ n d, Steps n c d → d.lineCycles < Model.cyclesPerLine → d.Proceeds) →
        ∃ n ≤ 256, ∃ d, Steps n c d ∧ Model.cyclesPerLine ≤ d.lineCycles ∧
          c.runLine = (.completed, d.foldLine)) ∧
      ((∀ m d n e, Lines m c d → d.frameCycles < Model.cyclesPerFrame → Steps n d e →
          e.lineCycles < Model.cyclesPerLine → e.Proceeds) →
        ∃ n ≤ 159, ∃ d, Lines n c d ∧ Model.cyclesPerFrame ≤ d.frameCycles ∧
          c.runFrame = (.completed, d.foldFrame)) := by
  refine ⟨Flat.steady, fun b => Board.steady, ?_, ?_, ?_, fun b => Board.runSlice_cycles, ?_⟩
  · intro β _ c view steady legible
    obtain ⟨prefixes, opcode, short, meets⟩ := legible.meets
    refine ⟨prefixes, opcode, short, meets, fun limit enough => ?_⟩
    rw [Exec.fetchOpcode?_meets steady meets enough, Nat.zero_add]
  · intro β _ c d opcode n running found
    exact Exec.step_fetched running found
  · intro β _ c halted
    exact ⟨_, _, Exec.stepWithin_halted _ halted, Nat.le_add_left _ _⟩
  · intro c unobserved
    exact ⟨runLine_rounds unobserved, runFrame_rounds unobserved⟩

omit [Device δ] [Observer ω] [StepHook η] in
/-- Above its memory a blank console reads open bus, unused space and an empty cartridge, none
of which is a prefix, and every segment reaches there. -/
theorem legible_blank {b : Board δ ω} (model : b.model = .mono) (overlay : b.bootstrap.size = 0)
    (rom : b.cartridge.rom = .zeros Cartridge.bankSize) (sram : b.cartridge.sramSize = 0)
    (r : Registers) : Legible b.peek r := by
  have uncovered (a : Address) : b.inBootstrap a = false := by
    have start : b.bootstrapStart = 0x100000 := by rw [Board.bootstrapStart, overlay]
    rw [Board.inBootstrap, start, decide_eq_false (Nat.not_le.mpr a.isLt), Bool.and_false]
  have above {a : Address} (high : 0x10000 ≤ a.toNat) : isPrefix (b.peek a) = false := by
    have notLow : ¬ a.toNat < Cartridge.sramStart := Nat.not_lt.mpr high
    simp only [Board.peek, uncovered, Bool.false_eq_true, notLow, Cartridge.peek, rom,
      Image.byte_zeros, sram, if_true, if_false]
    split <;> decide
  have between {a : Address} (beyond : 0x4000 ≤ a.toNat) (low : a.toNat < 0x10000) :
      isPrefix (b.peek a) = false := by
    have noRam : ¬ a.toNat < Model.mono.ramSize := Nat.not_lt.mpr beyond
    have below : a.toNat < Cartridge.sramStart := low
    simp only [Board.peek, uncovered, Bool.false_eq_true, below, model, noRam, if_true, if_false]
    decide
  have segment := r.cs.isLt
  by_cases first : r.cs.toNat = 0
  · have place : (physical r.cs 0x4000).toNat = 0x4000 := by
      rw [toNat_physical, first]
      rfl
    exact ⟨0x4000, between (by omega) (by omega)⟩
  · refine ⟨BitVec.ofNat 16 (0x10000 - r.cs.toNat * 16), above ?_⟩
    rw [toNat_physical, BitVec.toNat_ofNat]
    omega

theorem frames_end_blank : ∃ c : Console Empty Empty Empty,
    build { model := .mono, rom := .zeros Cartridge.bankSize } = .ok c ∧
      (∃ n ≤ 256, ∃ d, Steps n c d ∧ Model.cyclesPerLine ≤ d.lineCycles ∧
        c.runLine = (.completed, d.foldLine)) ∧
      ∃ n ≤ 159, ∃ d, Lines n c d ∧ Model.cyclesPerFrame ≤ d.frameCycles ∧
        c.runFrame = (.completed, d.foldFrame) := by
  obtain ⟨c, built⟩ := build_zeros_bank (δ := Empty) (ω := Empty) (η := Empty) .mono 0
  have bare := build_bare built
  obtain ⟨cartridge, board, accepted, boarded, eq⟩ := build_board built
  obtain ⟨_, rfl⟩ := Cartridge.ofRom?_ok accepted
  obtain ⟨-, rfl⟩ := Board.build_ok boarded
  have proceeds {d : Console Empty Empty Empty} (same : c.board.SameBuild d.board) :
      d.Proceeds := by
    have served := serveInterrupt_keeps (Board.SameBuild.stable bare).toMemoryStable same
    rw [eq] at served
    obtain ⟨⟨_, _, _, _, _, _, _, _, _, shown⟩, -⟩ := served
    refine ⟨?_, fun _ _ => ?_⟩
    · match d.hook with
      | none => rfl
    · rw [shown]
      exact legible_blank rfl rfl rfl rfl _
  have unobserved : c.board.observer = none := by rw [eq]; rfl
  have ends := frames_end.2.2.2.2.2.2 c unobserved
  refine ⟨c, built, ends.1 ?_, ends.2 ?_⟩
  · intro n d steps _
    exact proceeds (steps.keeps (P := fun d => c.board.SameBuild d.board) (runStep_sameBuild bare)
      (.refl bare))
  · intro m d n e lines _ steps _
    have same := lines.keeps (P := fun d => c.board.SameBuild d.board) (runLine_sameBuild bare)
      (.refl bare)
    exact proceeds (steps.keeps (P := fun d => c.board.SameBuild d.board) (runStep_sameBuild bare)
      same)

end Console

end Swan
