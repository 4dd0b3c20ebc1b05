import Swan.Proofs.RepeatedString

/-! What a repeated string instruction comes to when nothing interrupts it: the loop over
its elements, at the cost of its prefixes and of each element. -/
namespace Swan

structure Core.Repeats (c : Core Flat) (prefixes : List Byte) (opcode : Byte) (w : Width)
    (op : StringOp) (k : RepeatClass) : Prop where
  running : c.cpu.halted = false
  fresh : c.cpu.prefixes = .empty
  untrapped : c.cpu.regs.flags.trap = false
  queued : ∀ b ∈ prefixes, isPrefix b = true
  code : c.bus.CodeAt c.cpu.regs.cs c.cpu.regs.ip (prefixes ++ [opcode])
  decoded : Operation.decode opcode = .string w op
  repeated : (PrefixQueue.empty.pushAll prefixes).repeatClass = some k

def Core.opcodeAddress (c : Core Flat) (prefixes : List Byte) : Address :=
  physical c.cpu.regs.cs (c.cpu.regs.ip + BitVec.ofNat 16 prefixes.length)

theorem isPrefix_stringOpcodes : ∀ opcode ∈ stringOpcodes, isPrefix opcode = false := by decide

namespace Core.Repeats

open Exec

variable {c : Core Flat} {prefixes : List Byte} {opcode : Byte} {w : Width} {op : StringOp}
  {k : RepeatClass} {hidden : List Address}

theorem fetches (repeats : c.Repeats prefixes opcode w op k) : c.Fetches prefixes opcode where
  code := repeats.code
  queued := repeats.queued
  plain := isPrefix_stringOpcodes opcode (mem_stringOpcodes repeats.decoded)

theorem fetched_prefixes (repeats : c.Repeats prefixes opcode w op k) :
    (c.fetched prefixes opcode).cpu.prefixes = PrefixQueue.empty.pushAll prefixes := by
  rw [Core.fetched, repeats.fresh]

theorem ready (repeats : c.Repeats prefixes opcode w op k) (hidden : List Address) :
    let s := c.fetched prefixes opcode
    Ready hidden opcode (elements w op 0 s) (s.cpu.regs.cx - BitVec.ofNat 16 0) prefixes c where
  toFetches := repeats.fetches
  regs := by
    simp only [elements, Core.fetched, BitVec.add_sub_cancel]
    simp
  queue := rfl
  running := repeats.running
  bus := .refl hidden c.bus

theorem exhausted (repeats : c.Repeats prefixes opcode w op k) (hidden : List Address)
    (none_left : c.cpu.regs.cx = 0) :
    ∃ d, step c = (some (c.cpu.deferred + prefixes.length + 1), d) ∧
      Ended hidden opcode (c.fetched prefixes opcode) 0 d := by
  have repeated : (c.fetched prefixes opcode).cpu.prefixes.repeatClass = some k := by
    rw [repeats.fetched_prefixes, repeats.repeated]
  have run : string w op (c.fetched prefixes opcode) = _ := string_exhausted repeated none_left
  refine ⟨_, step_code repeats.running repeats.untrapped repeats.fetches
    (by rw [repeats.decoded]; exact run), ?_⟩
  exact {
    regs := by simp only [Core.fetched, none_left]
    queue := rfl
    running := repeats.running
    settled := rfl
    opcode := rfl
    bus := .refl hidden c.bus }

/-- The opcode is still there between two elements if none was stored over it. -/
theorem legible (repeats : c.Repeats prefixes opcode w op k)
    (away : c.opcodeAddress prefixes ∉ hidden)
    (kept : ∀ i < repetitions w op k (c.fetched prefixes opcode),
      c.opcodeAddress prefixes ∉ op.stored w (elements w op i (c.fetched prefixes opcode)).cpu)
    {i : Nat} (before : i < repetitions w op k (c.fetched prefixes opcode)) {cx : Word}
    {d : Core Flat}
    (paused : Paused hidden (elements w op i (c.fetched prefixes opcode)) cx d) :
    d.Fetches [] opcode where
  code := by
    obtain ⟨ax, flags, _, frame⟩ := elements_frame w op i (c.fetched prefixes opcode)
    have place : physical d.cpu.regs.cs d.cpu.regs.ip = c.opcodeAddress prefixes := by
      rw [paused.regs, frame]
      simp only [Core.fetched, Core.opcodeAddress, BitVec.ofNat_add]
      rw [← BitVec.add_assoc]
      exact congrArg _ (BitVec.add_sub_cancel _ 1)
    refine ⟨?_, trivial⟩
    rw [place, ← paused.bus.memory _ away, elements_read w op fun j earlier =>
      kept j (Nat.lt_trans earlier before)]
    exact repeats.code.append.1
  queued _ member := nomatch member
  plain := repeats.fetches.plain

/-- However it is interrupted, the instruction completes where the loop over its elements
does, with as many steps as that has elements. -/
theorem completes (repeats : c.Repeats prefixes opcode w op k) (hidden : List Address)
    (serve : Nat → Option Byte) (away : c.opcodeAddress prefixes ∉ hidden)
    (kept : ∀ i < repetitions w op k (c.fetched prefixes opcode),
      c.opcodeAddress prefixes ∉ op.stored w (elements w op i (c.fetched prefixes opcode)).cpu)
    (seen : ∀ i < repetitions w op k (c.fetched prefixes opcode),
      ∀ a ∈ op.touched w (elements w op i (c.fetched prefixes opcode)).cpu, a ∉ hidden)
    (reenters : ∀ p vector, serve p = some vector →
      Reenters hidden opcode w op k (c.fetched prefixes opcode) vector) :
    let s := c.fetched prefixes opcode
    let m := repetitions w op k s
    ∃ cycles d, Completes serve c (max 1 m) cycles d ∧
      Ended hidden opcode (elements w op m s) (c.cpu.regs.cx - BitVec.ofNat 16 m) d ∧
      (serve = quiet → cycles = c.cpu.deferred + prefixes.length +
        if c.cpu.regs.cx = 0 then 1 else m * op.cycles) := by
  intro s m
  by_cases none_left : c.cpu.regs.cx = 0
  · have none_done : m = 0 := by
      have bound := repetitions_le w op k s
      rw [show s.cpu.regs.cx = 0 from none_left] at bound
      exact Nat.le_zero.mp bound
    obtain ⟨d, stepped, ended⟩ := repeats.exhausted hidden none_left
    refine ⟨c.cpu.deferred + prefixes.length + 1, d, ?_, ?_, fun _ => ?_⟩
    · rw [none_done]
      exact .last stepped ended.queue
    · rw [none_done, none_left]
      exact ended
    · rw [if_pos none_left]
  · have some_done : 0 < m := repetitions_pos w op k s none_left
    have loop : Repetition hidden opcode w op k s := {
      decoded := repeats.decoded
      repeated := by rw [repeats.fetched_prefixes, repeats.repeated]
      untrapped := repeats.untrapped
      seen
      legible := fun i before d paused => repeats.legible away kept before paused }
    obtain ⟨cycles, d, run, ended, cost⟩ :=
      loop.completes reenters (i := 0) (j := m - 1) (by omega) (repeats.ready hidden)
    rw [Nat.sub_add_cancel some_done] at run cost
    rw [if_neg none_left, Nat.max_eq_right some_done]
    exact ⟨cycles, d, run, ended, cost⟩

/-- Uninterrupted, it leaves what the loop leaves, with CX counted down and the instruction
behind it. -/
theorem completes_quiet (repeats : c.Repeats prefixes opcode w op k) (settled : c.cpu.deferred = 0)
    (kept : ∀ i < repetitions w op k (c.fetched prefixes opcode),
      c.opcodeAddress prefixes ∉ op.stored w (elements w op i (c.fetched prefixes opcode)).cpu) :
    let s := c.fetched prefixes opcode
    let m := repetitions w op k s
    let loop := elements w op m s
    let cycles := prefixes.length + if c.cpu.regs.cx = 0 then 1 else m * op.cycles
    Completes quiet c (max 1 m) cycles ⟨{ c.cpu with
      regs := { loop.cpu.regs with
        cx := c.cpu.regs.cx - BitVec.ofNat 16 m
        ip := c.cpu.regs.ip + BitVec.ofNat 16 (prefixes.length + 1) }
      prefixes := .empty
      opcode
      total := c.cpu.total.advance cycles }, loop.bus⟩ := by
  intro s m loop cycles
  obtain ⟨charged, e, run, ended, cost⟩ := repeats.completes [] quiet List.not_mem_nil kept
    (fun _ _ _ _ => List.not_mem_nil) fun p vector served =>
      absurd served (quiet_ne_some p vector)
  have same : charged = cycles := by rw [cost rfl, settled, Nat.zero_add]
  have place : loop.cpu.regs.ip = s.cpu.regs.ip := by
    obtain ⟨ax, flags, _, frame⟩ := elements_frame w op m s
    rw [show loop.cpu = _ from frame]
  have cpu := ended.cpu_eq
  rw [run.total] at cpu
  rw [show e = ⟨e.cpu, e.bus⟩ from rfl, cpu, ← ended.bus.eq, same] at run
  rw [show c.cpu.regs.ip + BitVec.ofNat 16 (prefixes.length + 1) = loop.cpu.regs.ip from place.symm]
  simp only [repeats.running, settled]
  exact run

/-- The instruction is the loop over its elements. It takes a step for each, as many as CX counts,
unless a comparison ends it sooner, and its prefixes cost a cycle each. -/
theorem equals_loop (repeats : c.Repeats prefixes opcode w op k) (settled : c.cpu.deferred = 0)
    (kept : ∀ i < repetitions w op k (c.fetched prefixes opcode),
      c.opcodeAddress prefixes ∉ op.stored w (elements w op i (c.fetched prefixes opcode)).cpu) :
    let s := c.fetched prefixes opcode
    let n := c.cpu.regs.cx.toNat
    let m := repetitions w op k s
    let zero (i : Nat) := (elements w op i s).cpu.regs.flags.zero
    let loop := elements w op m s
    let distance := BitVec.ofNat 16 m * StringOp.stride w c.cpu.regs.flags.direction
    (m ≤ n ∧ (n ≠ 0 → 0 < m) ∧ (op.compares = false → m = n) ∧
      (op.compares = true → (∀ i, 0 < i → i < m → k.continues (zero i) = true) ∧
        (m < n → k.continues (zero m) = false))) ∧
    (∀ steps cycles d, Completes quiet c steps cycles d ↔
      steps = max 1 m ∧ cycles = prefixes.length + (if n = 0 then 1 else m * op.cycles) ∧
      d = ⟨{ c.cpu with
        regs := { loop.cpu.regs with
          cx := c.cpu.regs.cx - BitVec.ofNat 16 m
          ip := c.cpu.regs.ip + BitVec.ofNat 16 (prefixes.length + 1) }
        prefixes := .empty
        opcode
        total := c.cpu.total.advance cycles }, loop.bus⟩) ∧
    loop.cpu.regs.si = (if op.movesSource then c.cpu.regs.si + distance else c.cpu.regs.si) ∧
    loop.cpu.regs.di = (if op.movesDestination then c.cpu.regs.di + distance else c.cpu.regs.di) := by
  intro s n m zero loop distance
  have none_iff : c.cpu.regs.cx = 0 ↔ n = 0 := BitVec.toNat_inj.symm
  have run := repeats.completes_quiet settled kept
  simp only [none_iff] at run
  refine ⟨⟨repetitions_le w op k s, fun some_ => ?_, repetitions_eq w op k s,
    repetitions_compares w op k s⟩, fun steps cycles d => ⟨fun other => ?_, ?_⟩, ?_⟩
  · exact repetitions_pos w op k s (mt none_iff.mp some_)
  · obtain ⟨rfl, rfl, rfl⟩ := run.unique other
    exact ⟨rfl, rfl, rfl⟩
  · rintro ⟨rfl, rfl, rfl⟩
    exact run
  · obtain ⟨ax, flags, _, frame⟩ := elements_frame w op m s
    rw [show loop.cpu = _ from frame]
    exact ⟨rfl, rfl⟩

/-- In front of `ES: REP MOVSB`, with two bytes to move. -/
def copying : Core Flat where
  cpu := { regs := { cx := 2, si := 0x10, di := 0x200 } }
  bus := (((default : Flat).write 0xFFFF0 0x26).write 0xFFFF1 0xF3).write 0xFFFF2 0xA4

theorem repeats_copying : copying.Repeats [0x26, 0xF3] 0xA4 .byte .movs .whileZero where
  running := rfl
  fresh := rfl
  untrapped := rfl
  queued := by decide
  code := by simp [copying, Flat.CodeAt, Flat.read_write, physical]
  decoded := by decide
  repeated := by decide

theorem equals_loop_copying : ∃ d, Completes quiet copying 2 12 d ∧
    d.cpu.regs.cx = 0 ∧ d.cpu.regs.si = 0x12 ∧ d.cpu.regs.di = 0x202 ∧ d.cpu.regs.ip = 3 := by
  have kept : ∀ i < repetitions .byte .movs .whileZero (copying.fetched [0x26, 0xF3] 0xA4),
      copying.opcodeAddress [0x26, 0xF3] ∉ StringOp.stored .movs .byte
        (elements .byte .movs i (copying.fetched [0x26, 0xF3] 0xA4)).cpu := by
    intro i before member
    rw [repetitions_eq _ _ _ _ rfl] at before
    have two : i < 2 := before
    have touched := StringOp.stored_subset_touched _ _ _ member
    rw [touched_elements] at touched
    revert touched
    obtain rfl | rfl : i = 0 ∨ i = 1 := by omega
    · decide
    · decide
  obtain ⟨⟨_, _, all, _⟩, run, si, di⟩ := repeats_copying.equals_loop rfl kept
  have count := all rfl
  rw [count] at run si di
  exact ⟨_, (run 2 12 _).mpr ⟨rfl, rfl, rfl⟩, rfl, si, di, rfl⟩

end Core.Repeats

end Swan
