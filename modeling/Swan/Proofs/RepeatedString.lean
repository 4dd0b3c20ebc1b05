import Swan.Proofs.CodeStep
import Swan.Proofs.Completion
import Swan.Proofs.StringElement
import Swan.Proofs.StringEquation

/-! A repeated string instruction on a flat bus. Its elements are those of the loop that
transfers one after the other and does nothing else; what the processor does around them
is said relative to that loop. Memory may differ from the loop's at hidden addresses, so
that the same run can be followed through interrupts that use a stack there. -/
namespace Swan.Exec

/-- How many elements are transferred: those up to the first after which a comparison
stops, or all that CX counts. -/
def repetitions (w : Width) (op : StringOp) (k : RepeatClass) (s : Core Flat) : Nat :=
  let n := s.cpu.regs.cx.toNat
  ((List.range' 1 n).find? fun i => op.stops k (elements w op i s).cpu.regs.flags).getD n

section Repetitions

variable (w : Width) (op : StringOp) (k : RepeatClass) (s : Core Flat)

theorem repetitions_cases :
    let n := s.cpu.regs.cx.toNat
    let m := repetitions w op k s
    (∀ i, 0 < i → i < m → op.stops k (elements w op i s).cpu.regs.flags = false) ∧
    (0 < m ∧ m ≤ n ∧ op.stops k (elements w op m s).cpu.regs.flags = true ∨
      m = n ∧ (0 < n → op.stops k (elements w op n s).cpu.regs.flags = false)) := by
  intro n m
  cases found : (List.range' 1 n).find? fun i =>
      op.stops k (elements w op i s).cpu.regs.flags with
  | none =>
    have all : m = n := by simp only [m, repetitions, n, found, Option.getD_none]
    rw [List.find?_eq_none] at found
    have goesOn (i : Nat) (some_ : 0 < i) (bound : i ≤ n) :
        op.stops k (elements w op i s).cpu.regs.flags = false := by
      simpa using found i (List.mem_range'_1.mpr ⟨some_, by omega⟩)
    exact ⟨fun i some_ before => goesOn i some_ (by omega),
      .inr ⟨all, fun some_ => goesOn n some_ (Nat.le_refl n)⟩⟩
  | some i =>
    have first : m = i := by simp only [m, repetitions, n, found, Option.getD_some]
    rw [List.find?_range'_eq_some] at found
    obtain ⟨stops, member, before⟩ := found
    rw [List.mem_range'_1] at member
    subst first
    refine ⟨fun j some_ earlier => ?_, .inl ⟨member.1, by omega, stops⟩⟩
    simpa using before j some_ earlier

theorem repetitions_le : repetitions w op k s ≤ s.cpu.regs.cx.toNat := by
  obtain ⟨_, ⟨_, bound, _⟩ | ⟨all, _⟩⟩ := repetitions_cases w op k s <;> omega

theorem repetitions_pos (left : s.cpu.regs.cx ≠ 0) : 0 < repetitions w op k s := by
  obtain ⟨_, ⟨some_, _⟩ | ⟨all, _⟩⟩ := repetitions_cases w op k s
  · exact some_
  · rw [all]
    exact Nat.pos_of_ne_zero fun zero => left (BitVec.eq_of_toNat_eq zero)

theorem repetitions_eq (plain : op.compares = false) :
    repetitions w op k s = s.cpu.regs.cx.toNat := by
  obtain ⟨_, ⟨_, _, stops⟩ | ⟨all, _⟩⟩ := repetitions_cases w op k s
  · rw [StringOp.stops, plain] at stops
    exact absurd stops Bool.false_ne_true
  · exact all

/-- A comparison goes on while its prefix asks for it, and stops early only when it does not. -/
theorem repetitions_compares (compares : op.compares = true) :
    let m := repetitions w op k s
    (∀ i, 0 < i → i < m → k.continues (elements w op i s).cpu.regs.flags.zero = true) ∧
      (m < s.cpu.regs.cx.toNat → k.continues (elements w op m s).cpu.regs.flags.zero = false) := by
  have stops (f : Flags) : op.stops k f = !k.continues f.zero := by
    rw [StringOp.stops, compares, Bool.true_and]
  obtain ⟨before, last⟩ := repetitions_cases w op k s
  simp only [stops, Bool.not_eq_false', Bool.not_eq_true'] at before last
  refine ⟨before, fun early => ?_⟩
  obtain ⟨_, _, stopped⟩ | ⟨all, _⟩ := last
  · exact stopped
  · exact absurd all (Nat.ne_of_lt early)

theorem count_eq_zero_iff {cx : Word} {i : Nat} (bound : i ≤ cx.toNat) :
    cx - BitVec.ofNat 16 i = 0 ↔ i = cx.toNat := by
  have small := cx.isLt
  rw [BitVec.sub_eq_iff_eq_add, ← BitVec.toNat_inj, BitVec.toNat_add, BitVec.toNat_ofNat]
  simp only [BitVec.ofNat_eq_ofNat, BitVec.toNat_ofNat]
  omega

theorem count_ne_zero {i : Nat} (before : i < repetitions w op k s) :
    s.cpu.regs.cx - BitVec.ofNat 16 i ≠ 0 := by
  have bound := repetitions_le w op k s
  rw [Ne, count_eq_zero_iff (by omega)]
  omega

/-- The repetition is over after the last element and after none before it. -/
theorem repeatEnds_iff {i : Nat} (before : i < repetitions w op k s) :
    repeatEnds op k (s.cpu.regs.cx - BitVec.ofNat 16 (i + 1))
      (elements w op (i + 1) s).cpu.regs.flags ↔ i + 1 = repetitions w op k s := by
  have bound := repetitions_le w op k s
  obtain ⟨goesOn, last⟩ := repetitions_cases w op k s
  rw [repeatEnds, count_eq_zero_iff (by omega)]
  constructor
  · rintro (exhausted | stops)
    · omega
    · apply Nat.le_antisymm before
      apply Nat.le_of_not_lt
      intro earlier
      rw [goesOn (i + 1) (Nat.succ_pos i) earlier] at stops
      contradiction
  · intro equal
    rw [equal]
    obtain ⟨_, _, stops⟩ | ⟨all, _⟩ := last
    · exact .inr stops
    · exact .inl all

end Repetitions

/-- Between two elements: the next one follows those of `s`, and the prefixes are queued. -/
structure Paused (hidden : List Address) (s : Core Flat) (cx : Word) (c : Core Flat) : Prop
    extends Follows hidden s c cx (s.cpu.regs.ip - 1) where
  running : c.cpu.halted = false
  settled : c.cpu.deferred = 0

structure Ended (hidden : List Address) (opcode : Byte) (s : Core Flat) (cx : Word)
    (c : Core Flat) : Prop where
  regs : c.cpu.regs = { s.cpu.regs with cx }
  queue : c.cpu.prefixes = .empty
  running : c.cpu.halted = false
  settled : c.cpu.deferred = 0
  opcode : c.cpu.opcode = opcode
  bus : s.bus.AgreeOff hidden c.bus

theorem Ended.cpu_eq {hidden : List Address} {opcode : Byte} {s d : Core Flat} {cx : Word}
    (ended : Ended hidden opcode s cx d) : d.cpu = {
      regs := { s.cpu.regs with cx }, halted := false, prefixes := .empty
      opcode, deferred := 0, total := d.cpu.total } := by
  obtain ⟨⟨regs, halted, queue, last, owed, total⟩, _⟩ := d
  rw [Cpu.mk.injEq]
  exact ⟨ended.regs, ended.running, ended.queue, ended.opcode, ended.settled, rfl⟩

/-- In front of code that leads to the next element, which follows those of `s`: the
opcode, after as many prefixes as are to be fetched again. -/
structure Ready (hidden : List Address) (opcode : Byte) (s : Core Flat) (cx : Word)
    (rest : List Byte) (c : Core Flat) : Prop extends c.Fetches rest opcode where
  regs : c.cpu.regs = { s.cpu.regs with
    cx, ip := s.cpu.regs.ip - BitVec.ofNat 16 (rest.length + 1) }
  queue : c.cpu.prefixes.pushAll rest = s.cpu.prefixes
  running : c.cpu.halted = false
  bus : s.bus.AgreeOff hidden c.bus

variable {hidden : List Address} {opcode : Byte} {w : Width} {op : StringOp} {k : RepeatClass}
  {s c : Core Flat} {cx : Word} {rest : List Byte}

theorem Ready.follows (ready : Ready hidden opcode s cx rest c) :
    Follows hidden s (c.fetched rest opcode) cx s.cpu.regs.ip where
  regs := by
    simp only [Core.fetched, ready.regs, BitVec.sub_add_cancel]
  queue := ready.queue
  bus := ready.bus

/-- One step transfers the element, and then the repetition is paused or has ended. -/
theorem Ready.step (ready : Ready hidden opcode s cx rest c)
    (decoded : Operation.decode opcode = .string w op)
    (repeated : s.cpu.prefixes.repeatClass = some k)
    (untrapped : s.cpu.regs.flags.trap = false) (left : cx ≠ 0)
    (seen : ∀ a ∈ op.touched w s.cpu, a ∉ hidden) :
    let t := (element w op s).2
    ∃ d, Exec.step c = (some (c.cpu.deferred + rest.length + op.cycles), d) ∧
      if repeatEnds op k (cx - 1) t.cpu.regs.flags then Ended hidden opcode t (cx - 1) d
      else Paused hidden t (cx - 1) d := by
  intro t
  have follows := ready.follows
  obtain ⟨regs, queue, bus⟩ := follows.element seen
  obtain ⟨ax, flags, _, kept⟩ := element_frame w op (c.fetched rest opcode)
  obtain ⟨_, _, _, place⟩ := element_frame w op s
  have ip : t.cpu.regs.ip = s.cpu.regs.ip := by rw [place]
  rw [← ip] at regs
  have repeated' : (c.fetched rest opcode).cpu.prefixes.repeatClass = some k := by
    rw [follows.queue, repeated]
  have left' : (c.fetched rest opcode).cpu.regs.cx ≠ 0 := by rwa [follows.regs]
  have untrapped' : c.cpu.regs.flags.trap = false := by rw [ready.regs]; exact untrapped
  have stepped {r : Retired} {d : Core Flat} (run : string w op (c.fetched rest opcode) = (r, d)) :=
    step_code ready.running untrapped' ready.toFetches (by rw [decoded]; exact run)
  have run : string w op (c.fetched rest opcode) = _ := string_repeated repeated' left'
  simp only [regs] at run
  by_cases ends : repeatEnds op k (cx - 1) t.cpu.regs.flags
  · rw [if_pos ends] at run
    refine ⟨_, stepped run, ?_⟩
    rw [if_pos ends]
    exact {
      regs := rfl
      queue := rfl
      running := by rw [kept]; exact ready.running
      settled := by rw [kept]; rfl
      opcode := by rw [kept]; rfl
      bus }
  · rw [if_neg ends] at run
    refine ⟨_, stepped run, ?_⟩
    rw [if_neg ends]
    exact {
      regs := rfl
      queue
      running := by rw [kept]; exact ready.running
      settled := by rw [kept]; rfl
      bus }

/-- A repetition whose elements keep away from hidden memory and whose opcode can still
be fetched between them. The loop starts at `s`. -/
structure Repetition (hidden : List Address) (opcode : Byte) (w : Width) (op : StringOp)
    (k : RepeatClass) (s : Core Flat) : Prop where
  decoded : Operation.decode opcode = .string w op
  repeated : s.cpu.prefixes.repeatClass = some k
  untrapped : s.cpu.regs.flags.trap = false
  seen : ∀ i < repetitions w op k s, ∀ a ∈ op.touched w (elements w op i s).cpu, a ∉ hidden
  legible : ∀ i < repetitions w op k s, ∀ c : Core Flat,
    Paused hidden (elements w op i s) (s.cpu.regs.cx - BitVec.ofNat 16 i) c → c.Fetches [] opcode

/-- An interrupt between any two elements leads back to code for the next one. -/
def Reenters (hidden : List Address) (opcode : Byte) (w : Width) (op : StringOp)
    (k : RepeatClass) (s : Core Flat) (vector : Byte) : Prop :=
  ∀ i < repetitions w op k s, ∀ c : Core Flat,
    Paused hidden (elements w op i s) (s.cpu.regs.cx - BitVec.ofNat 16 i) c →
      ∃ served rest d, visit (some vector) c = (some served, d) ∧
        Ready hidden opcode (elements w op i s) (s.cpu.regs.cx - BitVec.ofNat 16 i) rest d

theorem Paused.ready (paused : Paused hidden s cx c) (fetches : c.Fetches [] opcode) :
    Ready hidden opcode s cx [] c where
  toFetches := fetches
  regs := paused.regs
  queue := paused.queue
  running := paused.running
  bus := paused.bus

theorem elements_kept (w : Width) (op : StringOp) (i : Nat) (s : Core Flat) :
    (elements w op i s).cpu.prefixes = s.cpu.prefixes ∧
      (elements w op i s).cpu.regs.flags.trap = s.cpu.regs.flags.trap := by
  obtain ⟨ax, flags, control, frame⟩ := elements_frame w op i s
  rw [frame]
  exact ⟨rfl, control.trap⟩

theorem Repetition.step (loop : Repetition hidden opcode w op k s) {i : Nat}
    (before : i < repetitions w op k s)
    (ready : Ready hidden opcode (elements w op i s) (s.cpu.regs.cx - BitVec.ofNat 16 i) rest c) :
    let t := elements w op (i + 1) s
    let cx := s.cpu.regs.cx - BitVec.ofNat 16 (i + 1)
    ∃ d, Exec.step c = (some (c.cpu.deferred + rest.length + op.cycles), d) ∧
      if i + 1 = repetitions w op k s then Ended hidden opcode t cx d else Paused hidden t cx d := by
  obtain ⟨queue, trap⟩ := elements_kept w op i s
  have counted : s.cpu.regs.cx - BitVec.ofNat 16 i - 1 = s.cpu.regs.cx - BitVec.ofNat 16 (i + 1) := by
    bv_omega
  have stepped := ready.step loop.decoded (queue ▸ loop.repeated) (trap ▸ loop.untrapped)
    (count_ne_zero w op k s before) (loop.seen i before)
  rw [counted, show (element w op (elements w op i s)).2 = elements w op (i + 1) s from rfl] at stepped
  simpa only [repeatEnds_iff w op k s before] using stepped

/-- By induction on the elements that are left: the run completes where the loop does. -/
theorem Repetition.completes {serve : Nat → Option Byte} (loop : Repetition hidden opcode w op k s)
    (reenters : ∀ p vector, serve p = some vector → Reenters hidden opcode w op k s vector)
    {i j : Nat} (left : i + j + 1 = repetitions w op k s)
    (ready : Ready hidden opcode (elements w op i s) (s.cpu.regs.cx - BitVec.ofNat 16 i) rest c) :
    let m := repetitions w op k s
    ∃ cycles d, Completes serve c (j + 1) cycles d ∧
      Ended hidden opcode (elements w op m s) (s.cpu.regs.cx - BitVec.ofNat 16 m) d ∧
      (serve = quiet → cycles = c.cpu.deferred + rest.length + (j + 1) * op.cycles) := by
  intro m
  induction j generalizing serve i rest c with
  | zero =>
    obtain ⟨d, stepped, ended⟩ := loop.step (by omega) ready
    rw [if_pos left, left] at ended
    exact ⟨_, d, .last stepped ended.queue, ended, fun _ => by rw [Nat.zero_add, Nat.one_mul]⟩
  | succ j ih =>
    obtain ⟨d, stepped, paused⟩ := loop.step (by omega) ready
    rw [if_neg (by omega)] at paused
    have full : d.cpu.prefixes ≠ .empty := by
      intro empty
      have repeated := loop.repeated
      rw [← (elements_kept w op (i + 1) s).1, ← paused.queue, empty] at repeated
      contradiction
    have reenters' (p : Nat) (vector : Byte) (served : serve (p + 1) = some vector) :=
      reenters (p + 1) vector served
    cases point : serve 0 with
    | none =>
      have next := paused.ready (loop.legible (i + 1) (by omega) d paused)
      obtain ⟨cycles, e, rest, ended, cost⟩ := ih reenters' (by omega) next
      refine ⟨_, e, .next stepped full (by rw [point]; rfl) rest, ended, fun silent => ?_⟩
      rw [cost (by rw [silent]; rfl), paused.settled, Nat.succ_mul (j + 1)]
      simp only [List.length_nil]
      omega
    | some vector =>
      obtain ⟨served, rest', d', visited, next⟩ := reenters 0 vector point (i + 1) (by omega) d paused
      obtain ⟨cycles, e, rest, ended, _⟩ := ih reenters' (by omega) next
      refine ⟨_, e, .next stepped full (by rw [point]; exact visited) rest, ended, fun silent => ?_⟩
      rw [silent] at point
      exact absurd point (Option.some_ne_none vector).symm

end Swan.Exec
