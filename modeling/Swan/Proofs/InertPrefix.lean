import Swan.Proofs.CodeStep
import Swan.Proofs.Parametricity
import Swan.Proofs.Placeless
import Swan.Proofs.StringEquation

/-! Prefixes that mean nothing where they stand. An instruction asks its queue for the latest
segment and, to repeat itself, for the latest repetition. Where a byte in front of the others
changes neither answer, the instruction does the same without it, and all that the byte has
cost is the cycle that it took to fetch. -/
namespace Swan

/-- A prefix without a meaning in front of these: the bus lock, a repetition that nothing obeys or
a later one replaces, and a segment that a later one replaces. -/
def Inert (p : Byte) (rest : List Byte) (opcode : Byte) : Prop :=
  p = lockPrefix ∨
  (repeatOfPrefix? p).isSome ∧
    (opcode ∉ stringOpcodes ∨ ∃ b ∈ rest, (repeatOfPrefix? b).isSome) ∨
  (segmentOfPrefix? p).isSome ∧ ∃ b ∈ rest, (segmentOfPrefix? b).isSome

instance (p : Byte) (rest : List Byte) (opcode : Byte) : Decidable (Inert p rest opcode) :=
  inferInstanceAs (Decidable (_ ∨ _))

/-- Two queues that answer an instruction alike. -/
structure PrefixQueue.Alike (opcode : Byte) (q r : PrefixQueue) : Prop where
  segment : q.segmentOverride = r.segmentOverride
  repeated : opcode ∈ stringOpcodes → q.repeatClass = r.repeatClass

/-- A prefix is of one kind. -/
theorem prefix_kinds : ∀ p : Byte,
    (p = lockPrefix → segmentOfPrefix? p = none ∧ repeatOfPrefix? p = none) ∧
    ((repeatOfPrefix? p).isSome → segmentOfPrefix? p = none) ∧
    ((segmentOfPrefix? p).isSome → repeatOfPrefix? p = none) := by decide +kernel

theorem Inert.alike {p opcode : Byte} {rest : List Byte} (inert : Inert p rest opcode) :
    (PrefixQueue.empty.pushAll rest).Alike opcode (PrefixQueue.empty.pushAll (p :: rest)) := by
  obtain ⟨lock, repetition, segment⟩ := prefix_kinds p
  constructor
  · refine (PrefixQueue.findSome?_pushAll_empty_cons ?_).symm
    rcases inert with isLock | ⟨repeats, -⟩ | ⟨-, replaced⟩
    · exact .inl (lock isLock).1
    · exact .inl (repetition repeats)
    · exact .inr replaced
  · intro isString
    refine (PrefixQueue.findSome?_pushAll_empty_cons ?_).symm
    rcases inert with isLock | ⟨-, replaced⟩ | ⟨overrides, -⟩
    · exact .inl (lock isLock).2
    · exact .inr (replaced.resolve_left (not_not_intro isString))
    · exact .inl (segment overrides)

namespace Core

variable {β : Type}

def withQueue (c : Core β) (q : PrefixQueue) : Core β := ⟨{ c.cpu with prefixes := q }, c.bus⟩

/-- Two machines that only their queues tell apart, and no access to data. -/
def Requeued (q : PrefixQueue) (c d : Core β) : Prop :=
  d = c.withQueue q ∧ c.cpu.prefixes.segmentOverride = q.segmentOverride

instance requeued_parametric [Bus β] (q : PrefixQueue) : Parametric (Requeued (β := β) q) where
  regs := by rintro c _ ⟨rfl, _⟩; rfl
  segment := by rintro c _ ⟨rfl, same⟩; exact same
  setRegs := by rintro c _ ⟨rfl, same⟩ _; exact ⟨rfl, same⟩
  setHalted := by rintro c _ ⟨rfl, same⟩ _; exact ⟨rfl, same⟩
  read := by rintro c _ ⟨rfl, same⟩ _; exact ⟨rfl, rfl, same⟩
  write := by rintro c _ ⟨rfl, same⟩ _ _; exact ⟨rfl, same⟩
  portIn := by rintro c _ ⟨rfl, same⟩ _; exact ⟨rfl, rfl, same⟩
  portOut := by rintro c _ ⟨rfl, same⟩ _ _; exact ⟨rfl, same⟩

end Core

namespace Exec

variable {β : Type} [Bus β] {c : Core β} {q : PrefixQueue} {opcode : Byte}

/-- An instruction does the same with a queue that answers alike, and leaves it queued. -/
theorem execute_withQueue (alike : c.cpu.prefixes.Alike opcode q) :
    (Operation.decode opcode).execute (c.withQueue q) =
      (((Operation.decode opcode).execute c).1,
        ((Operation.decode opcode).execute c).2.withQueue q) := by
  obtain ⟨answer, after, -⟩ := execute_paired_at (R := Core.Requeued q) (Operation.decode opcode)
    ⟨rfl, alike.segment⟩ fun _ _ decoded => alike.repeated (mem_stringOpcodes decoded)
  exact Prod.ext answer.symm after

/-- So it is retired the same, but the queue is kept while it has elements left. -/
theorem retire_withQueue (dispatched : c.cpu.opcode = opcode) {trap : Bool}
    (alike : c.cpu.prefixes.Alike opcode q)
    (calm : trap = true → ((Operation.decode opcode).execute c).1.again = false) {cycles : Nat}
    {d : Core β} (retired : retire opcode trap c = (cycles, d)) :
    retire opcode trap (c.withQueue q) = (cycles, d.withQueue
      (if ((Operation.decode opcode).execute c).1.again then q else d.cpu.prefixes)) := by
  subst dispatched
  rcases run : (Operation.decode c.cpu.opcode).execute c with ⟨r, e⟩
  have other := execute_withQueue alike
  rw [run] at calm other
  cases trap with
  | false =>
    rw [retire_untrapped (c := c) run] at retired
    rw [retire_untrapped (c := c.withQueue q) other]
    cases retired
    cases r.again <;> rfl
  | true =>
    rw [retire_trapped (c := c) run, calm rfl] at retired
    rw [retire_trapped (c := c.withQueue q) other, calm rfl]
    cases retired
    rfl

theorem retire_again (dispatched : c.cpu.opcode = opcode)
    (again : ((Operation.decode opcode).execute c).1.again = true) {cycles : Nat} {d : Core β}
    (retired : retire opcode false c = (cycles, d)) : d.cpu.prefixes = c.cpu.prefixes := by
  subst dispatched
  rcases run : (Operation.decode c.cpu.opcode).execute c with ⟨r, e⟩
  obtain ⟨regs, halted, bus, frame⟩ := (execute_local (Operation.decode c.cpu.opcode)).frame c
  rw [run] at frame again
  rw [retire_untrapped (c := c) run, again, show e = _ from frame] at retired
  cases retired
  rfl

/-- A prefix without a meaning, in front of the others that are queued, goes with them. -/
theorem retire_inert {p : Byte} {rest : List Byte} (dispatched : c.cpu.opcode = opcode)
    (queue : c.cpu.prefixes = PrefixQueue.empty.pushAll rest) (inert : Inert p rest opcode)
    {trap : Bool} (calm : trap = true → ((Operation.decode opcode).execute c).1.again = false)
    {cycles : Nat} {d : Core β} (retired : retire opcode trap c = (cycles, d)) :
    ∃ kept : PrefixQueue,
      retire opcode trap (c.withQueue (PrefixQueue.empty.pushAll (p :: rest))) =
        (cycles, d.withQueue kept) ∧
      (kept = d.cpu.prefixes ∨ ((Operation.decode opcode).execute c).1.again = true ∧
        kept.bytes = p :: d.cpu.prefixes.bytes) := by
  refine ⟨_, retire_withQueue dispatched (queue ▸ inert.alike) calm retired, ?_⟩
  cases again : ((Operation.decode opcode).execute c).1.again with
  | false => exact .inl (if_neg Bool.false_ne_true)
  | true =>
    have untrapped : trap = false :=
      Bool.eq_false_iff.mpr fun trap => Bool.false_ne_true ((calm trap).symm.trans again)
    rw [untrapped] at retired
    rw [if_pos rfl, (retire_again dispatched again retired).trans queue]
    by_cases room : rest.length < 16
    · exact .inr ⟨rfl, PrefixQueue.bytes_pushAll_empty_cons room⟩
    · exact .inl (PrefixQueue.pushAll_empty_cons_of_full (Nat.le_of_not_lt room))

end Exec

namespace Core

/-- The instruction is one of a string that has done an element and has more to do. -/
def GoesOn (c : Core Flat) (prefixes : List Byte) (opcode : Byte) : Prop :=
  ((Operation.decode opcode).execute (c.fetched prefixes opcode)).1.again = true

/-- With its first prefix behind it, a processor is at the rest of the instruction. -/
theorem Fetches.behind {c : Core Flat} {p opcode : Byte} {rest : List Byte}
    (fetches : c.Fetches (p :: rest) opcode) :
    (c.moveTo (c.cpu.regs.ip + 1)).Fetches rest opcode where
  code := fetches.code.2
  queued b member := fetches.queued b (List.mem_cons_of_mem p member)
  plain := fetches.plain

theorem fetched_cons {c : Core Flat} (fresh : c.cpu.prefixes = .empty) (p opcode : Byte)
    (rest : List Byte) :
    c.fetched (p :: rest) opcode =
      ((c.moveTo (c.cpu.regs.ip + 1)).fetched rest opcode).withQueue
        (PrefixQueue.empty.pushAll (p :: rest)) := by
  simp only [fetched, withQueue, moveTo, fresh, List.length_cons, Word.add_one_ofNat]

end Core

open Exec

/-- Behind a prefix that means nothing stands the same instruction. Stepping over both costs one
cycle more and makes no other difference, except that a string instruction with more to do may keep
that prefix too. -/
theorem inert_prefix {c : Core Flat} {p opcode : Byte} {rest : List Byte}
    (running : c.cpu.halted = false) (fresh : c.cpu.prefixes = .empty)
    (fetches : c.Fetches (p :: rest) opcode) (inert : Inert p rest opcode)
    (calm : c.cpu.regs.flags.trap = true → ¬ c.GoesOn (p :: rest) opcode) :
    ∃ cycles d d', step (c.moveTo (c.cpu.regs.ip + 1)) = (some cycles, d') ∧
      step c = (some (cycles + 1), d) ∧
      d.bus = d'.bus ∧
      d.cpu = { d'.cpu with prefixes := d.cpu.prefixes, total := d'.cpu.total.advance 1 } ∧
      (d.cpu.prefixes = d'.cpu.prefixes ∨ c.GoesOn (p :: rest) opcode ∧
        d.cpu.prefixes.bytes = p :: d'.cpu.prefixes.bytes) := by
  let s := (c.moveTo (c.cpu.regs.ip + 1)).fetched rest opcode
  have fetched : c.fetched (p :: rest) opcode = s.withQueue _ :=
    Core.fetched_cons fresh p opcode rest
  have queue : s.cpu.prefixes = PrefixQueue.empty.pushAll rest := by
    rw [← fresh]
    rfl
  have goesOn : c.GoesOn (p :: rest) opcode ↔
      ((Operation.decode opcode).execute s).1.again = true := by
    rw [Core.GoesOn, fetched, execute_withQueue (queue ▸ inert.alike)]
  rcases retired : retire opcode c.cpu.regs.flags.trap s with ⟨cycles, e⟩
  obtain ⟨kept, requeued, queues⟩ := retire_inert (c := s) rfl queue inert
    (fun trap => Bool.eq_false_iff.mpr (mt goesOn.mpr (calm trap))) retired
  let cost := c.cpu.deferred + rest.length + cycles + e.cpu.deferred
  have more : c.cpu.deferred + (p :: rest).length + cycles + e.cpu.deferred = cost + 1 := by
    rw [List.length_cons]
    omega
  refine ⟨cost, ⟨{ e.cpu with
      prefixes := kept, deferred := 0, total := e.cpu.total.advance (cost + 1) }, e.bus⟩,
    _, step_fetches running fetches.behind retired, ?_, rfl, ?_, ?_⟩
  · rw [← more]
    exact step_fetches running fetches (fetched ▸ requeued)
  · rw [← Ticks.advance_advance]
    rfl
  · rw [goesOn]
    exact queues

/-- In front of `REPNE REP MOVSB`, with two bytes to move. -/
def copyingTwice : Core Flat where
  cpu := { regs := { cs := 0, ip := 0, cx := 2, di := 0x200 } }
  bus := (default : Flat).load 0 [0xF2, 0xF3, 0xA4]

theorem inert_prefix_copying : ∃ d d', step (copyingTwice.moveTo 1) = (some 6, d') ∧
    step copyingTwice = (some 7, d) ∧ d.bus = d'.bus ∧ d.cpu.regs = d'.cpu.regs ∧
    d.cpu.prefixes.bytes = 0xF2 :: d'.cpu.prefixes.bytes := by
  have fetches : copyingTwice.Fetches [0xF2, 0xF3] 0xA4 := {
    code := by simp [copyingTwice, Flat.CodeAt, Flat.load, Memory.load, Flat.read,
      Memory.read_write, physical]
    queued := by decide
    plain := by decide }
  obtain ⟨cycles, d, d', stepped', stepped, bus, cpu, queue⟩ :=
    inert_prefix rfl rfl fetches (by decide) (absurd · Bool.false_ne_true)
  have cost : (step (copyingTwice.moveTo 1)).1 = some 6 := by decide +kernel
  have apart : (step copyingTwice).2.cpu.prefixes ≠
      (step (copyingTwice.moveTo 1)).2.cpu.prefixes := by decide +kernel
  replace stepped' : step (copyingTwice.moveTo 1) = (some cycles, d') := stepped'
  rw [stepped'] at cost
  cases cost
  rw [stepped, stepped'] at apart
  exact ⟨d, d', stepped', stepped, bus, by rw [cpu], (queue.resolve_left apart).2⟩

end Swan
