import Mathlib.Data.List.DropRight
import Swan.Proofs.FetchLoop
import Swan.Proofs.ProcessorInvariant

/-! What an instruction knows of its prefixes. Its queue is a window on all that were pushed
since it was empty: it shows the last sixteen of them, in order, and of each kind the latest
in that window. A step pushes the prefixes that it fetches behind those that were carried
over to it, and its instruction is executed with that queue. -/
namespace Swan

def Segment.overrideByte : Segment → Byte
  | es => 0x26
  | cs => 0x2E
  | ss => 0x36
  | ds => 0x3E

def RepeatClass.prefixByte : RepeatClass → Byte
  | whileZero => 0xF3
  | whileNonZero => 0xF2

/-- What the latest byte of a kind in a list stands for, if there is one. -/
def Latest {κ : Type} (code : κ → Byte) (l : List Byte) : Option κ → Prop
  | some k => ∃ front back, l = front ++ code k :: back ∧ ∀ other, code other ∉ back
  | none => ∀ k, code k ∉ l

theorem latest_findSome? {κ : Type} {code : κ → Byte} {f : Byte → Option κ}
    (decodes : ∀ b k, f b = some k ↔ b = code k) (l : List Byte) :
    Latest code l (l.reverse.findSome? f) := by
  have of_silent {b : Byte} (silent : f b = none) (k : κ) : b ≠ code k := by
    intro stands
    rw [(decodes b k).mpr stands] at silent
    contradiction
  cases found : l.reverse.findSome? f with
  | none =>
    intro k member
    exact of_silent (List.findSome?_eq_none_iff.mp found _ (List.mem_reverse.mpr member)) k rfl
  | some k =>
    obtain ⟨passed, b, front, split, stands, silent⟩ := List.findSome?_eq_some_iff.mp found
    obtain rfl := (decodes b k).mp stands
    refine ⟨front.reverse, passed.reverse, ?_, fun other member => ?_⟩
    · rw [← l.reverse_reverse, split, List.reverse_append, List.reverse_cons, List.append_assoc,
        List.singleton_append]
    · exact of_silent (silent _ (List.mem_reverse.mp member)) other rfl

theorem segmentOfPrefix?_eq_some (b : Byte) (s : Segment) :
    segmentOfPrefix? b = some s ↔ b = s.overrideByte := by
  cases s <;> revert b <;> decide +kernel

theorem repeatOfPrefix?_eq_some (b : Byte) (k : RepeatClass) :
    repeatOfPrefix? b = some k ↔ b = k.prefixByte := by
  cases k <;> revert b <;> decide +kernel

namespace PrefixQueue

/-- What a queue shows of the bytes that were pushed onto it since it was empty. -/
structure Remembers (q : PrefixQueue) (l : List Byte) : Prop where
  bytes : q.bytes = l.rtake 16
  length : q.length = min 16 l.length
  segment : Latest Segment.overrideByte (l.rtake 16) q.segmentOverride
  repetition : Latest RepeatClass.prefixByte (l.rtake 16) q.repeatClass
  lock : q.hasLock = true ↔ 0xF0 ∈ l.rtake 16

theorem remembers_pushAll (l : List Byte) : (empty.pushAll l).Remembers l := by
  have window : (empty.pushAll l).bytes = l.rtake 16 := bytes_pushAll_empty l
  constructor
  case bytes => exact window
  case length =>
    rw [length_pushAll, show empty.length = 0 from rfl, Nat.zero_add]
  case segment =>
    rw [segmentOverride, window]
    exact latest_findSome? segmentOfPrefix?_eq_some _
  case repetition =>
    rw [repeatClass, window]
    exact latest_findSome? repeatOfPrefix?_eq_some _
  case lock =>
    rw [hasLock, window]
    exact List.contains_iff_mem

/-- The bytes in a queue do for those that were pushed before, which it has forgotten. -/
theorem remembers_bytes_append (q : PrefixQueue) (l : List Byte) :
    (q.pushAll l).Remembers (q.bytes ++ l) := by
  have whole := remembers_pushAll (q.bytes ++ l)
  rwa [pushAll_append, pushAll_empty_bytes] at whole

end PrefixQueue

namespace Core

open Exec

variable {β : Type} [Bus β]

/-- Fetching from a processor on meets these prefixes and then an opcode, and leaves another
processor behind them. Nothing is queued on the way, and no number of prefixes is too large. -/
inductive Arrives : Core β → List Byte → Byte → Core β → Prop where
  | opcode {c d : Core β} {b : Byte} : fetchByte c = (b, d) → isPrefix b = false →
      Arrives c [] b d
  | prefixed {c d e : Core β} {b opcode : Byte} {rest : List Byte} : fetchByte c = (b, d) →
      isPrefix b = true → Arrives d rest opcode e → Arrives c (b :: rest) opcode e

def queueing (c : Core β) (q : PrefixQueue) : Core β :=
  ⟨{ c.cpu with prefixes := q, deferred := 0 }, c.bus⟩

/-- A processor that is to execute an opcode with these prefixes. -/
def dispatched (c : Core β) (q : PrefixQueue) (opcode : Byte) : Core β :=
  ⟨{ (c.queueing q).cpu with opcode }, c.bus⟩

/-- A step comes down to an opcode, behind so many prefixes, that is executed on a processor. -/
def Executes (c : Core β) (prefixes : Nat) (opcode : Byte) (s : Core β) : Prop :=
  let e := retire opcode c.cpu.regs.flags.trap s
  let cost := c.cpu.deferred + prefixes + e.1 + e.2.cpu.deferred
  step c = (some cost,
    ⟨{ e.2.cpu with deferred := 0, total := e.2.cpu.total.advance cost }, e.2.bus⟩)

variable {c d : Core β} {l : List Byte} {opcode : Byte} {limit : Nat}

theorem fetchByte_queueing (c : Core β) (q : PrefixQueue) :
    fetchByte (c.queueing q) = ((fetchByte c).1, (fetchByte c).2.queueing q) := rfl

/-- There is one opcode to arrive at, and one way to it. -/
theorem Arrives.unique {l' : List Byte} {opcode' : Byte} {d' : Core β}
    (arrives : c.Arrives l opcode d) (other : c.Arrives l' opcode' d') :
    l' = l ∧ opcode' = opcode ∧ d' = d := by
  induction arrives generalizing l' with
  | opcode met plain =>
    cases other with
    | opcode met' _ =>
      cases met.symm.trans met'
      exact ⟨rfl, rfl, rfl⟩
    | prefixed met' isOne _ =>
      cases met.symm.trans met'
      exact absurd (plain.symm.trans isOne) Bool.false_ne_true
  | prefixed met isOne _ ih =>
    cases other with
    | opcode met' plain =>
      cases met.symm.trans met'
      exact absurd (plain.symm.trans isOne) Bool.false_ne_true
    | prefixed met' _ later =>
      cases met.symm.trans met'
      obtain ⟨rfl, same⟩ := ih later
      exact ⟨rfl, same⟩

/-- The loop arrives where fetching alone does, and queues what it meets on the way. -/
theorem Arrives.fetchOpcode? (arrives : c.Arrives l opcode d) (enough : l.length < limit)
    (q : PrefixQueue) (fetched : Nat) :
    Exec.fetchOpcode? fetched limit (c.queueing q) =
      (some (opcode, fetched + l.length), d.queueing (q.pushAll l)) := by
  -- The loop goes on with a longer queue, so the induction is for every queue.
  induction arrives generalizing limit q fetched with
  | opcode met plain =>
    obtain ⟨limit, rfl⟩ := Nat.exists_eq_succ_of_ne_zero (Nat.ne_of_gt enough)
    rw [Exec.fetchOpcode?, bind_apply, fetchByte_queueing, met, plain]
    rfl
  | @prefixed _ d _ b _ rest met isOne _ ih =>
    obtain ⟨limit, rfl⟩ := Nat.exists_eq_succ_of_ne_zero (Nat.ne_of_gt (Nat.zero_lt_of_lt enough))
    rw [Exec.fetchOpcode?, bind_apply, fetchByte_queueing, met, isOne, if_pos rfl, bind_apply,
      List.length_cons, show fetched + (rest.length + 1) = fetched + 1 + rest.length by omega]
    exact ih (Nat.lt_of_succ_lt_succ enough) (q.push b) (fetched + 1)

theorem arrives_of_fetchOpcode? {q : PrefixQueue} {fetched n : Nat} {e : Core β}
    (found : Exec.fetchOpcode? fetched limit (c.queueing q) = (some (opcode, n), e)) :
    ∃ l d, c.Arrives l opcode d ∧ l.length < limit := by
  induction limit generalizing c q fetched with
  | zero => cases found
  | succ limit ih =>
    rw [Exec.fetchOpcode?, bind_apply, fetchByte_queueing] at found
    rcases met : fetchByte c with ⟨b, d⟩
    rw [met] at found
    cases kind : isPrefix b with
    | false =>
      rw [kind] at found
      cases found
      exact ⟨[], _, .opcode met kind, limit.succ_pos⟩
    | true =>
      rw [kind, if_pos rfl, bind_apply] at found
      obtain ⟨l, e, arrives, short⟩ := ih (c := d) (q := q.push b) found
      exact ⟨b :: l, e, .prefixed met kind arrives, Nat.succ_lt_succ short⟩

theorem Arrives.executes (arrives : c.Arrives l opcode d) (running : c.cpu.halted = false)
    (enough : l.length < fetchLimit) :
    c.Executes l.length opcode (d.dispatched (c.cpu.prefixes.pushAll l) opcode) := by
  have found := arrives.fetchOpcode? enough c.cpu.prefixes 0
  rw [Nat.zero_add] at found
  rw [Executes, step, stepWithin_running _ running,
    show (⟨{ c.cpu with deferred := 0 }, c.bus⟩ : Core β) = c.queueing c.cpu.prefixes from rfl,
    found]
  rfl

/-- A running processor finishes a step exactly if it arrives at an opcode in time. -/
theorem step_isSome_iff (running : c.cpu.halted = false) :
    (step c).1.isSome ↔ ∃ l opcode d, c.Arrives l opcode d ∧ l.length < fetchLimit := by
  constructor
  · intro returns
    rw [step, stepWithin_running _ running] at returns
    split at returns
    · contradiction
    · rename_i opcode n e found
      obtain ⟨l, d, arrives, short⟩ := arrives_of_fetchOpcode? (q := c.cpu.prefixes) found
      exact ⟨l, opcode, d, arrives, short⟩
  · rintro ⟨l, opcode, d, arrives, short⟩
    rw [arrives.executes running short]
    rfl

theorem Arrives.length_lt (arrives : c.Arrives l opcode d) (running : c.cpu.halted = false)
    (returns : (step c).1.isSome) : l.length < fetchLimit := by
  obtain ⟨l', opcode', d', other, short⟩ := (step_isSome_iff running).mp returns
  obtain ⟨rfl, -⟩ := arrives.unique other
  exact short

theorem execute_prefixes (op : Operation) (s : Core β) :
    (op.execute s).2.cpu.prefixes = s.cpu.prefixes := by
  obtain ⟨regs, halted, bus, frame⟩ := (execute_local op).frame s
  rw [frame]

/-- A queue is the window of the last sixteen bytes pushed onto it. A step executes its opcode with
the window of the bytes carried over and the prefixes just fetched. -/
theorem queue_is_window :
    (∀ l : List Byte, (PrefixQueue.empty.pushAll l).Remembers l) ∧
    ∀ c : Core β, c.cpu.halted = false →
      ((step c).1.isSome ↔ ∃ l opcode d, c.Arrives l opcode d ∧ l.length < fetchLimit) ∧
      ∀ l opcode d, c.Arrives l opcode d → (step c).1.isSome →
        let s := d.dispatched (c.cpu.prefixes.pushAll l) opcode
        s.cpu.prefixes.Remembers (c.cpu.prefixes.bytes ++ l) ∧
        c.Executes l.length opcode s ∧
        ((Operation.decode opcode).execute s).2.cpu.prefixes = s.cpu.prefixes := by
  refine ⟨PrefixQueue.remembers_pushAll, fun c running => ⟨step_isSome_iff running, ?_⟩⟩
  intro l opcode d arrives returns s
  exact ⟨PrefixQueue.remembers_bytes_append c.cpu.prefixes l,
    arrives.executes running (arrives.length_lt running returns), execute_prefixes _ s⟩

/-- In front of one more lock and `MOVSB`, with sixteen prefixes carried over. The first of them is
an override. -/
def carryingFull : Core Cpu.Script where
  cpu := { prefixes := PrefixQueue.empty.pushAll (0x36 :: 0xF3 :: List.replicate 14 0xF0) }
  bus := ⟨[0xF0, 0xA4]⟩

theorem queue_is_window_full : carryingFull.cpu.halted = false ∧ (step carryingFull).1.isSome ∧
    ∃ d, carryingFull.Arrives [0xF0] 0xA4 d ∧
      let s := d.dispatched (carryingFull.cpu.prefixes.pushAll [0xF0]) 0xA4
      carryingFull.Executes 1 0xA4 s ∧
        s.cpu.prefixes.bytes = 0xF3 :: List.replicate 15 0xF0 ∧
        s.cpu.prefixes.segmentOverride = none ∧ s.cpu.prefixes.hasLock = true := by
  have arrives : carryingFull.Arrives [0xF0] 0xA4 _ := .prefixed rfl rfl (.opcode rfl rfl)
  obtain ⟨finishes, sees⟩ := queue_is_window.2 carryingFull rfl
  have returns := finishes.mpr ⟨_, _, _, arrives, by decide⟩
  obtain ⟨remembers, executes, -⟩ := sees _ _ _ arrives returns
  refine ⟨rfl, returns, _, arrives, executes, remembers.bytes, ?_, remembers.lock.mpr (by decide)⟩
  have latest := remembers.segment
  cases found : PrefixQueue.segmentOverride _ with
  | none => rfl
  | some s =>
    rw [found] at latest
    obtain ⟨front, back, split, -⟩ := latest
    have member : s.overrideByte ∈ (carryingFull.cpu.prefixes.bytes ++ [0xF0]).rtake 16 := by
      rw [split]
      exact List.mem_append_right front List.mem_cons_self
    revert member
    cases s <;> decide

end Core

end Swan
