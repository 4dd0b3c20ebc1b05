import Swan.Proofs.StatusWrites
import Swan.Proofs.StringEquation

/-! What holds of a processor between any two calls, whatever bytes its bus answers and
whatever else works on the bus in between. Prefixes stay queued only in the middle of a
repeated string instruction, and a halted processor owes nothing: it waits one cycle at a
time. -/
namespace Swan

namespace Cpu

open Exec

/-- The processors that calls lead to from power on, each with its status word. Every call finds
the bus in a state of its own, and a step may read any number of prefixes. -/
inductive Reachable (β : Type) [Bus β] : Cpu → StatusWord → Prop where
  | initial : Reachable β {} .powerOn
  | step {cpu : Cpu} {word after : StatusWord} {limit : Nat} {bus : β} {cycles : Nat} {d : Core β} :
      Reachable β cpu word → Exec.stepWithin limit ⟨cpu, bus⟩ = (some cycles, d) →
      word.Follows cpu.regs.flags after d.cpu.regs.flags → Reachable β d.cpu after
  | interrupt {cpu : Cpu} {word after : StatusWord} {bus : β} {vector : Byte} {d : Core β} :
      Reachable β cpu word → (Exec.interrupt vector ⟨cpu, bus⟩).2 = d →
      word.Follows cpu.regs.flags after d.cpu.regs.flags → Reachable β d.cpu after
  | wake {cpu : Cpu} {word : StatusWord} : Reachable β cpu word → Reachable β cpu.wake word
  | jumpTo {cpu : Cpu} {word : StatusWord} {segment offset : Word} : Reachable β cpu word →
      Reachable β (cpu.jumpTo segment offset) word
  | reset {cpu : Cpu} {word : StatusWord} : Reachable β cpu word → Reachable β cpu.reset .powerOn

theorem Reachable.exists_step {β : Type} [Bus β] {c : Core β} {word : StatusWord} {limit cycles : Nat}
    (before : Reachable β c.cpu word) (returns : (Exec.stepWithin limit c).1 = some cycles) :
    ∃ after, Reachable β (Exec.stepWithin limit c).2.cpu after := by
  obtain ⟨after, follows⟩ := word.exists_follows c.cpu.regs.flags _
  exact ⟨after, .step before (Prod.ext returns rfl) follows⟩

theorem Reachable.exists_interrupt {β : Type} [Bus β] {c : Core β} {word : StatusWord}
    (before : Reachable β c.cpu word) (vector : Byte) :
    ∃ after, Reachable β (Exec.interrupt vector c).2.cpu after := by
  obtain ⟨after, follows⟩ := word.exists_follows c.cpu.regs.flags _
  exact ⟨after, .interrupt before rfl follows⟩

theorem Reachable.shows_flags {β : Type} [Bus β] {c : Cpu} {word : StatusWord}
    (reachable : Reachable β c word) : word.Shows c.regs.flags := by
  induction reachable with
  | initial => exact .powerOn
  | step _ _ follows before => exact before.follows follows
  | interrupt _ _ follows before => exact before.follows follows
  | wake _ before => exact before
  | jumpTo _ before => exact before
  | reset => exact .powerOn

structure Repeating (c : Cpu) : Prop where
  running : c.halted = false
  counting : c.regs.cx ≠ 0
  repeated : 0xF2 ∈ c.prefixes.bytes ∨ 0xF3 ∈ c.prefixes.bytes
  string : c.opcode ∈ stringOpcodes

structure Invariant (c : Cpu) : Prop where
  prefixes : ∀ b ∈ c.prefixes.bytes, isPrefix b = true
  pending : c.prefixes ≠ .empty → Repeating c
  waiting : c.halted = true → c.prefixes = .empty ∧ c.deferred = 0

theorem Invariant.of_empty {c : Cpu} (empty : c.prefixes = .empty)
    (settled : c.halted = true → c.deferred = 0) : Invariant c where
  prefixes b member := by rw [empty] at member; contradiction
  pending full := absurd empty full
  waiting halted := ⟨empty, settled halted⟩

theorem Invariant.account {c : Cpu} (total : Ticks) (h : Invariant c) : Invariant { c with total } where
  prefixes := h.prefixes
  pending full := ⟨(h.pending full).running, (h.pending full).counting, (h.pending full).repeated,
    (h.pending full).string⟩
  waiting := h.waiting

variable {β : Type} [Bus β]

theorem interrupt_invariant (vector : Byte) (c : Core β) :
    Invariant (interrupt vector c).2.cpu := by
  obtain ⟨regs, bus, eq⟩ := interrupt_frame vector c
  rw [eq]
  exact .of_empty rfl nofun

/-- The prefixes outlive an instruction only if it is to be run again and no trap drops
them. -/
theorem retire_invariant (opcode : Byte) (trap : Bool) {c : Core β}
    (prefixes : ∀ b ∈ c.cpu.prefixes.bytes, isPrefix b = true)
    (running : c.cpu.halted = false) :
    Invariant { (retire opcode trap c).2.cpu with deferred := 0 } := by
  rcases run : (Operation.decode opcode).execute ⟨{ c.cpu with opcode }, c.bus⟩ with ⟨r, d⟩
  cases trap with
  | true =>
    rw [retire_trapped run]
    obtain ⟨regs, bus, eq⟩ :=
      interrupt_frame singleStepVector (if r.again then d else (clearPrefixes d).2)
    rw [eq]
    exact .of_empty rfl nofun
  | false =>
    rw [retire_untrapped run]
    cases again : r.again with
    | false => exact .of_empty rfl fun _ => rfl
    | true =>
      have asked :
          ((Operation.decode opcode).execute ⟨{ c.cpu with opcode }, c.bus⟩).1.again = true := by
        rw [run, again]
      obtain ⟨w, op, decoded⟩ := string_of_again asked
      rw [decoded] at asked run
      obtain ⟨repeated, counting⟩ := string_again asked
      have quiet : Quiet (string w op : Exec β Retired) := inferInstance
      obtain ⟨regs, bus, eq⟩ := quiet.frame ⟨{ c.cpu with opcode }, c.bus⟩
      rw [Operation.execute] at run
      rw [eq] at counting
      rw [run] at eq
      rw [if_pos rfl, show d = _ from eq]
      exact {
        prefixes := prefixes
        pending := fun _ => {
          running := running
          counting := counting
          repeated := PrefixQueue.repeatClass_ne_none repeated
          string := mem_stringOpcodes decoded }
        waiting := fun halted => absurd (running.symm.trans halted) Bool.false_ne_true }

theorem step_invariant {limit : Nat} {c d : Core β} {cycles : Nat} (before : Invariant c.cpu)
    (stepped : stepWithin limit c = (some cycles, d)) : Invariant d.cpu := by
  obtain ⟨halted, -, rfl⟩ | ⟨opcode, l, regs, bus, e, running, ones, rfl, -, -, rfl⟩ :=
    stepWithin_returned stepped
  · exact .of_empty (before.waiting halted).1 fun _ => rfl
  · have queued : ∀ b ∈ (c.cpu.prefixes.pushAll l).bytes, isPrefix b = true := by
      intro b member
      cases PrefixQueue.mem_bytes_pushAll member with
      | inl old => exact before.prefixes b old
      | inr new => exact ones b new
    have after := retire_invariant opcode c.cpu.regs.flags.trap
      (c := ⟨{ c.cpu with regs, prefixes := c.cpu.prefixes.pushAll l, deferred := 0 }, bus⟩)
      queued running
    exact after.account _

theorem reachable_invariant {c : Cpu} {word : StatusWord} (reachable : Reachable β c word) :
    Invariant c := by
  induction reachable with
  | initial => exact .of_empty rfl nofun
  | step _ stepped _ before => exact step_invariant before stepped
  | interrupt _ entered =>
    rw [← entered]
    exact interrupt_invariant _ _
  | wake _ before =>
    exact ⟨before.prefixes, fun full => ⟨rfl, (before.pending full).counting,
      (before.pending full).repeated, (before.pending full).string⟩, nofun⟩
  | jumpTo _ before => exact .of_empty rfl fun halted => (before.waiting halted).2
  | reset => exact .of_empty rfl nofun

/-- The state of a processor between two calls: the fixed bits of the status word, whose flags are
the processor's; the prefixes; and what a halted processor has pending, which is nothing. Every
call that returns leads on. -/
theorem state_between_calls {c : Cpu} {word : StatusWord} (reachable : Reachable β c word) :
    (word.bits &&& 0xF02A = 0xF002 ∧ word.bits = c.regs.flags.toWord) ∧
    (c.prefixes.length ≤ 16 ∧ ∀ b ∈ c.prefixes.bytes, isPrefix b = true) ∧
    (c.prefixes ≠ .empty → c.halted = false ∧ c.regs.cx ≠ 0 ∧
      (0xF2 ∈ c.prefixes.bytes ∨ 0xF3 ∈ c.prefixes.bytes) ∧ c.opcode ∈ stringOpcodes) ∧
    (c.halted = true → c.prefixes = .empty ∧ c.deferred = 0 ∧ ∀ (limit : Nat) (bus : β),
      Exec.stepWithin limit ⟨c, bus⟩ = (some 1, ⟨{ c with total := c.total.advance 1 }, bus⟩)) ∧
    (∀ (limit : Nat) (bus : β), (Exec.stepWithin limit ⟨c, bus⟩).1.isSome →
      ∃ after, Reachable β (Exec.stepWithin limit ⟨c, bus⟩).2.cpu after) ∧
    ∀ (vector : Byte) (bus : β), ∃ after, Reachable β (Exec.interrupt vector ⟨c, bus⟩).2.cpu after := by
  have holds := reachable_invariant reachable
  have word := reachable.shows_flags
  refine ⟨⟨word.fixed_bits, word.bits_eq⟩, ⟨c.prefixes.length_le, holds.prefixes⟩, ?_, ?_, ?_, ?_⟩
  · intro full
    obtain ⟨running, counting, repeated, string⟩ := holds.pending full
    exact ⟨running, counting, repeated, string⟩
  · intro halted
    obtain ⟨empty, settled⟩ := holds.waiting halted
    refine ⟨empty, settled, fun limit bus => ?_⟩
    rw [stepWithin_halted (c := ⟨c, bus⟩) limit halted]
    simp only [settled]
  · intro limit bus returns
    obtain ⟨cycles, answer⟩ := Option.isSome_iff_exists.mp returns
    exact reachable.exists_step (c := ⟨c, bus⟩) answer
  · intro vector bus
    exact reachable.exists_interrupt (c := ⟨c, bus⟩) vector

/-- A bus that answers its reads with given bytes, one after the other. -/
structure Script where
  answers : List Byte

instance : Bus Script where
  read
    | ⟨[]⟩, _ => (0, ⟨[]⟩)
    | ⟨b :: rest⟩, _ => (b, ⟨rest⟩)
  write s _ _ := s
  portIn s _ := (0, s)
  portOut s _ _ := s

/-- At power on, with `MOV CX, 2` and `REP MOVSB` to be fetched. -/
def script : Core Script := ⟨{}, ⟨[0xB9, 2, 0, 0xF3, 0xA4, 7]⟩⟩

theorem state_between_elements :
    let c := (Exec.stepWithin 2 (Exec.stepWithin 2 script).2).2.cpu
    c.prefixes.bytes = [0xF3] ∧ c.halted = false ∧ c.regs.cx ≠ 0 ∧
      (0xF2 ∈ c.prefixes.bytes ∨ 0xF3 ∈ c.prefixes.bytes) ∧ c.opcode ∈ stringOpcodes := by
  intro c
  have queued : c.prefixes.bytes = [0xF3] := by decide +kernel
  have loaded : (Exec.stepWithin 2 script).1 = some 1 := by decide +kernel
  have moved : (Exec.stepWithin 2 (Exec.stepWithin 2 script).2).1 = some 6 := by decide +kernel
  have start : Reachable Script script.cpu .powerOn := .initial
  obtain ⟨_, first⟩ := start.exists_step loaded
  obtain ⟨_, second⟩ := first.exists_step moved
  have reachable : Reachable Script c _ := second
  refine ⟨queued, (state_between_calls reachable).2.2.1 fun empty => ?_⟩
  rw [empty] at queued
  contradiction

end Cpu

end Swan
