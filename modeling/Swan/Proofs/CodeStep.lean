import Swan.Proofs.FlatAccess

/-! A step of the processor on a flat bus where its next instruction stands in memory:
any number of prefixes and an opcode. What is left to say is what the instruction does, and
that can be said apart from the trap that may follow it. -/
namespace Swan

/-- The code that a step meets: prefixes, and then a byte that is none. -/
structure Core.Fetches (c : Core Flat) (prefixes : List Byte) (opcode : Byte) : Prop where
  code : c.bus.CodeAt c.cpu.regs.cs c.cpu.regs.ip (prefixes ++ [opcode])
  queued : ∀ b ∈ prefixes, isPrefix b = true
  plain : isPrefix opcode = false

def Core.fetched (c : Core Flat) (prefixes : List Byte) (opcode : Byte) : Core Flat where
  cpu := { c.cpu with
    regs := { c.cpu.regs with ip := c.cpu.regs.ip + BitVec.ofNat 16 (prefixes.length + 1) }
    prefixes := c.cpu.prefixes.pushAll prefixes
    opcode
    deferred := 0 }
  bus := c.bus

theorem Core.Fetches.meets {c : Core Flat} {prefixes : List Byte} {opcode : Byte}
    (fetches : c.Fetches prefixes opcode) : Meets c.bus.read c.cpu.regs prefixes opcode :=
  ⟨Flat.codeAt_iff.mp fetches.code, fetches.queued, fetches.plain⟩

namespace Exec

/-- A step is the instruction that it meets, with what a trap makes of it, and the bill. -/
theorem step_fetches {c d : Core Flat} {prefixes : List Byte} {opcode : Byte} {cycles : Nat}
    (running : c.cpu.halted = false) (fetches : c.Fetches prefixes opcode)
    (retired : retire opcode c.cpu.regs.flags.trap (c.fetched prefixes opcode) = (cycles, d)) :
    let cost := c.cpu.deferred + prefixes.length + cycles + d.cpu.deferred
    step c = (some cost,
      ⟨{ d.cpu with deferred := 0, total := d.cpu.total.advance cost }, d.bus⟩) := by
  let e : Core Flat := { c.fetched prefixes opcode with
    cpu := { (c.fetched prefixes opcode).cpu with opcode := c.cpu.opcode } }
  have found : fetchOpcode? 0 fetchLimit ⟨{ c.cpu with deferred := 0 }, c.bus⟩ =
      (some (opcode, 0 + prefixes.length), e) :=
    fetchOpcode?_meets (c := ⟨{ c.cpu with deferred := 0 }, c.bus⟩) c.bus.steady fetches.meets
      fetches.meets.length_lt 0
  have dispatched : retire opcode c.cpu.regs.flags.trap e = (cycles, d) := retired
  rw [step, stepWithin_running _ running, found, Nat.zero_add]
  dsimp only
  rw [dispatched]

theorem step_code {c d : Core Flat} {prefixes : List Byte} {opcode : Byte} {r : Retired}
    (running : c.cpu.halted = false) (untrapped : c.cpu.regs.flags.trap = false)
    (fetches : c.Fetches prefixes opcode)
    (run : (Operation.decode opcode).execute (c.fetched prefixes opcode) = (r, d)) :
    let cost := c.cpu.deferred + prefixes.length + r.cycles
    step c = (some cost, ⟨{ d.cpu with
      prefixes := if r.again then d.cpu.prefixes else .empty
      total := d.cpu.total.advance cost }, d.bus⟩) := by
  have retired : retire opcode c.cpu.regs.flags.trap (c.fetched prefixes opcode) = _ :=
    untrapped ▸ retire_untrapped run
  rw [step_fetches running fetches retired]
  obtain ⟨regs, halted, bus, eq⟩ :=
    (execute_local (Operation.decode opcode)).frame (c.fetched prefixes opcode)
  rw [run] at eq
  rw [show d = _ from eq]
  cases r.again <;> rfl

/-- An instruction owes nothing behind it. -/
theorem retire_deferred {β : Type} [Bus β] (opcode : Byte) (c : Core β) :
    (retire opcode false c).2.cpu.deferred = c.cpu.deferred := by
  rcases run : (Operation.decode opcode).execute ⟨{ c.cpu with opcode }, c.bus⟩ with ⟨r, d⟩
  obtain ⟨regs, halted, bus, eq⟩ :=
    (execute_local (Operation.decode opcode)).frame ⟨{ c.cpu with opcode }, c.bus⟩
  rw [run] at eq
  rw [retire_untrapped run, show d = _ from eq]
  cases r.again <;> rfl

/-- A trap adds an interrupt behind the instruction. -/
theorem retire_trap {β : Type} [Bus β] (opcode : Byte) (c : Core β) :
    retire opcode true c = ((retire opcode false c).1,
      (interrupt singleStepVector (retire opcode false c).2).2) := by
  rcases run : (Operation.decode opcode).execute ⟨{ c.cpu with opcode }, c.bus⟩ with ⟨r, d⟩
  rw [retire_trapped run, retire_untrapped run]

end Exec

/-- What the instruction at a processor comes to, without the trap that may follow it: its own
cycles, besides those of its prefixes, and the state that it leaves. -/
structure Core.Performs (c : Core Flat) (prefixes : List Byte) (opcode : Byte) (cycles : Nat)
    (d : Core Flat) : Prop where
  fetches : c.Fetches prefixes opcode
  retired : Exec.retire opcode false (c.fetched prefixes opcode) = (cycles, d)

namespace Core.Performs

variable {c d : Core Flat} {prefixes : List Byte} {opcode : Byte} {cycles : Nat}

theorem of_run {r : Retired} (fetches : c.Fetches prefixes opcode)
    (run : (Operation.decode opcode).execute (c.fetched prefixes opcode) = (r, d))
    (finished : r.again = false) :
    c.Performs prefixes opcode r.cycles ⟨{ d.cpu with prefixes := .empty }, d.bus⟩ where
  fetches
  retired := by
    have retired : Exec.retire opcode false (c.fetched prefixes opcode) = _ :=
      Exec.retire_untrapped run
    rw [retired, finished]
    rfl

theorem step (performs : c.Performs prefixes opcode cycles d) (running : c.cpu.halted = false) :
    let e := if c.cpu.regs.flags.trap then (Exec.interrupt singleStepVector d).2 else d
    let cost := c.cpu.deferred + prefixes.length + cycles + e.cpu.deferred
    Exec.step c =
      (some cost, ⟨{ e.cpu with deferred := 0, total := e.cpu.total.advance cost }, e.bus⟩) := by
  refine Exec.step_fetches running performs.fetches ?_
  cases c.cpu.regs.flags.trap with
  | false => exact performs.retired
  | true =>
    rw [Exec.retire_trap, performs.retired]
    rfl

theorem step_untrapped (performs : c.Performs prefixes opcode cycles d)
    (running : c.cpu.halted = false) (untrapped : c.cpu.regs.flags.trap = false) :
    let cost := c.cpu.deferred + prefixes.length + cycles
    Exec.step c = (some cost, ⟨{ d.cpu with total := c.cpu.total.advance cost }, d.bus⟩) := by
  have counted := Exec.retire_total opcode false (c.fetched prefixes opcode)
  have settled := Exec.retire_deferred opcode (c.fetched prefixes opcode)
  rw [performs.retired] at counted settled
  have owes : d.cpu.deferred = 0 := settled
  have stepped := performs.step running
  simp only [untrapped, Bool.false_eq_true, if_false, owes, Nat.add_zero,
    show d.cpu.total = c.cpu.total from counted] at stepped
  rw [stepped]
  simp only [← owes]

theorem exists_step (performs : c.Performs prefixes opcode cycles d)
    (running : c.cpu.halted = false) (untrapped : c.cpu.regs.flags.trap = false) :
    ∃ e, Exec.step c = (some (c.cpu.deferred + prefixes.length + cycles), e) ∧
      e.cpu.regs = d.cpu.regs ∧ e.bus = d.bus :=
  ⟨_, performs.step_untrapped running untrapped, rfl, rfl⟩

end Core.Performs

end Swan
