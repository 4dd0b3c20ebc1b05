import Swan.Proofs.InstructionCost
import Swan.Proofs.InstructionEntry
import Swan.Proofs.ProcessorInvariant

/-! The books of a processor. Every step returns the cost of its own instruction, what was
owed for interrupts before it, and the price of the trap that follows it. An interrupt from
outside is owed until a step pays for it or a reset drops it; one that an instruction asks
for is part of that instruction's cost. -/
namespace Swan

namespace Exec

variable {β : Type} [Bus β]

/-- What a step charges for what it does itself: a cycle of waiting, or the instruction and
its prefixes. -/
def ownCyclesWithin (limit : Nat) (c : Core β) : Nat :=
  if c.cpu.halted then 1
  else match fetchOpcode? 0 limit (takeDeferred c).2 with
    | (none, _) => 0
    | (some (opcode, prefixes), d) =>
      prefixes + ((Operation.decode opcode).execute (dispatch opcode d).2).1.cycles

def ownCycles (c : Core β) : Nat := ownCyclesWithin fetchLimit c

def traps (c : Cpu) : Bool := !c.halted && c.regs.flags.trap

theorem execute_deferred (op : Operation) (c : Core β) :
    (op.execute c).2.cpu.deferred = c.cpu.deferred := by
  obtain ⟨regs, halted, bus, eq⟩ := (execute_local op).frame c
  rw [eq]

/-- A trap is owed for when the instruction before it is paid for. -/
theorem retire_bill (opcode : Byte) (trap : Bool) (c : Core β) :
    (retire opcode trap c).1 =
      ((Operation.decode opcode).execute (dispatch opcode c).2).1.cycles ∧
    (retire opcode trap c).2.cpu.deferred = c.cpu.deferred + interruptCycles * trap.toNat := by
  rcases run : (Operation.decode opcode).execute (dispatch opcode c).2 with ⟨r, d⟩
  have kept : (if r.again then d else (clearPrefixes d).2).cpu.deferred = c.cpu.deferred := by
    have same := execute_deferred (Operation.decode opcode) (dispatch opcode c).2
    rw [run] at same
    cases r.again <;> exact same
  cases trap with
  | false =>
    rw [retire_untrapped run]
    exact ⟨rfl, kept⟩
  | true =>
    rw [retire_trapped run]
    obtain ⟨regs, bus, entered⟩ :=
      interrupt_frame singleStepVector (if r.again then d else (clearPrefixes d).2)
    refine ⟨rfl, ?_⟩
    rw [entered]
    exact congrArg (· + interruptCycles) kept

/-- The bill of a step. Nothing is owed after it. -/
theorem stepWithin_bill {limit : Nat} {c d : Core β} {cycles : Nat}
    (stepped : stepWithin limit c = (some cycles, d)) :
    cycles = c.cpu.deferred + ownCyclesWithin limit c + interruptCycles * (traps c.cpu).toNat ∧
      d.cpu.deferred = 0 := by
  obtain ⟨halted, rfl, rfl⟩ | ⟨opcode, l, regs, bus, e, running, -, frame, fetched, cost, rfl⟩ :=
    stepWithin_returned stepped
  · simp [ownCyclesWithin, traps, halted]
  · have own : ownCyclesWithin limit c =
        l.length + ((Operation.decode opcode).execute (dispatch opcode e).2).1.cycles := by
      rw [ownCyclesWithin, running, if_neg Bool.false_ne_true, takeDeferred, fetched]
    have trap : traps c.cpu = c.cpu.regs.flags.trap := by rw [traps, running]; rfl
    have settled : e.cpu.deferred = 0 := by rw [frame]
    obtain ⟨paid, owed⟩ := retire_bill opcode c.cpu.regs.flags.trap e
    rw [own, trap]
    refine ⟨?_, rfl⟩
    omega

theorem step?_some {limit : Nat} {c d : Core β} {cycles : Nat}
    (stepped : step? limit c = some (cycles, d)) :
    stepWithin limit c = (some cycles, d) ∧ overflows 64 d.cpu.total.count = false := by
  unfold step? at stepped
  split at stepped
  · cases stepped
  · rename_i ran
    split at stepped
    · cases stepped
    · rename_i within
      cases stepped
      rw [Bool.or_eq_true, not_or, Bool.not_eq_true, Bool.not_eq_true] at within
      exact ⟨ran, within.2⟩

theorem interrupt?_eq_some {vector : Byte} {c d : Core β} : interrupt? vector c = some d ↔
    overflows 32 (interrupt vector c).2.cpu.deferred = false ∧ (interrupt vector c).2 = d := by
  unfold interrupt?
  dsimp only
  cases overflows 32 (interrupt vector c).2.cpu.deferred <;> simp

/-- A computation that ends in an instruction that is cheaper than the entry of an interrupt. -/
def Cheap (x : Exec β Retired) : Prop := ∀ c, (x c).1.cycles < interruptCycles

omit [Bus β] in
theorem Cheap.bind {α : Type} {x : Exec β α} {f : α → Exec β Retired} (rest : ∀ a, Cheap (f a)) :
    Cheap (x >>= f) :=
  fun c => rest (x c).1 (x c).2

omit [Bus β] in
theorem cheap_pure {n : Nat} (small : n < interruptCycles) :
    Cheap (pure { cycles := n } : Exec β Retired) :=
  fun _ => small

omit [Bus β] in
theorem cheap_cost {m n : Nat} (rm : Location) (register : m < interruptCycles)
    (memory : n < interruptCycles) : Cheap (pure { cycles := rm.cost m n } : Exec β Retired) := by
  cases rm
  · exact fun _ => register
  · exact fun _ => memory

theorem group3_cheap (w : Width) : Cheap (group3 w : Exec β Retired) := by
  unfold group3
  refine .bind fun found => ?_
  obtain ⟨m, rm⟩ := found
  refine .bind fun v => ?_
  cases w <;> dsimp only <;> split <;> repeat refine .bind fun _ => ?_
  all_goals exact cheap_cost rm (by decide) (by decide)

theorem bound_cheap : Cheap (bound : Exec β Retired) := by
  unfold bound
  refine .bind fun found => ?_
  obtain ⟨m, rm⟩ := found
  cases rm with
  | register i => exact cheap_pure (by decide)
  | memory s o =>
    refine .bind fun _ => .bind fun _ => .bind fun _ => ?_
    split
    · exact .bind fun _ => cheap_pure (by decide)
    · exact cheap_pure (by decide)

def interruptingOpcodes : List Byte := [0x62, 0xCC, 0xCD, 0xCE, 0xF6, 0xF7]

/-- What enters an interrupt of its own costs less, with all that it does, than an entry from
outside. -/
theorem interrupting_cheap {opcode : Byte} (interrupting : opcode ∈ interruptingOpcodes) :
    Cheap ((Operation.decode opcode).execute : Exec β Retired) := by
  simp only [interruptingOpcodes, List.mem_cons, List.not_mem_nil, or_false] at interrupting
  rcases interrupting with rfl | rfl | rfl | rfl | rfl | rfl
  · rw [show Operation.decode 0x62 = .bound by decide]
    exact bound_cheap
  · rw [show Operation.decode 0xCC = .breakpoint by decide]
    exact .bind fun _ => cheap_pure (by decide)
  · rw [show Operation.decode 0xCD = .interrupt by decide]
    exact .bind fun _ => .bind fun _ => cheap_pure (by decide)
  · rw [show Operation.decode 0xCE = .interruptOnOverflow by decide]
    refine .bind fun r => ?_
    split
    · exact .bind fun _ => cheap_pure (by decide)
    · exact cheap_pure (by decide)
  · rw [show Operation.decode 0xF6 = .group3 .byte by decide]
    exact group3_cheap .byte
  · rw [show Operation.decode 0xF7 = .group3 .word by decide]
    exact group3_cheap .word

end Exec

/-- What a processor has counted since power on, call by call. -/
structure Ledger where
  /-- The sum of what the steps returned. -/
  returned : Nat := 0
  /-- The sum of what they charged for what they did themselves. -/
  charged : Nat := 0
  /-- The single-step traps, and the interrupts from outside. -/
  entries : Nat := 0
  /-- The entries that no step has paid for yet. -/
  pending : Nat := 0
  /-- The entries that a reset came before the payment for. -/
  discarded : Nat := 0

namespace Ledger

def step (l : Ledger) (cycles own : Nat) (trapped : Bool) : Ledger :=
  { l with
    returned := l.returned + cycles
    charged := l.charged + own
    entries := l.entries + trapped.toNat
    pending := 0 }

def interrupt (l : Ledger) : Ledger :=
  { l with entries := l.entries + 1, pending := l.pending + 1 }

def reset (l : Ledger) : Ledger :=
  { l with pending := 0, discarded := l.discarded + l.pending }

end Ledger

namespace Cpu

open Exec

/-- A processor that calls lead to from power on, and what was counted on the way. -/
inductive Accounted (β : Type) [Bus β] : Cpu → Ledger → Prop where
  | initial : Accounted β {} {}
  | step {cpu : Cpu} {l : Ledger} {limit : Nat} {bus : β} {cycles : Nat} {d : Core β} :
      Accounted β cpu l → Exec.step? limit ⟨cpu, bus⟩ = some (cycles, d) →
      Accounted β d.cpu
        (l.step cycles (ownCyclesWithin limit (⟨cpu, bus⟩ : Core β)) (traps cpu))
  | interrupt {cpu : Cpu} {l : Ledger} {bus : β} {vector : Byte} {d : Core β} :
      Accounted β cpu l → Exec.interrupt? vector ⟨cpu, bus⟩ = some d → Accounted β d.cpu l.interrupt
  | wake {cpu : Cpu} {l : Ledger} : Accounted β cpu l → Accounted β cpu.wake l
  | jumpTo {cpu : Cpu} {l : Ledger} {segment offset : Word} : Accounted β cpu l →
      Accounted β (cpu.jumpTo segment offset) l
  | reset {cpu : Cpu} {l : Ledger} : Accounted β cpu l → Accounted β cpu.reset l.reset

variable {β : Type} [Bus β]

/-- A ledger that balances: it says what the processor's total is, where all of it came from,
and what the processor owes. Both are numbers that their counters can hold. -/
structure Balances (cpu : Cpu) (l : Ledger) : Prop where
  total : cpu.total.count = l.returned
  sources : l.returned + interruptCycles * (l.pending + l.discarded) =
    l.charged + interruptCycles * l.entries
  owed : cpu.deferred = interruptCycles * l.pending
  fits : overflows 32 cpu.deferred = false ∧ overflows 64 cpu.total.count = false

theorem Accounted.balances {cpu : Cpu} {l : Ledger} (accounted : Accounted β cpu l) :
    Balances cpu l := by
  induction accounted with
  | initial => exact ⟨rfl, rfl, rfl, by decide⟩
  | @step cpu l limit bus cycles d _ returned ih =>
    obtain ⟨stepped, within⟩ := step?_some returned
    obtain ⟨bill, settled⟩ := stepWithin_bill stepped
    have total := congrArg Ticks.count (stepWithin_total stepped)
    obtain ⟨before, sources, owed, -⟩ := ih
    refine ⟨?_, ?_, settled, settled ▸ rfl, within⟩
    · rw [total]
      exact congrArg (· + cycles) before
    · simp only [Ledger.step, interruptCycles] at *
      omega
  | @interrupt cpu l bus vector d _ returned ih =>
    obtain ⟨regs, bus, entered⟩ := interrupt_frame vector (⟨cpu, bus⟩ : Core β)
    obtain ⟨before, sources, owed, -, small⟩ := ih
    obtain ⟨within, rfl⟩ := interrupt?_eq_some.mp returned
    rw [entered] at within ⊢
    refine ⟨before, ?_, ?_, within, small⟩
    · simp only [Ledger.interrupt, interruptCycles] at *
      omega
    · simp only [Ledger.interrupt, interruptCycles] at *
      omega
  | wake _ ih => exact ⟨ih.total, ih.sources, ih.owed, ih.fits⟩
  | jumpTo _ ih => exact ⟨ih.total, ih.sources, ih.owed, ih.fits⟩
  | reset _ ih =>
    refine ⟨ih.total, ?_, rfl, rfl, ih.fits.2⟩
    have sources := ih.sources
    simp only [Ledger.reset, interruptCycles] at *
    omega

end Cpu

end Swan
