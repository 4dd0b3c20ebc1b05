import Swan.Proofs.InstructionEntry
import Swan.Proofs.InterruptReturn
import Swan.Proofs.StackPush

/-! Interrupts inside interrupts. Each entry leaves one frame below those before it, so as long
as the frames do not go all around the stack segment, a return finds the frame of its own entry
as that entry left it. What the handlers' addresses are makes no difference to this, nor does
it where the stack is. -/
namespace Swan

theorem Flat.AgreeOff.mono {hidden more : List Address} {b b' : Flat} (subset : hidden ⊆ more)
    (same : Flat.AgreeOff hidden b b') : Flat.AgreeOff more b b' :=
  ⟨same.ports, fun a seen => same.memory a fun member => seen (subset member)⟩

/-- How an interrupt is entered: from outside the instruction stream, or by an instruction. -/
inductive Entry where
  | external (vector : Byte)
  | software (vector : Byte)

namespace Entry

variable {β : Type} [Bus β]

def enter (c : Core β) : Entry → Core β
  | external vector => (Exec.interrupt vector c).2
  | software vector => (Exec.enterInterrupt vector c).2

def isExternal : Entry → Bool
  | external _ => true
  | software _ => false

def vector : Entry → Byte
  | external vector | software vector => vector

/-- The place to return to. An interrupt from outside gives up a pending repetition. -/
def returnIp (cpu : Cpu) : Entry → Word
  | external _ => cpu.regs.ip - BitVec.ofNat 16 cpu.prefixes.length
  | software _ => cpu.regs.ip

theorem enter_eq (c : Core Flat) (e : Entry) :
    let r := c.cpu.regs
    let b := c.bus.pushFrame r (e.returnIp c.cpu)
    e.enter c = ⟨{ c.cpu with
      regs := { r with
        sp := r.sp - 6
        flags := { r.flags with interrupt := false, trap := false }
        ip := b.get .word 0 (vectorOffset e.vector)
        cs := b.get .word 0 (vectorOffset e.vector + 2) }
      halted := false
      prefixes := if e.isExternal then .empty else c.cpu.prefixes
      deferred := c.cpu.deferred + if e.isExternal then interruptCycles else 0 }, b⟩ := by
  cases e with
  | external vector => exact Exec.interrupt_eq vector c
  | software vector => exact Exec.enterInterrupt_eq vector c

end Entry

namespace Core

variable {β : Type} [Bus β]

def nest (c : Core β) (entries : List Entry) : Core β := entries.foldl Entry.enter c

def returned (c : Core β) : Core β := ((Operation.decode 0xCF).execute c).2

def unwind : Nat → Core β → Core β
  | 0, c => c
  | n + 1, c => (unwind n c).returned

theorem returned_eq (c : Core Flat) :
    let r := c.cpu.regs
    c.returned = ⟨{ c.cpu with
      regs := { r with
        sp := r.sp + 6
        ip := c.bus.get .word r.ss r.sp
        cs := c.bus.get .word r.ss (r.sp + 2)
        flags := .ofWord (c.bus.get .word r.ss (r.sp + 4)) } }, c.bus⟩ := by
  rw [returned, show Operation.decode 0xCF = .returnInterrupt by decide]
  exact congrArg Prod.snd (Exec.returnInterrupt_eq c)

end Core

namespace Registers

theorem stackFrame_eq (r : Registers) : r.stackFrame = r.stackWords 3 := rfl

/-- What is below a frame is part of the stack that the frame begins. -/
theorem stackWords_below (r : Registers) (n : Nat) :
    ({ r with sp := r.sp - 6 } : Registers).stackWords (3 * n) ⊆ r.stackWords (3 * (n + 1)) := by
  intro a member
  obtain ⟨i, bound, rfl⟩ := Flat.exists_of_mem_span member
  have place : r.sp - 6 - BitVec.ofNat 16 (2 * (3 * n)) =
      r.sp - BitVec.ofNat 16 (2 * (3 * (n + 1))) := by bv_omega
  dsimp only
  rw [place]
  exact Flat.mem_span _ _ (by omega)

/-- It is apart from the frame, unless it reaches around the segment. -/
theorem stackWords_apart (r : Registers) {n : Nat} (fits : 6 * (n + 1) ≤ 65536) :
    ∀ a ∈ r.stackFrame, a ∉ ({ r with sp := r.sp - 6 } : Registers).stackWords (3 * n) := by
  intro a inFrame member
  obtain ⟨i, bound, rfl⟩ := Flat.exists_of_mem_span inFrame
  obtain ⟨j, below, same⟩ := Flat.exists_of_mem_span member
  rw [physical_right_inj] at same
  dsimp only at same
  bv_omega

end Registers

namespace Core

/-- What is left of some entries once each has been returned from. -/
structure Unwound (entries : List Entry) (c d : Core Flat) : Prop where
  cpu : d.cpu = { c.cpu with
    regs := { c.cpu.regs with ip := (entries.head?.map (·.returnIp c.cpu)).getD c.cpu.regs.ip }
    halted := c.cpu.halted && entries.isEmpty
    prefixes := if entries.any (·.isExternal) then .empty else c.cpu.prefixes
    deferred := c.cpu.deferred + interruptCycles * entries.countP (·.isExternal) }
  bus : c.bus.AgreeOff (c.cpu.regs.stackWords (3 * entries.length)) d.bus

/-- By induction on the entries: the first frame is above all that the others store. -/
theorem unwound (c : Core Flat) (entries : List Entry) (fits : 6 * entries.length ≤ 65536) :
    Unwound entries c (unwind entries.length (c.nest entries)) := by
  induction entries generalizing c with
  | nil => exact ⟨by simp [nest, unwind], .refl _ _⟩
  | cons e entries ih =>
    obtain ⟨cpu, bus⟩ := ih (e.enter c) (by simp only [List.length_cons] at fits; omega)
    change Unwound (e :: entries) c (unwind entries.length ((e.enter c).nest entries)).returned
    generalize unwind entries.length ((e.enter c).nest entries) = d at cpu bus ⊢
    rw [Entry.enter_eq] at cpu bus
    obtain ⟨cpu', bus'⟩ := d
    obtain rfl := cpu
    have apart := c.cpu.regs.stackWords_apart fits
    obtain ⟨ofFlags, ofCs, ofIp⟩ := Flat.addresses_subset_stackFrame c.cpu.regs
    obtain ⟨ip, cs, flags⟩ := c.bus.get_pushFrame c.cpu.regs (e.returnIp c.cpu)
    rw [bus.get fun a member => apart a (ofIp member)] at ip
    rw [bus.get fun a member => apart a (ofCs member)] at cs
    rw [bus.get fun a member => apart a (ofFlags member)] at flags
    have second : c.cpu.regs.sp - 6 + 2 = c.cpu.regs.sp - 4 := by bv_omega
    have third : c.cpu.regs.sp - 6 + 4 = c.cpu.regs.sp - 2 := by bv_omega
    rw [returned_eq]
    dsimp only at ip cs flags ⊢
    rw [second, third, ip, cs, flags, Flags.ofWord_toWord, BitVec.sub_add_cancel]
    constructor
    · cases e with
      | external vector =>
        simp [Entry.isExternal, Nat.mul_add, Nat.add_assoc, Nat.add_comm, Nat.add_left_comm]
      | software vector => simp [Entry.isExternal]
    · have frame := c.bus.pushFrame_agree c.cpu.regs (e.returnIp c.cpu)
      refine .trans (frame.mono ?_) (bus.mono (c.cpu.regs.stackWords_below entries.length))
      rw [Registers.stackFrame_eq, List.length_cons, Nat.mul_add, Nat.add_comm]
      exact c.cpu.regs.stackWords_subset 3 _

/-- A handler runs, and untrapped. -/
theorem nest_running (c : Core Flat) {entries : List Entry} (some : entries ≠ []) :
    (c.nest entries).cpu.halted = false ∧ (c.nest entries).cpu.regs.flags.trap = false := by
  obtain ⟨front, e, rfl⟩ := List.eq_nil_or_concat entries |>.resolve_left some
  rw [nest, List.concat_eq_append, List.foldl_append, List.foldl_cons, List.foldl_nil, Entry.enter_eq]
  exact ⟨rfl, rfl⟩

/-- So does what it returns to, until the last return. -/
theorem unwind_running (c : Core Flat) {entries : List Entry} (fits : 6 * entries.length ≤ 65536)
    {n : Nat} (inner : n < entries.length) :
    (unwind n (c.nest entries)).cpu.halted = false ∧
    (unwind n (c.nest entries)).cpu.regs.flags.trap = false := by
  let front := entries.take (entries.length - n)
  let back := entries.drop (entries.length - n)
  have split : c.nest entries = (c.nest front).nest back := by
    rw [nest, ← List.take_append_drop (entries.length - n) entries, List.foldl_append]
    rfl
  have length : back.length = n := by simp only [back, List.length_drop]; omega
  have some : front ≠ [] := by
    intro none
    have := congrArg List.length none
    simp only [front, List.length_take, List.length_nil] at this
    omega
  obtain ⟨running, untrapped⟩ := c.nest_running some
  have inside := unwound (c.nest front) back (by omega)
  rw [split, ← length, inside.cpu]
  exact ⟨by rw [running]; rfl, untrapped⟩

/-- A step at the instruction that returns is its execution. -/
theorem step_returned {c : Core Flat} {prefixes : List Byte} (running : c.cpu.halted = false)
    (untrapped : c.cpu.regs.flags.trap = false) (holds : c.Holds prefixes 0xCF []) :
    (Exec.step c).2.cpu.regs = c.returned.cpu.regs ∧ (Exec.step c).2.bus = c.returned.bus := by
  obtain ⟨d, starts⟩ := Exec.step_starts running untrapped holds
  have after : ((Operation.decode 0xCF).execute d).2 = d.returned := rfl
  rw [starts.regsAfter, starts.busAfter, after, returned_eq, returned_eq, starts.regs,
    starts.bus.flat]
  exact ⟨rfl, rfl⟩

/-- Interrupts entered one inside the other are returned from one by one. What the first of them
found is restored: registers, status word, memory and ports but for the frames, and the repeated
instruction it came in. -/
theorem nesting_unwinds (c : Core Flat) (entries : List Entry)
    (fits : 6 * entries.length ≤ 65536) :
    Unwound entries c (unwind entries.length (c.nest entries)) ∧
    ∀ n < entries.length, let d := unwind n (c.nest entries)
      d.cpu.halted = false ∧ d.cpu.regs.flags.trap = false ∧
      ∀ prefixes, d.Holds prefixes 0xCF [] →
        (Exec.step d).2.cpu.regs = (unwind (n + 1) (c.nest entries)).cpu.regs ∧
        (Exec.step d).2.bus = (unwind (n + 1) (c.nest entries)).bus := by
  refine ⟨unwound c entries fits, fun n inner => ?_⟩
  obtain ⟨running, untrapped⟩ := unwind_running c fits inner
  exact ⟨running, untrapped, fun prefixes => step_returned running untrapped⟩

/-- A waiting processor with a prefix queued, whose stack is on top of the table of vectors. -/
def crowded : Core Flat :=
  ⟨{ regs := { sp := 5, ip := 0x40, flags := { trap := true, carry := true } }
     halted := true
     prefixes := PrefixQueue.empty.push 0xF3 }, (default : Flat).load 0 [1, 2, 3, 4, 5, 6, 7, 8]⟩

theorem nesting_unwinds_crowded :
    6 * [Entry.external 0, .software 1].length ≤ 65536 ∧
    (unwind 2 (crowded.nest [.external 0, .software 1])).cpu =
      { regs := { sp := 5, ip := 0x3F, flags := { trap := true, carry := true } }
        deferred := 32 } := by
  have fits : 6 * [Entry.external 0, .software 1].length ≤ 65536 := by decide
  obtain ⟨unwound, -⟩ := nesting_unwinds crowded [.external 0, .software 1] fits
  exact ⟨fits, unwound.cpu.trans rfl⟩

end Core

end Swan
