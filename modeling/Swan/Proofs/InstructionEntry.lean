import Swan.Proofs.InstructionLength

/-! The instruction that a processor is at: its prefixes, its opcode and its operand bytes,
as they stand in memory. A step that returns finds one, and it does nothing else to the
registers and the bus than fetch the prefixes and the opcode and execute the rest. -/
namespace Swan

theorem Codes.concat {view : Address → Byte} {segment offset : Word} {front back : List Byte}
    (first : Codes view segment offset front)
    (second : Codes view segment (offset + BitVec.ofNat 16 front.length) back) :
    Codes view segment offset (front ++ back) := by
  induction front generalizing offset with
  | nil => simpa using second
  | cons v rest ih =>
    rw [List.length_cons, ← Word.add_one_ofNat] at second
    exact ⟨first.1, ih first.2 second⟩

def codeFrom (view : Address → Byte) (segment : Word) : (offset : Word) → Nat → List Byte
  | _, 0 => []
  | offset, n + 1 => view (physical segment offset) :: codeFrom view segment (offset + 1) n

@[simp] theorem length_codeFrom (view : Address → Byte) (segment offset : Word) (n : Nat) :
    (codeFrom view segment offset n).length = n := by
  induction n generalizing offset with
  | zero => rfl
  | succ n ih => simp [codeFrom, ih]

theorem codes_codeFrom (view : Address → Byte) (segment offset : Word) (n : Nat) :
    Codes view segment offset (codeFrom view segment offset n) := by
  induction n generalizing offset with
  | zero => trivial
  | succ n ih => exact ⟨rfl, ih (offset + 1)⟩

theorem one_le_instructionLength (opcode second : Byte) : 1 ≤ instructionLength opcode second := by
  unfold instructionLength
  dsimp only
  omega

/-- Without a ModRM byte there is no member to tell apart. -/
theorem instructionLength_short {opcode : Byte} (plain : hasModRM opcode = false)
    (second other : Byte) : instructionLength opcode second = instructionLength opcode other := by
  have immediate : ∀ opcode : Byte, hasModRM opcode = false → ∀ reg : BitVec 3,
      immediateSize opcode reg = immediateSize opcode 0 := by decide +kernel
  simp only [instructionLength, plain, immediate opcode plain, Bool.false_eq_true, if_false]

/-- Whether an instruction enters an interrupt of its own. The first two opcodes always do;
an overflow, a bound and a division do unless they stay in their line. -/
def EntersInterrupt (view : Address → Byte) (r : Registers) (q : PrefixQueue) (opcode : Byte)
    (operands : List Byte) : Prop :=
  opcode ∈ [0xCC, 0xCD] ∨ opcode ∈ [0xCE, 0x62, 0xF6, 0xF7] ∧
    ¬ (Turn.of opcode).Stays view r q operands True

namespace Operation

def interrupts : Operation → Bool
  | breakpoint | interrupt => true
  | _ => false

def mayInterrupt : Operation → Bool
  | interruptOnOverflow | bound | group3 _ => true
  | _ => false

def EntersInterrupt (view : Address → Byte) (r : Registers) (q : PrefixQueue)
    (operands : List Byte) (op : Operation) : Prop :=
  op.interrupts = true ∨ op.mayInterrupt = true ∧ ¬ op.turn.Stays view r q operands True

theorem entersInterrupt_decode (view : Address → Byte) (r : Registers) (q : PrefixQueue)
    (opcode : Byte) (operands : List Byte) :
    (decode opcode).EntersInterrupt view r q operands ↔
      Swan.EntersInterrupt view r q opcode operands := by
  have table := decode_table (f := fun op => (op.interrupts, op.mayInterrupt))
    (g := fun opcode => (decide (opcode ∈ [0xCC, 0xCD]),
      decide (opcode ∈ [0xCE, 0x62, 0xF6, 0xF7]))) (by decide +kernel) opcode
  obtain ⟨always, sometimes⟩ := Prod.mk.inj table
  simp only [EntersInterrupt, Swan.EntersInterrupt, always, sometimes, turn_decode,
    decide_eq_true_eq]

theorem EntersInterrupt.moved {view : Address → Byte} {r : Registers} {q : PrefixQueue}
    {operands : List Byte} {op : Operation} (ip : Word) :
    op.EntersInterrupt view { r with ip } q operands ↔ op.EntersInterrupt view r q operands := by
  simp only [EntersInterrupt, Turn.stays_moved]

end Operation

namespace Core

variable {β : Type} [Bus β] [Viewed β]

structure Holds (c : Core β) (prefixes : List Byte) (opcode : Byte) (operands : List Byte) :
    Prop where
  code : c.At (prefixes ++ opcode :: operands)
  queued : ∀ b ∈ prefixes, isPrefix b = true
  plain : isPrefix opcode = false
  size : 1 + operands.length = instructionLength opcode (operands.headD 0)

theorem Holds.size_decode {c : Core β} {prefixes operands : List Byte} {opcode : Byte}
    (holds : c.Holds prefixes opcode operands) : operands.length =
      (if (Operation.decode opcode).hasModRM then 1 + (leadingModRM operands).displacement.size
        else 0) + (Operation.decode opcode).immediateSize (leadingModRM operands).reg := by
  have size := holds.size
  rw [Operation.hasModRM_decode, Operation.immediateSize_decode, ModRM.size_displacement]
  simp only [instructionLength, Nat.add_assoc] at size
  exact Nat.add_left_cancel size

/-- The operand bytes of an opcode are the ones that follow it, as many as it asks for. -/
theorem exists_holds {c : Core β} {prefixes : List Byte} {opcode : Byte}
    (code : c.At (prefixes ++ [opcode])) (queued : ∀ b ∈ prefixes, isPrefix b = true)
    (plain : isPrefix opcode = false) : ∃ operands, c.Holds prefixes opcode operands := by
  let view := Viewed.view c.bus
  let behind := c.cpu.regs.ip + BitVec.ofNat 16 (prefixes ++ [opcode]).length
  let second := view (physical c.cpu.regs.cs behind)
  obtain ⟨n, size⟩ := Nat.exists_eq_add_of_le (one_le_instructionLength opcode second)
  refine ⟨codeFrom view c.cpu.regs.cs behind n, ?_, queued, plain, ?_⟩
  · rw [List.append_cons]
    exact code.concat (codes_codeFrom view _ behind n)
  · rw [length_codeFrom, ← size]
    cases n with
    | succ n => rfl
    | zero =>
      refine instructionLength_short (Bool.not_eq_true _ ▸ fun encoded => ?_) _ _
      simp only [instructionLength, encoded, if_true] at size
      omega

end Core

namespace Exec

variable {β : Type} [Bus β] [Viewed β]

/-- What is fetched stood in memory. -/
theorem at_of_fetchOpcode? {fetched limit : Nat} {c d : Core β} {opcode : Byte} {n : Nat}
    (found : fetchOpcode? fetched limit c = (some (opcode, n), d)) :
    ∃ prefixes, c.At (prefixes ++ [opcode]) ∧ (∀ b ∈ prefixes, isPrefix b = true) ∧
      isPrefix opcode = false := by
  induction limit generalizing fetched c with
  | zero => cases found
  | succ limit ih =>
    have here : c.At [Viewed.view c.bus c.cpu.regs.codeAddress] := ⟨rfl, trivial⟩
    obtain ⟨e, takes, after⟩ := takes_byte here
    rw [fetchOpcode?, bind_apply, takes.answer] at found
    dsimp only at found
    split at found
    · rename_i isOne
      obtain ⟨prefixes, code, queued, plain⟩ := ih found
      refine ⟨_ :: prefixes, ⟨rfl, ?_⟩, List.forall_mem_cons.mpr ⟨isOne, queued⟩, plain⟩
      change Codes (Viewed.view e.bus) e.cpu.regs.cs e.cpu.regs.ip _ at code
      rw [takes.skips.bus.view, takes.skips.cpu] at code
      exact code
    · rename_i isNone
      cases found
      exact ⟨[], ⟨rfl, trivial⟩, List.forall_mem_nil _, by simpa using isNone⟩

/-- A step that returns has met an instruction. -/
theorem holds_of_step {c : Core β} (running : c.cpu.halted = false) {cycles : Nat}
    (returns : (step c).1 = some cycles) :
    ∃ prefixes opcode operands, c.Holds prefixes opcode operands := by
  rw [step, stepWithin_running _ running] at returns
  split at returns
  · cases returns
  · rename_i opcode n d found
    obtain ⟨prefixes, code, queued, plain⟩ := at_of_fetchOpcode? found
    obtain ⟨operands, holds⟩ := Core.exists_holds (c := c) code queued plain
    exact ⟨prefixes, opcode, operands, holds⟩

/-- The machine that an instruction is executed on, and what the step makes of it. -/
structure Starts (c : Core β) (prefixes : List Byte) (opcode : Byte) (operands : List Byte)
    (d : Core β) : Prop where
  regs : d.cpu.regs =
    { c.cpu.regs with ip := c.cpu.regs.ip + BitVec.ofNat 16 (prefixes.length + 1) }
  queue : d.cpu.prefixes = c.cpu.prefixes.pushAll prefixes
  bus : Reads c.bus d.bus
  here : d.At operands
  returns : ∃ cycles, (step c).1 = some cycles
  regsAfter : (step c).2.cpu.regs = ((Operation.decode opcode).execute d).2.cpu.regs
  busAfter : (step c).2.bus = ((Operation.decode opcode).execute d).2.bus

theorem Starts.entersInterrupt {c d : Core β} {prefixes operands : List Byte} {opcode : Byte}
    (starts : Starts c prefixes opcode operands d) :
    (Operation.decode opcode).EntersInterrupt (Viewed.view d.bus) d.cpu.regs d.cpu.prefixes
      operands ↔ EntersInterrupt (Viewed.view c.bus) c.cpu.regs (c.cpu.prefixes.pushAll prefixes)
        opcode operands := by
  rw [starts.bus.view, starts.regs, starts.queue, Operation.EntersInterrupt.moved,
    Operation.entersInterrupt_decode]

theorem step_starts {c : Core β} {prefixes operands : List Byte} {opcode : Byte}
    (running : c.cpu.halted = false) (untrapped : c.cpu.regs.flags.trap = false)
    (holds : c.Holds prefixes opcode operands) :
    ∃ d, Starts c prefixes opcode operands d := by
  have meets : Meets (Viewed.view c.bus) c.cpu.regs prefixes opcode := by
    refine ⟨?_, holds.queued, holds.plain⟩
    have code := holds.code
    rw [List.append_cons] at code
    exact code.front
  obtain ⟨e, found, opens, -⟩ := consumes_fetchOpcode (c := (takeDeferred c).2) holds.code
    holds.queued holds.plain meets.length_lt 0
  have fetched : fetchOpcode? 0 fetchLimit ⟨{ c.cpu with deferred := 0 }, c.bus⟩ = _ := found
  rcases run : (Operation.decode opcode).execute ⟨{ e.cpu with opcode }, e.bus⟩ with ⟨r, d⟩
  have kept : (if r.again then d else (clearPrefixes d).2).cpu.regs = d.cpu.regs ∧
      (if r.again then d else (clearPrefixes d).2).bus = d.bus := by
    cases r.again <;> exact ⟨rfl, rfl⟩
  refine ⟨⟨{ e.cpu with opcode }, e.bus⟩, ?_, ?_, opens.bus, opens.at_ holds.code, ?_, ?_, ?_⟩
  · rw [opens.cpu]
    rfl
  · rw [opens.cpu]
    rfl
  all_goals rw [step, stepWithin_running _ running, fetched]
  · exact ⟨_, rfl⟩
  · simp only [untrapped]
    rw [retire_untrapped run, run]
    exact kept.1
  · simp only [untrapped]
    rw [retire_untrapped run, run]
    exact kept.2

end Exec

end Swan
