import Swan.Proofs.CodeReading
import Swan.Proofs.CodeStep
import Swan.Proofs.HiddenMemory

/-! What an instruction amounts to once its bytes are fetched: a computation that neither
fetches nor looks at where it runs. Two encodings that amount to one computation are told
apart by a step only through their bytes and their length. -/
namespace Swan

theorem Core.Skips.flat {c d : Core Flat} {n : Nat} (skips : c.Skips n d) :
    d = c.moveTo (c.cpu.regs.ip + BitVec.ofNat 16 n) := by
  obtain ⟨cpu, bus⟩ := d
  obtain rfl : cpu = _ := skips.cpu
  obtain rfl : bus = _ := skips.bus.flat
  rfl

/-- The operands of an instruction stand behind its opcode. -/
theorem Core.fetched_at {c : Core Flat} {prefixes operands : List Byte} {opcode : Byte}
    (code : c.bus.CodeAt c.cpu.regs.cs c.cpu.regs.ip (prefixes ++ opcode :: operands)) :
    (c.fetched prefixes opcode).At operands := by
  rw [List.append_cons] at code
  have behind := Flat.codeAt_iff.mp code.append
  rwa [List.length_append] at behind

/-- Of two instructions that stand behind each other, both are found. -/
theorem Flat.CodeAt.split {b : Flat} {segment offset : Word} {prefixes operands rest : List Byte}
    {opcode : Byte} (code : b.CodeAt segment offset (prefixes ++ opcode :: (operands ++ rest))) :
    b.CodeAt segment offset (prefixes ++ opcode :: operands) ∧
      b.CodeAt segment
        (offset + BitVec.ofNat 16 (prefixes.length + 1 + operands.length)) rest := by
  rw [← List.cons_append, ← List.append_assoc] at code
  have length : (prefixes ++ opcode :: operands).length =
      prefixes.length + 1 + operands.length := by
    rw [List.length_append, List.length_cons]
    omega
  exact ⟨Flat.codeAt_iff.mpr (Flat.codeAt_iff.mp code).front, length ▸ code.append⟩

theorem Core.Fetches.of_code {c : Core Flat} {prefixes operands : List Byte} {opcode : Byte}
    (code : c.bus.CodeAt c.cpu.regs.cs c.cpu.regs.ip (prefixes ++ opcode :: operands))
    (queued : ∀ b ∈ prefixes, isPrefix b = true) (plain : isPrefix opcode = false) :
    c.Fetches prefixes opcode := by
  rw [List.append_cons] at code
  exact ⟨Flat.codeAt_iff.mpr (Flat.codeAt_iff.mp code).front, queued, plain⟩

namespace Exec

/-- Over some bytes of its code, a computation amounts to another one behind them, which has
nothing to do with its place. -/
structure Amounts {α : Type} (code : List Byte) (x y : Exec Flat α) (c : Core Flat) : Prop where
  still : Still y
  runs : x c = y (c.moveTo (c.cpu.regs.ip + BitVec.ofNat 16 code.length))

section Amounts

variable {α γ : Type} {c d : Core Flat} {code rest : List Byte} {x : Exec Flat α}
  {f : α → Exec Flat γ} {y : Exec Flat γ} {a : α}

theorem Amounts.of_apply {x y : Exec Flat α} (still : Still y) (same : x c = y c) :
    Amounts [] x y c where
  still := still
  runs := same.trans (congrArg y (Core.Skips.refl c).flat)

theorem Takes.before (first : Takes code x a c d) (second : Amounts rest (f a) y d) :
    Amounts (code ++ rest) (x >>= f) y c where
  still := second.still
  runs := by
    change f (x c).1 (x c).2 = _
    rw [first.answer, second.runs, first.skips.flat, List.length_append, BitVec.ofNat_add,
      ← BitVec.add_assoc]
    rfl

theorem Takes.amounts [still : Still y] (takes : Takes code x a c d) (same : f a d = y d) :
    Amounts code (x >>= f) y c := by
  simpa only [List.append_nil] using takes.before (.of_apply still same)

theorem Amounts.moves {x y : Exec Flat α} (amounts : Amounts code x y c) :
    x c = ((y c).1, (y c).2.moveTo (c.cpu.regs.ip + BitVec.ofNat 16 code.length)) :=
  amounts.runs.trans ((amounts.still.still c).placeless _)

end Amounts

def taking (effect : Exec Flat Unit) (cycles : Nat) : Exec Flat Retired := do
  effect
  return { cycles }

/-- Two encodings of one effect, each where it stands, and none of them mindful of memory that
differs. A step of either leaves the same, but for the place behind it. -/
theorem step_agree {hidden : List Address} {c c' : Core Flat} {prefixes code code' : List Byte}
    {opcode opcode' : Byte} {effect : Exec Flat Unit} {cost cost' : Nat}
    (running : c.cpu.halted = false) (untrapped : c.cpu.regs.flags.trap = false)
    (same : c'.cpu = c.cpu) (memory : c.bus.AgreeOff hidden c'.bus)
    (fetches : c.Fetches prefixes opcode) (fetches' : c'.Fetches prefixes opcode')
    (first : Amounts code (Operation.decode opcode).execute (taking effect cost)
      (c.fetched prefixes opcode))
    (second : Amounts code' (Operation.decode opcode').execute (taking effect cost')
      (c'.fetched prefixes opcode'))
    (shown : ShownAt hidden effect (c.fetched prefixes opcode)) :
    ∃ d d', step c = (some (c.cpu.deferred + prefixes.length + cost), d) ∧
      step c' = (some (c.cpu.deferred + prefixes.length + cost'), d') ∧
      d.cpu.regs.ip = c.cpu.regs.ip + BitVec.ofNat 16 (prefixes.length + 1 + code.length) ∧
      d'.cpu.regs = { d.cpu.regs with
        ip := c.cpu.regs.ip + BitVec.ofNat 16 (prefixes.length + 1 + code'.length) } ∧
      d'.cpu.halted = d.cpu.halted ∧ d.bus.AgreeOff hidden d'.bus := by
  have like : Core.LikeOff hidden (c.fetched prefixes opcode) (c'.fetched prefixes opcode') := by
    refine ⟨?_, memory⟩
    simp only [Core.fetched, same]
  obtain ⟨-, cpu, bus⟩ := shown _ like
  have behind (n : Nat) : c.cpu.regs.ip + BitVec.ofNat 16 (prefixes.length + 1) +
      BitVec.ofNat 16 n = c.cpu.regs.ip + BitVec.ofNat 16 (prefixes.length + 1 + n) := by
    rw [BitVec.add_assoc, ← BitVec.ofNat_add]
  have stepped := step_code running untrapped fetches first.moves
  have stepped' := step_code (same ▸ running) (same ▸ untrapped) fetches' second.moves
  rw [same] at stepped'
  refine ⟨_, _, stepped, stepped', behind code.length, ?_, congrArg (·.halted) cpu, bus⟩
  · have regs : (effect (c'.fetched prefixes opcode')).2.cpu.regs =
        (effect (c.fetched prefixes opcode)).2.cpu.regs := congrArg (·.regs) cpu
    have place := behind code'.length
    rw [← same] at place ⊢
    change ({ (effect (c'.fetched prefixes opcode')).2.cpu.regs with ip := _ } : Registers) = _
    rw [regs]
    exact congrArg (fun ip => { (effect (c.fetched prefixes opcode)).2.cpu.regs with ip }) place

end Exec

/-- An instruction whose meaning is known leaves what that leaves, behind its operands. -/
theorem Core.Performs.of_amounts {c d : Core Flat} {prefixes operands : List Byte} {opcode : Byte}
    {op : Operation} {effect : Exec Flat Unit} {cycles : Nat}
    (code : c.bus.CodeAt c.cpu.regs.cs c.cpu.regs.ip (prefixes ++ opcode :: operands))
    (queued : ∀ b ∈ prefixes, isPrefix b = true) (plain : isPrefix opcode = false)
    (decoded : Operation.decode opcode = op)
    (amounts : Exec.Amounts operands op.execute (Exec.taking effect cycles)
      (c.fetched prefixes opcode))
    (run : effect (c.fetched prefixes opcode) = ((), d)) :
    c.Performs prefixes opcode cycles ⟨{ d.cpu with
      regs := { d.cpu.regs with
        ip := c.cpu.regs.ip + BitVec.ofNat 16 (prefixes.length + 1 + operands.length) }
      prefixes := .empty }, d.bus⟩ := by
  subst decoded
  have performs := Performs.of_run (.of_code code queued plain) amounts.moves rfl
  have behind : (c.fetched prefixes opcode).cpu.regs.ip + BitVec.ofNat 16 operands.length =
      c.cpu.regs.ip + BitVec.ofNat 16 (prefixes.length + 1 + operands.length) := by
    rw [BitVec.ofNat_add _ operands.length, ← BitVec.add_assoc]
    rfl
  have left : (Exec.taking effect cycles (c.fetched prefixes opcode)) = ({ cycles }, d) := by
    rw [Exec.taking, Exec.bind_apply, run]
    rfl
  rw [behind, left] at performs
  exact performs

end Swan
