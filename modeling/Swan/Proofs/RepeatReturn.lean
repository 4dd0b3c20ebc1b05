import Swan.Proofs.InertPrefix
import Swan.Proofs.InterruptReturn
import Swan.Proofs.StringElement

/-! Where an interrupt in the middle of a repeated string instruction returns to. It goes back
over the prefixes that are still queued. These are all of them as long as there are no more than
the queue remembers; of more, the first ones are left out of what is begun again. -/
namespace Swan

/-- The word on top of the stack. Behind the entry of an interrupt it is the place to return to. -/
def Core.top (c : Core Flat) : Word := c.bus.get .word c.cpu.regs.ss c.cpu.regs.sp

namespace Exec

theorem top_interrupt (vector : Byte) (c : Core Flat) :
    (interrupt vector c).2.top = c.cpu.regs.ip - BitVec.ofNat 16 c.cpu.prefixes.length := by
  rw [interrupt_eq]
  exact (c.bus.get_pushFrame c.cpu.regs _).1

/-- A repetition that goes on is back on its opcode, and its prefixes are queued as before. -/
theorem string_goesOn {w : Width} {op : StringOp} {c : Core Flat}
    (again : (string w op c).1.again = true) :
    (string w op c).2.cpu.regs.ip = c.cpu.regs.ip - 1 ∧
      (string w op c).2.cpu.prefixes = c.cpu.prefixes := by
  obtain ⟨ax, flags, -, frame⟩ := element_frame w op c
  cases repeated : c.cpu.prefixes.repeatClass with
  | none =>
    rw [string_once repeated] at again
    contradiction
  | some k =>
    by_cases none_left : c.cpu.regs.cx = 0
    · rw [string_exhausted repeated none_left] at again
      contradiction
    · rw [string_repeated repeated none_left] at again ⊢
      dsimp only at again ⊢
      split at again
      · contradiction
      · rename_i goesOn
        rw [if_neg goesOn, frame]
        exact ⟨rfl, rfl⟩

end Exec

namespace Core

open Exec

variable {c : Core Flat} {prefixes : List Byte} {opcode : Byte}

/-- The place of the first prefix that is still queued behind the prefixes of an instruction. -/
def beginAgain (c : Core Flat) (prefixes : List Byte) : Word :=
  c.cpu.regs.ip + BitVec.ofNat 16 prefixes.length -
    BitVec.ofNat 16 (min 16 (c.cpu.prefixes.length + prefixes.length))

theorem beginAgain_eq_iff (fresh : c.cpu.prefixes = .empty) (bound : prefixes.length < 65536) :
    c.beginAgain prefixes = c.cpu.regs.ip ↔ prefixes.length ≤ 16 := by
  have none : c.cpu.prefixes.length = 0 := by rw [fresh]; rfl
  rw [beginAgain, none, Nat.zero_add, BitVec.sub_eq_iff_eq_add, BitVec.add_right_inj]
  rw [← BitVec.toNat_inj, BitVec.toNat_ofNat, BitVec.toNat_ofNat]
  omega

/-- Where a repetition that goes on is to be taken up again, if it is interrupted. -/
theorem GoesOn.rewinds (goesOn : c.GoesOn prefixes opcode) :
    let d := ((Operation.decode opcode).execute (c.fetched prefixes opcode)).2
    d.cpu.regs.ip - BitVec.ofNat 16 d.cpu.prefixes.length = c.beginAgain prefixes := by
  unfold GoesOn at goesOn
  obtain ⟨w, op, decoded⟩ := string_of_again goesOn
  rw [decoded] at goesOn ⊢
  obtain ⟨ip, queue⟩ := string_goesOn goesOn
  change (string w op (c.fetched prefixes opcode)).2.cpu.regs.ip -
    BitVec.ofNat 16 (string w op (c.fetched prefixes opcode)).2.cpu.prefixes.length = _
  rw [ip, queue]
  simp only [fetched, PrefixQueue.length_pushAll, beginAgain, BitVec.ofNat_add]
  rw [← BitVec.add_assoc]
  exact congrArg (· - _) (BitVec.add_sub_cancel _ 1)

theorem GoesOn.step (goesOn : c.GoesOn prefixes opcode) (running : c.cpu.halted = false)
    (fetches : c.Fetches prefixes opcode) :
    ∃ cycles d, Exec.step c = (some cycles, d) ∧
      (c.cpu.regs.flags.trap = false →
        ∀ vector, (interrupt vector d).2.top = c.beginAgain prefixes) ∧
      (c.cpu.regs.flags.trap = true → d.top = c.beginAgain prefixes) := by
  have rewinds := goesOn.rewinds
  unfold GoesOn at goesOn
  rcases run : (Operation.decode opcode).execute (c.fetched prefixes opcode) with ⟨r, d⟩
  rw [run] at goesOn rewinds
  cases trap : c.cpu.regs.flags.trap with
  | false =>
    refine ⟨_, _, step_code running trap fetches run, fun _ vector => ?_, nofun⟩
    rw [top_interrupt, if_pos goesOn]
    exact rewinds
  | true =>
    have retired : retire opcode c.cpu.regs.flags.trap (c.fetched prefixes opcode) =
        (r.cycles, (interrupt singleStepVector d).2) := by
      rw [trap, retire_trapped run, if_pos goesOn]
    exact ⟨_, _, step_fetches running fetches retired, nofun, fun _ =>
      (top_interrupt singleStepVector d).trans rewinds⟩

/-- An interrupt or a trap at the end of a step of a repeated instruction returns to the first
queued prefix, which is the instruction's first exactly if it has no more than sixteen. -/
theorem repetition_begins_again (running : c.cpu.halted = false)
    (fetches : c.Fetches prefixes opcode) (goesOn : c.GoesOn prefixes opcode) :
    ∃ cycles d, Exec.step c = (some cycles, d) ∧
      (c.cpu.regs.flags.trap = false →
        ∀ vector, (interrupt vector d).2.top = c.beginAgain prefixes) ∧
      (c.cpu.regs.flags.trap = true → d.top = c.beginAgain prefixes) ∧
      (c.cpu.prefixes = .empty →
        (c.beginAgain prefixes = c.cpu.regs.ip ↔ prefixes.length ≤ 16)) := by
  obtain ⟨cycles, d, stepped, interrupted, trapped⟩ := goesOn.step running fetches
  exact ⟨cycles, d, stepped, interrupted, trapped, fun fresh =>
    beginAgain_eq_iff fresh fetches.meets.length_lt⟩

/-- In front of `REP MOVSB` with so many repeat prefixes, and with two bytes to move. -/
def repeating (n : Nat) (trap : Bool) : Core Flat where
  cpu := { regs := { cs := 0, cx := 2, sp := 0x1000, di := 0x200, flags := { trap } } }
  bus := (default : Flat).load 0 (List.replicate n 0xF3 ++ [0xA4])

theorem repetition_begins_again_whole : ∃ cycles d,
    Exec.step (repeating 2 false) = (some cycles, d) ∧ (interrupt 8 d).2.top = 0 := by
  have fetches : (repeating 2 false).Fetches (List.replicate 2 0xF3) 0xA4 := {
    code := by simp [repeating, Flat.CodeAt, Flat.load, Memory.load, Flat.read, Memory.read_write,
      physical]
    queued := by decide
    plain := by decide }
  have goesOn : (repeating 2 false).GoesOn (List.replicate 2 0xF3) 0xA4 := by
    unfold GoesOn
    decide +kernel
  obtain ⟨cycles, d, stepped, interrupted, -, all⟩ := repetition_begins_again rfl fetches goesOn
  exact ⟨cycles, d, stepped, (interrupted rfl 8).trans ((all rfl).mpr (by decide))⟩

theorem repeating_seventeen (trap : Bool) :
    (repeating 17 trap).Fetches (List.replicate 17 0xF3) 0xA4 ∧
    (repeating 17 trap).GoesOn (List.replicate 17 0xF3) 0xA4 := by
  refine ⟨⟨?_, by decide, by decide⟩, ?_⟩
  · simp [repeating, Flat.CodeAt, Flat.load, Memory.load, Flat.read, Memory.read_write, physical,
      List.replicate]
  · unfold GoesOn
    cases trap <;> decide +kernel

/-- Of seventeen prefixes the first is forgotten. Both an interrupt and a trap return to the
second, which is not where the instruction begins. -/
theorem first_prefix_forgotten :
    ((repeating 17 false).Fetches (List.replicate 17 0xF3) 0xA4 ∧
      (repeating 17 false).GoesOn (List.replicate 17 0xF3) 0xA4 ∧
      (repeating 17 false).cpu.regs.ip = 0 ∧
      ∃ cycles d, Exec.step (repeating 17 false) = (some cycles, d) ∧
        (interrupt 8 d).2.top = 1) ∧
    (repeating 17 true).Fetches (List.replicate 17 0xF3) 0xA4 ∧
      (repeating 17 true).GoesOn (List.replicate 17 0xF3) 0xA4 ∧
      (repeating 17 true).cpu.regs.ip = 0 ∧
      ∃ cycles d, Exec.step (repeating 17 true) = (some cycles, d) ∧ d.top = 1 := by
  have second (trap : Bool) : (repeating 17 trap).beginAgain (List.replicate 17 0xF3) = 1 := by
    cases trap <;> decide
  obtain ⟨fetches, goesOn⟩ := repeating_seventeen false
  obtain ⟨cycles, d, stepped, interrupted, -⟩ := goesOn.step rfl fetches
  obtain ⟨fetches', goesOn'⟩ := repeating_seventeen true
  obtain ⟨cycles', d', stepped', -, trapped⟩ := goesOn'.step rfl fetches'
  exact ⟨⟨fetches, goesOn, rfl, cycles, d, stepped, (interrupted rfl 8).trans (second false)⟩,
    fetches', goesOn', rfl, cycles', d', stepped', (trapped rfl).trans (second true)⟩

end Core

end Swan
