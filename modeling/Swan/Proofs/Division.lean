import Swan.Proofs.FlagDiscipline
import Swan.Proofs.InterruptReturn

/-! Division, in numbers. A divider is asked for the quotient of two numbers, rounded toward
zero, and for what remains. If an operand can hold that quotient, the accumulator holds it and
the remainder afterward, and nothing else is different. If it cannot, or the divisor is zero,
vector 0 is entered with the accumulator as it was. -/
namespace Swan

def number {n : Nat} (signed : Bool) (v : BitVec n) : Int := if signed then v.toInt else v.toNat

theorem number_eq_zero {n : Nat} {signed : Bool} {v : BitVec n} : number signed v = 0 ↔ v = 0 := by
  constructor
  · intro zero
    cases signed with
    | false => exact BitVec.eq_of_toNat_eq (by simpa [number] using zero)
    | true => exact BitVec.eq_of_toInt_eq (by simpa [number] using zero)
  · rintro rfl
    cases signed <;> simp [number]

def Width.Fits (w : Width) (signed : Bool) (n : Int) : Prop :=
  match w, signed with
  | byte, false => 0 ≤ n ∧ n ≤ 255
  | byte, true => -128 ≤ n ∧ n ≤ 127
  | word, false => 0 ≤ n ∧ n ≤ 65535
  | word, true => -32768 ≤ n ∧ n ≤ 32767

instance (w : Width) (signed : Bool) (n : Int) : Decidable (w.Fits signed n) :=
  match w, signed with
  | .byte, false | .byte, true | .word, false | .word, true => inferInstanceAs (Decidable (_ ∧ _))

/-- A number fits if its bits stand for it again. -/
theorem Width.fits_iff {w : Width} {signed : Bool} {n : Int} :
    w.Fits signed n ↔ number signed (BitVec.ofInt w.bits n) = n := by
  cases w <;> cases signed <;>
    simp only [Fits, number, Width.bits, BitVec.toNat_ofInt, BitVec.toInt_ofInt, Int.bmod,
      Bool.false_eq_true, if_true, if_false] <;>
    omega

theorem Width.Fits.wide {w : Width} {signed : Bool} {n : Int} (fits : w.Fits signed n) :
    WideFits signed n := by
  cases w <;> cases signed <;> simp only [Fits, WideFits] at * <;> omega

namespace Arithmetic

def divide? {w : Width} (signed : Bool) (dividend : BitVec (2 * w.bits)) (v : Operand w) :
    Option (Operand w × Operand w) :=
  if signed then idiv? dividend.toInt v else div? dividend.toNat v

theorem divide?_host {w : Width} (signed : Bool) (dividend : BitVec (2 * w.bits))
    (v : Operand w) : divide? signed dividend v =
      match wideDivide? signed (number signed dividend) (number signed v) with
      | none => none
      | some (quotient, remainder) =>
        if number signed (BitVec.ofInt w.bits quotient) ≠ quotient then none
        else some (BitVec.ofInt w.bits quotient, BitVec.ofInt w.bits remainder) := by
  cases signed <;> rfl

theorem divide?_eq {w : Width} (signed : Bool) (dividend : BitVec (2 * w.bits)) (v : Operand w) :
    let a := number signed dividend
    let d := number signed v
    divide? signed dividend v =
      if d ≠ 0 ∧ w.Fits signed (a.tdiv d) then
        some (BitVec.ofInt w.bits (a.tdiv d), BitVec.ofInt w.bits (a.tmod d))
      else none := by
  intro a d
  rw [divide?_host, wideDivide?]
  by_cases answered : d ≠ 0 ∧ WideFits signed (a.tdiv d)
  · rw [if_pos answered]
    simp only [answered.1, ne_eq, not_false_eq_true, true_and, Width.fits_iff, ite_not]
    rfl
  · have out : ¬(d ≠ 0 ∧ w.Fits signed (a.tdiv d)) := fun fits =>
      answered ⟨fits.1, fits.2.wide⟩
    rw [if_neg answered, if_neg out]

end Arithmetic

theorem wideFits_number {w : Width} (signed : Bool) (v : BitVec (2 * w.bits)) :
    WideFits signed (number signed v) := by
  cases signed with
  | false =>
    have bound := v.isLt
    cases w <;> simp only [WideFits, number, Width.bits, Bool.false_eq_true, if_false] at * <;> omega
  | true =>
    have upper := v.toInt_lt
    have lower := v.le_toInt
    cases w <;> simp only [WideFits, number, Width.bits, if_true] at * <;> omega

/-- Of the quotients of such numbers one is out of range. -/
theorem wideFits_tdiv {signed : Bool} {a d : Int} (fits : WideFits signed a) (nonzero : d ≠ 0)
    (divisor : signed = false → 0 ≤ d) :
    WideFits signed (a.tdiv d) ↔ ¬(a = -2147483648 ∧ d = -1) := by
  cases signed with
  | false =>
    have nonneg := divisor rfl
    have lower := Int.tdiv_nonneg fits.1 nonneg
    have upper := Int.tdiv_le_self d fits.1
    exact iff_of_true ⟨lower, Int.le_trans upper fits.2⟩ (by omega)
  | true =>
    have range : -2147483648 ≤ a ∧ a ≤ 2147483647 := fits
    by_cases one : d = 1
    · rw [one, Int.tdiv_one]
      exact iff_of_true fits (by omega)
    by_cases minus : d = -1
    · rw [minus, Int.tdiv_neg, Int.tdiv_one]
      simp only [WideFits, and_true]
      omega
    · have half : (a.tdiv d).natAbs ≤ a.natAbs / 2 := by
        rw [Int.natAbs_tdiv]
        exact Nat.div_le_div_left (by omega) (by decide)
      have bounds : -2147483648 ≤ a.tdiv d ∧ a.tdiv d ≤ 2147483647 := by omega
      exact iff_of_true bounds fun last => minus last.2

theorem wideDivide?_eq_none {signed : Bool} {a d : Int} (fits : WideFits signed a)
    (divisor : signed = false → 0 ≤ d) :
    wideDivide? signed a d = none ↔ d = 0 ∨ a = -2147483648 ∧ d = -1 := by
  by_cases zero : d = 0
  · simp [wideDivide?, zero]
  · simp [wideDivide?, zero, wideFits_tdiv fits zero divisor]

/-- What an operand can hold is in the range of the host. -/
theorem Width.fits_number {w : Width} (signed : Bool) (v : Operand w) :
    w.Fits signed (number signed v) := by
  rw [fits_iff]
  cases signed <;> simp [number]

/-- A remainder is smaller than its divisor, so an operand can hold it as well. -/
theorem Width.fits_tmod {w : Width} {signed : Bool} {a d : Int} (dividend : signed = false → 0 ≤ a)
    (divisor : w.Fits signed d) (nonzero : d ≠ 0) : w.Fits signed (a.tmod d) := by
  have small : (a.tmod d).natAbs < d.natAbs := by
    rw [Int.natAbs_tmod]
    exact Nat.mod_lt _ (by omega)
  cases signed with
  | false =>
    have nonneg := Int.tmod_nonneg d (dividend rfl)
    cases w <;> simp only [Fits] at * <;> omega
  | true => cases w <;> simp only [Fits] at * <;> omega

def Width.divisionOpcode : Width → Byte
  | byte => 0xF6
  | word => 0xF7

/-- Where a remainder goes: AH or DX. The quotient goes to AL or AX, which is register 0. -/
def Width.remainderRegister : Width → BitVec 3
  | byte => 4
  | word => 2

theorem Registers.operand_setQuotient (w : Width) (quotient remainder : Operand w) (r : Registers) :
    (Exec.setQuotient w quotient remainder r).operand w 0 = quotient ∧
    (Exec.setQuotient w quotient remainder r).operand w w.remainderRegister = remainder := by
  cases w with
  | byte => exact ⟨Word.low_ofBytes _ _, Word.high_ofBytes _ _⟩
  | word => exact ⟨rfl, rfl⟩

namespace Core

structure Divides (w : Width) (signed : Bool) (a d : Int) (next : Word) (c e : Core Flat) :
    Prop where
  regs : e.cpu.regs = Exec.setQuotient w (e.cpu.regs.operand w 0)
    (e.cpu.regs.operand w w.remainderRegister) { c.cpu.regs with ip := next }
  bus : e.bus = c.bus
  quotient : number signed (e.cpu.regs.operand w 0) = a.tdiv d
  sum : a = number signed (e.cpu.regs.operand w 0) * d +
    number signed (e.cpu.regs.operand w w.remainderRegister)
  small : (number signed (e.cpu.regs.operand w w.remainderRegister)).natAbs < d.natAbs
  sign : number signed (e.cpu.regs.operand w w.remainderRegister) = 0 ∨
    (number signed (e.cpu.regs.operand w w.remainderRegister)).sign = a.sign

/-- A division that does not come out: vector 0 is entered, with one frame on the stack. -/
structure Faults (next : Word) (c e : Core Flat) : Prop where
  regs : e.cpu.regs = { c.cpu.regs with
    sp := c.cpu.regs.sp - 6
    flags := { c.cpu.regs.flags with interrupt := false, trap := false }
    ip := e.bus.get .word 0 0
    cs := e.bus.get .word 0 2 }
  bus : c.bus.AgreeOff c.cpu.regs.stackFrame e.bus
  flags : e.bus.get .word c.cpu.regs.ss (c.cpu.regs.sp - 2) = c.cpu.regs.flags.toWord
  cs : e.bus.get .word c.cpu.regs.ss (c.cpu.regs.sp - 4) = c.cpu.regs.cs
  ip : e.bus.get .word c.cpu.regs.ss (c.cpu.regs.sp - 6) = next

/-- The stack pointer tells the two apart. -/
theorem Divides.not_faults {w : Width} {signed : Bool} {a d : Int} {next : Word} {c e : Core Flat}
    (divides : Divides w signed a d next c e) : ¬ Faults next c e := by
  intro faults
  have stays : e.cpu.regs.sp = c.cpu.regs.sp := by
    rw [divides.regs]
    cases w <;> rfl
  have moves : e.cpu.regs.sp = c.cpu.regs.sp - 6 := by rw [faults.regs]
  bv_omega

end Core

namespace Exec

open Arithmetic

variable {β : Type} [Bus β] [Viewed β] {c : Core β} {operands : List Byte}

/-- A dividing member has read its operand, and gone past its operand bytes, before it divides. -/
theorem group3_divides {w : Width} {signed : Bool} (here : c.At operands)
    (size : operands.length = 1 + (leadingModRM operands).displacement.size +
      (Operation.group3 w).immediateSize (leadingModRM operands).reg)
    (member : (leadingModRM operands).reg = if signed then 7 else 6) :
    let v := (leadingPlace c.cpu.regs c.cpu.prefixes operands).value (Viewed.view c.bus) c.cpu.regs w
    ∃ d, c.Skips operands.length d ∧ (group3 w c).2 =
      (finishDivision w (divide? signed (wideAccumulator c.cpu.regs w) v) d).2 := by
  obtain ⟨modRM, bytes, rest, rfl, short, immediate⟩ :=
    split_modRM (n := fun reg => (Operation.group3 w).immediateSize reg) size
  obtain ⟨d, takes, next⟩ := takes_modRM short here
  simp only [leadingModRM, List.headD_cons] at member
  rw [leadingPlace_cons _ _ short]
  unfold group3
  rw [bind_apply, takes.answer]
  dsimp only
  rw [member] at immediate ⊢
  generalize (ModRM.ofByte modRM).place c.cpu.regs c.cpu.prefixes bytes = rm at *
  obtain ⟨e, read, -⟩ := takes_readAt w rm next
  have skips := takes.skips.trans read.skips
  have dividend : wideAccumulator e.cpu.regs w = wideAccumulator c.cpu.regs w := by
    rw [skips.cpu]
    exact wideAccumulator_moved _ _ w
  have last : rest = [] := by
    cases signed <;> exact List.length_eq_zero_iff.mp immediate
  subst last
  refine ⟨e, by simpa using skips, ?_⟩
  rw [bind_apply, read.answer, takes.skips.value, ← dividend]
  cases signed <;> rfl

section Outcomes

variable {w : Width} {signed : Bool} {dividend : BitVec (2 * w.bits)} {v : Operand w} {next : Word}
  {c d e : Core Flat} (regs : d.cpu.regs = { c.cpu.regs with ip := next }) (bus : d.bus = c.bus)
  (regsAfter : e.cpu.regs = (finishDivision w (divide? signed dividend v) d).2.cpu.regs)
  (busAfter : e.bus = (finishDivision w (divide? signed dividend v) d).2.bus)

include regs bus regsAfter busAfter

theorem finishDivision_divides (comesOut : number signed v ≠ 0 ∧
      w.Fits signed ((number signed dividend).tdiv (number signed v))) :
    Core.Divides w signed (number signed dividend) (number signed v) next c e := by
  rw [divide?_eq, if_pos comesOut] at regsAfter busAfter
  obtain ⟨nonzero, fits⟩ := comesOut
  have nonneg : signed = false → 0 ≤ number signed dividend := by
    rintro rfl
    exact Int.natCast_nonneg _
  have rest := Width.fits_tmod nonneg (Width.fits_number signed v) nonzero
  rw [Width.fits_iff] at fits rest
  generalize number signed dividend = a at *
  generalize number signed v = b at *
  obtain ⟨low, high⟩ := Registers.operand_setQuotient w (BitVec.ofInt w.bits (a.tdiv b))
    (BitVec.ofInt w.bits (a.tmod b)) d.cpu.regs
  change e.cpu.regs = setQuotient w _ _ d.cpu.regs at regsAfter
  rw [← regsAfter] at low high
  constructor
  case regs => rw [low, high, regsAfter, regs]
  case bus => exact busAfter.trans bus
  case quotient => rw [low, fits]
  case sum =>
    rw [low, high, fits, rest]
    exact (Int.tdiv_mul_add_tmod a b).symm
  case small =>
    rw [high, rest, Int.natAbs_tmod]
    exact Nat.mod_lt _ (by omega)
  case sign =>
    rw [high, rest, Int.sign_tmod]
    by_cases whole : b ∣ a
    · exact .inl (Int.tmod_eq_zero_of_dvd whole)
    · exact .inr (if_neg whole)

theorem finishDivision_faults (comesOut : ¬(number signed v ≠ 0 ∧
      w.Fits signed ((number signed dividend).tdiv (number signed v)))) :
    Core.Faults next c e := by
  rw [divide?_eq, if_neg comesOut, finishDivision, enterInterrupt_eq] at regsAfter busAfter
  obtain ⟨ip, cs, flags⟩ := d.bus.get_pushFrame d.cpu.regs d.cpu.regs.ip
  have frame := d.bus.pushFrame_agree d.cpu.regs d.cpu.regs.ip
  dsimp only at regsAfter busAfter
  rw [← busAfter] at ip cs flags frame regsAfter
  rw [regs] at ip cs flags frame regsAfter
  rw [bus] at frame
  exact ⟨regsAfter, frame, flags, cs, ip⟩

end Outcomes

/-- A division of a running processor that is not traced returns. It divides exactly when the
divisor is not zero and an operand holds the quotient, and otherwise enters vector 0 with the
accumulator as it was. -/
theorem divides_or_faults {c : Core Flat} {w : Width} (signed : Bool)
    {prefixes operands : List Byte}
    (running : c.cpu.halted = false) (untrapped : c.cpu.regs.flags.trap = false)
    (holds : c.Holds prefixes w.divisionOpcode operands)
    (member : (leadingModRM operands).reg = if signed then 7 else 6) :
    let r := c.cpu.regs
    let rm := leadingPlace r (c.cpu.prefixes.pushAll prefixes) operands
    let a := number signed (wideAccumulator r w)
    let d := number signed (rm.value c.bus.read r w)
    let next := r.ip + BitVec.ofNat 16 (prefixes.length + 1 + operands.length)
    let comesOut := d ≠ 0 ∧ w.Fits signed (a.tdiv d)
    (∃ cycles, (step c).1 = some cycles) ∧
    (Core.Divides w signed a d next c (step c).2 ↔ comesOut) ∧
    (Core.Faults next c (step c).2 ↔ ¬comesOut) ∧
    (wideDivide? signed a d = none ↔ d = 0 ∨ a = -2147483648 ∧ d = -1) ∧
    (wideDivide? signed a d = none → Core.Faults next c (step c).2) := by
  intro r rm a d next comesOut
  obtain ⟨e, starts⟩ := step_starts running untrapped holds
  have decoded : Operation.decode w.divisionOpcode = .group3 w := by cases w <;> decide
  have size := holds.size_decode
  rw [decoded] at size
  obtain ⟨f, skips, divided⟩ := group3_divides starts.here size member
  have regs : f.cpu.regs = { r with ip := next } := by
    rw [skips.cpu]
    simp only [Core.moveTo, starts.regs, next, BitVec.ofNat_add, BitVec.add_assoc]
    rfl
  have bus : f.bus = c.bus := skips.bus.flat.trans starts.bus.flat
  have dividend : wideAccumulator e.cpu.regs w = wideAccumulator r w := by
    rw [starts.regs]
    exact wideAccumulator_moved r _ w
  have divisor : (leadingPlace e.cpu.regs e.cpu.prefixes operands).value (Viewed.view e.bus)
      e.cpu.regs w = rm.value c.bus.read r w := by
    rw [starts.regs, starts.queue, starts.bus.view]
    exact rm.value_moved c.bus.read r _ w
  rw [dividend, divisor] at divided
  have regsAfter := starts.regsAfter
  have busAfter := starts.busAfter
  rw [decoded] at regsAfter busAfter
  change _ = (group3 w e).2.cpu.regs at regsAfter
  change _ = (group3 w e).2.bus at busAfter
  rw [divided] at regsAfter busAfter
  have divides : comesOut → Core.Divides w signed a d next c (step c).2 :=
    finishDivision_divides regs bus regsAfter busAfter
  have faults : ¬comesOut → Core.Faults next c (step c).2 :=
    finishDivision_faults regs bus regsAfter busAfter
  refine ⟨starts.returns, ⟨fun done => ?_, divides⟩, ⟨fun entered out => ?_, faults⟩, ?_, ?_⟩
  · exact Classical.byContradiction fun out => done.not_faults (faults out)
  · exact (divides out).not_faults entered
  · refine wideDivide?_eq_none (wideFits_number signed _) ?_
    rintro rfl
    exact Int.natCast_nonneg _
  · intro unanswered
    refine faults fun out => ?_
    rw [wideDivide?, if_pos ⟨out.1, out.2.wide⟩] at unanswered
    cases unanswered

/-- A signed division by CL or CX, in the first bytes of memory. -/
def dividing (opcode : Byte) (r : Registers) : Core Flat :=
  ⟨{ regs := { r with cs := 0, ip := 0 } }, (default : Flat).load 0 [opcode, 0xF9]⟩

/-- The least quotient there is, with a remainder, and the one quotient of thirty-two bit
numbers that is out of their range. -/
theorem divides_or_faults_extremes :
    Core.Divides .byte true (-16300) 127 2 (dividing 0xF6 { ax := 0xC054, cx := 0x7F })
      (step (dividing 0xF6 { ax := 0xC054, cx := 0x7F })).2 ∧
    Core.Faults 2 (dividing 0xF7 { dx := 0x8000, cx := 0xFFFF })
      (step (dividing 0xF7 { dx := 0x8000, cx := 0xFFFF })).2 := by
  have code (opcode : Byte) (r : Registers) : (dividing opcode r).At [opcode, 0xF9] := by
    simp [dividing, Core.At, Codes, Viewed.view, Flat.load, Memory.load, Flat.read,
      Memory.read_write, physical]
  have byteDivision : (dividing 0xF6 { ax := 0xC054, cx := 0x7F }).Holds []
      Width.byte.divisionOpcode [0xF9] := ⟨code _ _, by decide, by decide, by decide⟩
  have wordDivision : (dividing 0xF7 { dx := 0x8000, cx := 0xFFFF }).Holds []
      Width.word.divisionOpcode [0xF9] := ⟨code _ _, by decide, by decide, by decide⟩
  obtain ⟨-, divides, -⟩ := divides_or_faults true rfl rfl byteDivision (by decide)
  obtain ⟨-, -, -, unanswered, faults⟩ :=
    divides_or_faults true rfl rfl wordDivision (by decide)
  exact ⟨divides.mpr (by decide), faults (unanswered.mpr (by decide))⟩

end Exec

end Swan
