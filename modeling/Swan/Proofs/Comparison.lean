import Swan.Cpu.Execute
import Swan.Proofs.Division
import Swan.Proofs.LongBinary

/-! Sums, differences and comparisons, in numbers. An operation that adds or subtracts computes
one integer, whichever way its operands are read: as unsigned numbers, as signed ones, or by
their low digits. The result is that integer modulo the width, and carry, overflow and auxiliary
carry say where it leaves the range of the reading. After a comparison the conditions of a jump
therefore decide how the operands stand to each other, signed as well as unsigned. -/
namespace Swan

def lowOnes {n : Nat} (v : BitVec n) : Nat := (List.range 8).countP v.getLsbD

theorem evenParity_setWidth {n : Nat} (v : BitVec n) :
    evenParity (v.setWidth 8) = decide (2 ∣ lowOnes v) := by
  have ones : (List.range 8).countP (v.setWidth 8).getLsbD = lowOnes v := by
    refine List.countP_congr fun i small => ?_
    rw [BitVec.getLsbD_setWidth, decide_eq_true (List.mem_range.mp small), Bool.true_and]
  rw [evenParity, ones, Bool.eq_iff_iff, beq_iff_eq, decide_eq_true_eq, Nat.dvd_iff_mod_eq_zero]

theorem Width.not_fits_iff {w : Width} {signed : Bool} {n : Int} : ¬ w.Fits signed n ↔
    if signed then n < -(2 ^ (w.bits - 1) : Nat) ∨ (2 ^ (w.bits - 1) : Nat) ≤ n
    else n < 0 ∨ (2 ^ w.bits : Nat) ≤ n := by
  cases w <;> cases signed <;> simp only [Fits, Width.bits, Nat.reduceSub, Nat.reducePow,
    Bool.false_eq_true, if_false, if_true] <;> omega

/-- The flags that tell of a result, after three exact ones: of the unsigned operands, of the
signed operands and of the low digits. -/
def Flags.telling {w : Width} (f : Flags) (r : Operand w) (unsigned signed digit : Int) : Flags :=
  { f with
    carry := decide (¬ w.Fits false unsigned)
    overflow := decide (¬ w.Fits true signed)
    auxCarry := decide (¬ (0 ≤ digit ∧ digit ≤ 15))
    zero := decide (r = 0)
    sign := decide (r.toInt < 0)
    parity := decide (2 ∣ lowOnes r) }

namespace Arithmetic

section Exact

variable {w : Width} (s : Sense) (a b : Operand w) (f : Flags)

/-- An addition or a subtraction that takes in the carry, by what is exact. -/
theorem withCarry_eq :
    let exact := s.exact a.toNat b.toNat f.carry
    let digit := s.exact (a.toNat % 16 : Nat) (b.toNat % 16 : Nat) f.carry
    let r := BitVec.ofInt w.bits exact
    s.withCarry.apply a b f =
      (r, f.telling r exact (s.exact a.toInt b.toInt f.carry) digit) := by
  intro exact digit r
  have longhand := (longhand_binary s w.bits).exact (a, b) f trivial trivial
  obtain ⟨wraps, carry⟩ := s.remainder (s.withCarry.apply a b f).1.isLt longhand
  have result : (s.withCarry.apply a b f).1 = r := by
    refine BitVec.eq_of_toNat_eq (wraps.symm.trans ?_)
    rw [BitVec.toNat_ofInt]
    rfl
  have overflow := withCarry_overflow s w.bits_pos a b f
  have auxCarry : (s.withCarry.apply a b f).2.auxCarry = decide (¬ (0 ≤ digit ∧ digit ≤ 15)) := by
    have wide : 4 < w.bits := by cases w <;> decide
    have out : _ ↔ digit < 0 ∨ 16 ≤ digit := withCarry_auxCarry s wide a b f
    rw [Bool.eq_iff_iff, decide_eq_true_iff, out]
    omega
  have frame : s.withCarry.apply a b f = ((s.withCarry.apply a b f).1,
      { f.describe (s.withCarry.apply a b f).1 with
        carry := (s.withCarry.apply a b f).2.carry
        overflow := (s.withCarry.apply a b f).2.overflow
        auxCarry := (s.withCarry.apply a b f).2.auxCarry }) := by
    cases s <;> rfl
  rw [frame, result, carry, overflow, auxCarry, Flags.describe, Flags.telling,
    evenParity_setWidth, BitVec.msb_eq_toInt]
  simp only [Width.not_fits_iff]
  rfl

variable {a b f}

/-- The same with any carry to take in, and with the exact results under names of their own. -/
theorem told_of (carry : Bool) {unsigned signed digit : Int}
    (unsigned_eq : s.exact a.toNat b.toNat carry = unsigned)
    (signed_eq : s.exact a.toInt b.toInt carry = signed)
    (digit_eq : s.exact (a.toNat % 16 : Nat) (b.toNat % 16 : Nat) carry = digit) :
    s.withCarry.apply a b { f with carry } = (BitVec.ofInt w.bits unsigned,
      f.telling (BitVec.ofInt w.bits unsigned) unsigned signed digit) := by
  subst unsigned_eq signed_eq digit_eq
  exact withCarry_eq s a b { f with carry }

end Exact

/-- The operations that add or subtract. The last three have one operand. -/
inductive SumOp where
  | add | adc | sub | sbb | cmp | increment | decrement | negate
  deriving DecidableEq, Repr

namespace SumOp

def apply {n : Nat} : SumOp → (a b : BitVec n) → Flags → BitVec n × Flags
  | add, a, b => BinaryOp.add.apply a b
  | adc, a, b => BinaryOp.adc.apply a b
  | sub, a, b => BinaryOp.sub.apply a b
  | sbb, a, b => BinaryOp.sbb.apply a b
  | cmp, a, b => BinaryOp.cmp.apply a b
  | increment, a, _ => Arithmetic.increment a
  | decrement, a, _ => Arithmetic.decrement a
  | negate, a, _ => Arithmetic.negate a

def exact (op : SumOp) (a b carry : Int) : Int :=
  match op with
  | add => a + b
  | adc => a + b + carry
  | sub | cmp => a - b
  | sbb => a - b - carry
  | increment => a + 1
  | decrement => a - 1
  | negate => -a

/-- Counting up and down leaves the carry to a loop around it. -/
def keepsCarry : SumOp → Bool
  | increment | decrement => true
  | _ => false

/-- What an operation leaves: its exact result modulo the width, and flags that tell where the
result leaves the range of one of the readings. -/
theorem apply_eq {w : Width} (op : SumOp) (a b : Operand w) (f : Flags) :
    let exact (value : Operand w → Int) := op.exact (value a) (value b) f.carry.toNat
    let unsigned := exact fun v => v.toNat
    let r := BitVec.ofInt w.bits unsigned
    let g := f.telling r unsigned (exact BitVec.toInt) (exact fun v => (v.toNat % 16 : Nat))
    op.apply a b f = (r, if op.keepsCarry then { g with carry := f.carry } else g) := by
  intro exact unsigned r g
  have up {x one : Int} (eq : one = 1) : Sense.sum.exact x one false = x + 1 := by
    rw [eq]
    exact Int.add_zero _
  have down {x one : Int} (eq : one = 1) : Sense.difference.exact x one false = x - 1 := by
    rw [eq]
    exact Int.sub_zero _
  have minus {x zero : Int} (eq : zero = 0) : Sense.difference.exact zero x false = -x := by
    rw [eq, Sense.exact, Int.zero_sub]
    exact Int.sub_zero _
  have unit : ((1 : Operand w).toNat : Int) = 1 ∧ (1 : Operand w).toInt = 1 ∧
      (((1 : Operand w).toNat % 16 : Nat) : Int) = 1 := by cases w <;> decide
  have zero : ((0 : Operand w).toNat : Int) = 0 ∧ (0 : Operand w).toInt = 0 ∧
      (((0 : Operand w).toNat % 16 : Nat) : Int) = 0 := by cases w <;> decide
  cases op with
  | add => exact told_of .sum false (Int.add_zero _) (Int.add_zero _) (Int.add_zero _)
  | adc => exact told_of .sum f.carry rfl rfl rfl
  | sub | cmp => exact told_of .difference false (Int.sub_zero _) (Int.sub_zero _) (Int.sub_zero _)
  | sbb => exact told_of .difference f.carry rfl rfl rfl
  | increment =>
    have told := told_of (a := a) (f := f) .sum false (up unit.1) (up unit.2.1) (up unit.2.2)
    exact congrArg (fun p => (p.1, { p.2 with carry := f.carry })) told
  | decrement =>
    have told := told_of (a := a) (f := f) .difference false (down unit.1) (down unit.2.1)
      (down unit.2.2)
    exact congrArg (fun p => (p.1, { p.2 with carry := f.carry })) told
  | negate => exact told_of .difference false (minus zero.1) (minus zero.2.1) (minus zero.2.2)

end SumOp

end Arithmetic

open Arithmetic

def compared {w : Width} (a b : Operand w) : (question : Nat) → Bool
  | 0 => decide (¬ w.Fits true (a.toInt - b.toInt))
  | 1 => decide (a.toNat < b.toNat)
  | 2 => decide (a = b)
  | 3 => decide (a.toNat ≤ b.toNat)
  | 4 => decide ((a - b).toInt < 0)
  | 5 => decide (2 ∣ lowOnes (a - b))
  | 6 => decide (a.toInt < b.toInt)
  | _ => decide (a.toInt ≤ b.toInt)

section Compared

variable {w : Width} (a b : Operand w)

theorem ofInt_difference : BitVec.ofInt w.bits ((a.toNat : Int) - b.toNat) = a - b := by
  rw [Int.sub_eq_add_neg, BitVec.ofInt_add, BitVec.ofInt_neg, BitVec.ofInt_natCast,
    BitVec.ofInt_natCast, BitVec.ofNat_toNat, BitVec.ofNat_toNat, BitVec.setWidth_eq,
    BitVec.setWidth_eq, BitVec.sub_eq_add_neg]

/-- The sign of a signed difference is that of its bits, unless the difference does not fit. -/
theorem toInt_lt_iff : a.toInt < b.toInt ↔
    ((a - b).toInt < 0 ↔ w.Fits true (a.toInt - b.toInt)) := by
  have ha : w.Fits true a.toInt := Width.fits_number true a
  have hb : w.Fits true b.toInt := Width.fits_number true b
  rw [BitVec.toInt_sub]
  generalize a.toInt = x at *
  generalize b.toInt = y at *
  cases w <;> simp only [Width.Fits, Width.bits, Int.bmod] at * <;> omega

/-- The flags of a comparison, by what they say of its operands. -/
theorem cmp_flags (f : Flags) :
    let g := (BinaryOp.cmp.apply a b f).2
    g.carry = decide (a.toNat < b.toNat) ∧
    g.overflow = decide (¬ w.Fits true (a.toInt - b.toInt)) ∧
    g.zero = decide (a = b) ∧
    g.sign = decide ((a - b).toInt < 0) ∧
    g.parity = decide (2 ∣ lowOnes (a - b)) := by
  have told := congrArg Prod.snd (SumOp.apply_eq .cmp a b f)
  simp only [SumOp.apply, SumOp.exact, SumOp.keepsCarry, Bool.false_eq_true, if_false,
    ofInt_difference] at told
  rw [told]
  have equal : a - b = 0 ↔ a = b := by simp [BitVec.sub_eq_iff_eq_add]
  refine ⟨decide_eq_decide.mpr ?_, rfl, decide_eq_decide.mpr equal, rfl, rfl⟩
  have ha := Width.fits_number false a
  have hb := Width.fits_number false b
  cases w <;> simp only [Width.Fits, number, Bool.false_eq_true, if_false] at * <;> omega

/-- The conditions of even index ask what their flags have been made to tell, and those of odd
index the opposite. -/
theorem holds_cmp (c : Condition) (f : Flags) :
    c.holds (BinaryOp.cmp.apply a b f).2 = (compared a b c.test.toNat != c.negated) := by
  obtain ⟨carry, overflow, zero, sign, parity⟩ := cmp_flags a b f
  have less : decide (a.toInt < b.toInt) =
      (decide ((a - b).toInt < 0) != decide (¬ w.Fits true (a.toInt - b.toInt))) := by
    rw [Bool.eq_iff_iff, decide_eq_true_iff, toInt_lt_iff]
    by_cases fits : w.Fits true (a.toInt - b.toInt) <;> simp [fits]
  have unsigned : decide (a.toNat ≤ b.toNat) = (decide (a.toNat < b.toNat) || decide (a = b)) := by
    rw [← Bool.decide_or, decide_eq_decide, Nat.le_iff_lt_or_eq, BitVec.toNat_inj]
  have signed : decide (a.toInt ≤ b.toInt) = (decide (a = b) || decide (a.toInt < b.toInt)) := by
    rw [← Bool.decide_or, decide_eq_decide, Int.le_iff_eq_or_lt, BitVec.toInt_inj]
  refine congrArg (· != c.negated) ?_
  simp only [carry, overflow, zero, sign, parity]
  generalize c.test.toNat = question
  rcases question with _ | _ | _ | _ | _ | _ | _ | question
  case succ.succ.succ.zero => exact unsigned.symm
  case succ.succ.succ.succ.succ.succ.zero => exact less.symm
  case succ.succ.succ.succ.succ.succ.succ =>
    rw [← less]
    exact signed.symm
  all_goals rfl

end Compared

def Flags.resultMask : Word := 0x08D5

/-- The other bits are the fixed ones and those of the control flags. -/
theorem Flags.toWord_control {f g : Flags} (same : StringOp.SameControl g f) :
    g.toWord &&& ~~~ resultMask = f.toWord &&& ~~~ resultMask := by
  have control (f : Flags) : f.toWord &&& ~~~ resultMask = 0xF002 ||| toWord.mask f.trap 0x0100 |||
      toWord.mask f.interrupt 0x0200 ||| toWord.mask f.direction 0x0400 := by
    obtain ⟨c, p, a, z, s, t, i, d, o⟩ := f
    revert c p a z s t i d o
    decide +kernel
  rw [control, control, same.trap, same.interrupt, same.direction]

theorem Condition.holds_odd (i : BitVec 3) (f : Flags) :
    (ofIndex (i ++ 1#1)).holds f = !(ofIndex (i ++ 0#1)).holds f := by
  have index : ofIndex (i ++ 1#1) = ⟨i, true⟩ ∧ ofIndex (i ++ 0#1) = ⟨i, false⟩ := by
    revert i
    decide
  rw [index.1, index.2, holds, holds]
  exact (Bool.bne_true _).trans (congrArg (! ·) (Bool.bne_false _).symm)

theorem decode_jumpIf (cc : BitVec 4) :
    Operation.decode (0x70 + cc.setWidth 8) = .jumpIf (.ofIndex cc) := by
  revert cc
  decide +kernel

theorem Exec.jumpIf_ip {β : Type} [Bus β] (condition : Condition) (c : Core β) :
    (jumpIf condition c).2.cpu.regs.ip = c.cpu.regs.ip + 1 +
      if condition.holds c.cpu.regs.flags then
        Word.ofSigned (Bus.read c.bus c.cpu.regs.codeAddress).1 else 0 := by
  rw [jumpIf, bind_apply, bind_apply]
  change (branch (condition.holds c.cpu.regs.flags) _ 4 1 (fetchByte c).2).2.cpu.regs.ip = _
  cases condition.holds c.cpu.regs.flags with
  | true => rfl
  | false => exact (BitVec.add_zero _).symm

namespace Arithmetic.SumOp

/-- What an operation that adds or subtracts leaves. The exact results of the unsigned operands,
of the signed ones and of their low digits tell the flags. -/
structure Settles {w : Width} (op : SumOp) (a b : Operand w) (f : Flags) (r : Operand w)
    (g : Flags) : Prop where
  result : r = BitVec.ofInt w.bits (op.exact a.toNat b.toNat f.carry.toNat)
  carry : g.carry = if op.keepsCarry then f.carry else
    decide (¬ w.Fits false (op.exact a.toNat b.toNat f.carry.toNat))
  overflow : g.overflow = decide (¬ w.Fits true (op.exact a.toInt b.toInt f.carry.toNat))
  auxCarry : let digit := op.exact (a.toNat % 16 : Nat) (b.toNat % 16 : Nat) f.carry.toNat
    g.auxCarry = decide (¬ (0 ≤ digit ∧ digit ≤ 15))
  zero : g.zero = decide (r = 0)
  sign : g.sign = decide (r.toInt < 0)
  parity : g.parity = decide (2 ∣ lowOnes r)
  others : g.toWord &&& ~~~ Flags.resultMask = f.toWord &&& ~~~ Flags.resultMask

theorem settles {w : Width} (op : SumOp) (a b : Operand w) (f : Flags) :
    op.Settles a b f (op.apply a b f).1 (op.apply a b f).2 := by
  rw [apply_eq]
  constructor
  case result => rfl
  case others => exact Flags.toWord_control (by split <;> exact ⟨rfl, rfl, rfl⟩)
  all_goals split <;> rfl

end Arithmetic.SumOp

/-- Comparisons and jumps agree. After a comparison the conditions are those of the operands,
unsigned and signed, and a jump goes by them. Each operation leaves its exact result and flags that
tell of it. -/
theorem comparison_decides {w : Width} (a b : Operand w) (f : Flags) :
    (∀ cc : BitVec 4,
      let answer := compared a b (cc.toNat / 2) != cc.getLsbD 0
      (Condition.ofIndex cc).holds (BinaryOp.cmp.apply a b f).2 = answer ∧
      (Condition.ofIndex cc).holds (BinaryOp.sub.apply a b f).2 = answer ∧
      Operation.decode (0x70 + cc.setWidth 8) = .jumpIf (.ofIndex cc) ∧
      ∀ {β : Type} [Bus β] (c : Core β),
        let d := (Exec.withFlags (BinaryOp.cmp.apply a b) c).2
        (Exec.jumpIf (.ofIndex cc) d).2.cpu.regs.ip = c.cpu.regs.ip + 1 +
          if answer then Word.ofSigned (Bus.read c.bus c.cpu.regs.codeAddress).1 else 0) ∧
    (∀ (i : BitVec 3) (g : Flags), (Condition.ofIndex (i ++ 1#1)).holds g =
      !(Condition.ofIndex (i ++ 0#1)).holds g) ∧
    ∀ op : SumOp, op.Settles a b f (op.apply a b f).1 (op.apply a b f).2 := by
  refine ⟨fun cc => ?_, Condition.holds_odd, fun op => op.settles a b f⟩
  have test : (Condition.ofIndex cc).test.toNat = cc.toNat / 2 := by
    revert cc
    decide
  have answer (f : Flags) := holds_cmp a b (.ofIndex cc) f
  rw [test] at answer
  refine ⟨answer f, answer f, decode_jumpIf cc, fun c => ?_⟩
  refine (Exec.jumpIf_ip _ _).trans ?_
  change _ + (if (Condition.ofIndex cc).holds (BinaryOp.cmp.apply a b c.cpu.regs.flags).2 then _
    else _) = _
  rw [answer]
  rfl

end Swan
