import Mathlib.Tactic.LinearCombination
import Mathlib.Tactic.Linarith
import Swan.Arithmetic.Sum

/-! What a sum and a difference leave, told in numbers. The carry flag is worth one more
digit, so nothing of the exact result is lost. Overflow asks the same of the signed operands,
and the auxiliary carry of their low digits. A difference leaves the flags of the sum that
takes it back to where it came from, so what is shown of sums carries over. -/
namespace Swan.Arithmetic

variable {n : Nat} (a b : BitVec n) (c : Bool) (f : Flags)

theorem add_exact :
    (add a b c f).1.toNat + 2 ^ n * (add a b c f).2.carry.toNat = a.toNat + b.toNat + c.toNat := by
  have ha := a.isLt
  have hb := b.isLt
  have hc := c.toNat_le
  simp only [add, BitVec.carry, BitVec.toNat_add, BitVec.toNat_ofNat, Nat.mod_add_mod,
    Nat.add_mod_mod, Nat.mod_eq_of_lt ha, Nat.mod_eq_of_lt hb]
  by_cases beyond : 2 ^ n ≤ a.toNat + b.toNat + c.toNat
  · rw [decide_eq_true beyond, Nat.mod_eq_sub_mod beyond, Nat.mod_eq_of_lt (by omega), Bool.toNat_true]
    omega
  · rw [decide_eq_false beyond, Nat.mod_eq_of_lt (by omega), Bool.toNat_false, Nat.mul_zero,
      Nat.add_zero]

/-- The subtrahend and the borrow take a difference back to where it came from. -/
theorem add_sub_fst : (add (sub a b c f).1 b c f).1 = a := by
  simp only [add, sub]
  rw [BitVec.sub_sub, BitVec.add_assoc, BitVec.sub_add_cancel]

theorem sub_flags :
    let sum := (add (sub a b c f).1 b c f).2
    (sub a b c f).2.carry = sum.carry ∧ (sub a b c f).2.overflow = sum.overflow ∧
      (sub a b c f).2.auxCarry = sum.auxCarry := by
  have back := add_sub_fst a b c f
  have exact := add_exact (sub a b c f).1 b c f
  rw [back] at exact
  refine ⟨?_, ?_, ?_⟩
  · have ha := a.isLt
    have hr := (sub a b c f).1.isLt
    change decide (a.toNat < b.toNat + c.toNat) = _
    generalize (add (sub a b c f).1 b c f).2.carry = carry at *
    generalize 2 ^ n = M at *
    cases carry <;> simp at * <;> omega
  · change ((a ^^^ b) &&& (a ^^^ (sub a b c f).1)).msb =
      (((sub a b c f).1 ^^^ (add (sub a b c f).1 b c f).1) &&&
        (b ^^^ (add (sub a b c f).1 b c f).1)).msb
    rw [back, BitVec.and_comm, BitVec.xor_comm a, BitVec.xor_comm a]
  · change (a ^^^ b ^^^ (sub a b c f).1).getLsbD 4 =
      ((sub a b c f).1 ^^^ b ^^^ (add (sub a b c f).1 b c f).1).getLsbD 4
    rw [back, BitVec.xor_comm, BitVec.xor_comm a, BitVec.xor_assoc]

/-- What is borrowed is paid back by the digit above. -/
theorem sub_exact :
    a.toNat + 2 ^ n * (sub a b c f).2.carry.toNat = (sub a b c f).1.toNat + b.toNat + c.toNat := by
  have exact := add_exact (sub a b c f).1 b c f
  rwa [add_sub_fst, ← (sub_flags a b c f).1] at exact

section Signed

variable {m : Nat} (v : BitVec (m + 1))

/-- The sign bit of a number counts what it takes away. -/
theorem toInt_eq_sub_msb : v.toInt = v.toNat - 2 * (2 ^ m : Nat) * v.msb.toNat := by
  rw [BitVec.toInt_eq_msb_cond, Nat.pow_succ]
  cases v.msb
  · simp
  · simp [Int.mul_comm]

theorem msb_eq_decide_half : v.msb = decide (2 ^ m ≤ v.toNat) ∧ v.toNat < 2 * 2 ^ m := by
  have bound := v.isLt
  rw [Nat.pow_succ, Nat.mul_comm] at bound
  exact ⟨by rw [BitVec.msb_eq_decide, Nat.add_sub_cancel], bound⟩

theorem toInt_range : -(2 ^ m : Nat) ≤ v.toInt ∧ v.toInt < (2 ^ m : Nat) := by
  obtain ⟨sign, bound⟩ := msb_eq_decide_half v
  rw [toInt_eq_sub_msb]
  generalize v.msb = negative at *
  generalize 2 ^ m = half at *
  cases negative <;> simp at sign ⊢ <;> omega

end Signed

theorem add_overflow (some : 0 < n) :
    (add a b c f).2.overflow = decide (a.toInt + b.toInt + c.toNat < -(2 ^ (n - 1) : Nat) ∨
      (2 ^ (n - 1) : Nat) ≤ a.toInt + b.toInt + c.toNat) := by
  obtain ⟨m, rfl⟩ := Nat.exists_eq_add_one_of_ne_zero (Nat.ne_of_gt some)
  have exact := add_exact a b c f
  have overflow : (add a b c f).2.overflow =
      ((a.msb ^^ (add a b c f).1.msb) && (b.msb ^^ (add a b c f).1.msb)) := by
    simp [add]
  have hc := c.toNat_le
  obtain ⟨sa, ha⟩ := msb_eq_decide_half a
  obtain ⟨sb, hb⟩ := msb_eq_decide_half b
  obtain ⟨sr, hr⟩ := msb_eq_decide_half (add a b c f).1
  rw [overflow, toInt_eq_sub_msb, toInt_eq_sub_msb, Nat.add_sub_cancel]
  rw [Nat.pow_succ] at exact
  generalize (add a b c f).2.carry = carry at *
  generalize (add a b c f).1.toNat = r at *
  generalize (add a b c f).1.msb = rs at *
  generalize a.msb = as at *
  generalize b.msb = bs at *
  generalize 2 ^ m = half at *
  cases as <;> cases bs <;> cases rs <;> cases carry <;> simp at * <;> omega

/-- Of all numbers that end in the same bits one is in range. -/
theorem out_of_range_iff {half x t : Int} (low : -half ≤ x) (high : x < half) :
    x + 2 * half * t < -half ∨ half ≤ x + 2 * half * t ↔ t ≠ 0 := by
  constructor
  · rintro out rfl
    omega
  · intro nonzero
    rcases Int.lt_or_gt_of_ne nonzero with below | above
    · exact .inl (by nlinarith)
    · exact .inr (by nlinarith)

/-- It is overflow, too, if the sum that takes a difference back overflows. -/
theorem sub_overflow (some : 0 < n) :
    (sub a b c f).2.overflow = decide (a.toInt - b.toInt - c.toNat < -(2 ^ (n - 1) : Nat) ∨
      (2 ^ (n - 1) : Nat) ≤ a.toInt - b.toInt - c.toNat) := by
  rw [(sub_flags a b c f).2.1, add_overflow _ _ _ _ some]
  obtain ⟨m, rfl⟩ := Nat.exists_eq_add_one_of_ne_zero (Nat.ne_of_gt some)
  rw [Nat.add_sub_cancel]
  have exact : (a.toNat + 2 ^ (m + 1) * (sub a b c f).2.carry.toNat : Int) =
      (sub a b c f).1.toNat + b.toNat + c.toNat := by exact_mod_cast sub_exact a b c f
  generalize (sub a b c f).1 = r at *
  let t : Int := a.msb.toNat + (sub a b c f).2.carry.toNat - r.msb.toNat - b.msb.toNat
  have sum : r.toInt + b.toInt + c.toNat = a.toInt + 2 * (2 ^ m : Nat) * t := by
    rw [toInt_eq_sub_msb a, toInt_eq_sub_msb b, toInt_eq_sub_msb r]
    push_cast
    linear_combination -exact
  have difference : a.toInt - b.toInt - c.toNat = r.toInt + 2 * (2 ^ m : Nat) * -t := by
    linear_combination -sum
  obtain ⟨al, ah⟩ := toInt_range a
  obtain ⟨rl, rh⟩ := toInt_range r
  rw [sum, difference, decide_eq_decide, out_of_range_iff al ah, out_of_range_iff rl rh,
    Int.neg_ne_zero]

theorem add_auxCarry (wide : 4 < n) :
    (add a b c f).2.auxCarry = decide (16 ≤ a.toNat % 16 + b.toNat % 16 + c.toNat) := by
  have bit := BitVec.getLsbD_add_add_bool wide a b c
  have carry : BitVec.setWidth n (BitVec.ofBool c) = BitVec.ofNat n c.toNat := by
    apply BitVec.eq_of_toNat_eq
    simp
  rw [carry] at bit
  simp only [add, BitVec.getLsbD_xor, bit]
  change _ = BitVec.carry 4 a b c
  cases a.getLsbD 4 <;> cases b.getLsbD 4 <;> simp

theorem sub_auxCarry (wide : 4 < n) :
    (sub a b c f).2.auxCarry = decide (a.toNat % 16 < b.toNat % 16 + c.toNat) := by
  rw [(sub_flags a b c f).2.2, add_auxCarry _ _ _ _ wide]
  have exact := sub_exact a b c f
  have sixteen : 2 ^ n = 16 * 2 ^ (n - 4) := by
    rw [show (16 : Nat) = 2 ^ 4 by decide, ← Nat.pow_add, Nat.add_sub_cancel' (Nat.le_of_lt wide)]
  rw [sixteen, Nat.mul_assoc] at exact
  have hc := c.toNat_le
  generalize 2 ^ (n - 4) * _ = borrowed at exact
  simp only [decide_eq_decide]
  omega

end Swan.Arithmetic
