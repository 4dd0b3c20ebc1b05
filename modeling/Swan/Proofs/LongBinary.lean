import Swan.Arithmetic.Binary
import Swan.Proofs.DigitChain
import Swan.Proofs.SumFlags

/-! Numbers of many words, added and subtracted a word at a time. The carry is that of the
whole numbers by the law of digits. Overflow and sign are the top word's alone, which is the
one that counts as signed: the words below it change neither question. -/
namespace Swan

/-- A word of `n` bits is a digit to the base `2 ^ n`. -/
def Numeral.binary (n : Nat) : Numeral (BitVec n) where
  base := 2 ^ n
  IsDigit _ := True
  value := BitVec.toNat
  digit := BitVec.ofNat n
  base_pos := Nat.two_pow_pos n
  value_lt {d} _ := d.isLt
  digit_value {d} _ := by rw [BitVec.ofNat_toNat, BitVec.setWidth_eq]

/-- What words denote in two's complement, all of them together. -/
def signedNumber {n : Nat} (ds : List (BitVec n)) : Int :=
  Int.bmod ((Numeral.binary n).number ds) (2 ^ (n * ds.length))

/-- The operation that takes in the carry of the word below. -/
def Sense.withCarry : Sense → Arithmetic.BinaryOp
  | sum => .adc
  | difference => .sbb

section Signed

theorem bmod_eq_ite {x half : Nat} (range : x < 2 * half) :
    Int.bmod x (2 * half) = if x < half then (x : Int) else x - (2 * half : Nat) := by
  rw [Int.bmod_def, Int.emod_eq_of_lt (Int.natCast_nonneg x) (Int.ofNat_lt.mpr range)]
  have middle : ((2 * half : Nat) + 1 : Int) / 2 = half := by omega
  rw [middle]
  simp only [Int.ofNat_lt]

/-- A digit below a signed number leaves the sign alone. -/
theorem bmod_digit {base low high half : Nat} (small : low < base) (range : high < 2 * half) :
    Int.bmod (low + base * high : Nat) (2 * (base * half)) =
      low + base * Int.bmod high (2 * half) := by
  have below : low + base * high < base * half ↔ high < half := by
    constructor
    · intro under
      exact Nat.lt_of_mul_lt_mul_left (Nat.lt_of_le_of_lt (Nat.le_add_left _ low) under)
    · intro under
      have := Nat.mul_le_mul_left base under
      rw [Nat.mul_succ] at this
      omega
  have wide : low + base * high < 2 * (base * half) := by
    have := Nat.mul_le_mul_left base range
    rw [Nat.mul_succ, Nat.mul_left_comm] at this
    omega
  rw [bmod_eq_ite wide, bmod_eq_ite range]
  simp only [below]
  split <;> push_cast <;> ring

theorem mul_le_digit_add {base low : Nat} {bound high : Int} (small : low < base) :
    base * bound ≤ low + base * high ↔ bound ≤ high := by
  constructor
  · intro reached
    apply Int.le_of_lt_add_one
    apply Int.lt_of_mul_lt_mul_left (a := base) _ (Int.natCast_nonneg base)
    rw [Int.mul_add]
    omega
  · intro reached
    have := Int.mul_le_mul_of_nonneg_left reached (Int.natCast_nonneg base)
    omega

/-- Nor does it take the number out of its range, or into it. -/
theorem digit_add_out_iff {base low : Nat} {half high : Int} (small : low < base) :
    low + base * high < -(base * half) ∨ base * half ≤ low + base * high ↔
      high < -half ∨ half ≤ high := by
  rw [← Int.not_le, ← Int.mul_neg, mul_le_digit_add small, mul_le_digit_add small, Int.not_le]

variable {n : Nat}

theorem Numeral.number_binary_lt (ds : List (BitVec n)) :
    (binary n).number ds < 2 ^ (n * ds.length) := by
  rw [Nat.pow_mul]
  exact (binary n).number_lt fun _ _ => trivial

theorem signedNumber_singleton (d : BitVec n) : signedNumber [d] = d.toInt := by
  rw [BitVec.toInt_eq_toNat_bmod]
  simp [signedNumber, Numeral.binary]

/-- The bits of some words, and of one word more: the top one of them is the same. -/
theorem size_succ (some : 0 < n) {length : Nat} (more : 0 < length) :
    ∃ top, n * length = top + 1 ∧ n * (length + 1) = n + top + 1 := by
  obtain ⟨top, size⟩ := Nat.exists_eq_add_one_of_ne_zero (Nat.ne_of_gt (Nat.mul_pos some more))
  exact ⟨top, size, by rw [Nat.mul_succ, size]; omega⟩

theorem signedNumber_cons (some : 0 < n) (d : BitVec n) {ds : List (BitVec n)} (more : ds ≠ []) :
    signedNumber (d :: ds) = d.toNat + (2 ^ n : Nat) * signedNumber ds := by
  obtain ⟨top, size, size'⟩ := size_succ some (List.length_pos_iff.mpr more)
  have bound := Numeral.number_binary_lt ds
  rw [size, Nat.pow_succ, Nat.mul_comm] at bound
  rw [signedNumber, signedNumber, Numeral.number_cons, List.length_cons, size', size,
    Nat.pow_succ, Nat.pow_succ, Nat.pow_add, Nat.mul_comm _ 2, Nat.mul_comm _ 2]
  exact bmod_digit d.isLt bound

end Signed

namespace Arithmetic

variable {n : Nat} (s : Sense)

theorem longhand_binary (n : Nat) : Longhand (Numeral.binary n) s Prod.fst Prod.snd id
    fun d => s.withCarry.apply d.1 d.2 where
  isDigit _ _ _ _ := trivial
  exact d f _ _ := by
    cases s with
    | sum =>
      have exact := congrArg (Nat.cast (R := Int)) (add_exact d.1 d.2 f.carry f)
      simp only [Sense.exact, Sense.sign, Sense.withCarry, BinaryOp.apply, Numeral.binary, id_eq]
      push_cast at exact ⊢
      linear_combination -exact
    | difference =>
      have exact := congrArg (Nat.cast (R := Int)) (sub_exact d.1 d.2 f.carry f)
      simp only [Sense.exact, Sense.sign, Sense.withCarry, BinaryOp.apply, Numeral.binary, id_eq]
      push_cast at exact ⊢
      linear_combination exact

theorem withCarry_overflow (some : 0 < n) (a b : BitVec n) (f : Flags) :
    let exact := s.exact a.toInt b.toInt f.carry
    (s.withCarry.apply a b f).2.overflow =
      decide (exact < -(2 ^ (n - 1) : Nat) ∨ (2 ^ (n - 1) : Nat) ≤ exact) := by
  cases s with
  | sum => exact add_overflow a b f.carry f some
  | difference => exact sub_overflow a b f.carry f some

theorem withCarry_auxCarry (wide : 4 < n) (a b : BitVec n) (f : Flags) :
    let exact := s.exact (a.toNat % 16 : Nat) (b.toNat % 16 : Nat) f.carry
    (s.withCarry.apply a b f).2.auxCarry = true ↔ exact < 0 ∨ 16 ≤ exact := by
  have hc := f.carry.toNat_le
  cases s with
  | sum =>
    have aux := add_auxCarry a b f.carry f wide
    simp only [Sense.withCarry, BinaryOp.apply, Sense.exact, aux, decide_eq_true_eq]
    omega
  | difference =>
    have aux := sub_auxCarry a b f.carry f wide
    simp only [Sense.withCarry, BinaryOp.apply, Sense.exact, aux, decide_eq_true_eq]
    omega

theorem withCarry_sign (a b : BitVec n) (f : Flags) :
    (s.withCarry.apply a b f).2.sign = (s.withCarry.apply a b f).1.msb := by
  cases s <;> rfl

/-- The lowest word keeps what it has, and the carry goes to the signed number above. -/
theorem signed_exact_cons (some : 0 < n) (d : BitVec n × BitVec n)
    {ds : List (BitVec n × BitVec n)} (more : ds ≠ []) (f : Flags) :
    let low := s.withCarry.apply d.1 d.2 f
    s.exact (signedNumber ((d :: ds).map Prod.fst)) (signedNumber ((d :: ds).map Prod.snd)) f.carry =
      low.1.toNat + (2 ^ n : Nat) * s.exact (signedNumber (ds.map Prod.fst))
        (signedNumber (ds.map Prod.snd)) low.2.carry := by
  have digit := (longhand_binary s n).exact d f trivial trivial
  have left : ds.map Prod.fst ≠ [] := fun none => more (List.map_eq_nil_iff.mp none)
  have right : ds.map Prod.snd ≠ [] := fun none => more (List.map_eq_nil_iff.mp none)
  rw [List.map_cons, List.map_cons, signedNumber_cons some _ left, signedNumber_cons some _ right]
  exact s.exact_shift digit _ _

/-- The flags that the last word leaves, by induction on the words below it. -/
theorem chain_top (some : 0 < n) (d : BitVec n × BitVec n) (ds : List (BitVec n × BitVec n))
    (f : Flags) :
    let size := n * (d :: ds).length
    let exact := s.exact (signedNumber ((d :: ds).map Prod.fst))
      (signedNumber ((d :: ds).map Prod.snd)) f.carry
    let done := chain (fun d => s.withCarry.apply d.1 d.2) (d :: ds) f
    done.2.overflow = decide (exact < -(2 ^ (size - 1) : Nat) ∨ (2 ^ (size - 1) : Nat) ≤ exact) ∧
    done.2.sign = ((Numeral.binary n).number done.1).testBit (size - 1) := by
  induction ds generalizing d f with
  | nil =>
    simp only [chain, List.map_cons, List.map_nil, signedNumber_singleton, List.length_cons,
      List.length_nil, Nat.zero_add, Nat.mul_one]
    refine ⟨withCarry_overflow s some d.1 d.2 f, ?_⟩
    rw [withCarry_sign, BitVec.msb_eq_getLsbD_last, Numeral.number_cons, Numeral.number_nil]
    rfl
  | cons d' ds ih =>
    obtain ⟨overflow, sign⟩ := ih d' (s.withCarry.apply d.1 d.2 f).2
    have more : d' :: ds ≠ [] := List.cons_ne_nil d' ds
    generalize d' :: ds = above at *
    obtain ⟨top, size, size'⟩ := size_succ some (List.length_pos_iff.mpr more)
    rw [size, Nat.add_sub_cancel] at overflow sign
    rw [List.length_cons, size', signed_exact_cons s some d more, chain]
    dsimp only
    rw [Nat.add_sub_cancel]
    generalize s.withCarry.apply d.1 d.2 f = low at *
    have small := low.1.isLt
    constructor
    · rw [overflow, Nat.pow_add, Nat.cast_mul, decide_eq_decide, digit_add_out_iff small]
    · rw [sign, Numeral.number_cons, Nat.add_comm]
      have bit := Nat.testBit_two_pow_mul_add ((Numeral.binary n).number
        (chain (fun d => s.withCarry.apply d.1 d.2) above low.2).1) small (n + top)
      rw [if_neg (by omega), Nat.add_sub_cancel_left] at bit
      exact bit.symm

/-- Two numbers of as many words are added or subtracted from the lowest word up, each with the
carry of the word below. The result is exact, and the last flags are those of the whole. -/
theorem multi_precision (w : Width) {a b : List (Operand w)} (same : a.length = b.length)
    (some : a ≠ []) (f : Flags) :
    let N := Numeral.binary w.bits
    let size := w.bits * a.length
    let exact := s.exact (N.number a) (N.number b) f.carry
    let signed := s.exact (signedNumber a) (signedNumber b) f.carry
    let (r, g) := chain (fun d => s.withCarry.apply d.1 d.2) (a.zip b) f
    r = N.digits a.length (exact % (2 ^ size : Nat)).toNat ∧
    g.carry = decide (exact < 0 ∨ (2 ^ size : Nat) ≤ exact) ∧
    g.overflow = decide (signed < -(2 ^ (size - 1) : Nat) ∨ (2 ^ (size - 1) : Nat) ≤ signed) ∧
    g.sign = (N.number r).testBit (size - 1) := by
  have left : (a.zip b).map Prod.fst = a := List.map_fst_zip (Nat.le_of_eq same)
  have right : (a.zip b).map Prod.snd = b := List.map_snd_zip (Nat.le_of_eq same.symm)
  obtain ⟨d, ds, zipped⟩ := List.exists_cons_of_ne_nil (l := a.zip b) fun none =>
    some (left.symm.trans (by rw [none]; rfl))
  obtain ⟨overflow, sign⟩ := chain_top s w.bits_pos d ds f
  rw [← zipped, List.length_zip, ← same, Nat.min_self] at overflow sign
  rw [left, right] at overflow
  have modulus : (Numeral.binary w.bits).base ^ a.length = 2 ^ (w.bits * a.length) :=
    (Nat.pow_mul ..).symm
  obtain ⟨digits, carry⟩ := Longhand.zip_digits id id (longhand_binary s w.bits) same
    (fun _ _ => trivial) (fun _ _ => trivial) f
  rw [modulus] at digits carry
  simp only [List.map_id] at digits carry
  exact ⟨digits, carry, overflow, sign⟩

/-- The least number of two bytes, less one. The borrow stops in the top byte, which overflows. -/
theorem multi_precision_least :
    let (r, g) := chain (fun d => Sense.difference.withCarry.apply d.1 d.2)
      (([0x00, 0x80] : List Byte).zip [0x01, 0x00]) {}
    r = (Numeral.binary 8).digits 2 0x7FFF ∧ g.carry = false ∧ g.overflow = true ∧
      g.sign = false := by
  obtain ⟨digits, carry, overflow, sign⟩ := multi_precision .difference .byte
    (a := [0x00, 0x80]) (b := [0x01, 0x00]) rfl (List.cons_ne_nil _ _) {}
  exact ⟨digits.trans (by decide), carry.trans (by decide), overflow.trans (by decide),
    sign.trans (by decide)⟩

end Arithmetic

end Swan
