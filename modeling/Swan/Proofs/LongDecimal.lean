import Swan.Arithmetic.Decimal
import Swan.Proofs.LongBinary

/-! Decimal numbers of any length, packed two digits to a byte or unpacked one to a byte. Each
byte is added or subtracted as a binary number and then adjusted. -/
namespace Swan

/-- A byte that holds two decimal digits. -/
def Numeral.packed : Numeral Byte where
  base := 100
  IsDigit d := d.toNat % 16 ≤ 9 ∧ d.toNat / 16 ≤ 9
  value d := d.toNat / 16 * 10 + d.toNat % 16
  digit v := BitVec.ofNat 8 (v / 10 * 16 + v % 10)
  base_pos := by decide
  value_lt {d} digits := by omega
  digit_value {d} digits := by
    apply BitVec.eq_of_toNat_eq
    rw [BitVec.toNat_ofNat]
    omega

def Numeral.unpacked : Numeral Byte where
  base := 10
  IsDigit d := d.toNat ≤ 9
  value := BitVec.toNat
  digit := BitVec.ofNat 8
  base_pos := by decide
  value_lt {d} digit := Nat.lt_succ_of_le digit
  digit_value {d} _ := (Numeral.binary 8).digit_value trivial

instance : DecidablePred Numeral.packed.IsDigit :=
  fun d => inferInstanceAs (Decidable (d.toNat % 16 ≤ 9 ∧ d.toNat / 16 ≤ 9))

instance : DecidablePred Numeral.unpacked.IsDigit :=
  fun d => inferInstanceAs (Decidable (d.toNat ≤ 9))

namespace Sense

open Arithmetic

def adjustPacked : Sense → Byte → Flags → Byte × Flags
  | sum => adjustPackedSum
  | difference => adjustPackedDifference

def adjustUnpacked : Sense → Word → Flags → Word × Flags
  | sum => adjustUnpackedSum
  | difference => adjustUnpackedDifference

def packedStep (s : Sense) (d : Byte × Byte) (f : Flags) : Byte × Flags :=
  let (r, g) := s.withCarry.apply d.1 d.2 f
  s.adjustPacked r g

/-- A digit in the low half of a word, whose upper half may hold anything. -/
def unpackedStep (s : Sense) (d : Word × Byte) (f : Flags) : Word × Flags :=
  let (r, g) := s.withCarry.apply d.1.low d.2 f
  s.adjustUnpacked (.ofBytes r d.1.high) g

end Sense

namespace Arithmetic

section Judgement

variable (s : Sense) (a b : Byte) (f : Flags)

theorem withCarry_exact : let (r, g) := s.withCarry.apply a b f
    s.exact a.toNat b.toNat f.carry = r.toNat + s.sign * (256 * g.carry.toNat) :=
  (longhand_binary s 8).exact (a, b) f trivial trivial

/-- The low digit is wrong just when the low digits do not come out in decimal. -/
theorem lowDigitWrong_withCarry (ha : a.toNat % 16 ≤ 9) (hb : b.toNat % 16 ≤ 9) :
    let (r, g) := s.withCarry.apply a b f
    let exact := s.exact (a.toNat % 16 : Nat) (b.toNat % 16 : Nat) f.carry
    lowDigitWrong r g = true ↔ exact < 0 ∨ 10 ≤ exact := by
  have hc := f.carry.toNat_le
  have exact := withCarry_exact s a b f
  have aux := withCarry_auxCarry s (by decide) a b f
  dsimp only at exact aux ⊢
  rw [lowDigitWrong, Bool.or_eq_true, decide_eq_true_eq, aux]
  cases s <;> simp only [Sense.exact, Sense.sign] at * <;> omega

/-- The high digit is wrong just when the bytes do not. -/
theorem highDigitWrong_withCarry (da : Numeral.packed.IsDigit a) (db : Numeral.packed.IsDigit b) :
    let (r, g) := s.withCarry.apply a b f
    let exact := s.exact (Numeral.packed.value a) (Numeral.packed.value b) f.carry
    highDigitWrong r g = true ↔ exact < 0 ∨ 100 ≤ exact := by
  have hc := f.carry.toNat_le
  have exact := withCarry_exact s a b f
  dsimp only at exact ⊢
  rw [highDigitWrong, Bool.or_eq_true, decide_eq_true_eq]
  generalize (s.withCarry.apply a b f).2.carry = carry at *
  simp only [Numeral.packed] at *
  cases s <;> cases carry <;> simp [Sense.exact, Sense.sign] at * <;> omega

theorem toNat_adjustPacked (al : Byte) :
    ((s.adjustPacked al f).1.toNat : Int) = (al.toNat + s.sign *
      (6 * (lowDigitWrong al f).toNat + 0x60 * (highDigitWrong al f).toNat)) % 256 := by
  cases s <;> simp only [Sense.adjustPacked, adjustPackedSum, adjustPackedDifference, Sense.sign]
  <;> cases lowDigitWrong al f <;> cases highDigitWrong al f <;> simp [packedCorrection] <;> omega

end Judgement

theorem carry_adjustPacked (s : Sense) (al : Byte) (f : Flags) :
    (s.adjustPacked al f).2.carry = highDigitWrong al f := by
  cases s <;> rfl

theorem packedStep_exact (s : Sense) {a b : Byte} (da : Numeral.packed.IsDigit a)
    (db : Numeral.packed.IsDigit b) (f : Flags) :
    let (r, g) := s.packedStep (a, b) f
    Numeral.packed.IsDigit r ∧ s.exact (Numeral.packed.value a) (Numeral.packed.value b) f.carry =
      Numeral.packed.value r + s.sign * (100 * g.carry.toNat) := by
  have exact := withCarry_exact s a b f
  have low := lowDigitWrong_withCarry s a b f da.1 db.1
  have high := highDigitWrong_withCarry s a b f da db
  have hc := f.carry.toNat_le
  dsimp only [Sense.packedStep] at *
  generalize s.withCarry.apply a b f = done at *
  obtain ⟨r, g⟩ := done
  have value := toNat_adjustPacked s g r
  rw [carry_adjustPacked]
  dsimp only at *
  generalize (s.adjustPacked r g).1 = mended at *
  generalize lowDigitWrong r g = lowWrong at *
  generalize highDigitWrong r g = highWrong at *
  simp only [Numeral.packed] at *
  cases s <;> cases lowWrong <;> cases highWrong <;> simp [Sense.exact, Sense.sign] at * <;> omega

theorem longhand_packed (s : Sense) :
    Longhand Numeral.packed s Prod.fst Prod.snd id s.packedStep where
  isDigit _ f left right := (packedStep_exact s left right f).1
  exact _ f left right := (packedStep_exact s left right f).2

section Unpacked

variable (s : Sense) (ax : Word) (f : Flags)

theorem carry_adjustUnpacked : (s.adjustUnpacked ax f).2.carry = lowDigitWrong ax.low f := by
  cases s <;> rfl

theorem low_adjustUnpacked :
    ((s.adjustUnpacked ax f).1.low.toNat : Int) =
      (ax.low.toNat + s.sign * (6 * (lowDigitWrong ax.low f).toNat)) % 16 := by
  have nibble (v : Byte) : (v &&& 0x0F).toNat = v.toNat % 16 := by
    rw [BitVec.toNat_and]
    exact Nat.and_two_pow_sub_one_eq_mod v.toNat 4
  cases s <;>
    (simp only [Sense.adjustUnpacked, adjustUnpackedSum, adjustUnpackedDifference, Sense.sign,
      Word.low_ofBytes, nibble]
     cases lowDigitWrong ax.low f <;> simp <;> omega)

/-- The upper half counts the carries and the borrows. -/
theorem high_adjustUnpacked :
    ((s.adjustUnpacked ax f).1.high.toNat : Int) =
      (ax.high.toNat + s.sign * (s.adjustUnpacked ax f).2.carry.toNat) % 256 := by
  rw [carry_adjustUnpacked]
  cases s <;>
    simp only [Sense.adjustUnpacked, adjustUnpackedSum, adjustUnpackedDifference, Sense.sign,
      Word.high_ofBytes] <;>
    cases lowDigitWrong ax.low f <;> simp <;> omega

end Unpacked

theorem unpackedStep_exact (s : Sense) {ax : Word} {b : Byte}
    (da : Numeral.unpacked.IsDigit ax.low) (db : Numeral.unpacked.IsDigit b) (f : Flags) :
    let (r, g) := s.unpackedStep (ax, b) f
    Numeral.unpacked.IsDigit r.low ∧
      s.exact (Numeral.unpacked.value ax.low) (Numeral.unpacked.value b) f.carry =
        Numeral.unpacked.value r.low + s.sign * (10 * g.carry.toNat) := by
  have exact := withCarry_exact s ax.low b f
  have small {v : Byte} (digit : Numeral.unpacked.IsDigit v) : v.toNat % 16 ≤ 9 :=
    Nat.le_trans (Nat.mod_le _ _) digit
  have low := lowDigitWrong_withCarry s ax.low b f (small da) (small db)
  have hc := f.carry.toNat_le
  dsimp only [Sense.unpackedStep] at *
  generalize s.withCarry.apply ax.low b f = done at *
  obtain ⟨r, g⟩ := done
  have value := low_adjustUnpacked s (.ofBytes r ax.high) g
  rw [carry_adjustUnpacked]
  rw [Word.low_ofBytes] at value ⊢
  dsimp only at *
  generalize (s.adjustUnpacked (.ofBytes r ax.high) g).1.low = mended at *
  generalize lowDigitWrong r g = wrong at *
  simp only [Numeral.unpacked] at *
  cases s <;> cases wrong <;> simp [Sense.exact, Sense.sign] at * <;> omega

theorem longhand_unpacked (s : Sense) :
    Longhand Numeral.unpacked s (fun d => d.1.low) Prod.snd Word.low s.unpackedStep where
  isDigit _ f left right := (unpackedStep_exact s left right f).1
  exact _ f left right := (unpackedStep_exact s left right f).2

/-- Two decimal numbers are added or subtracted byte by byte, each adjusted before the next. The
digits are exact, the last carry is that of the whole, and with one digit a byte AH counts it. -/
theorem long_decimal (s : Sense) (f : Flags) :
    (∀ a b : List Byte, a.length = b.length →
      (∀ d ∈ a, Numeral.packed.IsDigit d) → (∀ d ∈ b, Numeral.packed.IsDigit d) →
      let N := Numeral.packed
      let exact := s.exact (N.number a) (N.number b) f.carry
      let (r, g) := chain s.packedStep (a.zip b) f
      r = N.digits a.length (exact % (100 ^ a.length : Nat)).toNat ∧
      g.carry = decide (exact < 0 ∨ (100 ^ a.length : Nat) ≤ exact)) ∧
    (∀ (a : List Word) (b : List Byte), a.length = b.length →
      (∀ d ∈ a, Numeral.unpacked.IsDigit d.low) → (∀ d ∈ b, Numeral.unpacked.IsDigit d) →
      let N := Numeral.unpacked
      let exact := s.exact (N.number (a.map Word.low)) (N.number b) f.carry
      let (r, g) := chain s.unpackedStep (a.zip b) f
      r.map Word.low = N.digits a.length (exact % (10 ^ a.length : Nat)).toNat ∧
      g.carry = decide (exact < 0 ∨ (10 ^ a.length : Nat) ≤ exact)) ∧
    ∀ ax g, let (r, h) := s.adjustUnpacked ax g
      (r.high.toNat : Int) = (ax.high.toNat + s.sign * h.carry.toNat) % 256 := by
  refine ⟨?_, ?_, fun ax g => high_adjustUnpacked s ax g⟩
  · intro a b same da db
    have done := Longhand.zip_digits id id (longhand_packed s) same da db f
    simp only [List.map_id] at done
    exact done
  · intro a b same da db
    have done := Longhand.zip_digits Word.low id (longhand_unpacked s) same da db f
    simp only [List.map_id] at done
    exact done

/-- One less than a thousand and no units, packed: the borrow runs through both bytes. One more
than ninety-nine, unpacked, beside bytes that are full: nothing is left but the carry. -/
theorem long_decimal_running :
    let less := chain Sense.difference.packedStep (([0x00, 0x10] : List Byte).zip [0x01, 0x00]) {}
    let more := chain Sense.sum.unpackedStep (([0xFF09, 0xFF09] : List Word).zip [0x01, 0x00]) {}
    (less.1 = Numeral.packed.digits 2 999 ∧ less.2.carry = false) ∧
      more.1.map Word.low = Numeral.unpacked.digits 2 0 ∧ more.2.carry = true := by
  intro less more
  have packed := (long_decimal .difference {}).1 [0x00, 0x10] [0x01, 0x00] rfl
    (by decide) (by decide)
  have unpacked := (long_decimal .sum {}).2.1 [0xFF09, 0xFF09] [0x01, 0x00] rfl
    (by simp [Numeral.unpacked, Word.toNat_low]) (by decide)
  constructor
  · constructor
    · exact packed.1
    · exact packed.2
  · constructor
    · exact unpacked.1
    · exact unpacked.2

end Arithmetic

end Swan
