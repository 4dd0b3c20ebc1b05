import Mathlib.Algebra.Ring.Int.Defs
import Mathlib.Data.Nat.Digits.Defs
import Mathlib.Tactic.LinearCombination
import Mathlib.Tactic.Ring
import Swan.Cpu.Flags

/-! Numbers written out in digits, least significant first, and operations that work through
them one digit at a time. The carry flag takes what one digit leaves to the next, so an
operation that is exact on a digit, its carry included, is exact on numbers of any length:
the digits of the result and the last carry are those of the exact sum or difference. -/
namespace Swan

variable {δ ι ρ : Type}

/-- How numbers are written: what the digits of a base are, and what each is worth. -/
structure Numeral (δ : Type) where
  base : Nat
  IsDigit : δ → Prop
  value : δ → Nat
  digit : Nat → δ
  base_pos : 0 < base
  value_lt {d : δ} : IsDigit d → value d < base
  digit_value {d : δ} : IsDigit d → digit (value d) = d

namespace Numeral

variable (N : Numeral δ)

def number (ds : List δ) : Nat := Nat.ofDigits N.base (ds.map N.value)

def digits : (length n : Nat) → List δ
  | 0, _ => []
  | length + 1, n => N.digit (n % N.base) :: digits length (n / N.base)

@[simp] theorem number_nil : N.number [] = 0 := rfl

@[simp] theorem number_cons (d : δ) (ds : List δ) :
    N.number (d :: ds) = N.value d + N.base * N.number ds := Nat.ofDigits_cons

theorem number_lt {ds : List δ} (digits : ∀ d ∈ ds, N.IsDigit d) :
    N.number ds < N.base ^ ds.length := by
  induction ds with
  | nil => exact Nat.one_pos
  | cons d ds ih =>
    obtain ⟨first, rest⟩ := List.forall_mem_cons.mp digits
    have low := N.value_lt first
    have high := Nat.mul_le_mul_left N.base (ih rest)
    rw [Nat.mul_succ] at high
    rw [number_cons, List.length_cons, Nat.pow_succ, Nat.mul_comm (N.base ^ _)]
    omega

/-- A number is written in one way only. -/
theorem digits_number {ds : List δ} (digits : ∀ d ∈ ds, N.IsDigit d) :
    N.digits ds.length (N.number ds) = ds := by
  induction ds with
  | nil => rfl
  | cons d ds ih =>
    obtain ⟨first, rest⟩ := List.forall_mem_cons.mp digits
    have low := N.value_lt first
    rw [List.length_cons, Numeral.digits, number_cons, Nat.add_mul_mod_self_left,
      Nat.add_mul_div_left _ _ N.base_pos, Nat.mod_eq_of_lt low, Nat.div_eq_of_lt low,
      Nat.zero_add, N.digit_value first, ih rest]

end Numeral

/-- Whether digits are added or subtracted. -/
inductive Sense where
  | sum
  | difference

namespace Sense

def exact : Sense → (a b : Int) → (carry : Bool) → Int
  | sum, a, b, carry => a + b + carry.toNat
  | difference, a, b, carry => a - b - carry.toNat

def sign : Sense → Int
  | sum => 1
  | difference => -1

theorem exact_eq (s : Sense) (a b : Int) (carry : Bool) :
    s.exact a b carry = a + s.sign * (b + carry.toNat) := by
  cases s <;> simp only [exact, sign] <;> ring

/-- The lowest digits settle their part, and hand a carry to the number above. -/
theorem exact_shift (s : Sense) {base low low' r : Int} {carry carried : Bool}
    (digit : s.exact low low' carry = r + s.sign * (base * carried.toNat)) (high high' : Int) :
    s.exact (low + base * high) (low' + base * high') carry =
      r + base * s.exact high high' carried := by
  rw [exact_eq] at digit ⊢
  rw [exact_eq]
  linear_combination digit

/-- A result in range and a carry are the remainder of the exact one, and whether it was out. -/
theorem remainder (s : Sense) {exact : Int} {modulus r : Nat} {carry : Bool} (small : r < modulus)
    (eq : exact = r + s.sign * (modulus * carry.toNat)) :
    (exact % modulus).toNat = r ∧ carry = decide (exact < 0 ∨ modulus ≤ exact) := by
  have wraps : exact % modulus = r := by
    rw [eq, mul_left_comm, Int.add_mul_emod_self_left]
    exact Int.emod_eq_of_lt (Int.natCast_nonneg r) (Int.ofNat_lt.mpr small)
  refine ⟨by rw [wraps, Int.toNat_natCast], ?_⟩
  cases s <;> cases carry <;> simp [sign] at eq ⊢ <;> omega

end Sense

/-- An operation on each digit in turn, with the flags that the one before has left. -/
def chain (step : ι → Flags → ρ × Flags) : List ι → Flags → List ρ × Flags
  | [], f => ([], f)
  | i :: is, f =>
    let (r, g) := step i f
    let (rs, h) := chain step is g
    (r :: rs, h)

theorem length_chain (step : ι → Flags → ρ × Flags) (is : List ι) (f : Flags) :
    (chain step is f).1.length = is.length := by
  induction is generalizing f with
  | nil => rfl
  | cons i is ih => exact congrArg Nat.succ (ih (step i f).2)

/-- An operation that is exact on two digits and a carry. Where its digits are among what it
is given and what it gives is said by `left`, `right` and `out`. -/
structure Longhand (N : Numeral δ) (s : Sense) (left right : ι → δ) (out : ρ → δ)
    (step : ι → Flags → ρ × Flags) : Prop where
  isDigit : ∀ i f, N.IsDigit (left i) → N.IsDigit (right i) → N.IsDigit (out (step i f).1)
  exact : ∀ i f, N.IsDigit (left i) → N.IsDigit (right i) →
    s.exact (N.value (left i)) (N.value (right i)) f.carry =
      N.value (out (step i f).1) + s.sign * (N.base * (step i f).2.carry.toNat)

namespace Longhand

variable {N : Numeral δ} {s : Sense} {left right : ι → δ} {out : ρ → δ}
  {step : ι → Flags → ρ × Flags} {is : List ι}

theorem chain_isDigit (longhand : Longhand N s left right out step)
    (digits : ∀ i ∈ is, N.IsDigit (left i) ∧ N.IsDigit (right i)) (f : Flags) :
    ∀ d ∈ (chain step is f).1.map out, N.IsDigit d := by
  induction is generalizing f with
  | nil => nofun
  | cons i is ih =>
    obtain ⟨⟨l, r⟩, rest⟩ := List.forall_mem_cons.mp digits
    exact List.forall_mem_cons.mpr ⟨longhand.isDigit i f l r, ih rest (step i f).2⟩

theorem chain_exact (longhand : Longhand N s left right out step)
    (digits : ∀ i ∈ is, N.IsDigit (left i) ∧ N.IsDigit (right i)) (f : Flags) :
    s.exact (N.number (is.map left)) (N.number (is.map right)) f.carry =
      N.number ((chain step is f).1.map out) +
        s.sign * ((N.base ^ is.length : Nat) * (chain step is f).2.carry.toNat) := by
  induction is generalizing f with
  | nil => simp [Sense.exact_eq, chain]
  | cons i is ih =>
    obtain ⟨⟨l, r⟩, rest⟩ := List.forall_mem_cons.mp digits
    have above := ih rest (step i f).2
    simp only [List.map_cons, Numeral.number_cons, chain, List.length_cons]
    push_cast at above ⊢
    rw [s.exact_shift (longhand.exact i f l r), above]
    ring

/-- Worked through to the end, the digits are those of the exact result as far as they go,
and the carry says whether they go far enough. -/
theorem chain_digits (longhand : Longhand N s left right out step)
    (digits : ∀ i ∈ is, N.IsDigit (left i) ∧ N.IsDigit (right i)) (f : Flags) :
    let exact := s.exact (N.number (is.map left)) (N.number (is.map right)) f.carry
    let modulus := N.base ^ is.length
    (chain step is f).1.map out = N.digits is.length (exact % modulus).toNat ∧
    (chain step is f).2.carry = decide (exact < 0 ∨ modulus ≤ exact) := by
  intro exact modulus
  have written := longhand.chain_isDigit digits f
  have small := N.number_lt written
  rw [List.length_map, length_chain] at small
  obtain ⟨wraps, carry⟩ := s.remainder small (longhand.chain_exact digits f)
  refine ⟨?_, carry⟩
  have same := N.digits_number written
  rw [List.length_map, length_chain, ← wraps] at same
  exact same.symm

/-- The same for the digits of two numbers of one length, one digit of each at a time. -/
theorem zip_digits {α β : Type} (left : α → δ) (right : β → δ) {step : α × β → Flags → ρ × Flags}
    (longhand : Longhand N s (fun d => left d.1) (fun d => right d.2) out step)
    {a : List α} {b : List β} (same : a.length = b.length) (ha : ∀ x ∈ a, N.IsDigit (left x))
    (hb : ∀ y ∈ b, N.IsDigit (right y)) (f : Flags) :
    let exact := s.exact (N.number (a.map left)) (N.number (b.map right)) f.carry
    let modulus := N.base ^ a.length
    (chain step (a.zip b) f).1.map out = N.digits a.length (exact % modulus).toNat ∧
    (chain step (a.zip b) f).2.carry = decide (exact < 0 ∨ modulus ≤ exact) := by
  have lefts := congrArg (List.map left) (List.map_fst_zip (Nat.le_of_eq same))
  have rights := congrArg (List.map right) (List.map_snd_zip (Nat.le_of_eq same.symm))
  have length : (a.zip b).length = a.length := by rw [List.length_zip, ← same, Nat.min_self]
  rw [List.map_map] at lefts rights
  have isDigits : ∀ d ∈ a.zip b, N.IsDigit (left d.1) ∧ N.IsDigit (right d.2) := by
    intro d member
    obtain ⟨x, y⟩ := List.of_mem_zip member
    exact ⟨ha _ x, hb _ y⟩
  have digits := longhand.chain_digits isDigits f
  rw [length] at digits
  rw [← lefts, ← rights]
  exact digits

end Longhand

end Swan
