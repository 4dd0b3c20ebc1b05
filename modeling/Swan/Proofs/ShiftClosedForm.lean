import Mathlib.Algebra.Group.Nat.Defs
import Swan.Arithmetic.Shift

/-! What many places of a shift come to. A rotation sends every bit around the ring, over the
carry flag where that is one of its bits, and the other shifts multiply and divide by a power of
two. One place of each does what its closed form does for one, and closed forms add up, so that
the number of places is all that is left of the moves in between. -/
namespace Swan.Arithmetic

variable {n : Nat}

section Ring

variable (x : BitVec n)

theorem getLsbD_rotateRight_ring (k : Nat) {i : Nat} (inside : i < n) :
    (x.rotateRight k).getLsbD i = x.getLsbD ((i + k) % n) := by
  have small := Nat.mod_lt k (Nat.zero_lt_of_lt inside)
  rw [BitVec.getLsbD_rotateRight, ← Nat.add_mod_mod]
  generalize k % n = k at *
  by_cases around : i < n - k
  · rw [decide_eq_true around, cond_true, Nat.mod_eq_of_lt (by omega), Nat.add_comm]
  · rw [decide_eq_false around, cond_false, decide_eq_true inside, Bool.true_and,
      Nat.mod_eq_sub_mod (by omega), Nat.mod_eq_of_lt (by omega)]
    congr 1
    omega

theorem getLsbD_rotateLeft_ring (k : Nat) {i : Nat} (inside : i < n) :
    (x.rotateLeft k).getLsbD ((i + k) % n) = x.getLsbD i := by
  have small := Nat.mod_lt k (Nat.zero_lt_of_lt inside)
  rw [BitVec.getLsbD_rotateLeft, ← Nat.add_mod_mod]
  generalize k % n = k at *
  by_cases around : i + k < n
  · rw [Nat.mod_eq_of_lt around, decide_eq_false (by omega), cond_false, decide_eq_true around,
      Bool.true_and, Nat.add_sub_cancel]
  · rw [Nat.mod_eq_sub_mod (by omega), Nat.mod_eq_of_lt (by omega), decide_eq_true (by omega),
      cond_true]
    congr 1
    omega

theorem rotateRight_rotateLeft (k : Nat) : (x.rotateLeft k).rotateRight k = x := by
  apply BitVec.eq_of_getLsbD_eq
  intro i inside
  rw [getLsbD_rotateRight_ring _ k inside, getLsbD_rotateLeft_ring x k inside]

theorem rotateLeft_rotateRight (k : Nat) : (x.rotateRight k).rotateLeft k = x := by
  apply BitVec.eq_of_getLsbD_eq
  intro i inside
  have small := Nat.mod_lt k (Nat.zero_lt_of_lt inside)
  obtain ⟨j, from_, here⟩ : ∃ j < n, (j + k) % n = i := by
    refine ⟨(i + (n - k % n)) % n, Nat.mod_lt _ (Nat.zero_lt_of_lt inside), ?_⟩
    rw [Nat.mod_add_mod, ← Nat.add_mod_mod, Nat.add_assoc, Nat.sub_add_cancel (Nat.le_of_lt small),
      Nat.add_mod_right, Nat.mod_eq_of_lt inside]
  rw [← here, getLsbD_rotateLeft_ring _ k from_, getLsbD_rotateRight_ring x k from_]

theorem rotateLeft_zero : x.rotateLeft 0 = x := by
  apply BitVec.eq_of_getLsbD_eq
  intro i inside
  have same := getLsbD_rotateLeft_ring x 0 inside
  rwa [Nat.add_zero, Nat.mod_eq_of_lt inside] at same

theorem rotateRight_zero : x.rotateRight 0 = x := by
  apply BitVec.eq_of_getLsbD_eq
  intro i inside
  rw [getLsbD_rotateRight_ring x 0 inside, Nat.add_zero, Nat.mod_eq_of_lt inside]

theorem rotateRight_add (j k : Nat) : x.rotateRight (j + k) = (x.rotateRight j).rotateRight k := by
  apply BitVec.eq_of_getLsbD_eq
  intro i inside
  have turned := Nat.mod_lt (i + k) (Nat.zero_lt_of_lt inside)
  rw [getLsbD_rotateRight_ring _ _ inside, getLsbD_rotateRight_ring _ k inside,
    getLsbD_rotateRight_ring x j turned, Nat.mod_add_mod, Nat.add_assoc, Nat.add_comm k]

theorem rotateLeft_add (j k : Nat) : x.rotateLeft (j + k) = (x.rotateLeft j).rotateLeft k := by
  have undone : ((x.rotateLeft j).rotateLeft k).rotateRight (j + k) = x := by
    rw [Nat.add_comm, rotateRight_add, rotateRight_rotateLeft, rotateRight_rotateLeft]
  rw [← rotateLeft_rotateRight ((x.rotateLeft j).rotateLeft k) (j + k), undone]

theorem eq_of_cons {x y : BitVec n} {c d : Bool} (same : x.cons c = y.cons d) : x = y ∧ c = d := by
  constructor
  · rw [← BitVec.setWidth_cons (a := c) (x := x), same, BitVec.setWidth_cons]
  · rw [← BitVec.msb_cons (a := c) (x := x), same, BitVec.msb_cons]

end Ring

namespace ShiftOp

section Move

variable (v : BitVec n) (bit : Bool)

theorem getLsbD_lowEnd {i : Nat} (inside : i < n) :
    (move.lowEnd v bit).getLsbD i = if i = 0 then bit else v.getLsbD (i - 1) := by
  rw [move.lowEnd, BitVec.getLsbD_setWidth, decide_eq_true inside, Bool.true_and,
    BitVec.getLsbD_concat]

theorem getLsbD_highEnd {i : Nat} (inside : i < n) :
    (move.highEnd v bit).getLsbD i = if i + 1 = n then bit else v.getLsbD (i + 1) := by
  rw [move.highEnd, BitVec.getLsbD_extractLsb', decide_eq_true inside, Bool.true_and,
    BitVec.getLsbD_cons, Nat.add_comm]

/-- A ring turned left by one place begins with the bit that it ended with. -/
theorem getLsbD_rotateLeft_one {i : Nat} (inside : i < n) :
    (v.rotateLeft 1).getLsbD i = if i = 0 then v.msb else v.getLsbD (i - 1) := by
  cases i with
  | zero =>
    have last := getLsbD_rotateLeft_ring v 1 (Nat.sub_one_lt_of_lt inside)
    rw [Nat.sub_add_cancel inside, Nat.mod_self] at last
    rw [if_pos rfl, last, BitVec.msb_eq_getLsbD_last]
  | succ i =>
    have next := getLsbD_rotateLeft_ring v 1 (Nat.lt_of_succ_lt inside)
    rwa [Nat.mod_eq_of_lt inside] at next

theorem getLsbD_rotateRight_one {i : Nat} (inside : i < n) :
    (v.rotateRight 1).getLsbD i = if i + 1 = n then v.getLsbD 0 else v.getLsbD (i + 1) := by
  rw [getLsbD_rotateRight_ring v 1 inside]
  by_cases last : i + 1 = n
  · rw [if_pos last, last, Nat.mod_self]
  · rw [if_neg last, Nat.mod_eq_of_lt (by omega)]

theorem lowEnd_msb : move.lowEnd v v.msb = v.rotateLeft 1 := by
  apply BitVec.eq_of_getLsbD_eq
  intro i inside
  rw [getLsbD_lowEnd v _ inside, getLsbD_rotateLeft_one v inside]

theorem highEnd_low : move.highEnd v (v.getLsbD 0) = v.rotateRight 1 := by
  apply BitVec.eq_of_getLsbD_eq
  intro i inside
  rw [getLsbD_highEnd v _ inside, getLsbD_rotateRight_one v inside]

theorem cons_lowEnd (wide : 0 < n) :
    BitVec.cons v.msb (move.lowEnd v bit) = (BitVec.cons bit v).rotateLeft 1 := by
  apply BitVec.eq_of_getLsbD_eq
  intro i inside
  rw [getLsbD_rotateLeft_one _ inside, BitVec.getLsbD_cons, BitVec.getLsbD_cons, BitVec.msb_cons]
  by_cases top : i = n
  · rw [if_pos top, if_neg (by omega), if_neg (by omega), BitVec.msb_eq_getLsbD_last, top]
  · rw [if_neg top, getLsbD_lowEnd v bit (by omega), if_neg (c := i - 1 = n) (by omega)]

theorem cons_highEnd (wide : 0 < n) :
    BitVec.cons (v.getLsbD 0) (move.highEnd v bit) = (BitVec.cons bit v).rotateRight 1 := by
  apply BitVec.eq_of_getLsbD_eq
  intro i inside
  rw [getLsbD_rotateRight_one _ inside]
  simp only [BitVec.getLsbD_cons]
  by_cases top : i = n
  · rw [if_pos top, if_pos (by omega), if_neg (by omega)]
  · rw [if_neg top, if_neg (by omega), getLsbD_highEnd v bit (by omega)]

theorem lowEnd_false : move.lowEnd v false = v <<< 1 := by
  apply BitVec.eq_of_getLsbD_eq
  intro i inside
  rw [getLsbD_lowEnd v _ inside, BitVec.getLsbD_shiftLeft, decide_eq_true inside, Bool.true_and]
  cases i <;> rfl

theorem highEnd_false : move.highEnd v false = v >>> 1 := by
  apply BitVec.eq_of_getLsbD_eq
  intro i inside
  rw [getLsbD_highEnd v _ inside, BitVec.getLsbD_ushiftRight, Nat.add_comm]
  by_cases last : 1 + i = n
  · rw [if_pos last, BitVec.getLsbD_of_ge v _ (Nat.le_of_eq last.symm)]
  · rw [if_neg last]

theorem highEnd_msb : move.highEnd v v.msb = v.sshiftRight 1 := by
  apply BitVec.eq_of_getLsbD_eq
  intro i inside
  rw [getLsbD_highEnd v _ inside, BitVec.getLsbD_sshiftRight, decide_eq_false (by omega),
    Nat.add_comm]
  by_cases last : 1 + i = n
  · rw [if_pos last, if_neg (by omega)]; rfl
  · rw [if_neg last, if_pos (by omega)]; rfl

end Move

section Run

variable (op : ShiftOp)

theorem moveBy_succ (k : Nat) (s : BitVec n × Bool) :
    op.moveBy (k + 1) s = op.move (op.moveBy k s) := by
  induction k generalizing s with
  | zero => rfl
  | succ k ih => exact ih (op.move s)

/-- What is seen of a run of moves is a closed form of their number, if one move is seen as one
place and places add up. -/
theorem see_moveBy {α : Type} (see : BitVec n × Bool → α) (places : α → Nat → α)
    (none : ∀ a, places a 0 = a) (add : ∀ a j k, places a (j + k) = places (places a j) k)
    (one : ∀ s, see (op.move s) = places (see s) 1) (k : Nat) (s : BitVec n × Bool) :
    see (op.moveBy k s) = places (see s) k := by
  induction k with
  | zero => exact (none (see s)).symm
  | succ k ih => rw [moveBy_succ, one, ih, add]

end Run

/-- Where so many places, one or more, bring an operand and the carry flag. -/
def Shifted (op : ShiftOp) (k : Nat) (v : BitVec n) (carry : Bool) (r : BitVec n) (out : Bool) :
    Prop :=
  match op with
  | rotateLeft => r = v.rotateLeft (k % n) ∧ out = r.getLsbD 0
  | rotateRight => r = v.rotateRight (k % n) ∧ out = r.msb
  | rotateLeftCarry => r.cons out = (v.cons carry).rotateLeft (k % (n + 1))
  | rotateRightCarry => r.cons out = (v.cons carry).rotateRight (k % (n + 1))
  | shiftLeft => r.toNat = v.toNat * 2 ^ k % 2 ^ n ∧ out = (v.toNat * 2 ^ k).testBit n
  | shiftRight => r.toNat = v.toNat / 2 ^ k ∧ out = (v.setWidth (n + k)).getLsbD (k - 1)
  | shiftRightSigned =>
    r.toInt = v.toInt / (2 ^ k : Nat) ∧ out = (v.signExtend (n + k)).getLsbD (k - 1)

def Moved (op : ShiftOp) (k : Nat) (s : BitVec n × Bool) : Prop :=
  op.Shifted k s.1 s.2 (op.moveBy k s).1 (op.moveBy k s).2

section Closed

variable (k : Nat) (s : BitVec n × Bool)

theorem rotateLeft_moveBy (wide : 0 < n) : rotateLeft.Moved (k + 1) s := by
  constructor
  · rw [BitVec.rotateLeft_mod_eq_rotateLeft]
    exact see_moveBy rotateLeft Prod.fst BitVec.rotateLeft rotateLeft_zero rotateLeft_add
      (fun s => lowEnd_msb s.1) (k + 1) s
  · rw [moveBy_succ]
    exact (getLsbD_lowEnd _ _ wide).symm

theorem rotateRight_moveBy (wide : 0 < n) : rotateRight.Moved (k + 1) s := by
  constructor
  · rw [BitVec.rotateRight_mod_eq_rotateRight]
    exact see_moveBy rotateRight Prod.fst BitVec.rotateRight rotateRight_zero rotateRight_add
      (fun s => highEnd_low s.1) (k + 1) s
  · rw [moveBy_succ, BitVec.msb_eq_getLsbD_last]
    exact ((getLsbD_highEnd _ _ (Nat.sub_one_lt_of_lt wide)).trans
      (if_pos (Nat.sub_add_cancel wide))).symm

theorem rotateLeftCarry_moveBy (wide : 0 < n) : rotateLeftCarry.Moved (k + 1) s := by
  show _ = BitVec.rotateLeft _ _
  rw [BitVec.rotateLeft_mod_eq_rotateLeft]
  exact see_moveBy rotateLeftCarry (fun s => s.1.cons s.2) BitVec.rotateLeft rotateLeft_zero
    rotateLeft_add (fun s => cons_lowEnd s.1 s.2 wide) (k + 1) s

theorem rotateRightCarry_moveBy (wide : 0 < n) : rotateRightCarry.Moved (k + 1) s := by
  show _ = BitVec.rotateRight _ _
  rw [BitVec.rotateRight_mod_eq_rotateRight]
  exact see_moveBy rotateRightCarry (fun s => s.1.cons s.2) BitVec.rotateRight rotateRight_zero
    rotateRight_add (fun s => cons_highEnd s.1 s.2 wide) (k + 1) s

theorem shiftLeft_moveBy (wide : 0 < n) : shiftLeft.Moved (k + 1) s := by
  have value (k) : (shiftLeft.moveBy k s).1 = s.1 <<< k :=
    see_moveBy shiftLeft Prod.fst BitVec.shiftLeft BitVec.shiftLeft_zero BitVec.shiftLeft_add
      (fun s => lowEnd_false s.1) k s
  constructor
  · rw [value, BitVec.toNat_shiftLeft, Nat.shiftLeft_eq]
  · rw [moveBy_succ]
    show (shiftLeft.moveBy k s).1.msb = _
    have enough : k ≤ n - 1 ↔ k + 1 ≤ n := by omega
    rw [value, BitVec.msb_eq_getLsbD_last, BitVec.getLsbD_shiftLeft, Nat.testBit_mul_two_pow,
      decide_eq_true (Nat.sub_one_lt_of_lt wide), Bool.true_and, ← decide_not]
    simp only [Nat.not_lt, enough, Nat.sub_sub, Nat.add_comm 1]
    rfl

theorem shiftRight_moveBy : shiftRight.Moved (k + 1) s := by
  have value (k) : (shiftRight.moveBy k s).1 = s.1 >>> k :=
    see_moveBy shiftRight Prod.fst BitVec.ushiftRight BitVec.ushiftRight_zero BitVec.shiftRight_add
      (fun s => highEnd_false s.1) k s
  constructor
  · rw [value, BitVec.toNat_ushiftRight, Nat.shiftRight_eq_div_pow]
  · rw [moveBy_succ]
    show (shiftRight.moveBy k s).1.getLsbD 0 = _
    rw [value, BitVec.getLsbD_ushiftRight, BitVec.getLsbD_setWidth, decide_eq_true (by omega),
      Bool.true_and]
    rfl

theorem shiftRightSigned_moveBy (wide : 0 < n) : shiftRightSigned.Moved (k + 1) s := by
  have value (k) : (shiftRightSigned.moveBy k s).1 = s.1.sshiftRight k :=
    see_moveBy shiftRightSigned Prod.fst BitVec.sshiftRight
      (fun _ => BitVec.sshiftRight_zero) (fun _ _ _ => BitVec.sshiftRight_add)
      (fun s => highEnd_msb s.1) k s
  constructor
  · rw [value, BitVec.toInt_sshiftRight, Int.shiftRight_eq_div_pow]
  · rw [moveBy_succ]
    show (shiftRightSigned.moveBy k s).1.getLsbD 0 = _
    have inside : k < n + (k + 1) := by omega
    rw [value, BitVec.getLsbD_sshiftRight, BitVec.getLsbD_signExtend, Nat.add_sub_cancel,
      decide_eq_true inside, decide_eq_false (Nat.not_le_of_lt wide)]
    rfl

end Closed

theorem moved (op : ShiftOp) (wide : 0 < n) (k : Nat) (s : BitVec n × Bool) :
    op.Moved (k + 1) s := by
  cases op with
  | rotateLeft => exact rotateLeft_moveBy k s wide
  | rotateRight => exact rotateRight_moveBy k s wide
  | rotateLeftCarry => exact rotateLeftCarry_moveBy k s wide
  | rotateRightCarry => exact rotateRightCarry_moveBy k s wide
  | shiftLeft => exact shiftLeft_moveBy k s wide
  | shiftRight => exact shiftRight_moveBy k s
  | shiftRightSigned => exact shiftRightSigned_moveBy k s wide

def back? : ShiftOp → Option ShiftOp
  | rotateLeft => rotateRight
  | rotateRight => rotateLeft
  | rotateLeftCarry => rotateRightCarry
  | rotateRightCarry => rotateLeftCarry
  | _ => none

def throughCarry : ShiftOp → Bool
  | rotateLeftCarry | rotateRightCarry => true
  | _ => false

/-- There and back again. Over the carry flag, it comes back as well. -/
theorem Shifted.back {op back : ShiftOp} (rotation : op.back? = some back) {k : Nat}
    {v r u : BitVec n} {c d e : Bool} (there : op.Shifted k v c r d)
    (again : back.Shifted k r d u e) : u = v ∧ (op.throughCarry → e = c) := by
  cases op <;> cases rotation <;>
    simp only [Shifted, BitVec.rotateLeft_mod_eq_rotateLeft, BitVec.rotateRight_mod_eq_rotateRight]
      at there again
  case rotateLeft =>
    rw [again.1, there.1, rotateRight_rotateLeft]
    exact ⟨rfl, nofun⟩
  case rotateRight =>
    rw [again.1, there.1, rotateLeft_rotateRight]
    exact ⟨rfl, nofun⟩
  case rotateLeftCarry =>
    rw [there, rotateRight_rotateLeft] at again
    obtain ⟨value, carry⟩ := eq_of_cons again
    exact ⟨value, fun _ => carry⟩
  case rotateRightCarry =>
    rw [there, rotateLeft_rotateRight] at again
    obtain ⟨value, carry⟩ := eq_of_cons again
    exact ⟨value, fun _ => carry⟩

end ShiftOp

section Shift

variable (op : ShiftOp) (v : BitVec n) (count : Byte) (f : Flags)

theorem shift_none (none : (count &&& 31).toNat = 0) : shift op v count f = (v, f) :=
  if_pos none

theorem shift_some (some : (count &&& 31).toNat ≠ 0) :
    shift op v count f =
      let (r, carry) := op.moveBy (count &&& 31).toNat (v, f.carry)
      (r, { if op.describesResult then f.describe r else f with
        carry, overflow := (v ^^^ r).msb }) :=
  if_neg some

/-- What a shift says about its result. -/
theorem shift_describes (some : (count &&& 31).toNat ≠ 0) :
    let done := shift op v count f
    done.2.overflow = (done.1.msb != v.msb) ∧
    (done.2.zero, done.2.sign, done.2.parity) = if op.describesResult
      then (done.1 == 0, done.1.msb, evenParity (done.1.setWidth 8))
      else (f.zero, f.sign, f.parity) := by
  rw [shift_some op v count f some]
  constructor
  · exact (BitVec.msb_xor ..).trans (Bool.xor_comm ..)
  · cases op.describesResult <;> rfl

theorem shift_keeps :
    let g := (shift op v count f).2
    g.auxCarry = f.auxCarry ∧ g.interrupt = f.interrupt ∧ g.trap = f.trap ∧
      g.direction = f.direction := by
  by_cases places : (count &&& 31).toNat = 0
  · rw [shift_none op v count f places]
    exact ⟨rfl, rfl, rfl, rfl⟩
  · rw [shift_some op v count f places]
    cases op.describesResult <;> exact ⟨rfl, rfl, rfl, rfl⟩

theorem shift_shifted (wide : 0 < n) (some : (count &&& 31).toNat ≠ 0) :
    let done := shift op v count f
    op.Shifted (count &&& 31).toNat v f.carry done.1 done.2.carry := by
  obtain ⟨k, places⟩ := Nat.exists_eq_succ_of_ne_zero some
  have moved := op.moved wide k (v, f.carry)
  rw [ShiftOp.Moved, ← Nat.succ_eq_add_one, ← places] at moved
  rw [shift_some op v count f some]
  exact moved

theorem shift_back (wide : 0 < n) {back : ShiftOp} (rotation : op.back? = some back) :
    let there := shift op v count f
    let again := shift back there.1 count there.2
    again.1 = v ∧ (op.throughCarry → again.2.carry = f.carry) := by
  by_cases places : (count &&& 31).toNat = 0
  · rw [shift_none op v count f places]
    dsimp only
    rw [shift_none back v count f places]
    exact ⟨rfl, fun _ => rfl⟩
  · exact (shift_shifted op v count f wide places).back rotation
      (shift_shifted back _ count _ wide places)

end Shift

/-- A shift of so many places at once, at either width, by a count of five bits. Value and carry
are where the places bring them, and a rotation is undone by one the other way. -/
theorem shift_closed_form (op : ShiftOp) (w : Width) (v : Operand w) (count : Byte) (f : Flags) :
    let k := (count &&& 31).toNat
    let (r, g) := shift op v count f
    (k = 0 → r = v ∧ g = f) ∧
    (k ≠ 0 →
      op.Shifted k v f.carry r g.carry ∧
      g.overflow = (r.msb != v.msb) ∧
      (g.zero, g.sign, g.parity) = if op.describesResult
        then (r == 0, r.msb, evenParity (r.setWidth 8)) else (f.zero, f.sign, f.parity)) ∧
    (g.auxCarry = f.auxCarry ∧ g.interrupt = f.interrupt ∧ g.trap = f.trap ∧
      g.direction = f.direction) ∧
    ∀ back, op.back? = some back →
      let (u, h) := shift back r count g
      u = v ∧ (op.throughCarry → h.carry = f.carry) := by
  refine ⟨?_, ?_, shift_keeps op v count f, ?_⟩
  · intro none
    exact Prod.ext_iff.mp (shift_none op v count f none)
  · intro some
    exact ⟨shift_shifted op v count f w.bits_pos some, shift_describes op v count f some⟩
  · intro back rotation
    exact shift_back op v count f w.bits_pos rotation

/-- Ten places on eight bits and the carry flag are one, and ten the other way take them back. -/
theorem shift_closed_form_around :
    let there := shift .rotateLeftCarry (0x81 : Operand .byte) 42 {}
    let again := shift .rotateRightCarry there.1 42 there.2
    there.1.cons there.2.carry = (0x102 : BitVec 9) ∧ again.1 = 0x81 ∧ again.2.carry = false := by
  intro there again
  obtain ⟨-, moved, -, back⟩ := shift_closed_form .rotateLeftCarry .byte 0x81 42 {}
  obtain ⟨value, carry⟩ := back .rotateRightCarry rfl
  exact ⟨(moved (by decide)).1.trans (by decide), value, carry rfl⟩

end Swan.Arithmetic
