/-! The words of a machine with byte-wide memory, 16-bit registers and a 20-bit
address space, and the two operand widths an instruction can work at. -/
namespace Swan

abbrev Byte := BitVec 8

abbrev Word := BitVec 16

/-- A physical address: the low twenty bits of what a host names, so that sums wrap at
one megabyte. -/
abbrev Address := BitVec 20

namespace Word

/-- Memory holds the low byte of a word first. -/
def ofBytes (low high : Byte) : Word := high ++ low

def low (w : Word) : Byte := w.setWidth 8

def high (w : Word) : Byte := w.extractLsb' 8 8

/-- An eight-bit displacement or immediate, widened with its sign. -/
def ofSigned (b : Byte) : Word := b.signExtend 16

theorem toNat_ofBytes (l h : Byte) : (ofBytes l h).toNat = h.toNat * 256 + l.toNat := by
  show (h ++ l).toNat = _
  rw [BitVec.toNat_append, ← Nat.shiftLeft_add_eq_or_of_lt l.isLt, Nat.shiftLeft_eq]

theorem toNat_low (w : Word) : w.low.toNat = w.toNat % 256 := by simp [low]

theorem toNat_high (w : Word) : w.high.toNat = w.toNat / 256 := by
  have := w.isLt
  simp only [high, BitVec.extractLsb'_toNat, Nat.shiftRight_eq_div_pow]
  omega

@[simp] theorem low_ofBytes (l h : Byte) : low (ofBytes l h) = l := by
  apply BitVec.eq_of_toNat_eq
  rw [toNat_low, toNat_ofBytes]
  have := l.isLt
  omega

@[simp] theorem high_ofBytes (l h : Byte) : high (ofBytes l h) = h := by
  apply BitVec.eq_of_toNat_eq
  rw [toNat_high, toNat_ofBytes]
  have := l.isLt
  omega

@[simp] theorem ofBytes_low_high (w : Word) : ofBytes (low w) (high w) = w := by
  apply BitVec.eq_of_toNat_eq
  rw [toNat_ofBytes, toNat_low, toNat_high]
  omega

end Word

/-- The address of an offset inside a segment: a segment starts every sixteen bytes. -/
def physical (segment offset : Word) : Address :=
  BitVec.ofNat 20 (segment.toNat * 16 + offset.toNat)

theorem toNat_physical (segment offset : Word) :
    (physical segment offset).toNat = (segment.toNat * 16 + offset.toNat) % 0x100000 := by
  simp [physical]

/-- Inside one segment, different offsets name different bytes. -/
theorem physical_right_inj {segment a b : Word} :
    physical segment a = physical segment b ↔ a = b := by
  constructor
  · intro eq
    have h := congrArg BitVec.toNat eq
    simp only [toNat_physical] at h
    apply BitVec.eq_of_toNat_eq
    have ha := a.isLt
    have hb := b.isLt
    have hs := segment.isLt
    omega
  · rintro rfl; rfl

inductive Width where
  | byte
  | word
  deriving DecidableEq, Repr

namespace Width

@[reducible] def bits : Width → Nat
  | byte => 8
  | word => 16

@[reducible] def bytes : Width → Nat
  | byte => 1
  | word => 2

theorem bits_pos (w : Width) : 0 < w.bits := by cases w <;> decide

end Width

abbrev Operand (w : Width) := BitVec w.bits

end Swan
