import Swan.Word

/-! A memory holds one byte for every `k`-bit address, so no access is ever out of
range. It is observed through `read` alone: two memories that read alike are equal. -/
namespace Swan

structure Memory (k : Nat) where
  bytes : ByteArray
  size_bytes : bytes.size = 1 <<< k

namespace Memory

variable {k : Nat}

def zero : Memory k where
  bytes := ⟨Array.replicate (1 <<< k) 0⟩
  size_bytes := Array.size_replicate

instance : Inhabited (Memory k) := ⟨zero⟩

theorem inRange (m : Memory k) (a : BitVec k) : a.toNat < m.bytes.size := by
  rw [m.size_bytes, Nat.one_shiftLeft]
  exact a.isLt

def read (m : Memory k) (a : BitVec k) : Byte :=
  (m.bytes.get a.toNat (m.inRange a)).toBitVec

def write (m : Memory k) (a : BitVec k) (v : Byte) : Memory k where
  bytes := m.bytes.set a.toNat ⟨v⟩ (m.inRange a)
  size_bytes := by
    rw [← m.size_bytes, ← ByteArray.size_data, ByteArray.data_set, Array.size_set,
      ByteArray.size_data]

@[simp] theorem read_zero (a : BitVec k) : (zero : Memory k).read a = 0 :=
  congrArg UInt8.toBitVec (Array.getElem_replicate _)

theorem read_write (m : Memory k) (a b : BitVec k) (v : Byte) :
    (m.write a v).read b = if b = a then v else m.read b := by
  have get : (m.write a v).read b
      = (if a.toNat = b.toNat then ⟨v⟩ else m.bytes.get b.toNat (m.inRange b)).toBitVec :=
    congrArg UInt8.toBitVec (Array.getElem_set (m.inRange a) _)
  rw [get]
  by_cases h : b = a
  · rw [if_pos (congrArg BitVec.toNat h.symm), if_pos h]
  · rw [if_neg fun eq => h (BitVec.eq_of_toNat_eq eq.symm), if_neg h, read]

@[simp] theorem read_write_self (m : Memory k) (a : BitVec k) (v : Byte) :
    (m.write a v).read a = v := by
  rw [read_write, if_pos rfl]

theorem read_write_of_ne (m : Memory k) {a b : BitVec k} (v : Byte) (h : b ≠ a) :
    (m.write a v).read b = m.read b := by
  rw [read_write, if_neg h]

@[ext] theorem ext {m m' : Memory k} (h : ∀ a, m.read a = m'.read a) : m = m' := by
  obtain ⟨bytes, size⟩ := m
  obtain ⟨bytes', size'⟩ := m'
  have eq : bytes = bytes' := by
    apply ByteArray.ext_getElem (size.trans size'.symm)
    intro i hi hi'
    have lt : i < 1 <<< k := size ▸ hi
    obtain ⟨a, rfl⟩ : ∃ a : BitVec k, a.toNat = i :=
      ⟨BitVec.ofNat k i, by rw [BitVec.toNat_ofNat, ← Nat.one_shiftLeft, Nat.mod_eq_of_lt lt]⟩
    exact UInt8.toBitVec_inj.mp (h a)
  subst eq
  rfl

def load (m : Memory k) (start : BitVec k) : List Byte → Memory k
  | [] => m
  | b :: rest => (m.write start b).load (start + 1) rest

/-- The bytes at `n` consecutive addresses. -/
def slice (m : Memory k) (start : BitVec k) (n : Nat) : List Byte :=
  (List.range n).map fun i => m.read (start + BitVec.ofNat k i)

end Memory

end Swan
