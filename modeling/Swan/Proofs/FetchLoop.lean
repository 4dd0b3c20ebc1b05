import Swan.Proofs.StepEquation

/-! Fetching the prefixes and the opcode of an instruction from a bus that reading leaves
alone. A code segment that holds an opcode anywhere is read up to the first one, which is
fewer bytes away than a segment has. -/
namespace Swan

/-- Reading leaves the bus alone, and answers what a view of its memory shows. -/
def Steady {β : Type} [Bus β] (b : β) (view : Address → Byte) : Prop :=
  ∀ a, Bus.read b a = (view a, b)

def Codes (view : Address → Byte) (segment : Word) : (offset : Word) → List Byte → Prop
  | _, [] => True
  | offset, v :: rest => view (physical segment offset) = v ∧ Codes view segment (offset + 1) rest

/-- The code that a fetch meets: prefixes, and then a byte that is none. -/
structure Meets (view : Address → Byte) (r : Registers) (prefixes : List Byte) (opcode : Byte) :
    Prop where
  code : Codes view r.cs r.ip (prefixes ++ [opcode])
  queued : ∀ b ∈ prefixes, isPrefix b = true
  plain : isPrefix opcode = false

/-- The code segment holds a byte that is no prefix. -/
def Legible (view : Address → Byte) (r : Registers) : Prop :=
  ∃ offset, isPrefix (view (physical r.cs offset)) = false

theorem Word.add_one_ofNat (a : Word) (n : Nat) :
    a + 1 + BitVec.ofNat 16 n = a + BitVec.ofNat 16 (n + 1) := by
  rw [BitVec.ofNat_add, BitVec.add_assoc, BitVec.add_comm 1]
  rfl

theorem Codes.append {view : Address → Byte} {segment offset : Word} {front back : List Byte}
    (codes : Codes view segment offset (front ++ back)) :
    Codes view segment (offset + BitVec.ofNat 16 front.length) back := by
  induction front generalizing offset with
  | nil => simpa using codes
  | cons v rest ih =>
    rw [List.length_cons, ← Word.add_one_ofNat]
    exact ih codes.2

theorem Codes.front {view : Address → Byte} {segment offset : Word} {front back : List Byte}
    (codes : Codes view segment offset (front ++ back)) : Codes view segment offset front := by
  induction front generalizing offset with
  | nil => trivial
  | cons v rest ih => exact ⟨codes.1, ih codes.2⟩

theorem Codes.getElem {view : Address → Byte} {segment offset : Word} {code : List Byte}
    (codes : Codes view segment offset code) {i : Nat} (bound : i < code.length) :
    view (physical segment (offset + BitVec.ofNat 16 i)) = code[i] := by
  have tail : Codes view segment (offset + BitVec.ofNat 16 i) (code.drop i) := by
    have split := codes
    rw [← List.take_append_drop i code] at split
    simpa [Nat.min_eq_left (Nat.le_of_lt bound)] using split.append
  rw [List.drop_eq_getElem_cons bound] at tail
  exact tail.1

/-- A code segment that holds an opcode after prefixes has fewer prefixes than bytes. -/
theorem Meets.length_lt {view : Address → Byte} {r : Registers} {prefixes : List Byte}
    {opcode : Byte} (meets : Meets view r prefixes opcode) :
    prefixes.length < Exec.fetchLimit := by
  apply Nat.lt_of_not_le
  intro long
  have before : prefixes.length - Exec.fetchLimit < prefixes.length := by
    simp only [Exec.fetchLimit] at *
    omega
  have wrapped : BitVec.ofNat 16 (prefixes.length - Exec.fetchLimit) =
      BitVec.ofNat 16 prefixes.length := by
    apply BitVec.eq_of_toNat_eq
    simp only [BitVec.toNat_ofNat, Exec.fetchLimit] at *
    omega
  have atOpcode : view (physical r.cs (r.ip + BitVec.ofNat 16 prefixes.length)) = opcode := by
    simpa using meets.code.getElem (i := prefixes.length) (by simp)
  have atPrefix := meets.code.getElem (i := prefixes.length - Exec.fetchLimit)
    (by rw [List.length_append]; omega)
  rw [wrapped, atOpcode, List.getElem_append_left before] at atPrefix
  have plain := meets.plain
  rw [atPrefix, meets.queued _ (List.getElem_mem before)] at plain
  contradiction

/-- Every prefix on the way to a byte that is none brings it one closer. -/
theorem meets_within {view : Address → Byte} {r : Registers} {offset : Word}
    (plain : isPrefix (view (physical r.cs offset)) = false) {distance : Nat}
    (away : (offset - r.ip).toNat = distance) :
    ∃ prefixes opcode, prefixes.length ≤ distance ∧ Meets view r prefixes opcode := by
  induction distance generalizing r with
  | zero =>
    have here : offset = r.ip := by bv_omega
    subst here
    exact ⟨[], _, Nat.le_refl 0, ⟨rfl, trivial⟩, nofun, plain⟩
  | succ distance ih =>
    rcases first : isPrefix (view (physical r.cs r.ip)) with _ | _
    · exact ⟨[], _, Nat.zero_le _, ⟨rfl, trivial⟩, nofun, first⟩
    · have nearer : (offset - (r.ip + 1)).toNat = distance := by bv_omega
      obtain ⟨prefixes, opcode, short, meets⟩ := ih (r := { r with ip := r.ip + 1 }) plain nearer
      refine ⟨view (physical r.cs r.ip) :: prefixes, opcode, Nat.succ_le_succ short, ?_⟩
      exact ⟨⟨rfl, meets.code⟩, List.forall_mem_cons.mpr ⟨first, meets.queued⟩, meets.plain⟩

theorem Legible.meets {view : Address → Byte} {r : Registers} (legible : Legible view r) :
    ∃ prefixes opcode, prefixes.length ≤ 65535 ∧ Meets view r prefixes opcode := by
  obtain ⟨offset, plain⟩ := legible
  obtain ⟨prefixes, opcode, short, meets⟩ := meets_within plain rfl
  exact ⟨prefixes, opcode, Nat.le_trans short (Nat.le_of_lt_succ (offset - r.ip).isLt), meets⟩

namespace Exec

variable {β : Type} [Bus β]

theorem fetchByte_steady {c : Core β} {view : Address → Byte} (steady : Steady c.bus view) :
    fetchByte c = (view c.cpu.regs.codeAddress,
      ⟨{ c.cpu with regs := { c.cpu.regs with ip := c.cpu.regs.ip + 1 } }, c.bus⟩) := by
  simp only [fetchByte, steady c.cpu.regs.codeAddress]

/-- What the loop fetches, and where it leaves the processor. -/
theorem fetchOpcode?_meets {prefixes : List Byte} {opcode : Byte} {view : Address → Byte}
    {c : Core β} (steady : Steady c.bus view) (meets : Meets view c.cpu.regs prefixes opcode)
    {limit : Nat} (enough : prefixes.length < limit) (fetched : Nat) :
    fetchOpcode? fetched limit c = (some (opcode, fetched + prefixes.length), ⟨{ c.cpu with
      regs := { c.cpu.regs with ip := c.cpu.regs.ip + BitVec.ofNat 16 (prefixes.length + 1) }
      prefixes := c.cpu.prefixes.pushAll prefixes }, c.bus⟩) := by
  obtain ⟨code, queued, plain⟩ := meets
  induction prefixes generalizing fetched limit c with
  | nil =>
    obtain ⟨limit, rfl⟩ := Nat.exists_eq_succ_of_ne_zero (Nat.ne_of_gt enough)
    rw [fetchOpcode?, bind_apply, fetchByte_steady steady,
      show view c.cpu.regs.codeAddress = opcode from code.1, plain]
    rfl
  | cons b rest ih =>
    obtain ⟨limit, rfl⟩ := Nat.exists_eq_succ_of_ne_zero (Nat.ne_of_gt (Nat.zero_lt_of_lt enough))
    obtain ⟨first, others⟩ := List.forall_mem_cons.mp queued
    rw [fetchOpcode?, bind_apply, fetchByte_steady steady,
      show view c.cpu.regs.codeAddress = b from code.1, first, if_pos rfl, bind_apply]
    let d : Core β := ⟨{ c.cpu with
      regs := { c.cpu.regs with ip := c.cpu.regs.ip + 1 }
      prefixes := c.cpu.prefixes.push b }, c.bus⟩
    have next : fetchOpcode? (fetched + 1) limit d = _ :=
      ih (c := d) steady (Nat.lt_of_succ_lt_succ enough) (fetched + 1) code.2 others
    rw [Word.add_one_ofNat] at next
    rw [show fetched + (b :: rest).length = fetched + 1 + rest.length by
      rw [List.length_cons]; omega]
    exact next

end Exec

end Swan
