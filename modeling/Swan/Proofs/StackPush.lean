import Swan.Proofs.EffectTable
import Swan.Proofs.HiddenMemory

/-! What the instructions that push leave below the stack. A count of pushes says where the
stack pointer goes and bounds what is stored: the words between the new stack pointer and the
old one. Counts add up under sequencing. -/
namespace Swan

theorem Flat.exists_of_mem_span {segment offset : Word} {n : Nat} {a : Address}
    (member : a ∈ span segment offset n) :
    ∃ i < n, a = physical segment (offset + BitVec.ofNat 16 i) := by
  induction n generalizing offset with
  | zero => cases member
  | succ n ih =>
    rcases List.mem_cons.mp member with rfl | later
    · exact ⟨0, Nat.zero_lt_succ n, by simp⟩
    · obtain ⟨i, bound, rfl⟩ := ih later
      exact ⟨i + 1, Nat.succ_lt_succ bound, by rw [Word.add_one_ofNat]⟩

def Registers.stackWords (r : Registers) (n : Nat) : List Address :=
  Flat.span r.ss (r.sp - BitVec.ofNat 16 (2 * n)) (2 * n)

/-- Of more words, fewer are the upper part. -/
theorem Registers.stackWords_subset (r : Registers) (m n : Nat) :
    r.stackWords m ⊆ r.stackWords (m + n) := by
  intro a member
  obtain ⟨i, bound, rfl⟩ := Flat.exists_of_mem_span member
  have place : r.sp - BitVec.ofNat 16 (2 * m) + BitVec.ofNat 16 i =
      r.sp - BitVec.ofNat 16 (2 * (m + n)) + BitVec.ofNat 16 (2 * n + i) := by bv_omega
  rw [place]
  exact Flat.mem_span _ _ (by omega)

theorem ModRM.isMemory_place (m : ModRM) (r : Registers) (q : PrefixQueue)
    (displacement : List Byte) : (m.place r q displacement).isMemory = !m.isRegister := by
  unfold place
  split <;> rename_i register
  · rw [register]
    rfl
  · rw [Bool.not_eq_true] at register
    rw [register]
    rfl

namespace Core

/-- Words are pushed, and nothing else is stored. -/
structure Pushes (n : Nat) (c d : Core Flat) : Prop where
  sp : d.cpu.regs.sp = c.cpu.regs.sp - BitVec.ofNat 16 (2 * n)
  ss : d.cpu.regs.ss = c.cpu.regs.ss
  memory : ∀ a ∉ c.cpu.regs.stackWords n, d.bus.read a = c.bus.read a

namespace Pushes

variable {m n : Nat} {c d e : Core Flat}

theorem refl (c : Core Flat) : Pushes 0 c c := ⟨by simp, rfl, fun _ _ => rfl⟩

/-- The words below a stack that has grown lie below the old one. -/
theorem stackWords_subset (first : Pushes m c d) (n : Nat) :
    d.cpu.regs.stackWords n ⊆ c.cpu.regs.stackWords (m + n) := by
  intro a member
  obtain ⟨i, bound, rfl⟩ := Flat.exists_of_mem_span member
  have place : d.cpu.regs.sp - BitVec.ofNat 16 (2 * n) =
      c.cpu.regs.sp - BitVec.ofNat 16 (2 * (m + n)) := by
    rw [first.sp]
    bv_omega
  rw [place, first.ss]
  exact Flat.mem_span _ _ (by omega)

theorem trans (first : Pushes m c d) (second : Pushes n d e) : Pushes (m + n) c e where
  sp := by
    rw [second.sp, first.sp]
    bv_omega
  ss := second.ss.trans first.ss
  memory a outside :=
    (second.memory a fun member => outside (first.stackWords_subset n member)).trans
      (first.memory a fun member => outside (c.cpu.regs.stackWords_subset m n member))

theorem of_skips (skips : c.Skips m d) : Pushes 0 c d where
  sp := by
    rw [skips.cpu]
    simp [moveTo]
  ss := by
    rw [skips.cpu]
    rfl
  memory _ _ := by rw [skips.bus.flat]

end Pushes

end Core

namespace Exec

open Swan.Core

variable {n : Nat} {c d : Core Flat} {operands : List Byte}

theorem push_pushes (v : Word) (c : Core Flat) : Pushes 1 c (push v c).2 :=
  ⟨rfl, rfl, fun _ outside => Flat.read_put_of_not_mem (w := .word) _ v outside⟩

theorem pushReturnAddress_pushes (c : Core Flat) : Pushes 2 c (pushReturnAddress c).2 :=
  (push_pushes c.cpu.regs.cs c).trans (push_pushes _ _)

theorem pushAll_pushes (c : Core Flat) : Pushes 8 c (pushAll c).2 :=
  (push_pushes c.cpu.regs.ax c).trans (push_pushes c.cpu.regs.cx _)
    |>.trans (push_pushes c.cpu.regs.dx _) |>.trans (push_pushes c.cpu.regs.bx _)
    |>.trans (push_pushes c.cpu.regs.sp _) |>.trans (push_pushes c.cpu.regs.bp _)
    |>.trans (push_pushes c.cpu.regs.si _) |>.trans (push_pushes c.cpu.regs.di _)

/-- One pointer is pushed for each enclosing frame. -/
theorem copyFramePointers_pushes (n : Nat) (c : Core Flat) :
    Pushes n c (enter.copyFramePointers n c).2 := by
  induction n generalizing c with
  | zero => exact .refl c
  | succ n ih =>
    let d : Core Flat := ⟨{ c.cpu with regs := { c.cpu.regs with bp := c.cpu.regs.bp - 2 } }, c.bus⟩
    have moved : Pushes 0 c d := ⟨by simp [d], rfl, fun _ _ => rfl⟩
    have pushed := (moved.trans (push_pushes (c.bus.get .word d.cpu.regs.ss d.cpu.regs.bp) d)).trans
      (ih _)
    rw [Nat.zero_add, Nat.add_comm] at pushed
    exact pushed

/-- Words were pushed, and what else was done is not in memory. -/
def Stacks (n : Nat) (c d : Core Flat) : Prop := ∃ e, Pushes n c e ∧ d.bus = e.bus

theorem Stacks.read {a : Address} (pushed : Stacks n c d) (outside : a ∉ c.cpu.regs.stackWords n) :
    d.bus.read a = c.bus.read a := by
  obtain ⟨e, pushes, same⟩ := pushed
  rw [same, pushes.memory a outside]

theorem pushImmediate_stacks {form : ImmediateForm} (here : c.At operands)
    (size : operands.length = form.size .word) : Stacks 1 c (pushImmediate form c).2 := by
  rw [← List.append_nil operands] at here
  obtain ⟨d, takes, -⟩ := takes_immediate size here
  refine ⟨_, (Pushes.of_skips takes.skips).trans (push_pushes (form.value .word operands) d), ?_⟩
  rw [pushImmediate, bind_apply, takes.answer]
  rfl

theorem callNear_stacks (here : c.At operands) (size : operands.length = 2) :
    Stacks 1 c (callNear c).2 := by
  rw [← List.append_nil operands] at here
  obtain ⟨d, takes, -⟩ := takes_fetch (w := .word) size here
  refine ⟨_, (Pushes.of_skips takes.skips).trans (push_pushes d.cpu.regs.ip d), ?_⟩
  rw [callNear, bind_apply, show fetchWord c = _ from takes.answer]
  rfl

theorem callFar_stacks (here : c.At operands) (size : operands.length = 4) :
    Stacks 2 c (callFar c).2 := by
  obtain ⟨a, b, x, y, rfl⟩ : ∃ a b x y, operands = [a, b, x, y] := by
    match operands, size with
    | [a, b, x, y], _ => exact ⟨a, b, x, y, rfl⟩
  obtain ⟨d, offset, next⟩ := takes_word here
  obtain ⟨e, segment, -⟩ := takes_word next
  refine ⟨_, (Pushes.of_skips (offset.skips.trans segment.skips)).trans
    (pushReturnAddress_pushes e), ?_⟩
  rw [callFar, bind_apply, offset.answer, bind_apply, segment.answer]
  rfl

/-- A new frame begins with the old frame pointer, and with one for each level. -/
theorem enter_stacks (here : c.At operands) (size : operands.length = 3) :
    Stacks (1 + (operands.getD 2 0 &&& 0x1F).toNat) c (enter c).2 := by
  obtain ⟨low, high, level, rfl⟩ : ∃ low high level, operands = [low, high, level] := by
    match operands, size with
    | [low, high, level], _ => exact ⟨low, high, level, rfl⟩
  obtain ⟨d, sized, next⟩ := takes_word here
  obtain ⟨e, levelled, -⟩ := takes_byte next
  have pushed := (Pushes.of_skips (sized.skips.trans levelled.skips)).trans
    (push_pushes e.cpu.regs.bp e)
  rw [enter, bind_apply, sized.answer, bind_apply, levelled.answer]
  change Stacks (1 + (level &&& 0x1F).toNat) c _
  dsimp only
  cases (level &&& 0x1F).toNat with
  | zero => exact ⟨_, pushed, rfl⟩
  | succ n =>
    have copied := (pushed.trans (copyFramePointers_pushes n _)).trans
      (push_pushes (push e.cpu.regs.bp e).2.cpu.regs.sp _)
    exact ⟨_, copied, rfl⟩

/-- The near call, the far call and the push among the members. A far call needs a pointer in
memory. -/
theorem group5_stacks (here : c.At operands)
    (size : operands.length = 1 + (leadingModRM operands).displacement.size)
    (pushing : match (leadingModRM operands).reg.toNat with
      | 2 | 6 => n = 1
      | 3 => (leadingModRM operands).isRegister = false ∧ n = 2
      | _ => False) : Stacks n c (group5 c).2 := by
  obtain ⟨modRM, bytes, rest, rfl, short, -⟩ := split_modRM (n := fun _ => 0) size
  obtain ⟨d, takes, next⟩ := takes_modRM short here
  simp only [leadingModRM, List.headD_cons] at pushing
  have memory := (ModRM.ofByte modRM).isMemory_place c.cpu.regs c.cpu.prefixes bytes
  generalize (ModRM.ofByte modRM).place c.cpu.regs c.cpu.prefixes bytes = rm at takes memory
  obtain ⟨e, read, next⟩ := takes_readAt .word rm next
  obtain ⟨g, second, -⟩ := takes_readAt .word (rm.advance 2) next
  have skips := takes.skips.trans read.skips
  unfold group5
  rw [bind_apply, takes.answer]
  dsimp only
  generalize (ModRM.ofByte modRM).reg.toNat = member at pushing ⊢
  split
  case h_3 =>
    obtain rfl : n = 1 := pushing
    rw [bind_apply, read.answer]
    exact ⟨_, (Pushes.of_skips skips).trans (push_pushes e.cpu.regs.ip e), rfl⟩
  case h_4 =>
    obtain ⟨-, rfl⟩ := pushing
    rw [bind_apply, read.answer, bind_apply, second.answer]
    exact ⟨_, (Pushes.of_skips (skips.trans second.skips)).trans (pushReturnAddress_pushes g), rfl⟩
  case h_7 =>
    obtain rfl : n = 1 := pushing
    rw [bind_apply, read.answer]
    exact ⟨_, (Pushes.of_skips skips).trans (push_pushes _ e), rfl⟩
  case h_8 near _ push far _ =>
    split at pushing
    · exact absurd rfl near
    · exact absurd rfl push
    · rw [pushing.1] at memory
      cases rm with
      | register i => cases memory
      | memory s o => exact (far s o rfl rfl).elim
    · exact pushing.elim
  all_goals exact pushing.elim

end Exec

end Swan
