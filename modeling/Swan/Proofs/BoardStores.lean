import Swan.Proofs.ConsoleSession
import Swan.Proofs.FlatAccess
import Swan.Proofs.StepEquation

/-! The bytes that a board is made to store. Whatever the observer makes of their values, the
addresses are known one by one: a transfer slice stores a word at its destination, and the
entry of an interrupt stores the three words of its frame. Where there is no observer, the
bytes are known too. -/
namespace Swan

def Registers.framePushes (r : Registers) : List Address :=
  Width.word.addresses r.ss (r.sp - 2) ++ Width.word.addresses r.ss (r.sp - 4) ++
    Width.word.addresses r.ss (r.sp - 6)

def wordBytes (segment offset v : Word) : List (Address × Byte) :=
  [(physical segment offset, v.low), (physical segment (offset + 1), v.high)]

/-- What the entry of an interrupt pushes, in order: the flags, and below them the place to
return to. -/
def Registers.frameBytes (r : Registers) : List (Address × Byte) :=
  wordBytes r.ss (r.sp - 2) r.flags.toWord ++ wordBytes r.ss (r.sp - 4) r.cs ++
    wordBytes r.ss (r.sp - 6) r.ip

def Transfer.wordAt (t : Transfer) : List Address :=
  [t.destination.setWidth 20, (t.destination + 1).setWidth 20]

namespace Board

variable {δ ω : Type}

def storeAll (b : Board δ ω) (stores : List (Address × Byte)) : Board δ ω :=
  stores.foldl (fun b s => b.poke s.1 s.2) b

def word (b : Board δ ω) (segment offset : Word) : Word :=
  .ofBytes (b.peek (physical segment offset)) (b.peek (physical segment (offset + 1)))

theorem storeAll_append (b : Board δ ω) (first second : List (Address × Byte)) :
    b.storeAll (first ++ second) = (b.storeAll first).storeAll second :=
  List.foldl_append

theorem storeAll_observer (b : Board δ ω) (stores : List (Address × Byte)) :
    (b.storeAll stores).observer = b.observer := by
  induction stores generalizing b with
  | nil => rfl
  | cons s rest ih =>
    obtain ⟨ram, sram, eq⟩ := b.poke_frame s.1 s.2
    rw [storeAll, List.foldl_cons, eq]
    exact ih _

/-- Boards that differ in nothing that a byte in memory depends on. -/
def SameMemory (b b' : Board δ ω) : Prop :=
  ∃ interrupts raster transfer keypad sound serial observer,
    b' = { b with interrupts, raster, transfer, keypad, sound, serial, observer }

/-- A byte is stored at each of some addresses, in order, and nowhere else. -/
def Stores (addresses : List Address) (b b' : Board δ ω) : Prop :=
  ∃ stores, stores.map Prod.fst = addresses ∧ SameMemory (b.storeAll stores) b'

namespace SameMemory

variable {b b' b'' : Board δ ω}

theorem refl (b : Board δ ω) : SameMemory b b := ⟨_, _, _, _, _, _, _, rfl⟩

theorem trans (first : SameMemory b b') (second : SameMemory b' b'') : SameMemory b b'' := by
  obtain ⟨_, _, _, _, _, _, _, rfl⟩ := first
  obtain ⟨_, _, _, _, _, _, _, rfl⟩ := second
  exact ⟨_, _, _, _, _, _, _, rfl⟩

theorem poke (same : SameMemory b b') (a : Address) (v : Byte) :
    SameMemory (b.poke a v) (b'.poke a v) := by
  obtain ⟨_, _, _, _, _, _, _, rfl⟩ := same
  unfold Board.poke
  split
  · split <;> exact ⟨_, _, _, _, _, _, _, rfl⟩
  · exact ⟨_, _, _, _, _, _, _, rfl⟩

theorem storeAll (same : SameMemory b b') (stores : List (Address × Byte)) :
    SameMemory (b.storeAll stores) (b'.storeAll stores) := by
  induction stores generalizing b b' with
  | nil => exact same
  | cons s rest ih => exact ih (same.poke s.1 s.2)

theorem peek (same : SameMemory b b') : b'.peek = b.peek := by
  obtain ⟨_, _, _, _, _, _, _, rfl⟩ := same
  rfl

end SameMemory

theorem Stores.trans {first second : List Address} {b b' b'' : Board δ ω}
    (before : Stores first b b') (after : Stores second b' b'') :
    Stores (first ++ second) b b'' := by
  obtain ⟨s, rfl, same⟩ := before
  obtain ⟨s', rfl, same'⟩ := after
  refine ⟨s ++ s', List.map_append, ?_⟩
  rw [storeAll_append]
  exact (same.storeAll s').trans same'

theorem Stores.kept {addresses : List Address} {b b' b'' : Board δ ω}
    (stores : Stores addresses b b') (same : SameMemory b' b'') : Stores addresses b b'' := by
  obtain ⟨s, rfl, before⟩ := stores
  exact ⟨s, rfl, before.trans same⟩

variable [Device δ] [Observer ω]

theorem read_sameMemory (b : Board δ ω) (a : Address) : SameMemory b (Bus.read b a).2 :=
  ⟨_, _, _, _, _, _, _, rfl⟩

theorem write_stores (b : Board δ ω) (a : Address) (v : Byte) :
    Stores [a] b (Bus.write b a v) := by
  let seen := observe (Observer.memoryWrite · a ·) v b.observer
  have observed : SameMemory b { b with observer := seen.2 } := ⟨_, _, _, _, _, _, _, rfl⟩
  exact ⟨[(a, seen.1)], rfl, observed.poke a seen.1⟩

theorem runSlice_stores {b : Board δ ω} (active : b.transfer.active = true) :
    Stores b.transfer.wordAt b b.runSlice.2 := by
  unfold runSlice
  rcases next : b.transfer.next? with ⟨_ | slice, transfer⟩
  · rw [Transfer.next?_none next] at active
    cases active
  · have claimed : SameMemory b { b with transfer } := ⟨_, _, _, _, _, _, _, rfl⟩
    have destination : slice.destination = b.transfer.destination := by
      simp only [Transfer.next?, active] at next
      cases next
      rfl
    rw [Transfer.wordAt, ← destination]
    have read := (claimed.trans (read_sameMemory _ slice.source)).trans
      (read_sameMemory _ (slice.source + 1))
    exact (Stores.trans ⟨[], rfl, read⟩ (write_stores _ _ _)).trans (write_stores _ _ _)

omit [Observer ω] in
theorem stepDevices_sameMemory (b : Board δ ω) (cycles : Nat) :
    SameMemory b (b.stepDevices cycles) :=
  ⟨_, _, _, _, _, _, _, rfl⟩

end Board

namespace Exec

open Board

variable {δ ω : Type} [Device δ] [Observer ω]

omit [Device δ] [Observer ω] in
theorem setRegs_bus (f : Registers → Registers) (c : Core (Board δ ω)) :
    (setRegs f c).2.bus = c.bus := rfl

omit [Device δ] [Observer ω] in
theorem defer_bus (cycles : Nat) (c : Core (Board δ ω)) : (defer cycles c).2.bus = c.bus := rfl

theorem push_stores (v : Word) (c : Core (Board δ ω)) :
    Stores (Width.word.addresses c.cpu.regs.ss (c.cpu.regs.sp - 2)) c.bus (push v c).2.bus :=
  (write_stores _ _ v.low).trans (write_stores _ _ v.high)

theorem readWord_sameMemory (segment offset : Word) (c : Core (Board δ ω)) :
    SameMemory c.bus (readWord segment offset c).2.bus :=
  (read_sameMemory _ _).trans (read_sameMemory _ _)

theorem pushes_stores (x y z : Word) (c : Core (Board δ ω)) :
    Stores c.cpu.regs.framePushes c.bus (push z (push y (push x c).2).2).2.bus := by
  have second : c.cpu.regs.sp - 4 = c.cpu.regs.sp - 2 - 2 := by bv_omega
  have third : c.cpu.regs.sp - 6 = c.cpu.regs.sp - 2 - 2 - 2 := by bv_omega
  rw [Registers.framePushes, second, third]
  exact ((push_stores x c).trans (push_stores y (push x c).2)).trans
    (push_stores z (push y (push x c).2).2)

/-- The flags and the place to return to are pushed, and then the vector is read. -/
theorem interrupt_stores (vector : Byte) (c : Core (Board δ ω)) :
    Stores c.cpu.regs.framePushes c.bus (interrupt vector c).2.bus := by
  rw [interrupt, bind_apply, bind_apply, enterInterrupt]
  simp only [bind_apply, defer_bus, setRegs_bus]
  refine Stores.kept (Stores.kept ?_ (readWord_sameMemory _ _ _)) (readWord_sameMemory _ _ _)
  rw [setRegs_bus]
  exact pushes_stores _ _ _ (setHalted false (dropPrefixes c).2).2

section Unobserved

variable {c : Core (Board δ ω)} (unobserved : c.bus.observer = none)

include unobserved

theorem push_unobserved (v : Word) :
    push v c = ((), ⟨{ c.cpu with regs := { c.cpu.regs with sp := c.cpu.regs.sp - 2 } },
      c.bus.storeAll (wordBytes c.cpu.regs.ss (c.cpu.regs.sp - 2) v)⟩) := by
  have first := Board.write_unobserved unobserved
    (physical c.cpu.regs.ss (c.cpu.regs.sp - 2)) v.low
  have still := Board.storeAll_observer c.bus [(physical c.cpu.regs.ss (c.cpu.regs.sp - 2), v.low)]
  have second := Board.write_unobserved (still.trans unobserved)
    (physical c.cpu.regs.ss (c.cpu.regs.sp - 2 + 1)) v.high
  have both : (push v c).2.bus = Bus.write (Bus.write c.bus
      (physical c.cpu.regs.ss (c.cpu.regs.sp - 2)) v.low)
      (physical c.cpu.regs.ss (c.cpu.regs.sp - 2 + 1)) v.high := rfl
  rw [first] at both
  exact Prod.ext rfl (congrArg (Core.mk _) (both.trans second))

theorem readWord_unobserved (segment offset : Word) :
    readWord segment offset c = (c.bus.word segment offset, c) := by
  have low : readByte segment offset c = (c.bus.peek (physical segment offset), c) := by
    rw [readByte, Board.read_unobserved unobserved]
  have high : readByte segment (offset + 1) c = (c.bus.peek (physical segment (offset + 1)), c) := by
    rw [readByte, Board.read_unobserved unobserved]
  rw [readWord, bind_apply, low, bind_apply, high]
  rfl

/-- The three words of a frame, pushed where nobody watches. -/
theorem pushes_unobserved :
    let r := c.cpu.regs
    push r.ip (push r.cs (push r.flags.toWord c).2).2 =
      ((), ⟨{ c.cpu with regs := { r with sp := r.sp - 6 } }, c.bus.storeAll r.frameBytes⟩) := by
  intro r
  have second : r.sp - 4 = r.sp - 2 - 2 := by bv_omega
  have third : r.sp - 6 = r.sp - 2 - 2 - 2 := by bv_omega
  have kept (stores : List (Address × Byte)) : (c.bus.storeAll stores).observer = none :=
    (Board.storeAll_observer _ stores).trans unobserved
  let flags := wordBytes r.ss (r.sp - 2) r.flags.toWord
  let cs := wordBytes r.ss (r.sp - 2 - 2) r.cs
  have pushed := push_unobserved
    (c := ⟨{ c.cpu with regs := { r with sp := r.sp - 2 } }, c.bus.storeAll flags⟩) (kept _) r.cs
  have whole := push_unobserved
    (c := ⟨{ c.cpu with regs := { r with sp := r.sp - 2 - 2 } }, c.bus.storeAll (flags ++ cs)⟩)
    (kept _) r.ip
  rw [push_unobserved unobserved, pushed, ← Board.storeAll_append, whole, ← Board.storeAll_append,
    Registers.frameBytes, second, third]

theorem enterInterrupt_unobserved (vector : Byte) :
    let r := c.cpu.regs
    let b := c.bus.storeAll r.frameBytes
    let entry : Word := vector.setWidth 16 * 4
    (enterInterrupt vector c).2 = ⟨{ c.cpu with
      regs := { r with
        sp := r.sp - 6
        flags := { r.flags with interrupt := false, trap := false }
        ip := b.word 0 entry
        cs := b.word 0 (entry + 2) }
      halted := false }, b⟩ := by
  intro r b entry
  have pushed := pushes_unobserved (c := (setHalted false c).2) unobserved
  have read (offset : Word) (cpu : Cpu) :
      readWord 0 offset ⟨cpu, b⟩ = (b.word 0 offset, ⟨cpu, b⟩) :=
    readWord_unobserved ((Board.storeAll_observer _ _).trans unobserved) 0 offset
  simp only [setHalted] at pushed
  simp only [enterInterrupt, bind_apply, regs, setHalted, pushed, setRegs]
  rw [read, read]

/-- An interrupt that nobody watches. -/
theorem interrupt_unobserved (vector : Byte) :
    let r := { c.cpu.regs with ip := c.cpu.regs.ip - BitVec.ofNat 16 c.cpu.prefixes.length }
    let b := c.bus.storeAll r.frameBytes
    let entry : Word := vector.setWidth 16 * 4
    (interrupt vector c).2 = ⟨{ c.cpu with
      regs := { r with
        sp := r.sp - 6
        flags := { r.flags with interrupt := false, trap := false }
        ip := b.word 0 entry
        cs := b.word 0 (entry + 2) }
      halted := false
      prefixes := .empty
      deferred := c.cpu.deferred + interruptCycles }, b⟩ := by
  intro r b entry
  have entered := enterInterrupt_unobserved (c := (dropPrefixes c).2) unobserved vector
  rw [interrupt, bind_apply, bind_apply, entered]
  rfl

end Unobserved

end Exec

end Swan
