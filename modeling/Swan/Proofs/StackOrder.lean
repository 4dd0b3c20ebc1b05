import Mathlib.Data.List.Induction
import Swan.Proofs.ProcedureFrame

/-! What is pushed is popped again, the last word first. Stacked words never meet before they fill
the stack segment, wherever the stack lies and however its words are split by the ends of the
segment and of memory. So all registers come back from the stack, with the stack pointer. -/
namespace Swan

def Registers.general (r : Registers) : List Word :=
  [r.ax, r.cx, r.dx, r.bx, r.sp, r.bp, r.si, r.di]

/-- A word on the stack is one of so many, if it is not too far down. -/
theorem Registers.addresses_subset_stackWords (r : Registers) {i n : Nat} (inside : i < n) :
    Width.word.addresses r.ss (r.sp - BitVec.ofNat 16 (2 * (i + 1))) ⊆ r.stackWords n := by
  obtain ⟨k, rfl⟩ := Nat.exists_eq_add_of_le inside
  refine List.Subset.trans (fun a member => ?_) (r.stackWords_subset (i + 1) k)
  rw [Registers.stackWords, Nat.mul_succ]
  exact (List.prefix_append _ _).subset member

namespace Flat

theorem length_span (segment offset : Word) (n : Nat) : (span segment offset n).length = n := by
  induction n generalizing offset with
  | zero => rfl
  | succ n ih => exact congrArg Nat.succ (ih _)

/-- As long as they do not go around the segment, bytes in a row are all different ones. -/
theorem nodup_span (segment offset : Word) {n : Nat} (room : n ≤ 65536) :
    (span segment offset n).Nodup := by
  induction n generalizing offset with
  | zero => exact List.nodup_nil
  | succ n ih =>
    refine List.nodup_cons.mpr ⟨fun again => ?_, ih (offset + 1) (Nat.le_of_succ_le room)⟩
    obtain ⟨i, bound, same⟩ := exists_of_mem_span again
    rw [physical_right_inj] at same
    have distance := congrArg BitVec.toNat same
    rw [Word.add_one_ofNat, BitVec.toNat_add, BitVec.toNat_ofNat] at distance
    have := offset.isLt
    omega

end Flat

namespace Exec

variable {β : Type} [Bus β]

def pushEach : List Word → Exec β Unit
  | [] => return
  | v :: vs => do
    push v
    pushEach vs

def popEach : Nat → Exec β (List Word)
  | 0 => return []
  | n + 1 => do
    let v ← pop
    return v :: (← popEach n)

open Swan.Core

theorem pushEach_stacked (vs : List Word) (c : Core Flat) (room : 2 * vs.length ≤ 65536) :
    Stacked vs c (pushEach vs c).2 := by
  induction vs generalizing c with
  | nil => exact .nil (.refl c)
  | cons v vs ih =>
    rw [List.length_cons] at room
    have first := push_stacked v (.refl c)
    exact first.append (ih (push v c).2 (by omega)) (by
      rw [List.length_singleton]
      omega)

/-- Pushing changes nothing of the processor but the stack pointer, and no port. -/
theorem pushEach_frame (vs : List Word) (c : Core Flat) :
    (pushEach vs c).2.cpu = { c.cpu with
      regs := { c.cpu.regs with sp := c.cpu.regs.sp - BitVec.ofNat 16 (2 * vs.length) } } ∧
    (pushEach vs c).2.bus.ports = c.bus.ports := by
  induction vs generalizing c with
  | nil =>
    rw [List.length_nil, Nat.mul_zero, BitVec.sub_zero]
    exact ⟨rfl, rfl⟩
  | cons v vs ih =>
    obtain ⟨cpu, ports⟩ := ih (push v c).2
    rw [List.length_cons, ← Word.sub_two_sub]
    exact ⟨cpu, ports.trans (Flat.ports_put c.bus .word _ _ v)⟩

theorem pop_eq (c : Core Flat) : pop c = (c.bus.get .word c.cpu.regs.ss c.cpu.regs.sp,
    ⟨{ c.cpu with regs := { c.cpu.regs with sp := c.cpu.regs.sp + 2 } }, c.bus⟩) := rfl

theorem popEach_zero_iff {c d : Core Flat} : popEach 0 c = ([], d) ↔ c = d :=
  ⟨congrArg Prod.snd, fun same => same ▸ rfl⟩

theorem popEach_succ_iff {n : Nat} {c d : Core Flat} {v : Word} {vs : List Word} :
    popEach (n + 1) c = (v :: vs, d) ↔ c.bus.get .word c.cpu.regs.ss c.cpu.regs.sp = v ∧
      popEach n ⟨{ c.cpu with regs := { c.cpu.regs with sp := c.cpu.regs.sp + 2 } }, c.bus⟩ =
        (vs, d) := by
  rw [popEach, bind_apply, pop_eq, bind_apply, Prod.ext_iff, Prod.ext_iff]
  exact (and_congr_left' List.cons_eq_cons).trans and_assoc

/-- Words that lie in a row are popped in reverse. By induction on them from the top of the stack
down, as the last word is popped first. -/
theorem popEach_words {vs : List Word} {d : Core Flat} {top : Word}
    (sp : d.cpu.regs.sp = top - BitVec.ofNat 16 (2 * vs.length))
    (words : ∀ i (inside : i < vs.length),
      d.bus.get .word d.cpu.regs.ss (top - BitVec.ofNat 16 (2 * (i + 1))) = vs[i]) :
    popEach vs.length d =
      (vs.reverse, ⟨{ d.cpu with regs := { d.cpu.regs with sp := top } }, d.bus⟩) := by
  induction vs using List.reverseRecOn generalizing d with
  | nil =>
    rw [List.length_nil, Nat.mul_zero, BitVec.sub_zero] at sp
    rw [← sp]
    rfl
  | append_singleton vs v ih =>
    rw [List.length_append, List.length_singleton] at sp ⊢
    have first : d.bus.get .word d.cpu.regs.ss d.cpu.regs.sp = v := by
      rw [sp, words vs.length (by simp), List.getElem_concat_length rfl]
    have next : d.cpu.regs.sp + 2 = top - BitVec.ofNat 16 (2 * vs.length) := by
      rw [sp, ← Word.sub_two_sub]
      bv_omega
    rw [List.reverse_concat]
    refine popEach_succ_iff.mpr ⟨first, ih next fun i inside => ?_⟩
    have word := words i (by simp; omega)
    rwa [List.getElem_append_left inside] at word

/-- All registers are pushed as they are at first. -/
theorem pushAll_eq (c : Core Flat) :
    pushAll c = ({ cycles := 9 }, (pushEach c.cpu.regs.general c).2) := by
  simp only [pushAll, Registers.general, pushEach, bind_apply]
  rfl

theorem setRegs_apply (f : Registers → Registers) (c : Core Flat) :
    setRegs f c = ((), ⟨{ c.cpu with regs := f c.cpu.regs }, c.bus⟩) := rfl

/-- All registers are popped at once, but for the stack pointer, which only moves. -/
theorem popAll_of_popEach {c d : Core Flat} {ax bx cx dx sp bp si di : Word}
    (popped : popEach 8 c = ([di, si, bp, sp, bx, dx, cx, ax], d)) :
    popAll c = ({ cycles := 8 },
      ⟨{ d.cpu with regs := { d.cpu.regs with ax, bx, cx, dx, bp, si, di } }, d.bus⟩) := by
  simp only [popEach_succ_iff, popEach_zero_iff] at popped
  obtain ⟨rfl, rfl, rfl, rfl, rfl, rfl, rfl, rfl, rfl⟩ := popped
  simp only [popAll, bind_apply, pop_eq, setRegs_apply]
  rfl

/-- The popped stack pointer wins over the moved one. -/
theorem popReg_sp_of_popEach {c d : Core Flat} {v : Word} (popped : popEach 1 c = ([v], d)) :
    popReg .sp c = ({ cycles := 1 },
      ⟨{ d.cpu with regs := { d.cpu.regs with sp := v } }, d.bus⟩) := by
  obtain ⟨rfl, last⟩ := popEach_succ_iff.mp popped
  obtain rfl := popEach_zero_iff.mp last
  rfl

end Exec

namespace Core

variable {n : Nat} {c d e : Core Flat} {vs : List Word} {prefixes : List Byte} {opcode : Byte}

/-- The stack is where it was, and so many words on it are as they were. -/
structure KeepsStack (n : Nat) (d e : Core Flat) : Prop where
  ss : e.cpu.regs.ss = d.cpu.regs.ss
  sp : e.cpu.regs.sp = d.cpu.regs.sp
  memory : ∀ a ∈ Flat.span d.cpu.regs.ss d.cpu.regs.sp (2 * n), e.bus.read a = d.bus.read a

theorem KeepsStack.of_same (regs : e.cpu.regs = d.cpu.regs) (bus : e.bus = d.bus) :
    KeepsStack n d e where
  ss := by rw [regs]
  sp := by rw [regs]
  memory _ _ := by rw [bus]

/-- What was stacked comes back in reverse, and the stack pointer is where it was. -/
theorem Stacked.popEach (stacked : Stacked vs c d) (keeps : KeepsStack vs.length d e) :
    Exec.popEach vs.length e =
      (vs.reverse, ⟨{ e.cpu with regs := { e.cpu.regs with sp := c.cpu.regs.sp } }, e.bus⟩) := by
  have ss := keeps.ss.trans stacked.pushes.ss
  have words := keeps.memory
  rw [stacked.pushes.sp, stacked.pushes.ss] at words
  refine Exec.popEach_words (keeps.sp.trans stacked.pushes.sp) fun i inside => ?_
  rw [ss, ← stacked.words i inside]
  exact Flat.get_congr fun a member =>
    words a (c.cpu.regs.addresses_subset_stackWords inside member)

/-- An instruction stacked words and moved on, and that is all it did. -/
structure Saves (vs : List Word) (prefixes : List Byte) (opcode : Byte) (c d : Core Flat) :
    Prop where
  stacked : Stacked vs c d
  cpu : d.cpu = { c.cpu with
    regs := { c.cpu.regs with
      sp := c.cpu.regs.sp - BitVec.ofNat 16 (2 * vs.length)
      ip := c.cpu.regs.ip + BitVec.ofNat 16 (prefixes.length + 1) }
    prefixes := .empty
    opcode
    deferred := 0 }
  ports : d.bus.ports = c.bus.ports

/-- An instruction that runs like a number of pushes does nothing else. -/
theorem performs_save {cycles : Nat} (fetches : c.Fetches prefixes opcode)
    (room : 2 * vs.length ≤ 65536)
    (run : (Operation.decode opcode).execute (c.fetched prefixes opcode) =
      ({ cycles }, (Exec.pushEach vs (c.fetched prefixes opcode)).2)) :
    ∃ d, c.Performs prefixes opcode cycles d ∧ Saves vs prefixes opcode c d := by
  obtain ⟨cpu, ports⟩ := Exec.pushEach_frame vs (c.fetched prefixes opcode)
  have stacked := Exec.pushEach_stacked vs (c.fetched prefixes opcode) room
  refine ⟨_, .of_run fetches run rfl,
    ⟨⟨stacked.pushes.sp, stacked.pushes.ss, stacked.pushes.memory⟩, stacked.words⟩, ?_, ports⟩
  simp only [cpu]
  rfl

namespace Saves

variable {front back : List Byte} {save load : Byte} {cycles : Nat}

/-- The code behind the instruction is met next, if the words do not lie over it. -/
theorem fetches (saved : Saves vs front save c d)
    (code : c.bus.CodeAt c.cpu.regs.cs c.cpu.regs.ip (front ++ [save] ++ (back ++ [load])))
    (queued : ∀ b ∈ back, isPrefix b = true) (plain : isPrefix load = false)
    (apart : ∀ a ∈ Flat.span c.cpu.regs.cs (c.cpu.regs.ip + BitVec.ofNat 16 (front.length + 1))
      (back.length + 1), a ∉ c.cpu.regs.stackWords vs.length)
    (regs : e.cpu.regs = d.cpu.regs) (bus : e.bus = d.bus) : e.Fetches back load := by
  refine ⟨?_, queued, plain⟩
  have next := code.append
  rw [List.length_append, List.length_singleton] at next
  rw [regs, saved.cpu, bus]
  refine next.congr fun a member => saved.stacked.pushes.memory a (apart a ?_)
  rwa [List.length_append, List.length_singleton] at member

/-- The step that does it goes on to the next, with nothing owed. -/
theorem exists_step (saved : Saves vs front save c d) (performs : c.Performs front save cycles d)
    (running : c.cpu.halted = false) (untrapped : c.cpu.regs.flags.trap = false) :
    ∃ e, Exec.step c = (some (c.cpu.deferred + front.length + cycles), e) ∧
      e.cpu.regs = d.cpu.regs ∧ e.bus = d.bus ∧ e.cpu.halted = false ∧
      e.cpu.regs.flags.trap = false ∧ e.cpu.deferred = 0 := by
  refine ⟨_, performs.step_untrapped running untrapped, rfl, rfl, ?_, ?_, ?_⟩
  · exact (congrArg Cpu.halted saved.cpu).trans running
  · exact (congrArg (·.regs.flags.trap) saved.cpu).trans untrapped
  · exact congrArg Cpu.deferred saved.cpu

end Saves

def loaded (c : Core Flat) (prefixes : List Byte) (opcode : Byte)
    (registers : Registers → Registers) : Core Flat where
  cpu := { c.cpu with
    regs := { registers c.cpu.regs with
      ip := c.cpu.regs.ip + BitVec.ofNat 16 (prefixes.length + 1) }
    prefixes := .empty
    opcode
    deferred := 0 }
  bus := c.bus

/-- One instruction stacks words, and another takes them back into registers: any time later if
they still lie on the stack, and at once if they do not lie over its code. -/
structure TakesBack (save load : Byte) (saving loading : Nat) (vs : List Word)
    (registers : Registers → Registers) (c : Core Flat) : Prop where
  saves : ∀ prefixes, c.Fetches prefixes save →
    ∃ d, c.Performs prefixes save saving d ∧ Saves vs prefixes save c d
  loads : ∀ d e prefixes, Stacked vs c d → KeepsStack vs.length d e → e.Fetches prefixes load →
    e.Performs prefixes load loading (e.loaded prefixes load registers)
  at_once : ∀ front back,
    c.bus.CodeAt c.cpu.regs.cs c.cpu.regs.ip (front ++ save :: (back ++ [load])) →
    (∀ b ∈ front ++ back, isPrefix b = true) →
    (∀ a ∈ Flat.span c.cpu.regs.cs (c.cpu.regs.ip + BitVec.ofNat 16 (front.length + 1))
      (back.length + 1), a ∉ c.cpu.regs.stackWords vs.length) →
    ∃ d e, c.Performs front save saving d ∧ d.Performs back load loading e ∧
      e.cpu.regs = { c.cpu.regs with
        ip := c.cpu.regs.ip + BitVec.ofNat 16 (front.length + back.length + 2) } ∧
      Flat.AgreeOff (c.cpu.regs.stackWords vs.length) e.bus c.bus ∧
      (c.cpu.halted = false → c.cpu.regs.flags.trap = false → ∃ d' e',
        Exec.step c = (some (c.cpu.deferred + front.length + saving), d') ∧
        Exec.step d' = (some (back.length + loading), e') ∧
        e'.cpu.regs = e.cpu.regs ∧ e'.bus = e.bus)

/-- At once is a special case of later, as an instruction that stacks words leaves the code behind
it alone if they do not lie there. -/
theorem TakesBack.of {save load : Byte} {saving loading : Nat} {registers : Registers → Registers}
    (plain : isPrefix save = false ∧ isPrefix load = false)
    (saves : ∀ prefixes, c.Fetches prefixes save →
      ∃ d, c.Performs prefixes save saving d ∧ Saves vs prefixes save c d)
    (loads : ∀ d e prefixes, Stacked vs c d → KeepsStack vs.length d e →
      e.Fetches prefixes load → e.Performs prefixes load loading (e.loaded prefixes load registers))
    (same : ∀ sp ip, registers { c.cpu.regs with sp, ip } = { c.cpu.regs with ip }) :
    TakesBack save load saving loading vs registers c := by
  refine ⟨saves, loads, fun front back code queued apart => ?_⟩
  rw [List.forall_mem_append] at queued
  rw [← List.singleton_append, ← List.append_assoc] at code
  obtain ⟨d, performs, saved⟩ := saves front
    ⟨Flat.codeAt_iff.mpr (Flat.codeAt_iff.mp code).front, queued.1, plain.1⟩
  have behind (e : Core Flat) (regs : e.cpu.regs = d.cpu.regs) (bus : e.bus = d.bus) :
      e.Performs back load loading (e.loaded back load registers) :=
    loads d e back saved.stacked (.of_same regs bus)
      (saved.fetches code queued.2 plain.2 apart regs bus)
  refine ⟨d, _, performs, behind d rfl rfl, ?regs, ⟨saved.ports, saved.stacked.pushes.memory⟩,
    fun running untrapped => ?steps⟩
  case regs =>
    have sum : front.length + back.length + 2 = front.length + 1 + (back.length + 1) := by omega
    have restored : registers d.cpu.regs = { c.cpu.regs with ip := d.cpu.regs.ip } := by
      rw [saved.cpu]
      exact same _ _
    rw [loaded, restored, saved.cpu, sum, BitVec.ofNat_add _ (back.length + 1),
      ← BitVec.add_assoc]
  case steps =>
    obtain ⟨d', stepped, regs, bus, running', untrapped', settled⟩ :=
      saved.exists_step performs running untrapped
    obtain ⟨e', stepped', regs', bus'⟩ := (behind d' regs bus).exists_step running' untrapped'
    rw [settled, Nat.zero_add] at stepped'
    refine ⟨d', e', stepped, stepped', regs'.trans ?_, bus'.trans bus⟩
    rw [loaded, loaded, regs]

/-- All registers come back, whatever happens in between, if the stack is kept. The stacked stack
pointer is the one from before, and it is not what brings the stack pointer back. -/
theorem takesBack_all (c : Core Flat) : TakesBack 0x60 0x61 9 8 c.cpu.regs.general
    (fun r => { r with
      ax := c.cpu.regs.ax, cx := c.cpu.regs.cx, dx := c.cpu.regs.dx, bx := c.cpu.regs.bx
      sp := c.cpu.regs.sp, bp := c.cpu.regs.bp, si := c.cpu.regs.si, di := c.cpu.regs.di }) c := by
  have pushing : Operation.decode 0x60 = .pushAll := by decide
  have popping : Operation.decode 0x61 = .popAll := by decide
  refine .of (by decide) (fun prefixes fetches => ?_) (fun d e prefixes stacked keeps fetches => ?_)
    fun _ _ => rfl
  · refine performs_save fetches (by simp [Registers.general]) ?_
    rw [pushing]
    exact Exec.pushAll_eq _
  · have run : Operation.popAll.execute (e.fetched prefixes 0x61) = _ :=
      Exec.popAll_of_popEach (stacked.popEach ⟨keeps.ss, keeps.sp, keeps.memory⟩)
    rw [← popping] at run
    exact .of_run fetches run rfl

/-- The stack pointer comes back as it was pushed, as it was before it moved. -/
theorem takesBack_sp (c : Core Flat) : TakesBack 0x54 0x5C 1 1 [c.cpu.regs.sp]
    (fun r => { r with sp := c.cpu.regs.sp }) c := by
  have pushing : Operation.decode 0x54 = .pushReg .sp := by decide
  have popping : Operation.decode 0x5C = .popReg .sp := by decide
  refine .of (by decide) (fun prefixes fetches => ?_) (fun d e prefixes stacked keeps fetches => ?_)
    fun _ _ => rfl
  · refine performs_save fetches (by simp) ?_
    rw [pushing]
    rfl
  · have popped : Exec.popEach 1 (e.fetched prefixes 0x5C) = _ :=
      stacked.popEach ⟨keeps.ss, keeps.sp, keeps.memory⟩
    have run : (Operation.popReg .sp).execute (e.fetched prefixes 0x5C) = _ :=
      Exec.popReg_sp_of_popEach popped
    rw [← popping] at run
    exact .of_run fetches run rfl

/-- Whatever fits into the stack segment is popped in reverse. Its bytes are all different ones, in
a row below the top, and all that has changed. -/
theorem stack_last_in_first_out (c : Core Flat) :
    (∀ vs : List Word, vs.length ≤ 32768 →
      (∃ b, Exec.popEach vs.length (Exec.pushEach vs c).2 = (vs.reverse, ⟨c.cpu, b⟩) ∧
        Flat.AgreeOff (c.cpu.regs.stackWords vs.length) b c.bus) ∧
      (c.cpu.regs.stackWords vs.length).Nodup ∧
      (c.cpu.regs.stackWords vs.length).length = 2 * vs.length) ∧
    TakesBack 0x60 0x61 9 8 c.cpu.regs.general
      (fun r => { r with
        ax := c.cpu.regs.ax, cx := c.cpu.regs.cx, dx := c.cpu.regs.dx, bx := c.cpu.regs.bx
        sp := c.cpu.regs.sp, bp := c.cpu.regs.bp, si := c.cpu.regs.si, di := c.cpu.regs.di }) c ∧
    TakesBack 0x54 0x5C 1 1 [c.cpu.regs.sp] (fun r => { r with sp := c.cpu.regs.sp }) c := by
  refine ⟨fun vs room => ⟨?_, ?_, Flat.length_span _ _ _⟩, takesBack_all c, takesBack_sp c⟩
  · have stacked := Exec.pushEach_stacked vs c (by omega)
    obtain ⟨cpu, ports⟩ := Exec.pushEach_frame vs c
    refine ⟨_, (stacked.popEach (.of_same rfl rfl)).trans ?_, ports, stacked.pushes.memory⟩
    rw [cpu]
  · exact Flat.nodup_span _ _ (by omega)

/-- With a stack that goes around the ends of its segment and of memory, an odd number of bytes
from the bottom, and with code behind the end of memory. -/
def straddling (code : List Byte) : Core Flat where
  cpu := { regs := { ax := 0x1111, bx := 0x4444, sp := 5, di := 0x8888, ss := 0xFFFF, ip := 0x10 } }
  bus := (default : Flat).load 0 code

theorem stack_last_in_first_out_straddling :
    (∃ b, Exec.popEach 3 (Exec.pushEach [1, 2, 3] (straddling [])).2 =
      ([3, 2, 1], ⟨(straddling []).cpu, b⟩)) ∧
    (∃ d, (straddling [0x60, 0x61]).Performs [] 0x60 9 d ∧ d.bus.get .word 0xFFFF 0xFFFB = 5) ∧
    (∃ d e, Exec.step (straddling [0x60, 0x61]) = (some 9, d) ∧ Exec.step d = (some 8, e) ∧
      e.cpu.regs = { (straddling [0x60, 0x61]).cpu.regs with ip := 0x12 }) ∧
    ∃ d e, Exec.step (straddling [0x54, 0x5C]) = (some 1, d) ∧ Exec.step d = (some 1, e) ∧
      e.cpu.regs = { (straddling [0x54, 0x5C]).cpu.regs with ip := 0x12 } := by
  have code (save load : Byte) : (straddling [save, load]).bus.CodeAt 0xFFFF 0x10 [save, load] := by
    simp [straddling, Flat.CodeAt, Flat.load, Memory.load, Flat.read, Memory.read_write, physical]
  have apart (save load : Byte) : ∀ a ∈ Flat.span 0xFFFF (0x10 + BitVec.ofNat 16 1) 1,
      a ∉ (straddling [save, load]).cpu.regs.stackWords 8 := by
    simp [straddling, Registers.stackWords, Flat.span, physical]
  obtain ⟨⟨b, popped, -⟩, -⟩ := (stack_last_in_first_out (straddling [])).1 [1, 2, 3] (by decide)
  have all := (stack_last_in_first_out (straddling [0x60, 0x61])).2.1
  have one := (stack_last_in_first_out (straddling [0x54, 0x5C])).2.2
  have fetches : (straddling [0x60, 0x61]).Fetches [] 0x60 :=
    ⟨⟨(code 0x60 0x61).1, trivial⟩, List.forall_mem_nil _, by decide⟩
  obtain ⟨d, performs, saved⟩ := all.saves [] fetches
  obtain ⟨_, _, -, -, regs, -, steps⟩ := all.at_once [] [] (code 0x60 0x61)
    (List.forall_mem_nil _) (apart 0x60 0x61)
  obtain ⟨d₁, e₁, first₁, second₁, same₁, -⟩ := steps rfl rfl
  obtain ⟨_, _, -, -, regs', -, steps⟩ := one.at_once [] [] (code 0x54 0x5C)
    (List.forall_mem_nil _) fun a member below => apart 0x54 0x5C a member
      ((straddling [0x54, 0x5C]).cpu.regs.stackWords_subset 1 7 below)
  obtain ⟨d₂, e₂, first₂, second₂, same₂, -⟩ := steps rfl rfl
  exact ⟨⟨b, popped⟩, ⟨d, performs, saved.stacked.words 4 (by decide)⟩,
    ⟨d₁, e₁, first₁, second₁, same₁.trans regs⟩, d₂, e₂, first₂, second₂, same₂.trans regs'⟩

end Core

end Swan
