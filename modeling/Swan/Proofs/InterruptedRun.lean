import Swan.Proofs.InterruptReturn
import Swan.Proofs.RepeatedRun

/-! Interrupts in the middle of a repeated string instruction. A handler finds the
instruction pointer moved back over the prefixes still remembered, so that its return
leads to an instruction with the same elements left. Of more than sixteen prefixes only
the last are run again, and those are all that counted before. -/
namespace Swan.Core

open Exec

variable {c : Core Flat} {prefixes : List Byte} {opcode : Byte} {w : Width} {op : StringOp}
  {k : RepeatClass}

/-- The handler of an interrupt is a return and nothing else. The stack frame covers
neither it nor the place in the table where it is found. -/
structure Returns (c : Core Flat) (vector : Byte) : Prop where
  instruction : c.bus.read (c.bus.handler vector) = 0xCF
  handler : c.bus.handler vector ∉ c.cpu.regs.stackFrame
  entry : ∀ a ∈ vectorEntry vector, a ∉ c.cpu.regs.stackFrame

def instruction (c : Core Flat) (prefixes : List Byte) : List Address :=
  Flat.span c.cpu.regs.cs c.cpu.regs.ip (prefixes.length + 1)

namespace Repeats

theorem code_window (repeats : c.Repeats prefixes opcode w op k) {b : Flat}
    (code : b.CodeAt c.cpu.regs.cs c.cpu.regs.ip (prefixes ++ [opcode])) :
    b.CodeAt c.cpu.regs.cs ((c.fetched prefixes opcode).cpu.regs.ip -
        BitVec.ofNat 16 ((c.fetched prefixes opcode).cpu.prefixes.bytes.length + 1))
      ((c.fetched prefixes opcode).cpu.prefixes.bytes ++ [opcode]) := by
  have window : (c.fetched prefixes opcode).cpu.prefixes.bytes = prefixes.drop (prefixes.length - 16) := by
    rw [repeats.fetched_prefixes, PrefixQueue.bytes_pushAll_empty]
  have offset : (c.fetched prefixes opcode).cpu.regs.ip -
      BitVec.ofNat 16 ((c.fetched prefixes opcode).cpu.prefixes.bytes.length + 1) =
      c.cpu.regs.ip + BitVec.ofNat 16 (prefixes.take (prefixes.length - 16)).length := by
    rw [window, List.length_drop, List.length_take]
    simp only [Core.fetched]
    bv_omega
  rw [← List.take_append_drop (prefixes.length - 16) prefixes, List.append_assoc] at code
  rw [offset, window]
  exact code.append

section Paused

variable {hidden : List Address} {i : Nat} {cx : Word} {d : Core Flat}
  (paused : Paused hidden (elements w op i (c.fetched prefixes opcode)) cx d)

include paused

theorem stackFrame_paused : d.cpu.regs.stackFrame = c.cpu.regs.stackFrame := by
  obtain ⟨ax, flags, _, frame⟩ := elements_frame w op i (c.fetched prefixes opcode)
  rw [paused.regs, frame]
  rfl

/-- Between two elements, memory out of their reach and of the stack frame is what it was. -/
theorem read_paused {a : Address} (seen : a ∉ hidden)
    (kept : ∀ j < i, a ∉ op.stored w (elements w op j (c.fetched prefixes opcode)).cpu) :
    d.bus.read a = c.bus.read a := by
  rw [← paused.bus.memory a seen, elements_read w op kept]
  rfl

theorem handler_paused {vector : Byte} (seen : ∀ a ∈ vectorEntry vector, a ∉ hidden)
    (kept : ∀ a ∈ vectorEntry vector, ∀ j < i,
      a ∉ op.stored w (elements w op j (c.fetched prefixes opcode)).cpu) :
    d.bus.handler vector = c.bus.handler vector := by
  obtain ⟨lower, upper⟩ := Flat.addresses_subset_vectorEntry vector
  have same (a : Address) (member : a ∈ vectorEntry vector) : d.bus.read a = c.bus.read a :=
    read_paused paused (seen a member) (kept a member)
  rw [Flat.handler, Flat.handler, Flat.get_congr fun a member => same a (lower member),
    Flat.get_congr fun a member => same a (upper member)]

/-- Moved back over the prefixes still queued, and with none queued any more, the processor
comes to the same element. What the handler left of the other fields does not matter. -/
theorem ready_rewound (repeats : c.Repeats prefixes opcode w op k) {b : Flat}
    (code : b.CodeAt c.cpu.regs.cs c.cpu.regs.ip (prefixes ++ [opcode]))
    (agree : d.bus.AgreeOff hidden b) (last : Byte) (owed : Nat) (total : Ticks) :
    Ready hidden opcode (elements w op i (c.fetched prefixes opcode)) cx d.cpu.prefixes.bytes ⟨{
      regs := { d.cpu.regs with ip := d.cpu.regs.ip - BitVec.ofNat 16 d.cpu.prefixes.length }
      halted := false, prefixes := .empty, opcode := last, deferred := owed, total }, b⟩ := by
  obtain ⟨ax, flags, _, frame⟩ := elements_frame w op i (c.fetched prefixes opcode)
  have queue : d.cpu.prefixes = (c.fetched prefixes opcode).cpu.prefixes :=
    paused.queue.trans (elements_kept w op i _).1
  have rewound (ip : Word) (n : Nat) : ip - 1 - BitVec.ofNat 16 n = ip - BitVec.ofNat 16 (n + 1) := by
    bv_omega
  have regs : { d.cpu.regs with ip := d.cpu.regs.ip - BitVec.ofNat 16 d.cpu.prefixes.length } =
      { (elements w op i (c.fetched prefixes opcode)).cpu.regs with
        cx
        ip := (elements w op i (c.fetched prefixes opcode)).cpu.regs.ip -
          BitVec.ofNat 16 (d.cpu.prefixes.bytes.length + 1) } := by
    rw [← rewound, paused.regs]
    rfl
  exact {
    code := by
      have window := repeats.code_window code
      rw [← queue] at window
      rw [regs, frame]
      exact window
    queued := by
      rw [queue, repeats.fetched_prefixes]
      intro b member
      exact (PrefixQueue.mem_bytes_pushAll member).elim (absurd · List.not_mem_nil) (repeats.queued b)
    plain := repeats.fetches.plain
    regs
    queue := by rw [PrefixQueue.pushAll_empty_bytes, paused.queue]
    running := rfl
    bus := paused.bus.trans agree }

end Paused

/-- An interrupt between two elements is over when the prefixes are to be fetched again. -/
theorem reenters (repeats : c.Repeats prefixes opcode w op k) {vector : Byte}
    (returns : c.Returns vector)
    (outside : ∀ a ∈ c.instruction prefixes, a ∉ c.cpu.regs.stackFrame)
    (apart : ∀ i < repetitions w op k (c.fetched prefixes opcode),
      ∀ a ∈ op.stored w (elements w op i (c.fetched prefixes opcode)).cpu,
        a ∉ c.instruction prefixes ∧ a ∉ vectorEntry vector ∧ a ≠ c.bus.handler vector) :
    Reenters c.cpu.regs.stackFrame opcode w op k (c.fetched prefixes opcode) vector := by
  intro i before d paused
  have stack := stackFrame_paused paused
  have handler := handler_paused paused returns.entry fun a member j earlier stored =>
    (apart j (Nat.lt_trans earlier before) a stored).2.1 member
  have instruction : d.bus.read (c.bus.handler vector) = c.bus.read (c.bus.handler vector) :=
    read_paused paused returns.handler fun j earlier stored =>
      (apart j (Nat.lt_trans earlier before) _ stored).2.2 rfl
  have visited := visit_returns vector d (by rw [stack]; exact returns.entry)
    (by rw [stack, handler]; exact returns.handler)
    (by rw [handler, instruction]; exact returns.instruction)
  have agree := d.bus.pushFrame_agree d.cpu.regs
    (d.cpu.regs.ip - BitVec.ofNat 16 d.cpu.prefixes.length)
  rw [stack] at agree
  refine ⟨_, d.cpu.prefixes.bytes, _, visited, ready_rewound paused repeats ?_ agree _ _ _⟩
  apply repeats.code.congr
  rw [List.length_append, List.length_singleton]
  intro a member
  rw [← agree.memory a (outside a member)]
  exact read_paused paused (outside a member) fun j earlier stored =>
    (apart j (Nat.lt_trans earlier before) a stored).1 member

theorem opcodeAddress_mem (c : Core Flat) (prefixes : List Byte) :
    c.opcodeAddress prefixes ∈ c.instruction prefixes :=
  Flat.mem_span _ _ (Nat.lt_succ_self _)

/-- Interrupts between the elements of a repeated string instruction, wherever they come, are not
seen in what it does: as many steps of its own, the same processor but for the cycles, the same
ports and memory. -/
theorem interruption_transparent (repeats : c.Repeats prefixes opcode w op k)
    (serve : Nat → Option Byte) (returns : ∀ p vector, serve p = some vector → c.Returns vector)
    (outside : ∀ a ∈ c.instruction prefixes, a ∉ c.cpu.regs.stackFrame)
    (apart : ∀ i < repetitions w op k (c.fetched prefixes opcode),
      ∀ a ∈ op.touched w (elements w op i (c.fetched prefixes opcode)).cpu,
        a ∉ c.cpu.regs.stackFrame ∧ a ∉ c.instruction prefixes ∧
          ∀ p vector, serve p = some vector →
            a ∉ vectorEntry vector ∧ a ≠ c.bus.handler vector) :
    (∃ steps cycles d, Completes quiet c steps cycles d) ∧
    (∃ steps cycles d, Completes serve c steps cycles d) ∧
    ∀ steps cycles d steps' cycles' d',
      Completes quiet c steps cycles d → Completes serve c steps' cycles' d' →
        steps' = steps ∧ d'.cpu = { d.cpu with total := d'.cpu.total } ∧
        d'.bus.ports = d.bus.ports ∧
        ∀ a, a ∉ c.cpu.regs.stackFrame → d'.bus.read a = d.bus.read a := by
  have kept (i : Nat) (before : i < repetitions w op k (c.fetched prefixes opcode)) :
      c.opcodeAddress prefixes ∉ op.stored w (elements w op i (c.fetched prefixes opcode)).cpu :=
    fun stored => (apart i before _ (op.stored_subset_touched w _ stored)).2.1
      (opcodeAddress_mem c prefixes)
  obtain ⟨cycles, d, run, ended, _⟩ := repeats.completes [] quiet
    List.not_mem_nil kept (fun _ _ _ _ => List.not_mem_nil) fun p vector served =>
      absurd served (quiet_ne_some p vector)
  obtain ⟨cycles', d', run', ended', _⟩ := repeats.completes _ serve
    (outside _ (opcodeAddress_mem c prefixes)) kept (fun i before a member => (apart i before a member).1)
    fun p vector served => repeats.reenters (returns p vector served) outside
      fun i before a stored => by
        obtain ⟨_, code, rest⟩ := apart i before a (op.stored_subset_touched w _ stored)
        exact ⟨code, rest p vector served⟩
  refine ⟨⟨_, _, _, run⟩, ⟨_, _, _, run'⟩, ?_⟩
  intro _ _ _ _ _ _ one other
  obtain ⟨rfl, rfl, rfl⟩ := run.unique one
  obtain ⟨rfl, rfl, rfl⟩ := run'.unique other
  refine ⟨rfl, ?_, ?_⟩
  · rw [ended.cpu_eq, ended'.cpu_eq]
  · rw [← ended.bus.eq]
    exact ⟨ended'.bus.ports.symm, fun a seen => (ended'.bus.memory a seen).symm⟩

/-- In front of `REP STOSB`, with three bytes to fill, a stack, and a return as the handler
of vector 8. -/
def filling : Core Flat where
  cpu := { regs := { ax := 0x55, cx := 3, di := 0x600, sp := 0x1000 } }
  bus := (((default : Flat).write 0xFFFF0 0xF3).write 0xFFFF1 0xAA).write 0x21 4 |>.write 0x400 0xCF

theorem interruption_transparent_filling :
    ∃ steps cycles d cycles' d', Completes quiet filling steps cycles d ∧
      Completes (fun _ => some 8) filling steps cycles' d' ∧
      d'.cpu.regs = d.cpu.regs ∧ d'.bus.read 0x602 = d.bus.read 0x602 := by
  have repeats : filling.Repeats [0xF3] 0xAA .byte .stos .whileZero := {
    running := rfl
    fresh := rfl
    untrapped := rfl
    queued := by decide
    code := by simp [filling, Flat.CodeAt, Flat.read_write, physical]
    decoded := by decide
    repeated := by decide }
  have stack : filling.cpu.regs.stackFrame = [0xFFA, 0xFFB, 0xFFC, 0xFFD, 0xFFE, 0xFFF] := by
    simp [filling, Registers.stackFrame, Flat.span, physical]
  have code : filling.instruction [0xF3] = [0xFFFF0, 0xFFFF1] := by
    simp [filling, instruction, Flat.span, physical]
  have entry : vectorEntry 8 = [0x20, 0x21, 0x22, 0x23] := by
    simp [vectorEntry, vectorOffset, Flat.span, physical]
  have handler : filling.bus.handler 8 = 0x400 := by
    simp [filling, Flat.handler, Flat.get, Flat.read_write, Flat.read_default, Word.ofBytes,
      vectorOffset, physical]
  have returns : filling.Returns 8 := {
    instruction := by
      rw [handler]
      simp [filling, Flat.read_write]
    handler := by
      rw [handler, stack]
      decide
    entry := by
      rw [entry, stack]
      simp }
  have apart : ∀ i < repetitions .byte .stos .whileZero (filling.fetched [0xF3] 0xAA),
      ∀ a ∈ StringOp.touched .stos .byte (elements .byte .stos i (filling.fetched [0xF3] 0xAA)).cpu,
        a ∉ filling.cpu.regs.stackFrame ∧ a ∉ filling.instruction [0xF3] ∧
          a ∉ vectorEntry 8 ∧ a ≠ filling.bus.handler 8 := by
    intro i before
    rw [repetitions_eq _ _ _ _ rfl] at before
    have three : i < 3 := before
    rw [touched_elements, stack, code, entry, handler]
    intro a member
    obtain rfl | rfl | rfl : i = 0 ∨ i = 1 ∨ i = 2 := by omega
    all_goals
      rw [List.mem_singleton.mp member]
      decide
  obtain ⟨⟨steps, cycles, d, run⟩, ⟨steps', cycles', d', run'⟩, same⟩ :=
    interruption_transparent repeats (fun _ => some 8)
      (fun _ _ served => Option.some.inj served ▸ returns) (by rw [code, stack]; simp)
      fun i before a member => by
        obtain ⟨frame, code, rest⟩ := apart i before a member
        exact ⟨frame, code, fun _ _ served => Option.some.inj served ▸ rest⟩
  obtain ⟨rfl, cpu, _, memory⟩ := same _ _ _ _ _ _ run run'
  exact ⟨_, _, d, _, d', run, run', by rw [cpu], memory _ (by decide)⟩

end Repeats

end Swan.Core
