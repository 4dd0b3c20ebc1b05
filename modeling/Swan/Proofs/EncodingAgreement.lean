import Swan.Proofs.CodeMeaning
import Swan.Proofs.OperandFetch
import Swan.Proofs.RedundantEncoding

/-! The two encodings of an instruction agree. Their operations are written apart and fetch
different bytes; behind those bytes, each amounts to the effect that the table gives them. -/
namespace Swan

open Arithmetic

theorem Core.Skips.operand {c d : Core Flat} {n : Nat} (skips : c.Skips n d) (w : Width)
    (i : BitVec 3) : d.cpu.regs.operand w i = c.cpu.regs.operand w i := by
  rw [skips.cpu]
  cases w <;> rfl

theorem Core.Skips.prefixes {c d : Core Flat} {n : Nat} (skips : c.Skips n d) :
    d.cpu.prefixes = c.cpu.prefixes := by
  rw [skips.cpu]
  rfl

namespace Exec

variable {c c' : Core Flat} {rest : List Byte}

theorem takes_operand (o : OperandBytes) (here : c.At (o.bytes ++ rest)) :
    ∃ d, Takes o.bytes fetchModRM
      (.ofByte o.modRM, o.place c.cpu.regs c.cpu.prefixes) c d ∧ d.At rest :=
  takes_modRM o.complete here

theorem takes_registers (reg rm : BitVec 3)
    (here : c.At ((OperandBytes.registers reg rm).bytes ++ rest)) :
    ∃ d, Takes (OperandBytes.registers reg rm).bytes fetchModRM
      (⟨3, reg, rm⟩, .register (rm.setWidth 8)) c d ∧ d.At rest := by
  have takes := takes_operand (OperandBytes.registers reg rm) here
  have modRM : ModRM.ofByte (OperandBytes.registers reg rm).modRM = ⟨3, reg, rm⟩ :=
    ModRM.ofByte_registers reg rm
  rwa [OperandBytes.place, modRM] at takes

theorem takes_value (w : Width) (v : Operand w) (here : c.At (immediateBytes w v ++ rest)) :
    ∃ d, Takes (immediateBytes w v) (fetch w) v c d ∧ d.At rest := by
  have takes := takes_fetch (length_immediateBytes w v) here
  rwa [immediate_immediateBytes] at takes

/-- An instruction whose operands are fetched at once does the rest behind them. -/
theorem amounts_operands {α : Type} {code : List Byte} {x : Exec Flat α} {a : α}
    {f : α → Exec Flat Retired} {y : Exec Flat Retired} [Still y] (here : c.At code)
    (fetched : c.At (code ++ []) → ∃ d, Takes code x a c d ∧ d.At [])
    (same : ∀ d, c.Skips code.length d → f a d = y d) : Amounts code (x >>= f) y c := by
  obtain ⟨d, takes, -⟩ := fetched here.append_nil
  exact takes.amounts (same d takes.skips)

@[simp] theorem readAt_register (w : Width) (i : BitVec 3) :
    (readAt w (.register (i.setWidth 8)) : Exec Flat (Operand w)) = operand w i := by
  rw [readAt, BitVec.setWidth_setWidth_of_le i (by decide), BitVec.setWidth_eq]

@[simp] theorem writeAt_register (w : Width) (v : Operand w) (i : BitVec 3) :
    (writeAt w v (.register (i.setWidth 8)) : Exec Flat Unit) = setOperand w i v := by
  rw [writeAt, BitVec.setWidth_setWidth_of_le i (by decide), BitVec.setWidth_eq]

instance (op : BinaryOp) (w : Width) (l : Location) (v : Operand w) : Still (combine op w l v) := by
  simp only [combine]
  infer_instance

instance (field : BitVec 3) (w : Width) (l : Location) (count : Byte) :
    Still (shiftAt field w l count) := by
  simp only [shiftAt]
  split <;> infer_instance

instance (effect : Exec Flat Unit) (cycles : Nat) [Still effect] : Still (taking effect cycles) :=
  inferInstanceAs (Still (effect >>= fun _ => pure _))

theorem combine_taking (op : BinaryOp) (w : Width) (l : Location) (v : Operand w) (cycles : Nat) :
    taking (combine op w l v) cycles = do
      let r ← withFlags (op.apply (← readAt w l) v)
      if op.writesResult then writeAt w r l
      return { cycles } := by
  cases writes : op.writesResult <;> simp only [taking, combine, writes, if_true] <;> rfl

theorem amounts_binaryToRm (op : BinaryOp) (w : Width) {a b : BitVec 3}
    (here : c.At (OperandBytes.registers b a).bytes) :
    Amounts (OperandBytes.registers b a).bytes (binaryToRm w op)
      (taking (combine op w (.register (a.setWidth 8)) (c.cpu.regs.operand w b)) 1) c := by
  refine amounts_operands here (takes_registers b a) fun d skips => ?_
  rw [combine_taking, ← skips.operand]
  rfl

theorem amounts_binaryToReg (op : BinaryOp) (w : Width) {a b : BitVec 3}
    (here : c.At (OperandBytes.registers a b).bytes) :
    Amounts (OperandBytes.registers a b).bytes (binaryToReg w op)
      (taking (combine op w (.register (a.setWidth 8)) (c.cpu.regs.operand w b)) 1) c := by
  refine amounts_operands here (takes_registers a b) fun d skips => ?_
  rw [combine_taking, ← skips.operand]
  simp only [readAt_register, writeAt_register]
  rfl

theorem amounts_binaryAccumulator (op : BinaryOp) (w : Width) (v : Operand w)
    (here : c.At (immediateBytes w v)) :
    Amounts (immediateBytes w v) (binaryAccumulator w op)
      (taking (combine op w (.register 0) v) 1) c := by
  refine amounts_operands here (takes_value w v) fun _ _ => ?_
  rw [combine_taking]
  rfl

theorem amounts_binaryImmediate {w : Width} (form : ImmediateForm) (o : OperandBytes)
    {bytes : List Byte} (size : bytes.length = form.size w) (here : c.At (o.bytes ++ bytes)) :
    let op := BinaryOp.ofIndex o.field
    let rm := o.place c.cpu.regs c.cpu.prefixes
    Amounts (o.bytes ++ bytes) (binaryImmediate w form)
      (taking (combine op w rm (form.value w bytes)) (binaryRmCost op rm)) c := by
  intro op rm
  obtain ⟨d, takes, next⟩ := takes_operand o here
  obtain ⟨e, takes', -⟩ := takes_immediate size next.append_nil
  refine takes.before (takes'.amounts ?_)
  rw [combine_taking]
  rfl

theorem amounts_incReg (i : BitVec 3) :
    Amounts [] (incReg (.ofIndex i)) (taking (do
      setOperand .word i (← withFlags (increment (c.cpu.regs.operand .word i)))) 1) c :=
  .of_apply inferInstance rfl

theorem amounts_decReg (i : BitVec 3) :
    Amounts [] (decReg (.ofIndex i)) (taking (do
      setOperand .word i (← withFlags (decrement (c.cpu.regs.operand .word i)))) 1) c :=
  .of_apply inferInstance rfl

theorem amounts_pushReg (i : BitVec 3) :
    Amounts [] (pushReg (.ofIndex i)) (taking (push (c.cpu.regs.operand .word i)) 1) c :=
  .of_apply inferInstance rfl

theorem amounts_group5_increment {i : BitVec 3} (here : c.At (OperandBytes.registers 0 i).bytes) :
    Amounts (OperandBytes.registers 0 i).bytes group5 (taking (do
      setOperand .word i (← withFlags (increment (c.cpu.regs.operand .word i)))) 1) c := by
  refine amounts_operands here (takes_registers 0 i) fun d skips => ?_
  rw [← skips.operand]
  simp only [readAt_register, writeAt_register]
  rfl

theorem amounts_group5_decrement {i : BitVec 3} (here : c.At (OperandBytes.registers 1 i).bytes) :
    Amounts (OperandBytes.registers 1 i).bytes group5 (taking (do
      setOperand .word i (← withFlags (decrement (c.cpu.regs.operand .word i)))) 1) c := by
  refine amounts_operands here (takes_registers 1 i) fun d skips => ?_
  rw [← skips.operand]
  simp only [readAt_register, writeAt_register]
  rfl

theorem amounts_group5_push {i : BitVec 3} (here : c.At (OperandBytes.registers 6 i).bytes) :
    Amounts (OperandBytes.registers 6 i).bytes group5
      (taking (push (c.cpu.regs.operand .word i)) 1) c := by
  refine amounts_operands here (takes_registers 6 i) fun d skips => ?_
  rw [← skips.operand]
  simp only [readAt_register]
  rfl

theorem amounts_popReg (i : BitVec 3) :
    Amounts [] (popReg (.ofIndex i)) (taking (do setOperand .word i (← pop)) 1) c :=
  .of_apply inferInstance rfl

theorem amounts_popRm {reg i : BitVec 3} (here : c.At (OperandBytes.registers reg i).bytes) :
    Amounts (OperandBytes.registers reg i).bytes popRm
      (taking (do setOperand .word i (← pop)) 1) c := by
  refine amounts_operands here (takes_registers reg i) fun _ _ => ?_
  simp only [writeAt_register]
  rfl

theorem amounts_moveImmediate {w : Width} (i : BitVec 3) (v : Operand w)
    (here : c.At (immediateBytes w v)) :
    Amounts (immediateBytes w v) (moveImmediate w i) (taking (setOperand w i v) 1) c := by
  exact amounts_operands here (takes_value w v) fun _ _ => rfl

theorem amounts_moveRmImmediate {w : Width} {i reg : BitVec 3} (v : Operand w)
    (here : c.At ((OperandBytes.registers reg i).bytes ++ immediateBytes w v)) :
    Amounts ((OperandBytes.registers reg i).bytes ++ immediateBytes w v) (moveRmImmediate w)
      (taking (setOperand w i v) 1) c := by
  obtain ⟨d, takes, next⟩ := takes_registers reg i here
  obtain ⟨e, takes', -⟩ := takes_value w v next.append_nil
  refine takes.before (takes'.amounts ?_)
  simp only [writeAt_register]
  rfl

instance (i : BitVec 3) : Still (swapAccumulator i) := by
  refine .setRegs (fun r ip => ?_) fun r => ?_ <;>
    simp only [Registers.setOperand, Registers.operand] <;>
    generalize WordReg.ofIndex i = reg <;> cases reg <;> rfl

theorem amounts_exchangeAccumulator (i : BitVec 3) :
    Amounts [] (exchangeAccumulator (.ofIndex i)) (taking (swapAccumulator i) 3) c :=
  .of_apply inferInstance rfl

theorem amounts_exchangeRm {i : BitVec 3} (here : c.At (OperandBytes.registers 0 i).bytes) :
    Amounts (OperandBytes.registers 0 i).bytes (exchangeRm .word)
      (taking (swapAccumulator i) 3) c := by
  refine amounts_operands here (takes_registers 0 i) fun _ _ => ?_
  simp only [readAt_register, writeAt_register]
  rfl

theorem amounts_exchangeRm_accumulator {i : BitVec 3}
    (here : c.At (OperandBytes.registers i 0).bytes) :
    Amounts (OperandBytes.registers i 0).bytes (exchangeRm .word)
      (taking (swapAccumulator i) 3) c := by
  refine amounts_operands here (takes_registers i 0) fun d _ => ?_
  have order (r : Registers) (reg : WordReg) : { r with ax := r.word reg }.setWord r.ax reg =
      { r.setWord r.ax reg with ax := r.word reg } := by
    cases reg <;> rfl
  simp only [readAt_register, writeAt_register]
  exact congrArg (fun regs => (Retired.mk 3 false, (⟨{ d.cpu with regs }, d.bus⟩ : Core Flat)))
    (order d.cpu.regs (.ofIndex i))

theorem amounts_loadDirect {w : Width} (offset : Word) (here : c.At (immediateBytes .word offset)) :
    Amounts (immediateBytes .word offset) (loadDirect w) (taking (do
      setOperand w 0 (← readAt w (.memory (c.cpu.prefixes.segmentOverride.getD .ds) offset))) 1)
      c := by
  refine amounts_operands here (takes_value .word offset) fun d skips => ?_
  rw [← skips.prefixes]
  rfl

theorem amounts_storeDirect {w : Width} (offset : Word)
    (here : c.At (immediateBytes .word offset)) :
    Amounts (immediateBytes .word offset) (storeDirect w) (taking
      (writeAt w (c.cpu.regs.operand w 0)
        (.memory (c.cpu.prefixes.segmentOverride.getD .ds) offset)) 1) c := by
  refine amounts_operands here (takes_value .word offset) fun d skips => ?_
  rw [← skips.prefixes, ← skips.operand]
  rfl

theorem takes_direct (offset : Word) (here : c.At ((OperandBytes.direct offset).bytes ++ rest)) :
    ∃ d, Takes (OperandBytes.direct offset).bytes fetchModRM
      (⟨0, 0, 6⟩, .memory (c.cpu.prefixes.segmentOverride.getD .ds) offset) c d ∧ d.At rest := by
  have modRM : ModRM.ofByte (OperandBytes.direct offset).modRM = ⟨0, 0, 6⟩ := by
    change ModRM.ofByte 0x06 = _
    decide
  have place : (OperandBytes.direct offset).place c.cpu.regs c.cpu.prefixes =
      .memory (c.cpu.prefixes.segmentOverride.getD .ds) offset := by
    rw [OperandBytes.place, modRM]
    change Location.memory (c.cpu.prefixes.segmentOverride.getD .ds)
      (0#16 + Word.ofBytes (Word.low offset) (Word.high offset)) = _
    rw [Word.ofBytes_low_high, BitVec.zero_add]
  have takes := takes_operand (OperandBytes.direct offset) here
  rwa [place, modRM] at takes

theorem amounts_moveToReg {w : Width} (offset : Word)
    (here : c.At (OperandBytes.direct offset).bytes) :
    Amounts (OperandBytes.direct offset).bytes (moveToReg w) (taking (do
      setOperand w 0 (← readAt w (.memory (c.cpu.prefixes.segmentOverride.getD .ds) offset))) 1)
      c := by
  exact amounts_operands here (takes_direct offset) fun _ _ => rfl

theorem amounts_moveToRm {w : Width} (offset : Word)
    (here : c.At (OperandBytes.direct offset).bytes) :
    Amounts (OperandBytes.direct offset).bytes (moveToRm w) (taking
      (writeAt w (c.cpu.regs.operand w 0)
        (.memory (c.cpu.prefixes.segmentOverride.getD .ds) offset)) 1) c := by
  refine amounts_operands here (takes_direct offset) fun d skips => ?_
  rw [← skips.operand]
  rfl

theorem amounts_testAccumulator {w : Width} (v : Operand w) (here : c.At (immediateBytes w v)) :
    Amounts (immediateBytes w v) (testAccumulator w) (taking (do
      let _ ← withFlags (bitAnd (c.cpu.regs.operand w 0) v)) 1) c := by
  refine amounts_operands here (takes_value w v) fun d skips => ?_
  rw [← skips.operand]
  rfl

/-- The register is read before the immediate is fetched. -/
theorem amounts_group3 {w : Width} (v : Operand w)
    (here : c.At ((OperandBytes.registers 0 0).bytes ++ immediateBytes w v)) :
    Amounts ((OperandBytes.registers 0 0).bytes ++ immediateBytes w v) (group3 w) (taking (do
      let _ ← withFlags (bitAnd (c.cpu.regs.operand w 0) v)) 1) c := by
  obtain ⟨d, takes, next⟩ := takes_registers 0 0 here
  obtain ⟨e, read, next⟩ := takes_readAt w (.register 0) next
  obtain ⟨g, takes', -⟩ := takes_value w v next.append_nil
  have value : (Location.register 0).value (Viewed.view d.bus) d.cpu.regs w =
      c.cpu.regs.operand w 0 := takes.skips.operand w 0
  rw [value] at read
  exact takes.before (read.before (takes'.amounts rfl))

/-- The tail of a shift, with its count known. -/
theorem shiftAt_taking (field : BitVec 3) (w : Width) (l : Location) (count : Byte) (cost : Nat) :
    taking (shiftAt field w l count) (Redundancy.shiftCost field cost) =
      match ShiftOp.ofIndex? field with
      | none => return { cycles := 1 }
      | some op => do
        let r ← withFlags (shift op (← readAt w l) count)
        writeAt w r l
        return { cycles := cost } := by
  cases found : ShiftOp.ofIndex? field <;>
    simp only [taking, shiftAt, Redundancy.shiftCost, found] <;> rfl

theorem amounts_shift_one {w : Width} (o : OperandBytes) (here : c.At o.bytes) :
    let rm := o.place c.cpu.regs c.cpu.prefixes
    Amounts o.bytes (shiftRm w .one) (taking (shiftAt o.field w rm 1)
      (Redundancy.shiftCost o.field (rm.cost 1 3))) c := by
  intro rm
  refine amounts_operands here (takes_operand o) fun _ _ => ?_
  rw [shiftAt_taking]
  rfl

theorem amounts_shift_cl {w : Width} (o : OperandBytes) (here : c.At o.bytes) :
    let rm := o.place c.cpu.regs c.cpu.prefixes
    Amounts o.bytes (shiftRm w .cl) (taking (shiftAt o.field w rm c.cpu.regs.cl)
      (Redundancy.shiftCost o.field (rm.cost 3 5))) c := by
  intro rm
  refine amounts_operands here (takes_operand o) fun d skips => ?_
  rw [shiftAt_taking, ← show d.cpu.regs.cl = c.cpu.regs.cl from skips.operand .byte 1]
  rfl

theorem amounts_shift_immediate {w : Width} (o : OperandBytes) (count : Byte)
    (here : c.At (o.bytes ++ [count])) :
    let rm := o.place c.cpu.regs c.cpu.prefixes
    Amounts (o.bytes ++ [count]) (shiftRm w .immediate) (taking (shiftAt o.field w rm count)
      (Redundancy.shiftCost o.field (rm.cost 3 5))) c := by
  intro rm
  obtain ⟨d, takes, next⟩ := takes_operand o here
  obtain ⟨e, takes', -⟩ := takes_byte next
  refine takes.before (takes'.amounts ?_)
  rw [shiftAt_taking]
  rfl

theorem shownAt_combine {hidden : List Address} {w : Width} {l : Location} (op : BinaryOp)
    (v : Operand w) (seen : ∀ a ∈ l.addresses c.cpu.regs w, a ∉ hidden) :
    ShownAt hidden (combine op w l v) c :=
  .bind (shownAt_readAt seen) (Shown.shown _)

theorem shownAt_shiftAt {hidden : List Address} {w : Width} {l : Location} (field : BitVec 3)
    (count : Byte) (seen : ∀ a ∈ l.addresses c.cpu.regs w, a ∉ hidden) :
    ShownAt hidden (shiftAt field w l count) c := by
  simp only [shiftAt]
  split
  · exact Shown.shown c
  · exact .bind (shownAt_readAt seen) (Shown.shown _)

end Exec

namespace Redundancy

open Exec

variable {c : Core Flat}

theorem amounts_first (p : Redundancy) (here : c.At p.first.operands) (fits : p.Fits c.cpu.regs) :
    Amounts p.first.operands p.operation.execute
      (taking (p.effect c.cpu.regs c.cpu.prefixes) (p.firstCost c.cpu.regs c.cpu.prefixes)) c := by
  cases p with
  | binaryRegisters op w => exact amounts_binaryToRm (.ofIndex op) w here
  | binaryAccumulator op w v => exact amounts_binaryAccumulator (.ofIndex op) w v here
  | binaryByte o v => exact amounts_binaryImmediate .full o rfl here
  | binarySigned o v => exact amounts_binaryImmediate .signedByte o rfl here
  | increment i => exact amounts_incReg i
  | decrement i => exact amounts_decReg i
  | push i => exact amounts_pushReg i
  | pop i => exact amounts_popReg i
  | moveImmediate w i _ v => cases w <;> exact amounts_moveImmediate i v here
  | exchange i => exact amounts_exchangeAccumulator i
  | loadDirect w offset => exact amounts_loadDirect offset here
  | storeDirect w offset => exact amounts_storeDirect offset here
  | testAccumulator w v => exact amounts_testAccumulator v here
  | shiftByOne w o => exact amounts_shift_one o here
  | shiftByCl w o count =>
    obtain rfl : c.cpu.regs.cl = count := fits
    exact amounts_shift_cl o here

theorem amounts_second (p : Redundancy) (here : c.At p.second.operands) :
    Amounts p.second.operands p.operation'.execute
      (taking (p.effect c.cpu.regs c.cpu.prefixes) (p.cost c.cpu.regs c.cpu.prefixes)) c := by
  cases p with
  | binaryRegisters op w => exact amounts_binaryToReg (.ofIndex op) w here
  | binaryAccumulator op w v =>
    have amounts := amounts_binaryImmediate .full (.registers op 0) (length_immediateBytes w v) here
    have modRM : ModRM.ofByte (OperandBytes.registers op 0).modRM = ⟨3, op, 0⟩ :=
      ModRM.ofByte_registers op 0
    rwa [ImmediateForm.value, immediate_immediateBytes, OperandBytes.field, OperandBytes.place,
      modRM] at amounts
  | binaryByte o v => exact amounts_binaryImmediate .full o rfl here
  | binarySigned o v =>
    have size := length_immediateBytes .word (Word.ofSigned v)
    have amounts := amounts_binaryImmediate (w := .word) .full o size here
    rwa [ImmediateForm.value, immediate_immediateBytes] at amounts
  | increment i => exact amounts_group5_increment here
  | decrement i => exact amounts_group5_decrement here
  | push i => exact amounts_group5_push here
  | pop i => exact amounts_popRm here
  | moveImmediate w i _ v => exact amounts_moveRmImmediate v here
  | exchange i first =>
    cases first with
    | true => exact amounts_exchangeRm here
    | false => exact amounts_exchangeRm_accumulator here
  | loadDirect w offset => exact amounts_moveToReg offset here
  | storeDirect w offset => exact amounts_moveToRm offset here
  | testAccumulator w v => exact amounts_group3 v here
  | shiftByOne w o => exact amounts_shift_immediate o 1 here
  | shiftByCl w o count => exact amounts_shift_immediate o count here

theorem shownAt_effect {hidden : List Address} (p : Redundancy)
    (seen : ∀ a ∈ p.reads c.cpu.regs c.cpu.prefixes, a ∉ hidden) :
    ShownAt hidden (p.effect c.cpu.regs c.cpu.prefixes) c := by
  cases p with
  | binaryRegisters op w => exact shownAt_combine _ _ nofun
  | binaryAccumulator op w v => exact shownAt_combine _ _ nofun
  | binaryByte | binarySigned => exact shownAt_combine _ _ seen
  | shiftByOne | shiftByCl => exact shownAt_shiftAt _ _ seen
  | pop => exact .bind (shownAt_pop seen) (Shown.shown _)
  | loadDirect => exact .bind (shownAt_readAt seen) (Shown.shown _)
  | increment | decrement | testAccumulator => exact .bind (Shown.shown c) (Shown.shown _)
  | push i => exact Shown.shown (x := Exec.push _) c
  | moveImmediate w i _ v => exact Shown.shown (x := setOperand w i v) c
  | exchange i => exact Shown.shown (x := setRegs _) c
  | storeDirect => exact Shown.shown (x := writeAt _ _ _) c

theorem plain_first (p : Redundancy) : isPrefix p.first.opcode = false := by
  apply Operation.plain_of_decode
  rw [decode_first]
  cases p <;> exact nofun

theorem plain_second (p : Redundancy) : isPrefix p.second.opcode = false := by
  apply Operation.plain_of_decode
  rw [decode_second]
  cases p <;> exact nofun

theorem fits_moved (p : Redundancy) (r : Registers) (ip : Word) :
    p.Fits { r with ip } ↔ p.Fits r := by
  cases p <;> exact Iff.rfl

theorem reads_moved (p : Redundancy) (r : Registers) (ip : Word) (q : PrefixQueue) :
    p.reads { r with ip } q = p.reads r q := by
  cases p with
  | binaryByte o | binarySigned o | shiftByOne w o | shiftByCl w o =>
    exact (o.place r q).addresses_moved r ip _
  | loadDirect w offset => exact (Location.memory _ offset).addresses_moved r ip w
  | _ => rfl

def instruction (p : Redundancy) (r : Registers) (prefixes : List Byte) : List Address :=
  Flat.span r.cs r.ip (prefixes.length + max p.first.bytes.length p.second.bytes.length)

/-- Two machines with the same registers, ports and memory stand before the two encodings of an
instruction. A step leaves the same on both, but for the instruction's own bytes and the place
behind them. -/
theorem encodings_agree (p : Redundancy) {c c' : Core Flat} {prefixes : List Byte}
    (running : c.cpu.halted = false) (untrapped : c.cpu.regs.flags.trap = false)
    (same : c'.cpu = c.cpu)
    (memory : c.bus.AgreeOff (p.instruction c.cpu.regs prefixes) c'.bus)
    (queued : ∀ b ∈ prefixes, isPrefix b = true)
    (code : c.bus.CodeAt c.cpu.regs.cs c.cpu.regs.ip (prefixes ++ p.first.bytes))
    (code' : c'.bus.CodeAt c.cpu.regs.cs c.cpu.regs.ip (prefixes ++ p.second.bytes))
    (fits : p.Fits c.cpu.regs)
    (apart : ∀ a ∈ p.reads c.cpu.regs (c.cpu.prefixes.pushAll prefixes),
      a ∉ p.instruction c.cpu.regs prefixes) :
    ∃ n n' d d', step c = (some n, d) ∧ step c' = (some n', d') ∧ (p.Timed → n' = n) ∧
      d.cpu.regs.ip = c.cpu.regs.ip + BitVec.ofNat 16 (prefixes.length + p.first.bytes.length) ∧
      d'.cpu.regs = { d.cpu.regs with
        ip := c.cpu.regs.ip + BitVec.ofNat 16 (prefixes.length + p.second.bytes.length) } ∧
      d'.cpu.halted = d.cpu.halted ∧
      d.bus.AgreeOff (p.instruction c.cpu.regs prefixes) d'.bus := by
  have regs : (c'.fetched prefixes p.second.opcode).cpu.regs =
      (c.fetched prefixes p.first.opcode).cpu.regs := by
    simp only [Core.fetched, same]
  have queue : (c'.fetched prefixes p.second.opcode).cpu.prefixes =
      (c.fetched prefixes p.first.opcode).cpu.prefixes := by
    simp only [Core.fetched, same]
  rw [← same] at code'
  have first := amounts_first p (Core.fetched_at code) ((p.fits_moved _ _).mpr fits)
  have second := amounts_second p (Core.fetched_at code')
  rw [regs, queue, ← decode_second] at second
  rw [← decode_first] at first
  have shown := shownAt_effect (c := c.fetched prefixes p.first.opcode) p (by
    intro a member
    rw [Core.fetched, reads_moved] at member
    exact apart a member)
  obtain ⟨d, d', stepped, stepped', ip, after, halted, bus⟩ := step_agree running untrapped same
    memory (.of_code code queued p.plain_first) (.of_code code' queued p.plain_second) first second
    shown
  refine ⟨_, _, d, d', stepped, stepped', fun timed => ?_, ?_, ?_, halted, bus⟩
  · rw [firstCost_eq timed]
  · rw [ip, Nat.add_assoc, Nat.add_comm 1]
    rfl
  · rw [after, Nat.add_assoc, Nat.add_comm 1]
    rfl

/-- A byte with its sign, added to a word of memory at ES. -/
def adding : Redundancy := binarySigned ⟨0x07, [], rfl⟩ 0xFE

def addingCpu : Cpu := { regs := { bx := 0x100 } }

def addingBus (code : List Byte) : Flat := (default : Flat).load 0xFFFF0 code

theorem addingBus_ports (code : List Byte) : (addingBus code).ports = (default : Flat).ports := rfl

theorem encodings_agree_adding : ∃ n d d',
    step ⟨addingCpu, addingBus ([0x26] ++ adding.first.bytes)⟩ = (some n, d) ∧
    step ⟨addingCpu, addingBus ([0x26] ++ adding.second.bytes)⟩ = (some n, d') ∧
    d.cpu.regs.ip = 4 ∧ d'.cpu.regs = { d.cpu.regs with ip := 5 } ∧
    d'.cpu.halted = d.cpu.halted ∧
    d.bus.AgreeOff (adding.instruction addingCpu.regs [0x26]) d'.bus := by
  let bus := addingBus ([0x26] ++ adding.first.bytes)
  let bus' := addingBus ([0x26] ++ adding.second.bytes)
  have memory : bus.AgreeOff (adding.instruction addingCpu.regs [0x26]) bus' := by
    refine ⟨(addingBus_ports _).trans (addingBus_ports _).symm, fun a outside => ?_⟩
    have bytes : adding.instruction addingCpu.regs [0x26] =
        [0xFFFF0#20, 0xFFFF1#20, 0xFFFF2#20, 0xFFFF3#20, 0xFFFF4#20] := by decide
    rw [bytes] at outside
    simp only [List.mem_cons, List.not_mem_nil, or_false, not_or] at outside
    simp [bus, bus', addingBus, Flat.load, Memory.load, Flat.read, Memory.read_write, adding, first,
      second, OperandBytes.bytes, Encoding.bytes, immediateBytes, outside]
  have code : bus.CodeAt addingCpu.regs.cs addingCpu.regs.ip ([0x26] ++ adding.first.bytes) := by
    simp [bus, addingBus, Flat.load, Memory.load, Flat.read, Memory.read_write, adding, first,
      Flat.CodeAt, OperandBytes.bytes, Encoding.bytes, physical, addingCpu]
  have code' : bus'.CodeAt addingCpu.regs.cs addingCpu.regs.ip ([0x26] ++ adding.second.bytes) := by
    simp [bus', addingBus, Flat.load, Memory.load, Flat.read, Memory.read_write, adding, second,
      Flat.CodeAt, OperandBytes.bytes, Encoding.bytes, immediateBytes, physical, addingCpu]
  have apart : ∀ a ∈ adding.reads addingCpu.regs (addingCpu.prefixes.pushAll [0x26]),
      a ∉ adding.instruction addingCpu.regs [0x26] := by
    have reads : adding.reads addingCpu.regs (addingCpu.prefixes.pushAll [0x26]) =
        [0x100#20, 0x101#20] := by decide
    rw [reads, List.forall_mem_cons, List.forall_mem_singleton]
    decide
  have same : (⟨addingCpu, bus'⟩ : Core Flat).cpu = addingCpu := rfl
  obtain ⟨n, n', d, d', stepped, stepped', timed, ip, regs, halted, bus⟩ :=
    encodings_agree adding (c := ⟨addingCpu, _⟩) rfl rfl same memory (by decide) code code' trivial
      apart
  obtain rfl := timed trivial
  exact ⟨_, d, d', stepped, stepped', ip, regs, halted, bus⟩

end Redundancy

end Swan
