import Swan.Cpu.Execute

/-! What an instruction cannot touch. Executing one changes registers, the halted state
and the bus; the queued prefixes, the last opcode and the cycle counts belong to the step
around it. Most instructions leave the halted state alone too, and none but a string
instruction asks to be run again. The three classes are closed under sequencing and
choice, so an instruction has an instance for the reason its parts have one. -/
namespace Swan.Exec

variable {β α γ : Type}

class Quiet (x : Exec β α) : Prop where
  frame : ∀ c, ∃ regs bus, (x c).2 = ⟨{ c.cpu with regs }, bus⟩

class Local (x : Exec β α) : Prop where
  frame : ∀ c, ∃ regs halted bus, (x c).2 = ⟨{ c.cpu with regs, halted }, bus⟩

class Single (x : Exec β Retired) : Prop extends Local x where
  again : ∀ c, (x c).1.again = false

section Closure

instance (a : α) : Quiet (pure a : Exec β α) := ⟨fun _ => ⟨_, _, rfl⟩⟩

theorem Quiet.bind {x : Exec β α} {f : α → Exec β γ} (first : Quiet x) (rest : ∀ a, Quiet (f a)) :
    Quiet (x >>= f) where
  frame c := by
    obtain ⟨_, _, hc⟩ := first.frame c
    obtain ⟨regs, bus, hd⟩ := (rest (x c).1).frame (x c).2
    exact ⟨regs, bus, by rw [show ((x >>= f) c).2 = (f (x c).1 (x c).2).2 from rfl, hd, hc]⟩

instance (x : Exec β α) (f : α → Exec β γ) [first : Quiet x] [rest : ∀ a, Quiet (f a)] :
    Quiet (x >>= f) := first.bind rest

instance (p : Prop) [Decidable p] (x y : Exec β α) [Quiet x] [Quiet y] :
    Quiet (if p then x else y) := by
  split <;> assumption

theorem Local.bind {x : Exec β α} {f : α → Exec β γ} (first : Local x) (rest : ∀ a, Local (f a)) :
    Local (x >>= f) where
  frame c := by
    obtain ⟨_, _, _, hc⟩ := first.frame c
    obtain ⟨regs, halted, bus, hd⟩ := (rest (x c).1).frame (x c).2
    exact ⟨regs, halted, bus,
      by rw [show ((x >>= f) c).2 = (f (x c).1 (x c).2).2 from rfl, hd, hc]⟩

instance (priority := low) (x : Exec β α) [quiet : Quiet x] : Local x where
  frame c := by
    obtain ⟨regs, bus, h⟩ := quiet.frame c
    exact ⟨regs, c.cpu.halted, bus, h⟩

instance (x : Exec β α) (f : α → Exec β γ) [first : Local x] [rest : ∀ a, Local (f a)] :
    Local (x >>= f) := first.bind rest

instance (cycles : Nat) : Single (pure { cycles } : Exec β Retired) where
  again _ := rfl

theorem Single.bind {x : Exec β α} {f : α → Exec β Retired} (first : Local x)
    (rest : ∀ a, Single (f a)) : Single (x >>= f) where
  again c := (rest (x c).1).again (x c).2

instance (x : Exec β α) (f : α → Exec β Retired) [first : Local x] [rest : ∀ a, Single (f a)] :
    Single (x >>= f) := .bind first rest

instance (p : Prop) [Decidable p] (x y : Exec β Retired) [Single x] [Single y] :
    Single (if p then x else y) := by
  split <;> assumption

end Closure

section Access

variable [Bus β]

instance : Quiet (regs : Exec β Registers) := ⟨fun _ => ⟨_, _, rfl⟩⟩

instance (f : Registers → Registers) : Quiet (setRegs f : Exec β Unit) := ⟨fun _ => ⟨_, _, rfl⟩⟩

instance : Quiet (prefixes : Exec β PrefixQueue) := ⟨fun _ => ⟨_, _, rfl⟩⟩

instance (op : Flags → α × Flags) : Quiet (withFlags op : Exec β α) := ⟨fun _ => ⟨_, _, rfl⟩⟩

instance (s o : Word) : Quiet (readByte s o : Exec β Byte) := ⟨fun _ => ⟨_, _, rfl⟩⟩

instance (s o : Word) (v : Byte) : Quiet (writeByte s o v : Exec β Unit) := ⟨fun _ => ⟨_, _, rfl⟩⟩

instance (p : Byte) : Quiet (portIn p : Exec β Byte) := ⟨fun _ => ⟨_, _, rfl⟩⟩

instance (p v : Byte) : Quiet (portOut p v : Exec β Unit) := ⟨fun _ => ⟨_, _, rfl⟩⟩

instance : Quiet (fetchByte : Exec β Byte) := ⟨fun _ => ⟨_, _, rfl⟩⟩

instance (on : Bool) : Local (setHalted on : Exec β Unit) := ⟨fun _ => ⟨_, _, _, rfl⟩⟩

instance (s o : Word) : Quiet (readWord s o : Exec β Word) := by
  unfold readWord
  infer_instance

instance (s o v : Word) : Quiet (writeWord s o v : Exec β Unit) := by
  unfold writeWord
  infer_instance

instance : Quiet (fetchWord : Exec β Word) := by
  unfold fetchWord
  infer_instance

instance (w : Width) (s o : Word) : Quiet (load w s o : Exec β (Operand w)) := by
  cases w <;> unfold load <;> infer_instance

instance (w : Width) (s o : Word) (v : Operand w) : Quiet (store w s o v : Exec β Unit) := by
  cases w <;> unfold store <;> infer_instance

instance (w : Width) : Quiet (fetch w : Exec β (Operand w)) := by
  cases w <;> unfold fetch <;> infer_instance

instance (w : Width) (p : Byte) : Quiet (input w p : Exec β (Operand w)) := by
  cases w <;> unfold input <;> infer_instance

instance (w : Width) (p : Byte) (v : Operand w) : Quiet (output w p v : Exec β Unit) := by
  cases w <;> unfold output <;> infer_instance

instance (v : Word) : Quiet (push v : Exec β Unit) := by
  unfold push
  infer_instance

instance : Quiet (pop : Exec β Word) := by
  unfold pop
  infer_instance

instance (s : Segment) : Quiet (dataSegment s : Exec β Word) := by
  unfold dataSegment
  infer_instance

omit [Bus β] in
theorem quiet_operand (w : Width) (i : BitVec 3) : Quiet (operand w i : Exec β (Operand w)) := by
  unfold operand
  infer_instance

instance (w : Width) (i : BitVec 3) : Quiet (operand w i : Exec β (Operand w)) := quiet_operand w i

instance (i : BitVec 3) : Quiet (operand .word i : Exec β Word) := quiet_operand .word i

instance (w : Width) (i : BitVec 3) (v : Operand w) : Quiet (setOperand w i v : Exec β Unit) := by
  unfold setOperand
  infer_instance

instance (d : ModRM.Displacement) : Quiet (fetchDisplacement d : Exec β Word) := by
  cases d <;> unfold fetchDisplacement <;> infer_instance

instance (m : ModRM) : Quiet (resolve m : Exec β Location) := by
  unfold resolve
  infer_instance

instance : Quiet (fetchModRM : Exec β (ModRM × Location)) := by
  unfold fetchModRM
  infer_instance

theorem quiet_readAt (w : Width) (l : Location) : Quiet (readAt w l : Exec β (Operand w)) := by
  cases l <;> unfold readAt <;> infer_instance

instance (w : Width) (l : Location) : Quiet (readAt w l : Exec β (Operand w)) := quiet_readAt w l

instance (l : Location) : Quiet (readAt .byte l : Exec β Byte) := quiet_readAt .byte l

instance (l : Location) : Quiet (readAt .word l : Exec β Word) := quiet_readAt .word l

instance (w : Width) (v : Operand w) (l : Location) : Quiet (writeAt w v l : Exec β Unit) := by
  cases l <;> unfold writeAt <;> infer_instance

theorem quiet_fetchImmediate (w : Width) (form : ImmediateForm) :
    Quiet (fetchImmediate w form : Exec β (Operand w)) := by
  cases form <;> unfold fetchImmediate <;> infer_instance

instance (w : Width) (form : ImmediateForm) : Quiet (fetchImmediate w form : Exec β (Operand w)) :=
  quiet_fetchImmediate w form

instance (form : ImmediateForm) : Quiet (fetchImmediate .word form : Exec β Word) :=
  quiet_fetchImmediate .word form

instance (source : PortSource) : Quiet (portNumber source : Exec β Byte) := by
  cases source <;> unfold portNumber <;> infer_instance

instance (d : Word) : Quiet (jumpBy d : Exec β Unit) := by
  unfold jumpBy
  infer_instance

instance : Quiet (popIp : Exec β Unit) := by
  unfold popIp
  infer_instance

instance : Quiet (popCs : Exec β Unit) := by
  unfold popCs
  infer_instance

instance (size : Word) : Quiet (releaseStack size : Exec β Unit) := by
  unfold releaseStack
  infer_instance

instance : Quiet (pushReturnAddress : Exec β Unit) := by
  unfold pushReturnAddress
  infer_instance

instance (v : Byte) : Local (enterInterrupt v : Exec β Unit) := by
  unfold enterInterrupt
  exact .bind inferInstance fun _ => inferInstance

end Access

section Instructions

open Arithmetic

variable [Bus β]

instance : Single (loadAddress : Exec β Retired) := by
  unfold loadAddress
  refine .bind inferInstance fun (_, rm) => ?_
  cases rm <;> infer_instance

instance (s : Segment) : Single (loadFar s : Exec β Retired) := by
  unfold loadFar
  refine .bind inferInstance fun (_, rm) => ?_
  cases rm <;> infer_instance

instance : Single (pushAll : Exec β Retired) := by
  unfold pushAll
  repeat refine .bind inferInstance fun _ => ?_
  infer_instance

instance : Single (popAll : Exec β Retired) := by
  unfold popAll
  repeat refine .bind inferInstance fun _ => ?_
  infer_instance

theorem quiet_copyFramePointers (n : Nat) : Quiet (enter.copyFramePointers n : Exec β Unit) := by
  induction n with
  | zero => exact inferInstanceAs (Quiet (pure ()))
  | succ n ih =>
    unfold enter.copyFramePointers
    infer_instance

instance (n : Nat) : Quiet (enter.copyFramePointers n : Exec β Unit) := quiet_copyFramePointers n

instance : Single (enter : Exec β Retired) := by
  unfold enter
  repeat refine .bind inferInstance fun _ => ?_
  infer_instance

instance (a : Adjustment) : Single (adjust a : Exec β Retired) := by
  cases a
  case packedSum | packedDifference => unfold adjust adjust.packed; infer_instance
  case unpackedSum | unpackedDifference => unfold adjust adjust.unpacked; infer_instance

instance (w : Width) (source : ShiftCount) : Single (shiftRm w source : Exec β Retired) := by
  unfold shiftRm
  refine .bind inferInstance fun (m, rm) => ?_
  dsimp only
  cases ShiftOp.ofIndex? m.reg <;> cases source <;> infer_instance

instance (w : Width) (r : Option (Operand w × Operand w)) :
    Local (finishDivision w r : Exec β Unit) := by
  cases r <;> unfold finishDivision <;> infer_instance

instance (w : Width) : Single (group3 w : Exec β Retired) := by
  unfold group3
  refine .bind inferInstance fun (m, rm) => .bind inferInstance fun v => ?_
  split <;> infer_instance

instance : Single (group4 : Exec β Retired) := by
  unfold group4
  refine .bind inferInstance fun (m, rm) => ?_
  dsimp only
  split <;> infer_instance

instance (taken : Bool) (d : Word) (cost other : Nat) :
    Single (branch taken d cost other : Exec β Retired) := by
  unfold branch
  infer_instance

instance : Single (bound : Exec β Retired) := by
  unfold bound
  refine .bind inferInstance fun (m, rm) => ?_
  cases rm <;> infer_instance

instance : Single (group5 : Exec β Retired) := by
  unfold group5
  refine .bind inferInstance fun (m, rm) => ?_
  dsimp only
  split <;> infer_instance

instance (w : Width) (op : StringOp) : Quiet (transfer w op : Exec β Unit) := by
  cases op <;> unfold transfer <;> infer_instance

instance (w : Width) (op : StringOp) : Quiet (element w op : Exec β Unit) := by
  unfold element
  infer_instance

instance (w : Width) (op : StringOp) : Quiet (string w op : Exec β Retired) := by
  unfold string
  refine .bind inferInstance fun q => ?_
  cases q.repeatClass <;> infer_instance

/-- Only a string instruction is run again. Where the parts decide the matter, it is
enough to open the instruction; the others have their instances above. -/
theorem execute_single {op : Operation} (other : ∀ w s, op ≠ .string w s) :
    Single (op.execute : Exec β Retired) := by
  cases op <;> unfold Operation.execute
  case string w s => exact absurd rfl (other w s)
  case binaryToRm => unfold binaryToRm; infer_instance
  case binaryToReg => unfold binaryToReg; infer_instance
  case binaryAccumulator => unfold binaryAccumulator; infer_instance
  case binaryImmediate => unfold binaryImmediate; infer_instance
  case testRm => unfold testRm; infer_instance
  case testAccumulator => unfold testAccumulator; infer_instance
  case incReg => unfold incReg; infer_instance
  case decReg => unfold decReg; infer_instance
  case toDigits => unfold toDigits; infer_instance
  case ofDigits => unfold ofDigits; infer_instance
  case imulImmediate => unfold imulImmediate; infer_instance
  case pushSegment => unfold pushSegment; infer_instance
  case popSegment => unfold popSegment; infer_instance
  case pushReg => unfold pushReg; infer_instance
  case popReg => unfold popReg; infer_instance
  case pushImmediate => unfold pushImmediate; infer_instance
  case popRm => unfold popRm; infer_instance
  case pushFlags => unfold pushFlags; infer_instance
  case popFlags => unfold popFlags; infer_instance
  case leave => unfold leave; infer_instance
  case moveToRm => unfold moveToRm; infer_instance
  case moveToReg => unfold moveToReg; infer_instance
  case moveFromSegment => unfold moveFromSegment; infer_instance
  case moveToSegment => unfold moveToSegment; infer_instance
  case moveImmediate => unfold moveImmediate; infer_instance
  case moveRmImmediate => unfold moveRmImmediate; infer_instance
  case loadDirect => unfold loadDirect; infer_instance
  case storeDirect => unfold storeDirect; infer_instance
  case translate => unfold translate; infer_instance
  case exchangeRm => unfold exchangeRm; infer_instance
  case exchangeAccumulator => unfold exchangeAccumulator; infer_instance
  case widenByte => unfold widenByte; infer_instance
  case widenWord => unfold widenWord; infer_instance
  case carryToAl => unfold carryToAl; infer_instance
  case flagsFromAh => unfold flagsFromAh; infer_instance
  case flagsToAh => unfold flagsToAh; infer_instance
  case command => unfold command; infer_instance
  case portIn => unfold inputPort; infer_instance
  case portOut => unfold outputPort; infer_instance
  case jumpIf => unfold jumpIf; infer_instance
  case jumpIfCxZero => unfold jumpIfCxZero; infer_instance
  case loop => unfold loop; infer_instance
  case jumpShort => unfold jumpShort; infer_instance
  case jumpNear => unfold jumpNear; infer_instance
  case jumpFar => unfold jumpFar; infer_instance
  case callNear => unfold callNear; infer_instance
  case callFar => unfold callFar; infer_instance
  case returnNear => unfold returnNear; infer_instance
  case returnFar => unfold returnFar; infer_instance
  case breakpoint => unfold breakpoint; infer_instance
  case interrupt => unfold softwareInterrupt; infer_instance
  case interruptOnOverflow => unfold interruptOnOverflow; infer_instance
  case returnInterrupt => unfold returnInterrupt; infer_instance
  case escape => unfold escape; infer_instance
  case halt => unfold halt; infer_instance
  all_goals infer_instance

theorem string_of_again {op : Operation} {c : Core β} (again : (op.execute c).1.again = true) :
    ∃ w s, op = .string w s := by
  by_cases other : ∀ w s, op ≠ .string w s
  · rw [(execute_single other).again c] at again
    contradiction
  · simpa using other

/-- No instruction touches the prefixes, the last opcode or the cycle counts. -/
theorem execute_local (op : Operation) : Local (op.execute : Exec β Retired) := by
  by_cases other : ∀ w s, op ≠ .string w s
  · exact (execute_single other).toLocal
  · obtain ⟨w, s, rfl⟩ : ∃ w s, op = .string w s := by simpa using other
    exact inferInstanceAs (Local (string w s))

end Instructions

end Swan.Exec
