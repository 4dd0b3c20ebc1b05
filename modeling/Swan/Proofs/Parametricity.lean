import Swan.Cpu.Step

/-! Two processors that cannot be told apart. An instruction works on a processor and its
bus through a few operations only: it reads and sets the registers, asks the queued prefixes
for a segment and, to repeat itself, for a repetition, sets the halted state and accesses the
bus. A relation between two machines that each of these keeps, with equal answers, is
therefore kept by every instruction, and if it allows for what a step accounts for, by every
step. Paired computations are closed under sequencing and choice, so an instruction has an
instance for the reason its parts have one. -/
namespace Swan

variable {β γ α δ : Type} [Bus β] [Bus γ]

/-- A relation that everything an instruction does keeps, short of repeating itself. -/
class Parametric (R : Core β → Core γ → Prop) : Prop where
  regs : ∀ {c d}, R c d → c.cpu.regs = d.cpu.regs
  segment : ∀ {c d}, R c d → c.cpu.prefixes.segmentOverride = d.cpu.prefixes.segmentOverride
  setRegs : ∀ {c d}, R c d → ∀ regs, R ⟨{ c.cpu with regs }, c.bus⟩ ⟨{ d.cpu with regs }, d.bus⟩
  setHalted : ∀ {c d}, R c d → ∀ halted,
    R ⟨{ c.cpu with halted }, c.bus⟩ ⟨{ d.cpu with halted }, d.bus⟩
  read : ∀ {c d}, R c d → ∀ a, (Bus.read c.bus a).1 = (Bus.read d.bus a).1 ∧
    R ⟨c.cpu, (Bus.read c.bus a).2⟩ ⟨d.cpu, (Bus.read d.bus a).2⟩
  write : ∀ {c d}, R c d → ∀ a v, R ⟨c.cpu, Bus.write c.bus a v⟩ ⟨d.cpu, Bus.write d.bus a v⟩
  portIn : ∀ {c d}, R c d → ∀ p, (Bus.portIn c.bus p).1 = (Bus.portIn d.bus p).1 ∧
    R ⟨c.cpu, (Bus.portIn c.bus p).2⟩ ⟨d.cpu, (Bus.portIn d.bus p).2⟩
  portOut : ∀ {c d}, R c d → ∀ p v,
    R ⟨c.cpu, Bus.portOut c.bus p v⟩ ⟨d.cpu, Bus.portOut d.bus p v⟩

/-- A relation that also everything a step does around its instruction keeps. -/
class Stepwise (R : Core β → Core γ → Prop) : Prop extends Parametric R where
  prefixes : ∀ {c d}, R c d → c.cpu.prefixes = d.cpu.prefixes
  segment := fun h => congrArg PrefixQueue.segmentOverride (prefixes h)
  halted : ∀ {c d}, R c d → c.cpu.halted = d.cpu.halted
  deferred : ∀ {c d}, R c d → c.cpu.deferred = d.cpu.deferred
  setPrefixes : ∀ {c d}, R c d → ∀ prefixes,
    R ⟨{ c.cpu with prefixes }, c.bus⟩ ⟨{ d.cpu with prefixes }, d.bus⟩
  setOpcode : ∀ {c d}, R c d → ∀ opcode,
    R ⟨{ c.cpu with opcode }, c.bus⟩ ⟨{ d.cpu with opcode }, d.bus⟩
  setDeferred : ∀ {c d}, R c d → ∀ deferred,
    R ⟨{ c.cpu with deferred }, c.bus⟩ ⟨{ d.cpu with deferred }, d.bus⟩
  advance : ∀ {c d}, R c d → ∀ cycles,
    R ⟨{ c.cpu with total := c.cpu.total.advance cycles }, c.bus⟩
      ⟨{ d.cpu with total := d.cpu.total.advance cycles }, d.bus⟩

namespace Exec

/-- Two computations that on related machines give the same answer and leave related
machines. -/
class Paired (R : Core β → Core γ → Prop) (x : Exec β α) (y : Exec γ α) : Prop where
  paired : ∀ {c d}, R c d → (x c).1 = (y d).1 ∧ R (x c).2 (y d).2

variable {R : Core β → Core γ → Prop}

section Closure

omit [Bus β] [Bus γ]

instance (a : α) : Paired R (pure a : Exec β α) (pure a) := ⟨fun h => ⟨rfl, h⟩⟩

theorem Paired.bind {x : Exec β α} {y : Exec γ α} {f : α → Exec β δ} {g : α → Exec γ δ}
    (first : Paired R x y) (rest : ∀ a, Paired R (f a) (g a)) : Paired R (x >>= f) (y >>= g) where
  paired {c d} h := by
    obtain ⟨same, between⟩ := first.paired h
    have after := (rest (x c).1).paired between
    rwa [show g (x c).1 (y d).2 = (y >>= g) d by rw [same]; rfl] at after

instance (x : Exec β α) (y : Exec γ α) (f : α → Exec β δ) (g : α → Exec γ δ)
    [first : Paired R x y] [rest : ∀ a, Paired R (f a) (g a)] :
    Paired R (x >>= f) (y >>= g) := first.bind rest

instance (p : Prop) [Decidable p] (x x' : Exec β α) (y y' : Exec γ α) [Paired R x y]
    [Paired R x' y'] : Paired R (if p then x else x') (if p then y else y') := by
  split <;> assumption

/-- What looks at the queue does the same if it does with the two queues that there are. -/
theorem paired_prefixes {c : Core β} {d : Core γ} {f : PrefixQueue → Exec β δ}
    {g : PrefixQueue → Exec γ δ} (h : R c d)
    (rest : Paired R (f c.cpu.prefixes) (g d.cpu.prefixes)) :
    ((prefixes >>= f) c).1 = ((prefixes >>= g) d).1 ∧
      R ((prefixes >>= f) c).2 ((prefixes >>= g) d).2 := rest.paired h

end Closure

section Access

variable [keeps : Parametric R]

instance : Paired R (regs : Exec β Registers) regs := ⟨fun h => ⟨keeps.regs h, h⟩⟩

theorem paired_setRegs {f : Registers → Registers} :
    Paired R (setRegs f : Exec β Unit) (setRegs f) where
  paired {c d} h := by
    obtain ⟨cpu, bus⟩ := c
    obtain ⟨cpu', bus'⟩ := d
    have same : cpu.regs = cpu'.regs := keeps.regs h
    have after := keeps.setRegs h (f cpu.regs)
    simp only [setRegs, ← same]
    exact ⟨trivial, after⟩

instance (f : Registers → Registers) : Paired R (setRegs f : Exec β Unit) (setRegs f) :=
  paired_setRegs

instance (op : Flags → α × Flags) : Paired R (withFlags op : Exec β α) (withFlags op) where
  paired {c d} h := by
    obtain ⟨cpu, bus⟩ := c
    obtain ⟨cpu', bus'⟩ := d
    have same : cpu.regs = cpu'.regs := keeps.regs h
    have after := keeps.setRegs h { cpu.regs with flags := (op cpu.regs.flags).2 }
    simp only [withFlags, ← same]
    exact ⟨trivial, after⟩

/-- All that an instruction asks the queue for, unless it repeats itself. -/
def override : Exec β (Option Segment) := fun c => (c.cpu.prefixes.segmentOverride, c)

instance : Paired R (override : Exec β (Option Segment)) override := ⟨fun h => ⟨keeps.segment h, h⟩⟩

instance (on : Bool) : Paired R (setHalted on : Exec β Unit) (setHalted on) :=
  ⟨fun h => ⟨rfl, keeps.setHalted h on⟩⟩

instance (s o : Word) : Paired R (readByte s o : Exec β Byte) (readByte s o) :=
  ⟨fun h => keeps.read h (physical s o)⟩

instance : Paired R (fetchByte : Exec β Byte) fetchByte where
  paired {c d} h := by
    obtain ⟨cpu, bus⟩ := c
    obtain ⟨cpu', bus'⟩ := d
    have same : cpu.regs = cpu'.regs := keeps.regs h
    obtain ⟨answer, read⟩ := keeps.read h cpu.regs.codeAddress
    have after := keeps.setRegs read { cpu.regs with ip := cpu.regs.ip + 1 }
    simp only [fetchByte, ← same]
    exact ⟨answer, after⟩

instance (s o : Word) (v : Byte) : Paired R (writeByte s o v : Exec β Unit) (writeByte s o v) :=
  ⟨fun h => ⟨rfl, keeps.write h (physical s o) v⟩⟩

instance (p : Byte) : Paired R (portIn p : Exec β Byte) (portIn p) := ⟨fun h => keeps.portIn h p⟩

instance (p v : Byte) : Paired R (portOut p v : Exec β Unit) (portOut p v) :=
  ⟨fun h => ⟨rfl, keeps.portOut h p v⟩⟩

instance (s o : Word) : Paired R (readWord s o : Exec β Word) (readWord s o) := by
  unfold readWord
  infer_instance

instance (s o v : Word) : Paired R (writeWord s o v : Exec β Unit) (writeWord s o v) := by
  unfold writeWord
  infer_instance

instance : Paired R (fetchWord : Exec β Word) fetchWord := by
  unfold fetchWord
  infer_instance

instance (w : Width) (s o : Word) : Paired R (load w s o : Exec β (Operand w)) (load w s o) := by
  cases w <;> unfold load <;> infer_instance

instance (w : Width) (s o : Word) (v : Operand w) :
    Paired R (store w s o v : Exec β Unit) (store w s o v) := by
  cases w <;> unfold store <;> infer_instance

instance (w : Width) : Paired R (fetch w : Exec β (Operand w)) (fetch w) := by
  cases w <;> unfold fetch <;> infer_instance

instance (w : Width) (p : Byte) : Paired R (input w p : Exec β (Operand w)) (input w p) := by
  cases w <;> unfold input <;> infer_instance

instance (w : Width) (p : Byte) (v : Operand w) :
    Paired R (output w p v : Exec β Unit) (output w p v) := by
  cases w <;> unfold output <;> infer_instance

instance (v : Word) : Paired R (push v : Exec β Unit) (push v) := by
  unfold push
  infer_instance

instance : Paired R (pop : Exec β Word) pop := by
  unfold pop
  infer_instance

instance (s : Segment) : Paired R (dataSegment s : Exec β Word) (dataSegment s) :=
  inferInstanceAs (Paired R (override >>= fun q => regs >>= fun r => pure (r.segment (q.getD s)))
    (override >>= fun q => regs >>= fun r => pure (r.segment (q.getD s))))

theorem paired_operand (w : Width) (i : BitVec 3) :
    Paired R (operand w i : Exec β (Operand w)) (operand w i) := by
  unfold operand
  infer_instance

instance (w : Width) (i : BitVec 3) :
    Paired R (operand w i : Exec β (Operand w)) (operand w i) := paired_operand w i

instance (i : BitVec 3) : Paired R (operand .word i : Exec β Word) (operand .word i) :=
  paired_operand .word i

instance (w : Width) (i : BitVec 3) (v : Operand w) :
    Paired R (setOperand w i v : Exec β Unit) (setOperand w i v) := by
  unfold setOperand
  infer_instance

instance (d : ModRM.Displacement) :
    Paired R (fetchDisplacement d : Exec β Word) (fetchDisplacement d) := by
  cases d <;> unfold fetchDisplacement <;> infer_instance

instance (m : ModRM) : Paired R (resolve m : Exec β Location) (resolve m) := by
  unfold resolve
  split
  · infer_instance
  refine .bind inferInstance fun r => .bind inferInstance fun displacement => ?_
  let answer {ε : Type} (q : Option Segment) : Exec ε Location :=
    pure (.memory (q.getD (m.base r).2) ((m.base r).1 + displacement))
  exact .bind (x := override) (y := override) (f := answer) (g := answer) inferInstance
    fun _ => ⟨fun h => ⟨rfl, h⟩⟩

instance : Paired R (fetchModRM : Exec β (ModRM × Location)) fetchModRM := by
  unfold fetchModRM
  infer_instance

theorem paired_readAt (w : Width) (l : Location) :
    Paired R (readAt w l : Exec β (Operand w)) (readAt w l) := by
  cases l <;> unfold readAt <;> infer_instance

instance (w : Width) (l : Location) :
    Paired R (readAt w l : Exec β (Operand w)) (readAt w l) := paired_readAt w l

instance (l : Location) : Paired R (readAt .byte l : Exec β Byte) (readAt .byte l) :=
  paired_readAt .byte l

instance (l : Location) : Paired R (readAt .word l : Exec β Word) (readAt .word l) :=
  paired_readAt .word l

instance (w : Width) (v : Operand w) (l : Location) :
    Paired R (writeAt w v l : Exec β Unit) (writeAt w v l) := by
  cases l <;> unfold writeAt <;> infer_instance

theorem paired_fetchImmediate (w : Width) (form : ImmediateForm) :
    Paired R (fetchImmediate w form : Exec β (Operand w)) (fetchImmediate w form) := by
  cases form <;> unfold fetchImmediate <;> infer_instance

instance (w : Width) (form : ImmediateForm) :
    Paired R (fetchImmediate w form : Exec β (Operand w)) (fetchImmediate w form) :=
  paired_fetchImmediate w form

instance (form : ImmediateForm) :
    Paired R (fetchImmediate .word form : Exec β Word) (fetchImmediate .word form) :=
  paired_fetchImmediate .word form

instance (source : PortSource) : Paired R (portNumber source : Exec β Byte) (portNumber source) := by
  cases source <;> unfold portNumber <;> infer_instance

instance (d : Word) : Paired R (jumpBy d : Exec β Unit) (jumpBy d) := by
  unfold jumpBy
  infer_instance

instance : Paired R (popIp : Exec β Unit) popIp := by
  unfold popIp
  infer_instance

instance : Paired R (popCs : Exec β Unit) popCs := by
  unfold popCs
  infer_instance

instance (size : Word) : Paired R (releaseStack size : Exec β Unit) (releaseStack size) := by
  unfold releaseStack
  infer_instance

instance : Paired R (pushReturnAddress : Exec β Unit) pushReturnAddress := by
  unfold pushReturnAddress
  infer_instance

instance (v : Byte) : Paired R (enterInterrupt v : Exec β Unit) (enterInterrupt v) := by
  unfold enterInterrupt
  repeat refine .bind inferInstance fun _ => ?_
  infer_instance

end Access

section Instructions

open Arithmetic

variable [Parametric R]

instance : Paired R (loadAddress : Exec β Retired) loadAddress := by
  unfold loadAddress
  refine .bind inferInstance fun (_, rm) => ?_
  cases rm <;> infer_instance

instance (s : Segment) : Paired R (loadFar s : Exec β Retired) (loadFar s) := by
  unfold loadFar
  refine .bind inferInstance fun (_, rm) => ?_
  cases rm <;> infer_instance

instance : Paired R (pushAll : Exec β Retired) pushAll := by
  unfold pushAll
  repeat refine .bind inferInstance fun _ => ?_
  infer_instance

instance : Paired R (popAll : Exec β Retired) popAll := by
  unfold popAll
  repeat refine .bind inferInstance fun _ => ?_
  infer_instance

theorem paired_copyFramePointers (n : Nat) :
    Paired R (enter.copyFramePointers n : Exec β Unit) (enter.copyFramePointers n) := by
  induction n with
  | zero => exact inferInstanceAs (Paired R (pure ()) (pure ()))
  | succ n ih =>
    unfold enter.copyFramePointers
    infer_instance

instance (n : Nat) : Paired R (enter.copyFramePointers n : Exec β Unit)
    (enter.copyFramePointers n) := paired_copyFramePointers n

instance : Paired R (enter : Exec β Retired) enter := by
  unfold enter
  repeat refine .bind inferInstance fun _ => ?_
  infer_instance

instance (a : Adjustment) : Paired R (adjust a : Exec β Retired) (adjust a) := by
  cases a
  case packedSum | packedDifference => unfold adjust adjust.packed; infer_instance
  case unpackedSum | unpackedDifference => unfold adjust adjust.unpacked; infer_instance

instance (w : Width) (source : ShiftCount) :
    Paired R (shiftRm w source : Exec β Retired) (shiftRm w source) := by
  unfold shiftRm
  refine .bind inferInstance fun (m, rm) => ?_
  dsimp only
  cases ShiftOp.ofIndex? m.reg <;> cases source <;> infer_instance

instance (w : Width) (r : Option (Operand w × Operand w)) :
    Paired R (finishDivision w r : Exec β Unit) (finishDivision w r) := by
  cases r <;> unfold finishDivision <;> infer_instance

instance (w : Width) : Paired R (group3 w : Exec β Retired) (group3 w) := by
  unfold group3
  refine .bind inferInstance fun (m, rm) => .bind inferInstance fun v => ?_
  split <;> infer_instance

instance : Paired R (group4 : Exec β Retired) group4 := by
  unfold group4
  refine .bind inferInstance fun (m, rm) => ?_
  dsimp only
  split <;> infer_instance

instance : Paired R (group5 : Exec β Retired) group5 := by
  unfold group5
  refine .bind inferInstance fun (m, rm) => ?_
  dsimp only
  split <;> infer_instance

instance (taken : Bool) (d : Word) (cost other : Nat) :
    Paired R (branch taken d cost other : Exec β Retired) (branch taken d cost other) := by
  unfold branch
  infer_instance

instance : Paired R (bound : Exec β Retired) bound := by
  unfold bound
  refine .bind inferInstance fun (m, rm) => ?_
  cases rm <;> infer_instance

instance (w : Width) (op : StringOp) :
    Paired R (transfer w op : Exec β Unit) (transfer w op) := by
  cases op <;> unfold transfer <;> infer_instance

instance (w : Width) (op : StringOp) : Paired R (element w op : Exec β Unit) (element w op) := by
  unfold element
  infer_instance

/-- A string instruction does the same where it is told the same about repeating itself. -/
theorem string_paired {c : Core β} {d : Core γ} (w : Width) (op : StringOp) (h : R c d)
    (repeated : c.cpu.prefixes.repeatClass = d.cpu.prefixes.repeatClass) :
    (string w op c).1 = (string w op d).1 ∧ R (string w op c).2 (string w op d).2 := by
  unfold string
  apply paired_prefixes h
  rw [repeated]
  cases d.cpu.prefixes.repeatClass with
  | none => infer_instance
  | some k =>
    refine .bind inferInstance fun r => ?_
    split
    · infer_instance
    · exact .bind inferInstance fun _ => inferInstance

theorem execute_single_paired {op : Operation} (other : ∀ w s, op ≠ .string w s) :
    Paired R (op.execute : Exec β Retired) op.execute := by
  cases op <;> dsimp only [Operation.execute]
  case string w s => exact absurd rfl (other w s)
  all_goals
    try
      delta binaryToRm binaryToReg binaryAccumulator binaryImmediate testRm testAccumulator incReg
        decReg Exec.toDigits Exec.ofDigits imulImmediate pushSegment popSegment pushReg popReg
        pushImmediate popRm pushFlags popFlags leave moveToRm moveToReg moveFromSegment
        moveToSegment moveImmediate moveRmImmediate loadDirect storeDirect translate exchangeRm
        exchangeAccumulator widenByte widenWord carryToAl flagsFromAh flagsToAh command inputPort
        outputPort jumpIf jumpIfCxZero loop jumpShort jumpNear jumpFar callNear callFar
        returnNear returnFar breakpoint softwareInterrupt interruptOnOverflow returnInterrupt escape
        halt
    infer_instance

/-- Every instruction does the same on related machines that agree on whether to repeat it. -/
theorem execute_paired_at {c : Core β} {d : Core γ} (op : Operation) (h : R c d)
    (repeated : ∀ w s, op = .string w s →
      c.cpu.prefixes.repeatClass = d.cpu.prefixes.repeatClass) :
    (op.execute c).1 = (op.execute d).1 ∧ R (op.execute c).2 (op.execute d).2 := by
  by_cases other : ∀ w s, op ≠ .string w s
  · exact (execute_single_paired other).paired h
  · obtain ⟨w, s, rfl⟩ : ∃ w s, op = .string w s := by simpa using other
    exact string_paired w s h (repeated w s rfl)

end Instructions

section Step

variable [keeps : Stepwise R]

instance : Paired R (dropPrefixes : Exec β Unit) dropPrefixes where
  paired {c d} h := by
    have dropped := keeps.setPrefixes (keeps.setRegs h { c.cpu.regs with
      ip := c.cpu.regs.ip - BitVec.ofNat 16 c.cpu.prefixes.length }) .empty
    refine ⟨rfl, ?_⟩
    simp only [dropPrefixes, ← keeps.regs h, ← keeps.prefixes h]
    exact dropped

instance (n : Nat) : Paired R (defer n : Exec β Unit) (defer n) where
  paired {c d} h := by
    have added := keeps.setDeferred h (c.cpu.deferred + n)
    refine ⟨rfl, ?_⟩
    simp only [defer, ← keeps.deferred h]
    exact added

instance (b : Byte) : Paired R (pushPrefix b : Exec β Unit) (pushPrefix b) where
  paired {c d} h := by
    have pushed := keeps.setPrefixes h (c.cpu.prefixes.push b)
    refine ⟨rfl, ?_⟩
    simp only [pushPrefix, ← keeps.prefixes h]
    exact pushed

instance (b : Byte) : Paired R (dispatch b : Exec β Unit) (dispatch b) :=
  ⟨fun h => ⟨rfl, keeps.setOpcode h b⟩⟩

instance : Paired R (clearPrefixes : Exec β Unit) clearPrefixes :=
  ⟨fun h => ⟨rfl, keeps.setPrefixes h .empty⟩⟩

instance : Paired R (takeDeferred : Exec β Nat) takeDeferred :=
  ⟨fun h => ⟨keeps.deferred h, keeps.setDeferred h 0⟩⟩

instance (n : Nat) : Paired R (charge n : Exec β Nat) (charge n) :=
  ⟨fun h => ⟨rfl, keeps.advance h n⟩⟩

instance : Paired R (stepWithin.isHalted : Exec β Bool) stepWithin.isHalted :=
  ⟨fun h => ⟨keeps.halted h, h⟩⟩

instance interrupt_paired (vector : Byte) :
    Paired R (interrupt vector : Exec β Unit) (interrupt vector) := by
  unfold interrupt
  infer_instance

theorem fetchOpcode?_paired (fetched limit : Nat) :
    Paired R (fetchOpcode? fetched limit : Exec β (Option (Byte × Nat)))
      (fetchOpcode? fetched limit) := by
  induction limit generalizing fetched with
  | zero => exact inferInstanceAs (Paired R (pure none) (pure none))
  | succ limit ih =>
    unfold fetchOpcode?
    have rest := ih (fetched + 1)
    infer_instance

/-- Every instruction does the same on related machines. -/
theorem execute_paired (op : Operation) : Paired R (op.execute : Exec β Retired) op.execute where
  paired h := execute_paired_at op h fun _ _ _ =>
    congrArg PrefixQueue.repeatClass (keeps.prefixes h)

instance (opcode : Byte) (trap : Bool) :
    Paired R (retire opcode trap : Exec β Nat) (retire opcode trap) := by
  have execute := execute_paired (R := R) (Operation.decode opcode)
  unfold retire
  cases trap <;> infer_instance

/-- A step of the processor does the same on related machines. -/
theorem step_paired : Paired R (step : Exec β (Option Nat)) step := by
  have fetch := fetchOpcode?_paired (R := R) 0 fetchLimit
  unfold step stepWithin
  refine .bind inferInstance fun deferred => .bind inferInstance fun halted => ?_
  split
  · infer_instance
  · refine .bind inferInstance fun r => .bind fetch fun found => ?_
    cases found <;> infer_instance

end Step

end Exec

end Swan
