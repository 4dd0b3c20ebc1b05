import Swan.Proofs.StringElement

/-! What a computation of the processor may do, as a relation between the machine before it
and the machine after it. Every relation here is closed under sequencing and blind to the
data registers, the stack pointer and the instruction pointer, to waiting and to reading.
What is left are five effects, and a relation either allows one or does not. -/
namespace Swan

variable {β α γ : Type}

structure Registers.SameFrame (r r' : Registers) : Prop where
  flags : r.flags = r'.flags
  segment : ∀ s, r.segment s = r'.segment s

inductive Effect where
  /-- A segment register is loaded. -/
  | segment
  /-- The arithmetic flags are set; those that control the processor are not. -/
  | flags
  | control
  | store
  | output
  deriving DecidableEq, Repr

open StringOp (SameControl)

variable [Bus β]

def Effect.Makes (c d : Core β) : Effect → Prop
  | segment => ∃ v s, d = ⟨{ c.cpu with regs := c.cpu.regs.setSegment v s }, c.bus⟩
  | flags => ∃ flags, SameControl flags c.cpu.regs.flags ∧
      d = ⟨{ c.cpu with regs := { c.cpu.regs with flags } }, c.bus⟩
  | control => ∃ flags, d = ⟨{ c.cpu with regs := { c.cpu.regs with flags } }, c.bus⟩
  | store => ∃ a v, d = ⟨c.cpu, Bus.write c.bus a v⟩
  | output => ∃ p v, d = ⟨c.cpu, Bus.portOut c.bus p v⟩

class Across (R : Core β → Core β → Prop) : Prop where
  refl : ∀ c, R c c
  trans : ∀ {c d e}, R c d → R d e → R c e
  data : ∀ c {regs : Registers}, regs.SameFrame c.cpu.regs → R c ⟨{ c.cpu with regs }, c.bus⟩
  halted : ∀ c halted, R c ⟨{ c.cpu with halted }, c.bus⟩
  read : ∀ c a, R c ⟨c.cpu, (Bus.read c.bus a).2⟩
  portIn : ∀ c p, R c ⟨c.cpu, (Bus.portIn c.bus p).2⟩

class Allows (R : Core β → Core β → Prop) (e : Effect) : Prop where
  allows : ∀ {c d : Core β}, e.Makes c d → R c d

namespace Registers

/-- A function of registers that leaves the flags and the segments alone. -/
class Plain (f : Registers → Registers) : Prop where
  same : ∀ r, (f r).SameFrame r

instance (ax cx dx bx sp bp si di ip : Registers → Word) : Plain fun r =>
    ⟨ax r, cx r, dx r, bx r, sp r, bp r, si r, di r, r.es, r.cs, r.ss, r.ds, ip r, r.flags⟩ where
  same _ := ⟨rfl, fun s => by cases s <;> rfl⟩

instance (v : Registers → Byte) (i : ByteReg) : Plain fun r => r.setByte (v r) i where
  same r := by cases i <;> exact ⟨rfl, fun s => by cases s <;> rfl⟩

instance (v : Word) (i : WordReg) : Plain fun r => r.setWord v i where
  same r := by cases i <;> exact ⟨rfl, fun s => by cases s <;> rfl⟩

instance (i : WordReg) : Plain fun r => { r.setWord r.ax i with ax := r.word i } where
  same r := by cases i <;> exact ⟨rfl, fun s => by cases s <;> rfl⟩

instance (w : Width) (i : BitVec 3) (v : Operand w) : Plain fun r => r.setOperand w i v where
  same r := by
    cases w with
    | byte => exact Plain.same (f := fun r => r.setByte v (.ofIndex i)) r
    | word => exact Plain.same (f := fun r => r.setWord v (.ofIndex i)) r

instance (w : Width) (v : BitVec (2 * w.bits)) : Plain (Exec.setWideAccumulator w v) where
  same r := by cases w <;> exact ⟨rfl, fun s => by cases s <;> rfl⟩

instance (w : Width) (q m : Operand w) : Plain (Exec.setQuotient w q m) where
  same r := by cases w <;> exact ⟨rfl, fun s => by cases s <;> rfl⟩

instance (op : StringOp) (w : Width) : Plain (op.advance w) where
  same _ := ⟨rfl, fun s => by cases s <;> rfl⟩

end Registers

namespace Arithmetic

/-- An operation of the arithmetic unit that leaves the control flags alone. -/
class Uncontrolling (op : Flags → α × Flags) : Prop where
  control : ∀ f, SameControl (op f).2 f

variable {n : Nat}

instance (op : BinaryOp) (a b : BitVec n) : Uncontrolling (op.apply a b) where
  control _ := by cases op <;> exact ⟨rfl, rfl, rfl⟩

instance (a b : BitVec n) : Uncontrolling (bitAnd a b) := ⟨fun _ => ⟨rfl, rfl, rfl⟩⟩

instance (a b : BitVec n) (borrow : Bool) : Uncontrolling (sub a b borrow) :=
  ⟨fun _ => ⟨rfl, rfl, rfl⟩⟩

instance (a : BitVec n) : Uncontrolling (increment a) := ⟨fun _ => ⟨rfl, rfl, rfl⟩⟩

instance (a : BitVec n) : Uncontrolling (decrement a) := ⟨fun _ => ⟨rfl, rfl, rfl⟩⟩

instance (a : BitVec n) : Uncontrolling (negate a) := ⟨fun _ => ⟨rfl, rfl, rfl⟩⟩

instance (a b : BitVec n) : Uncontrolling (mul a b) := ⟨fun _ => ⟨rfl, rfl, rfl⟩⟩

instance (a b : BitVec n) : Uncontrolling (imul a b) := ⟨fun _ => ⟨rfl, rfl, rfl⟩⟩

instance (al : Byte) : Uncontrolling (adjustPackedSum al) := ⟨fun _ => ⟨rfl, rfl, rfl⟩⟩

instance (al : Byte) : Uncontrolling (adjustPackedDifference al) := ⟨fun _ => ⟨rfl, rfl, rfl⟩⟩

instance (ax : Word) : Uncontrolling (adjustUnpackedSum ax) := ⟨fun _ => ⟨rfl, rfl, rfl⟩⟩

instance (ax : Word) : Uncontrolling (adjustUnpackedDifference ax) := ⟨fun _ => ⟨rfl, rfl, rfl⟩⟩

instance (al : Byte) : Uncontrolling (toDigits al) := ⟨fun _ => ⟨rfl, rfl, rfl⟩⟩

instance (ax : Word) : Uncontrolling (ofDigits ax) := ⟨fun _ => ⟨rfl, rfl, rfl⟩⟩

instance (op : ShiftOp) (v : BitVec n) (count : Byte) : Uncontrolling (shift op v count) where
  control f := by
    unfold shift
    dsimp only
    split
    · exact .refl f
    · cases op.describesResult <;> exact ⟨rfl, rfl, rfl⟩

end Arithmetic

namespace Exec

class Within (R : Core β → Core β → Prop) (x : Exec β α) : Prop where
  within : ∀ c, R c (x c).2

variable {R : Core β → Core β → Prop} [across : Across R]

section Closure

instance (a : α) : Within R (pure a : Exec β α) := ⟨fun c => across.refl c⟩

theorem Within.bind {x : Exec β α} {f : α → Exec β γ} (first : Within R x)
    (rest : ∀ a, Within R (f a)) : Within R (x >>= f) :=
  ⟨fun c => across.trans (first.within c) ((rest _).within _)⟩

instance (x : Exec β α) (f : α → Exec β γ) [first : Within R x] [rest : ∀ a, Within R (f a)] :
    Within R (x >>= f) := first.bind rest

instance (p : Prop) [Decidable p] (x y : Exec β α) [Within R x] [Within R y] :
    Within R (if p then x else y) := by
  split <;> assumption

end Closure

section Access

instance : Within R (regs : Exec β Registers) := ⟨across.refl⟩

instance : Within R (prefixes : Exec β PrefixQueue) := ⟨across.refl⟩

instance (on : Bool) : Within R (setHalted on : Exec β Unit) := ⟨fun c => across.halted c on⟩

instance (cs ip : Registers → Word) [segment : Allows R .segment] :
    Within R (setRegs fun r => { r with cs := cs r, ip := ip r }) where
  within c := across.trans (segment.allows ⟨cs c.cpu.regs, .cs, rfl⟩)
    (across.data _ ⟨rfl, fun s => by cases s <;> rfl⟩)

instance (v : Word) (s : Segment) [segment : Allows R .segment] :
    Within R (setRegs (·.setSegment v s) : Exec β Unit) :=
  ⟨fun _ => segment.allows ⟨v, s, rfl⟩⟩

instance (flags : Registers → Flags) [control : Allows R .control] :
    Within R (setRegs fun r => { r with flags := flags r }) :=
  ⟨fun c => control.allows ⟨flags c.cpu.regs, rfl⟩⟩

omit across in
theorem within_setFlags [allows : Allows R .flags] {flags : Registers → Flags}
    (control : ∀ r, SameControl (flags r) r.flags) :
    Within R (setRegs fun r => { r with flags := flags r }) :=
  ⟨fun c => allows.allows ⟨flags c.cpu.regs, control _, rfl⟩⟩

instance (f : Registers → Registers) [plain : Registers.Plain f] :
    Within R (setRegs f : Exec β Unit) :=
  ⟨fun c => across.data c (plain.same _)⟩

instance (op : Flags → α × Flags) [plain : Arithmetic.Uncontrolling op] [flags : Allows R .flags] :
    Within R (withFlags op : Exec β α) :=
  ⟨fun c => flags.allows ⟨_, plain.control c.cpu.regs.flags, rfl⟩⟩

instance (s o : Word) : Within R (readByte s o : Exec β Byte) := ⟨fun c => across.read c _⟩

instance (s o : Word) (v : Byte) [store : Allows R .store] :
    Within R (writeByte s o v : Exec β Unit) :=
  ⟨fun _ => store.allows ⟨_, v, rfl⟩⟩

instance (p : Byte) : Within R (portIn p : Exec β Byte) := ⟨fun c => across.portIn c p⟩

instance (p v : Byte) [output : Allows R .output] : Within R (portOut p v : Exec β Unit) :=
  ⟨fun _ => output.allows ⟨p, v, rfl⟩⟩

instance : Within R (fetchByte : Exec β Byte) where
  within c := across.trans (across.read c c.cpu.regs.codeAddress)
    (across.data _ ⟨rfl, fun s => by cases s <;> rfl⟩)

instance (s o : Word) : Within R (readWord s o : Exec β Word) := by
  unfold readWord
  infer_instance

instance (s o v : Word) [Allows R .store] : Within R (writeWord s o v : Exec β Unit) := by
  unfold writeWord
  infer_instance

instance : Within R (fetchWord : Exec β Word) := by
  unfold fetchWord
  infer_instance

instance (w : Width) (s o : Word) : Within R (load w s o : Exec β (Operand w)) := by
  cases w <;> unfold load <;> infer_instance

instance (w : Width) (s o : Word) (v : Operand w) [Allows R .store] :
    Within R (store w s o v : Exec β Unit) := by
  cases w <;> unfold store <;> infer_instance

instance (w : Width) : Within R (fetch w : Exec β (Operand w)) := by
  cases w <;> unfold fetch <;> infer_instance

instance (w : Width) (p : Byte) : Within R (input w p : Exec β (Operand w)) := by
  cases w <;> unfold input <;> infer_instance

instance (w : Width) (p : Byte) (v : Operand w) [Allows R .output] :
    Within R (output w p v : Exec β Unit) := by
  cases w <;> unfold output <;> infer_instance

instance (v : Word) [Allows R .store] : Within R (push v : Exec β Unit) := by
  unfold push
  infer_instance

instance : Within R (pop : Exec β Word) := by
  unfold pop
  infer_instance

instance (s : Segment) : Within R (dataSegment s : Exec β Word) := by
  unfold dataSegment
  infer_instance

theorem within_operand (w : Width) (i : BitVec 3) :
    Within R (operand w i : Exec β (Operand w)) := by
  unfold operand
  infer_instance

instance (w : Width) (i : BitVec 3) : Within R (operand w i : Exec β (Operand w)) :=
  within_operand w i

instance (i : BitVec 3) : Within R (operand .word i : Exec β Word) := within_operand .word i

instance (w : Width) (i : BitVec 3) (v : Operand w) :
    Within R (setOperand w i v : Exec β Unit) := by
  unfold setOperand
  infer_instance

instance (d : ModRM.Displacement) : Within R (fetchDisplacement d : Exec β Word) := by
  cases d <;> unfold fetchDisplacement <;> infer_instance

instance (m : ModRM) : Within R (resolve m : Exec β Location) := by
  unfold resolve
  infer_instance

instance : Within R (fetchModRM : Exec β (ModRM × Location)) := by
  unfold fetchModRM
  infer_instance

theorem within_readAt (w : Width) (l : Location) :
    Within R (readAt w l : Exec β (Operand w)) := by
  cases l <;> unfold readAt <;> infer_instance

instance (w : Width) (l : Location) : Within R (readAt w l : Exec β (Operand w)) :=
  within_readAt w l

instance (l : Location) : Within R (readAt .byte l : Exec β Byte) := within_readAt .byte l

instance (l : Location) : Within R (readAt .word l : Exec β Word) := within_readAt .word l

instance (w : Width) (v : Operand w) (l : Location) [Allows R .store] :
    Within R (writeAt w v l : Exec β Unit) := by
  cases l <;> unfold writeAt <;> infer_instance

theorem within_fetchImmediate (w : Width) (form : ImmediateForm) :
    Within R (fetchImmediate w form : Exec β (Operand w)) := by
  cases form <;> unfold fetchImmediate <;> infer_instance

instance (w : Width) (form : ImmediateForm) :
    Within R (fetchImmediate w form : Exec β (Operand w)) := within_fetchImmediate w form

instance (form : ImmediateForm) : Within R (fetchImmediate .word form : Exec β Word) :=
  within_fetchImmediate .word form

instance (source : PortSource) : Within R (portNumber source : Exec β Byte) := by
  cases source <;> unfold portNumber <;> infer_instance

instance (d : Word) : Within R (jumpBy d : Exec β Unit) := by
  unfold jumpBy
  infer_instance

instance : Within R (popIp : Exec β Unit) := by
  unfold popIp
  infer_instance

instance [Allows R .segment] : Within R (popCs : Exec β Unit) := by
  unfold popCs
  infer_instance

instance (size : Word) : Within R (releaseStack size : Exec β Unit) := by
  unfold releaseStack
  infer_instance

instance [Allows R .store] : Within R (pushReturnAddress : Exec β Unit) := by
  unfold pushReturnAddress
  infer_instance

instance (taken : Bool) (d : Word) (cost other : Nat) :
    Within R (branch taken d cost other : Exec β Retired) := by
  unfold branch
  infer_instance

end Access

end Exec

end Swan
