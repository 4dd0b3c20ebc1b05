import Swan.Cpu.Step

/-! What is done the same anywhere in a code segment. A computation that takes nothing from
its place there, and leaves the processor at it, cannot have fetched anything. Still
computations are closed under sequencing and choice. -/
namespace Swan

variable {β α γ : Type}

/-- The same machine at another place of its code segment. -/
def Core.moveTo (c : Core β) (ip : Word) : Core β :=
  ⟨{ c.cpu with regs := { c.cpu.regs with ip } }, c.bus⟩

namespace Exec

/-- From this state, whatever the place, the same is done there. -/
def PlacelessAt (x : Exec β α) (c : Core β) : Prop :=
  ∀ ip, x (c.moveTo ip) = ((x c).1, (x c).2.moveTo ip)

/-- From this state, nothing is fetched, and the segment is kept too. -/
structure StillAt (x : Exec β α) (c : Core β) : Prop where
  placeless : PlacelessAt x c
  segment : (x c).2.cpu.regs.cs = c.cpu.regs.cs

class Still (x : Exec β α) : Prop where
  still : ∀ c, StillAt x c

theorem PlacelessAt.ip {x : Exec β α} {c : Core β} (placeless : PlacelessAt x c) :
    (x c).2.cpu.regs.ip = c.cpu.regs.ip :=
  congrArg (·.2.cpu.regs.ip) (placeless c.cpu.regs.ip)

section Closure

variable {x : Exec β α} {f : α → Exec β γ} {c : Core β}

theorem PlacelessAt.bind (first : PlacelessAt x c) (rest : PlacelessAt (f (x c).1) (x c).2) :
    PlacelessAt (x >>= f) c := by
  intro ip
  change f (x (c.moveTo ip)).1 (x (c.moveTo ip)).2 = _
  rw [first ip]
  exact rest ip

theorem StillAt.bind (first : StillAt x c) (rest : StillAt (f (x c).1) (x c).2) :
    StillAt (x >>= f) c :=
  ⟨first.placeless.bind rest.placeless, rest.segment.trans first.segment⟩

/-- The registers may be looked at, as long as the place among them does not matter. -/
theorem StillAt.regs {f : Registers → Exec β γ} (rest : StillAt (f c.cpu.regs) c)
    (blind : ∀ ip, f { c.cpu.regs with ip } = f c.cpu.regs) : StillAt (Exec.regs >>= f) c where
  placeless ip := by
    change f { c.cpu.regs with ip } (c.moveTo ip) = _
    rw [blind ip]
    exact rest.placeless ip
  segment := rest.segment

theorem StillAt.pure (a : α) (c : Core β) : StillAt (pure a) c := ⟨fun _ => rfl, rfl⟩

instance (a : α) : Still (pure a : Exec β α) := ⟨.pure a⟩

theorem Still.bind (first : Still x) (rest : ∀ a, Still (f a)) : Still (x >>= f) :=
  ⟨fun c => (first.still c).bind ((rest _).still _)⟩

instance (x : Exec β α) (f : α → Exec β γ) [first : Still x] [rest : ∀ a, Still (f a)] :
    Still (x >>= f) := first.bind rest

theorem Still.regs {f : Registers → Exec β γ} (rest : ∀ r, Still (f r))
    (blind : ∀ r ip, f { r with ip } = f r) : Still (Exec.regs >>= f) :=
  ⟨fun c => .regs ((rest c.cpu.regs).still c) (blind c.cpu.regs)⟩

instance (p : Prop) [Decidable p] (x y : Exec β α) [Still x] [Still y] :
    Still (if p then x else y) := by
  split <;> assumption

end Closure

end Exec

namespace Registers

variable (r : Registers) (ip v : Word)

theorem setWord_moved (i : WordReg) : { r with ip }.setWord v i = { r.setWord v i with ip } := by
  cases i <;> rfl

theorem setByte_moved (b : Byte) (i : ByteReg) :
    { r with ip }.setByte b i = { r.setByte b i with ip } := by
  cases i <;> rfl

theorem setSegment_moved (s : Segment) :
    { r with ip }.setSegment v s = { r.setSegment v s with ip } := by
  cases s <;> rfl

theorem setOperand_moved (w : Width) (i : BitVec 3) (v : Operand w) :
    { r with ip }.setOperand w i v = { r.setOperand w i v with ip } := by
  cases w with
  | byte => exact r.setByte_moved ip v _
  | word => exact r.setWord_moved ip v _

theorem setWord_cs (i : WordReg) : (r.setWord v i).cs = r.cs := by
  cases i <;> rfl

theorem setByte_cs (b : Byte) (i : ByteReg) : (r.setByte b i).cs = r.cs := by
  cases i <;> rfl

theorem setOperand_cs (w : Width) (i : BitVec 3) (v : Operand w) :
    (r.setOperand w i v).cs = r.cs := by
  cases w with
  | byte => exact r.setByte_cs v _
  | word => exact r.setWord_cs v _

end Registers

namespace Exec

section Access

theorem Still.setRegs {f : Registers → Registers}
    (blind : ∀ r ip, f { r with ip } = { f r with ip }) (segment : ∀ r, (f r).cs = r.cs) :
    Still (setRegs f : Exec β Unit) where
  still c := by
    refine ⟨fun ip => ?_, segment c.cpu.regs⟩
    exact congrArg (fun regs => ((), (⟨{ c.cpu with regs }, c.bus⟩ : Core β)))
      (blind c.cpu.regs ip)

instance : Still (prefixes : Exec β PrefixQueue) := ⟨fun _ => ⟨fun _ => rfl, rfl⟩⟩

instance (op : Flags → α × Flags) : Still (withFlags op : Exec β α) :=
  ⟨fun _ => ⟨fun _ => rfl, rfl⟩⟩

theorem still_operand (w : Width) (i : BitVec 3) : Still (operand w i : Exec β (Operand w)) := by
  refine ⟨fun c => ⟨fun ip => ?_, rfl⟩⟩
  cases w <;> rfl

instance (w : Width) (i : BitVec 3) : Still (operand w i : Exec β (Operand w)) := still_operand w i

instance (i : BitVec 3) : Still (operand .word i : Exec β Word) := still_operand .word i

instance (w : Width) (i : BitVec 3) (v : Operand w) : Still (setOperand w i v : Exec β Unit) :=
  .setRegs (fun r ip => r.setOperand_moved ip w i v) fun r => r.setOperand_cs w i v

variable [Bus β]

instance (s o : Word) : Still (readByte s o : Exec β Byte) := ⟨fun _ => ⟨fun _ => rfl, rfl⟩⟩

instance (s o : Word) (v : Byte) : Still (writeByte s o v : Exec β Unit) :=
  ⟨fun _ => ⟨fun _ => rfl, rfl⟩⟩

instance (p : Byte) : Still (portIn p : Exec β Byte) := ⟨fun _ => ⟨fun _ => rfl, rfl⟩⟩

instance (p v : Byte) : Still (portOut p v : Exec β Unit) := ⟨fun _ => ⟨fun _ => rfl, rfl⟩⟩

instance (s o : Word) : Still (readWord s o : Exec β Word) := ⟨fun _ => ⟨fun _ => rfl, rfl⟩⟩

instance (s o v : Word) : Still (writeWord s o v : Exec β Unit) := ⟨fun _ => ⟨fun _ => rfl, rfl⟩⟩

instance (w : Width) (s o : Word) : Still (load w s o : Exec β (Operand w)) := by
  cases w <;> simp only [load] <;> infer_instance

instance (w : Width) (s o : Word) (v : Operand w) : Still (store w s o v : Exec β Unit) := by
  cases w <;> simp only [store] <;> infer_instance

instance (w : Width) (p : Byte) : Still (input w p : Exec β (Operand w)) := by
  cases w <;> simp only [input] <;> infer_instance

instance (w : Width) (p : Byte) (v : Operand w) : Still (output w p v : Exec β Unit) := by
  cases w <;> simp only [output] <;> infer_instance

instance (v : Word) : Still (push v : Exec β Unit) := ⟨fun _ => ⟨fun _ => rfl, rfl⟩⟩

instance : Still (pop : Exec β Word) := ⟨fun _ => ⟨fun _ => rfl, rfl⟩⟩

theorem still_readAt (w : Width) (l : Location) : Still (readAt w l : Exec β (Operand w)) := by
  cases l with
  | register i => exact still_operand w _
  | memory s o =>
    refine .regs (fun r => inferInstance) fun r ip => ?_
    cases s <;> rfl

instance (w : Width) (l : Location) : Still (readAt w l : Exec β (Operand w)) := still_readAt w l

instance (l : Location) : Still (readAt .byte l : Exec β Byte) := still_readAt .byte l

instance (l : Location) : Still (readAt .word l : Exec β Word) := still_readAt .word l

instance (w : Width) (v : Operand w) (l : Location) : Still (writeAt w v l : Exec β Unit) := by
  cases l with
  | register i => exact inferInstanceAs (Still (setOperand w _ v))
  | memory s o =>
    refine .regs (fun r => inferInstance) fun r ip => ?_
    cases s <;> rfl

instance (s : Segment) : Still (dataSegment s : Exec β Word) := by
  refine .bind inferInstance fun q => .regs (fun r => inferInstance) fun r ip => ?_
  cases q.segmentOverride.getD s <;> rfl

end Access

end Exec

end Swan
