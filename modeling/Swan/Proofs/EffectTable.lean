import Swan.Proofs.InstructionEffect
import Swan.Proofs.InstructionEntry

/-! What every operation may do, member by member, unless it enters an interrupt. A relation
that allows these effects, and a store to the operand of an operation that writes one, holds
between the machine before the operation and the machine after it. -/
namespace Swan

open Arithmetic

namespace FlagCommand

def controls : FlagCommand → Bool
  | complementCarry | clearCarry | setCarry => false
  | clearInterrupt | setInterrupt | clearDirection | setDirection => true

end FlagCommand

namespace Operation

/-- The effects of an operation, apart from those of an interrupt and from stores to the
operand that its ModRM byte names. -/
def effects (reg : BitVec 3) : Operation → List Effect
  | binaryToRm .. | binaryToReg .. | binaryAccumulator .. | binaryImmediate .. | testRm _
  | testAccumulator _ | incReg _ | decReg _ | adjust _ | toDigits | ofDigits | imulImmediate _
  | flagsFromAh => [.flags]
  | shiftRm .. => if (ShiftOp.ofIndex? reg).isSome then [.flags] else []
  | group3 _ =>
    match reg.toNat with
    | 0 | 1 | 3 | 4 | 5 => [.flags]
    | _ => []
  | group4 =>
    match reg.toNat with
    | 0 | 1 => [.flags]
    | _ => []
  | group5 =>
    match reg.toNat with
    | 0 | 1 => [.flags]
    | 2 | 6 => [.store]
    | 3 => [.store, .segment]
    | 5 => [.segment]
    | _ => []
  | pushSegment _ | pushReg _ | pushAll | pushImmediate _ | pushFlags | enter | callNear
  | storeDirect _ => [.store]
  | callFar => [.store, .segment]
  | popSegment _ | moveToSegment | loadFar _ | jumpFar | returnFar _ => [.segment]
  | popFlags => [.control]
  | returnInterrupt => [.segment, .control]
  | command c => if c.controls then [.control] else [.flags]
  | string _ .movs | string _ .stos | string _ .ins => [.store]
  | string _ .cmps | string _ .scas => [.flags]
  | string _ .outs | portOut .. => [.output]
  | _ => []

/-- The width of the operand that is written, if it is the one of the ModRM byte. -/
def writes? (reg : BitVec 3) : Operation → Option Width
  | binaryToRm w op => if op.writesResult then some w else none
  | binaryImmediate w _ => if (BinaryOp.ofIndex reg).writesResult then some w else none
  | shiftRm w _ => if (ShiftOp.ofIndex? reg).isSome then some w else none
  | group3 w =>
    match reg.toNat with
    | 2 | 3 => some w
    | _ => none
  | group4 =>
    match reg.toNat with
    | 0 | 1 => some .byte
    | _ => none
  | group5 =>
    match reg.toNat with
    | 0 | 1 => some .word
    | _ => none
  | moveToRm w | moveRmImmediate w | exchangeRm w => some w
  | popRm | moveFromSegment => some .word
  | _ => none

def members : List (BitVec 3) := [0, 1, 2, 3, 4, 5, 6, 7]

/-- What is true along the table of every member is true of every opcode. -/
theorem decode_members {α : Type} {f : Operation → BitVec 3 → α} {g : Byte → BitVec 3 → α}
    (along : table.toList.map (fun op => members.map (f op)) =
      (List.range 256).map fun i => members.map (g (BitVec.ofNat 8 i)))
    (opcode : Byte) (reg : BitVec 3) : f (decode opcode) reg = g opcode reg := by
  have member : ∀ reg, reg ∈ members := by decide
  have same := decode_table (f := fun op => members.map (f op))
    (g := fun opcode => members.map (g opcode)) along opcode
  exact List.map_inj_left.mp same reg (member reg)

end Operation

namespace Exec

variable {β : Type} [Bus β] {R : Core β → Core β → Prop} [across : Across R]

section Unencoded

instance (r : WordReg) [Allows R .flags] : Within R (incReg r : Exec β Retired) := by
  unfold incReg
  infer_instance

instance (r : WordReg) [Allows R .flags] : Within R (decReg r : Exec β Retired) := by
  unfold decReg
  infer_instance

instance (a : Adjustment) [Allows R .flags] : Within R (adjust a : Exec β Retired) := by
  cases a
  case packedSum | packedDifference => unfold adjust adjust.packed; infer_instance
  case unpackedSum | unpackedDifference => unfold adjust adjust.unpacked; infer_instance

instance [Allows R .store] : Within R (pushAll : Exec β Retired) := by
  unfold pushAll
  repeat refine .bind inferInstance fun _ => ?_
  infer_instance

instance : Within R (popAll : Exec β Retired) := by
  unfold popAll
  repeat refine .bind inferInstance fun _ => ?_
  infer_instance

theorem within_copyFramePointers [Allows R .store] (n : Nat) :
    Within R (enter.copyFramePointers n : Exec β Unit) := by
  induction n with
  | zero => exact inferInstanceAs (Within R (pure ()))
  | succ n ih =>
    unfold enter.copyFramePointers
    infer_instance

instance [Allows R .store] (n : Nat) : Within R (enter.copyFramePointers n : Exec β Unit) :=
  within_copyFramePointers n

instance [Allows R .store] : Within R (enter : Exec β Retired) := by
  unfold enter
  repeat refine .bind inferInstance fun _ => ?_
  infer_instance

theorem within_command (c : FlagCommand)
    (effect : Allows R (if c.controls then .control else .flags)) :
    Within R (command c : Exec β Retired) := by
  cases c
  case complementCarry | clearCarry | setCarry =>
    have flags : Allows R .flags := effect
    exact .bind (within_setFlags fun _ => ⟨rfl, rfl, rfl⟩) fun _ => inferInstance
  case clearInterrupt | setInterrupt | clearDirection | setDirection =>
    have control : Allows R .control := effect
    unfold command
    infer_instance

theorem within_string {w : Width} {op : StringOp} {reg : BitVec 3}
    (allowed : ∀ e ∈ (Operation.string w op).effects reg, Allows R e) :
    Within R (string w op : Exec β Retired) := by
  have transferred : Within R (transfer w op : Exec β Unit) := by
    unfold transfer
    cases op
    case movs | stos | ins =>
      have store : Allows R .store := allowed _ (.head _)
      infer_instance
    case cmps | scas =>
      have flags : Allows R .flags := allowed _ (.head _)
      infer_instance
    case outs =>
      have output : Allows R .output := allowed _ (.head _)
      infer_instance
    case lods => infer_instance
  have moved : Within R (element w op : Exec β Unit) := by
    unfold element
    infer_instance
  unfold string
  refine .bind inferInstance fun q => ?_
  cases q.repeatClass with
  | none => infer_instance
  | some repeatClass =>
    dsimp only
    refine .bind inferInstance fun r => ?_
    have again : Within R (do
        setRegs fun r => { r with ip := r.ip - 1 }
        return { cycles := op.cycles, again := true } : Exec β Retired) := inferInstance
    split
    · infer_instance
    · refine .bind inferInstance fun _ => .bind inferInstance fun _ => inferInstance

end Unencoded

section Encoded

instance : Within R (loadAddress : Exec β Retired) := by
  unfold loadAddress
  refine .bind inferInstance fun (_, rm) => ?_
  cases rm <;> infer_instance

instance (s : Segment) [Allows R .segment] : Within R (loadFar s : Exec β Retired) := by
  unfold loadFar
  refine .bind inferInstance fun (_, rm) => ?_
  cases rm <;> infer_instance

/-- A computation whose answer is known is followed by what it is followed by there. -/
theorem within_takes {α : Type} {code : List Byte} {x : Exec β α} {f : α → Exec β Retired} {a : α}
    {c d : Core β} [first : Within R x] (takes : Takes code x a c d) (rest : R d (f a d).2) :
    R c ((x >>= f) c).2 := by
  have before := first.within c
  rw [takes.answer] at before
  rw [bind_apply, takes.answer]
  exact across.trans before rest

/-- Of a binary operation only a result is stored. -/
theorem within_result [Allows R .flags] {w : Width} {op : BinaryOp} {rm : Location}
    (writable : op.writesResult = true → ∀ v, Within R (writeAt w v rm : Exec β Unit))
    (a b : Operand w) (retired : Retired) : Within R (do
      let r ← withFlags (op.apply a b)
      if op.writesResult then writeAt w r rm
      return retired : Exec β Retired) := by
  cases writes : op.writesResult with
  | true =>
    have stored := writable writes
    infer_instance
  | false =>
    simp only [Bool.false_eq_true, if_false]
    infer_instance

/-- A division that succeeds only sets registers. -/
theorem within_division {w : Width} {c : Core β}
    (divide : BitVec (2 * w.bits) → Option (Operand w × Operand w))
    (divided : (divide (wideAccumulator c.cpu.regs w)).isSome = true) (retired : Retired) :
    R c ((do
      finishDivision w (divide (wideAccumulator (← Exec.regs) w))
      return retired : Exec β Retired) c).2 := by
  obtain ⟨⟨quotient, remainder⟩, found⟩ := Option.isSome_iff_exists.mp divided
  have finished : Within R (do
      setRegs (setQuotient w quotient remainder)
      return retired : Exec β Retired) := inferInstance
  rw [bind_apply]
  simp only [Exec.regs, found]
  exact finished.within c

end Encoded

variable [Viewed β]

section Operations

variable {op : Operation} {c : Core β} {operands : List Byte}
  (quiet : ¬ op.EntersInterrupt (Viewed.view c.bus) c.cpu.regs c.cpu.prefixes operands)
  (allowed : ∀ e ∈ op.effects (leadingModRM operands).reg, Allows R e)

include quiet allowed

theorem within_unencoded (unencoded : op.hasModRM = false) : R c (op.execute c).2 := by
  cases op <;> dsimp only [Operation.execute]
  case binaryToRm | binaryToReg | binaryImmediate | testRm | imulImmediate | shiftRm | group3
    | group4 | group5 | popRm | moveToRm | moveToReg | moveFromSegment | moveToSegment
    | moveRmImmediate | loadAddress | loadFar | exchangeRm | bound | escape => cases unencoded
  case breakpoint | interrupt => exact absurd (.inl rfl) quiet
  case interruptOnOverflow =>
    have untaken : c.cpu.regs.flags.overflow = false :=
      Classical.byContradiction fun taken => quiet (.inr ⟨rfl, taken⟩)
    change R c ((if c.cpu.regs.flags.overflow = true then _ else _ : Exec β Retired) c).2
    rw [untaken]
    exact across.refl c
  case nop => exact across.refl c
  case command f =>
    refine (within_command f (allowed _ ?_)).within c
    cases f <;> exact .head _
  case string w op => exact (within_string allowed).within c
  case incReg | decReg | adjust =>
    have flags : Allows R .flags := allowed _ (.head _)
    exact Within.within c
  case binaryAccumulator | testAccumulator | toDigits | ofDigits =>
    have flags : Allows R .flags := allowed _ (.head _)
    refine (show Within R (_ : Exec β Retired) from ?_).within c
    delta binaryAccumulator testAccumulator Exec.toDigits Exec.ofDigits
    infer_instance
  case flagsFromAh =>
    have flags : Allows R .flags := allowed _ (.head _)
    refine (Within.bind (within_setFlags fun _ => ?_) fun _ => inferInstance).within c
    exact ⟨rfl, rfl, rfl⟩
  case pushAll | enter =>
    have store : Allows R .store := allowed _ (.head _)
    exact Within.within c
  case pushSegment | pushReg | pushImmediate | pushFlags | callNear | storeDirect =>
    have store : Allows R .store := allowed _ (.head _)
    refine (show Within R (_ : Exec β Retired) from ?_).within c
    delta pushSegment pushReg pushImmediate pushFlags callNear storeDirect
    infer_instance
  case callFar =>
    have store : Allows R .store := allowed _ (.head _)
    have segment : Allows R .segment := allowed _ (.tail _ (.head _))
    refine (show Within R (_ : Exec β Retired) from ?_).within c
    unfold callFar
    infer_instance
  case popSegment | jumpFar =>
    have segment : Allows R .segment := allowed _ (.head _)
    refine (show Within R (_ : Exec β Retired) from ?_).within c
    delta popSegment jumpFar
    infer_instance
  case returnFar release =>
    have segment : Allows R .segment := allowed _ (.head _)
    refine (show Within R (_ : Exec β Retired) from ?_).within c
    unfold returnFar
    dsimp only
    split <;> refine .bind inferInstance fun _ => .bind inferInstance fun _ => inferInstance
  case popFlags =>
    have control : Allows R .control := allowed _ (.head _)
    refine (show Within R (_ : Exec β Retired) from ?_).within c
    unfold popFlags
    infer_instance
  case returnInterrupt =>
    have segment : Allows R .segment := allowed _ (.head _)
    have control : Allows R .control := allowed _ (.tail _ (.head _))
    refine (show Within R (_ : Exec β Retired) from ?_).within c
    unfold returnInterrupt
    infer_instance
  case portOut =>
    have output : Allows R .output := allowed _ (.head _)
    refine (show Within R (_ : Exec β Retired) from ?_).within c
    unfold outputPort
    infer_instance
  case popAll => exact Within.within c
  all_goals
    refine (show Within R (_ : Exec β Retired) from ?_).within c
    delta popReg leave moveImmediate loadDirect translate exchangeAccumulator widenByte widenWord
      carryToAl flagsToAh inputPort jumpIf jumpIfCxZero loop jumpShort jumpNear returnNear halt
    infer_instance

theorem within_encoded (here : c.At operands)
    (writable : ∀ w, op.writes? (leadingModRM operands).reg = some w → ∀ v,
      Within R (writeAt w v (leadingPlace c.cpu.regs c.cpu.prefixes operands) : Exec β Unit))
    (encoded : op.hasModRM = true)
    (size : operands.length = 1 + (leadingModRM operands).displacement.size +
      op.immediateSize (leadingModRM operands).reg) : R c (op.execute c).2 := by
  obtain ⟨modRM, bytes, rest, rfl, short, immediate⟩ :=
    split_modRM (n := fun reg => op.immediateSize reg) size
  simp only [leadingPlace_cons _ _ short, leadingModRM, List.headD_cons] at allowed writable
  obtain ⟨d, takes, next⟩ := takes_modRM short here
  cases op <;> dsimp only [Operation.execute]
  case binaryToReg | testRm =>
    have flags : Allows R .flags := allowed _ (.head _)
    refine (show Within R (_ : Exec β Retired) from ?_).within c
    delta binaryToReg testRm
    infer_instance
  case imulImmediate =>
    have flags : Allows R .flags := allowed _ (.head _)
    refine (show Within R (_ : Exec β Retired) from ?_).within c
    unfold imulImmediate
    infer_instance
  case moveToReg | escape =>
    refine (show Within R (_ : Exec β Retired) from ?_).within c
    delta moveToReg escape
    infer_instance
  case moveToSegment =>
    have segment : Allows R .segment := allowed _ (.head _)
    refine (show Within R (_ : Exec β Retired) from ?_).within c
    unfold moveToSegment
    infer_instance
  case loadAddress => exact Within.within c
  case loadFar =>
    have segment : Allows R .segment := allowed _ (.head _)
    exact Within.within c
  case binaryToRm w op =>
    have flags : Allows R .flags := allowed _ (.head _)
    refine within_takes takes ((show Within R (_ : Exec β Retired) from ?_).within d)
    refine .bind inferInstance fun a => .bind inferInstance fun b => ?_
    exact within_result (fun writes => writable w (if_pos writes)) a b _
  case binaryImmediate w form =>
    have flags : Allows R .flags := allowed _ (.head _)
    refine within_takes takes ((show Within R (_ : Exec β Retired) from ?_).within d)
    refine .bind inferInstance fun b => .bind inferInstance fun a => ?_
    exact within_result (fun writes => writable w (if_pos writes)) a b _
  case popRm | moveFromSegment =>
    have stored := writable _ rfl
    refine within_takes takes ((show Within R (_ : Exec β Retired) from ?_).within d)
    infer_instance
  case moveToRm | moveRmImmediate | exchangeRm =>
    have stored := writable _ rfl
    refine within_takes takes ((show Within R (_ : Exec β Retired) from ?_).within d)
    infer_instance
  case shiftRm w source =>
    refine within_takes takes ((show Within R (_ : Exec β Retired) from ?_).within d)
    cases found : ShiftOp.ofIndex? (ModRM.ofByte modRM).reg with
    | none => cases source <;> simp only [found] <;> infer_instance
    | some member =>
      have isSome : (ShiftOp.ofIndex? (ModRM.ofByte modRM).reg).isSome = true := by rw [found]; rfl
      have flags : Allows R .flags := allowed _ (by simp [Operation.effects, isSome])
      have stored := writable w (if_pos isSome)
      cases source <;> simp only [found] <;> infer_instance
  case group4 =>
    refine within_takes takes ((show Within R (_ : Exec β Retired) from ?_).within d)
    simp only [Operation.effects, Operation.writes?] at allowed writable
    dsimp only
    generalize (ModRM.ofByte modRM).reg.toNat = member at allowed writable ⊢
    split
    case h_3 => infer_instance
    all_goals
      have flags : Allows R .flags := allowed _ (.head _)
      have stored := writable _ rfl
      infer_instance
  case group5 =>
    refine within_takes takes ((show Within R (_ : Exec β Retired) from ?_).within d)
    simp only [Operation.effects, Operation.writes?] at allowed writable
    dsimp only
    generalize (ModRM.ofByte modRM).reg.toNat = member at allowed writable ⊢
    split
    case h_1 | h_2 =>
      have flags : Allows R .flags := allowed _ (.head _)
      have stored := writable _ rfl
      infer_instance
    case h_3 | h_7 =>
      have store : Allows R .store := allowed _ (.head _)
      infer_instance
    case h_4 =>
      have store : Allows R .store := allowed _ (.head _)
      have segment : Allows R .segment := allowed _ (.tail _ (.head _))
      infer_instance
    case h_6 =>
      have segment : Allows R .segment := allowed _ (.head _)
      infer_instance
    all_goals infer_instance
  case group3 w =>
    have stays := Classical.not_not.mp fun leaves => quiet (.inr ⟨rfl, leaves⟩)
    simp only [Operation.turn, Turn.Stays, leadingPlace_cons _ _ short, leadingModRM,
      List.headD_cons] at stays
    simp only [Operation.effects, Operation.writes?] at allowed writable
    refine within_takes takes ?_
    dsimp only
    generalize (ModRM.ofByte modRM).place c.cpu.regs c.cpu.prefixes bytes = rm at *
    obtain ⟨e, read, -⟩ := takes_readAt w rm next
    have dividend : wideAccumulator e.cpu.regs w = wideAccumulator c.cpu.regs w := by
      rw [(takes.skips.trans read.skips).cpu]
      exact wideAccumulator_moved _ _ w
    have few := (ModRM.ofByte modRM).reg.isLt
    refine within_takes read ?_
    rw [takes.skips.value]
    generalize (ModRM.ofByte modRM).reg.toNat = member at allowed writable stays few ⊢
    split
    case h_1 | h_2 | h_5 | h_6 =>
      have flags : Allows R .flags := allowed _ (.head _)
      refine (show Within R (_ : Exec β Retired) from ?_).within e
      infer_instance
    case h_3 =>
      have stored := writable w rfl
      refine (show Within R (_ : Exec β Retired) from ?_).within e
      infer_instance
    case h_4 =>
      have flags : Allows R .flags := allowed _ (.head _)
      have stored := writable w rfl
      refine (show Within R (_ : Exec β Retired) from ?_).within e
      infer_instance
    case h_7 =>
      refine within_division (fun dividend => div? dividend.toNat _) ?_ _
      rw [dividend]
      exact stays
    case h_8 =>
      obtain rfl : member = 7 := by grind
      refine within_division (fun dividend => idiv? dividend.toInt _) ?_ _
      rw [dividend]
      exact stays
  case bound =>
    have stays := Classical.not_not.mp fun leaves => quiet (.inr ⟨rfl, leaves⟩)
    simp only [Operation.turn, Turn.Stays, leadingPlace_cons _ _ short, leadingModRM,
      List.headD_cons] at stays
    refine within_takes takes ?_
    dsimp only
    generalize (ModRM.ofByte modRM).place c.cpu.regs c.cpu.prefixes bytes = rm at *
    cases rm with
    | register i => exact across.refl d
    | memory s o =>
      obtain ⟨e, low, next⟩ := takes_readAt .word (.memory s o) next
      obtain ⟨g, high, -⟩ := takes_readAt .word ((Location.memory s o).advance 2) next
      have index : Takes [] (operand .word (ModRM.ofByte modRM).reg)
          (c.cpu.regs.operand .word (ModRM.ofByte modRM).reg) d d := by
        refine ⟨?_, .refl d, .still⟩
        rw [operand, bind_apply, Exec.regs, takes.skips.cpu]
        rfl
      refine within_takes index (within_takes low (within_takes high ?_))
      have within := stays rfl
      have stays : ¬ _ := not_or.mpr ⟨Int.not_lt.mpr within.1, Int.not_lt.mpr within.2⟩
      rw [takes.skips.value, low.skips.value, takes.skips.value, if_neg stays]
      exact across.refl g
  all_goals cases encoded

/-- An operation that enters no interrupt has no effect but those of its table. -/
theorem within_execute (here : c.At operands)
    (writable : ∀ w, op.writes? (leadingModRM operands).reg = some w → ∀ v,
      Within R (writeAt w v (leadingPlace c.cpu.regs c.cpu.prefixes operands) : Exec β Unit))
    (size : operands.length =
      (if op.hasModRM then 1 + (leadingModRM operands).displacement.size else 0) +
        op.immediateSize (leadingModRM operands).reg) : R c (op.execute c).2 := by
  cases encoded : op.hasModRM with
  | false => exact within_unencoded quiet allowed encoded
  | true =>
    exact within_encoded quiet allowed here writable encoded (by simpa [encoded] using size)

end Operations

end Exec

end Swan
