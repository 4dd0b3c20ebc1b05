import Swan.Proofs.StepEquation

/-! No instruction is free. Whatever it runs on, an instruction costs a cycle at least, and
so does a step of the processor. -/
namespace Swan.Exec

variable {β α : Type}

class Costs (x : Exec β Retired) : Prop where
  pos : ∀ c, 1 ≤ (x c).1.cycles

section Closure

theorem Costs.bind {x : Exec β α} {f : α → Exec β Retired} (rest : ∀ a, Costs (f a)) :
    Costs (x >>= f) where
  pos c := (rest (x c).1).pos (x c).2

instance (x : Exec β α) (f : α → Exec β Retired) [rest : ∀ a, Costs (f a)] : Costs (x >>= f) :=
  .bind rest

instance (n : Nat) (again : Bool) : Costs (pure { cycles := n + 1, again } : Exec β Retired) where
  pos _ := Nat.le_add_left 1 n

instance (m n : Nat) (rm : Location) :
    Costs (pure { cycles := rm.cost (m + 1) (n + 1) } : Exec β Retired) where
  pos _ := by
    cases rm
    · exact Nat.le_add_left 1 m
    · exact Nat.le_add_left 1 n

instance (p : Prop) [Decidable p] (x y : Exec β Retired) [Costs x] [Costs y] :
    Costs (if p then x else y) := by
  split <;> assumption

end Closure

section Instructions

open Arithmetic

variable [Bus β]

instance (op : BinaryOp) (rm : Location) :
    Costs (pure { cycles := binaryRmCost op rm } : Exec β Retired) where
  pos _ := by
    cases op <;> cases rm <;> exact Nat.le_add_left 1 _

instance (op : StringOp) (again : Bool) :
    Costs (pure { cycles := op.cycles, again } : Exec β Retired) where
  pos _ := by
    cases op <;> exact Nat.le_add_left 1 _

instance : Costs (loadAddress : Exec β Retired) := by
  unfold loadAddress
  refine .bind fun (_, rm) => ?_
  cases rm <;> infer_instance

instance (s : Segment) : Costs (loadFar s : Exec β Retired) := by
  unfold loadFar
  refine .bind fun (_, rm) => ?_
  cases rm <;> infer_instance

instance : Costs (bound : Exec β Retired) := by
  unfold bound
  refine .bind fun (_, rm) => ?_
  cases rm <;> infer_instance

-- The search gives up on long sequences, so these are taken apart by hand.
instance : Costs (pushAll : Exec β Retired) := by
  unfold pushAll
  repeat refine .bind fun _ => ?_
  infer_instance

instance : Costs (popAll : Exec β Retired) := by
  unfold popAll
  repeat refine .bind fun _ => ?_
  infer_instance

instance : Costs (enter : Exec β Retired) := by
  unfold enter
  refine .bind fun size => .bind fun level => ?_
  dsimp only
  obtain n | n | n := (level &&& 0x1F).toNat
  · infer_instance
  · infer_instance
  · have paid : Costs (pure { cycles := 16 + 4 * n } : Exec β Retired) :=
      ⟨fun _ => Nat.le_trans (by decide) (Nat.le_add_right 16 (4 * n))⟩
    infer_instance

instance (a : Adjustment) : Costs (adjust a : Exec β Retired) := by
  cases a
  case packedSum | packedDifference => unfold adjust adjust.packed; infer_instance
  case unpackedSum | unpackedDifference => unfold adjust adjust.unpacked; infer_instance

instance (w : Width) (source : ShiftCount) : Costs (shiftRm w source : Exec β Retired) := by
  unfold shiftRm
  refine .bind fun (m, rm) => ?_
  have paid : Costs (pure { cycles := if source = .one then rm.cost 1 3 else rm.cost 3 5 } :
      Exec β Retired) := by
    split <;> infer_instance
  dsimp only
  cases ShiftOp.ofIndex? m.reg <;> cases source <;> infer_instance

instance (w : Width) : Costs (group3 w : Exec β Retired) := by
  unfold group3
  refine .bind fun (m, rm) => .bind fun v => ?_
  cases w <;> dsimp only <;> split <;> infer_instance

instance : Costs (group4 : Exec β Retired) := by
  unfold group4
  refine .bind fun (m, rm) => ?_
  dsimp only
  split <;> infer_instance

instance : Costs (group5 : Exec β Retired) := by
  unfold group5
  refine .bind fun (m, rm) => ?_
  dsimp only
  split <;> infer_instance

instance (release : Bool) : Costs (returnFar release : Exec β Retired) := by
  have paid : Costs (pure { cycles := if release then 9 else 8 } : Exec β Retired) := by
    split <;> infer_instance
  unfold returnFar
  infer_instance

instance (w : Width) (op : StringOp) : Costs (string w op : Exec β Retired) := by
  unfold string
  refine .bind fun q => ?_
  cases q.repeatClass <;> infer_instance

/-- Every instruction costs something. -/
instance execute_costs (op : Operation) : Costs (op.execute : Exec β Retired) := by
  cases op <;> dsimp only [Operation.execute]
  all_goals
    try
      delta binaryToRm binaryToReg binaryAccumulator binaryImmediate testRm testAccumulator incReg
        decReg Exec.toDigits Exec.ofDigits imulImmediate pushSegment popSegment pushReg popReg
        pushImmediate popRm pushFlags popFlags leave moveToRm moveToReg moveFromSegment
        moveToSegment moveImmediate moveRmImmediate loadDirect storeDirect translate exchangeRm
        exchangeAccumulator widenByte widenWord carryToAl flagsFromAh flagsToAh command inputPort
        outputPort jumpIf jumpIfCxZero branch loop jumpShort jumpNear jumpFar callNear callFar
        returnNear breakpoint softwareInterrupt interruptOnOverflow returnInterrupt escape halt
    infer_instance

end Instructions

variable [Bus β]

theorem retire_cycles_pos (opcode : Byte) (trap : Bool) (c : Core β) :
    1 ≤ (retire opcode trap c).1 := by
  have paid := (execute_costs (Operation.decode opcode)).pos ⟨{ c.cpu with opcode }, c.bus⟩
  rcases run : (Operation.decode opcode).execute ⟨{ c.cpu with opcode }, c.bus⟩ with ⟨r, d⟩
  rw [run] at paid
  cases trap with
  | true => rw [retire_trapped run]; exact paid
  | false => rw [retire_untrapped run]; exact paid

/-- A step costs more than was deferred to it. -/
theorem step_cycles {c d : Core β} {cycles : Nat} (stepped : step c = (some cycles, d)) :
    c.cpu.deferred + 1 ≤ cycles := by
  obtain ⟨-, cost, -⟩ | ⟨opcode, l, regs, bus, e, -, -, -, -, cost, -⟩ := stepWithin_returned stepped
  · exact Nat.le_of_eq cost.symm
  · have paid := retire_cycles_pos opcode c.cpu.regs.flags.trap e
    omega

end Swan.Exec
