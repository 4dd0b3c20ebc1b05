import Swan.Arithmetic.Sum
import Swan.Cpu.Execute.Data

/-! String instructions and their repetition. A repeated instruction runs one element
a step. While elements are left it moves back onto its own opcode and asks to keep
its prefixes, so an interrupt can be taken between two elements. -/
namespace Swan

namespace StringOp

/-- A comparison also stops repeating when the zero flag says so. -/
def compares : StringOp → Bool
  | cmps | scas => true
  | _ => false

/-- The source is at SI, in a segment that an override may replace. -/
def movesSource : StringOp → Bool
  | movs | cmps | lods | outs => true
  | _ => false

/-- The destination is at DI, always in the extra segment. -/
def movesDestination : StringOp → Bool
  | movs | cmps | scas | stos | ins => true
  | _ => false

def cycles : StringOp → Nat
  | movs => 5
  | cmps => 6
  | scas => 4
  | lods => 3
  | stos => 3
  | ins => 6
  | outs => 7

def stride (w : Width) (downward : Bool) : Word :=
  if downward then -BitVec.ofNat 16 w.bytes else BitVec.ofNat 16 w.bytes

def advance (op : StringOp) (w : Width) (r : Registers) : Registers :=
  let delta := stride w r.flags.direction
  { r with
    si := if op.movesSource then r.si + delta else r.si
    di := if op.movesDestination then r.di + delta else r.di }

end StringOp

namespace Exec

variable {β : Type} [Bus β]

def transfer (w : Width) (op : StringOp) : Exec β Unit := do
  let source ← dataSegment .ds
  let r ← regs
  match op with
  | .movs => do
    let v ← load w source r.si
    store w r.es r.di v
  | .cmps => do
    let a ← load w source r.si
    let b ← load w r.es r.di
    let _ ← withFlags (Arithmetic.sub a b false)
  | .scas => do
    let b ← load w r.es r.di
    let _ ← withFlags (Arithmetic.sub (r.operand w 0) b false)
  | .lods => do
    let v ← load w source r.si
    setOperand w 0 v
  | .stos => store w r.es r.di (r.operand w 0)
  | .ins => do
    let v ← input w r.dl
    store w r.es r.di v
  | .outs => do
    let v ← load w source r.si
    output w r.dl v

def element (w : Width) (op : StringOp) : Exec β Unit := do
  transfer w op
  setRegs (op.advance w)

def string (w : Width) (op : StringOp) : Exec β Retired := do
  match (← prefixes).repeatClass with
  | none => do
    element w op
    return { cycles := op.cycles }
  | some repeatClass => do
    if (← regs).cx = 0 then return { cycles := 1 }
    element w op
    setRegs fun r => { r with cx := r.cx - 1 }
    let r ← regs
    if r.cx = 0 ∨ (op.compares && !repeatClass.continues r.flags.zero) then
      return { cycles := op.cycles }
    setRegs fun r => { r with ip := r.ip - 1 }
    return { cycles := op.cycles, again := true }

end Exec

end Swan
