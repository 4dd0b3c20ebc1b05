import Swan.Cpu.Execute.Strings
import Swan.Proofs.FlatAccess

/-! One element of a string instruction on a flat bus, and any number of them. What an
element reads and writes is a list of addresses that its registers give, and it changes
AX, the flags, SI and DI alone: the count and the place in the code are free to differ
between two processors that transfer the same elements. -/
namespace Swan

def Cpu.source (c : Cpu) : Word := c.regs.segment (c.prefixes.segmentOverride.getD .ds)

namespace Flat

def input (b : Flat) : (w : Width) → (port : Byte) → Operand w
  | .byte, port => b.portIn port
  | .word, port => Word.ofBytes (b.portIn port) (b.portIn (port + 1))

def output (b : Flat) : (w : Width) → (port : Byte) → Operand w → Flat
  | .byte, port, v => b.portOut port v
  | .word, port, v => (b.portOut port (Word.low v)).portOut (port + 1) (Word.high v)

@[simp] theorem read_output (b : Flat) (w : Width) (port : Byte) (v : Operand w) (a : Address) :
    (b.output w port v).read a = b.read a := by
  cases w <;> rfl

namespace AgreeOff

variable {hidden : List Address} {b b' : Flat}

theorem input (same : AgreeOff hidden b b') (w : Width) (port : Byte) :
    b.input w port = b'.input w port := by
  cases w <;> simp only [Flat.input, same.portIn]

theorem output (same : AgreeOff hidden b b') (w : Width) (port : Byte) (v : Operand w) :
    AgreeOff hidden (b.output w port v) (b'.output w port v) := by
  cases w with
  | byte => exact same.portOut port v
  | word => exact (same.portOut port _).portOut _ _

end AgreeOff

end Flat

namespace StringOp

def stores : StringOp → Bool
  | movs | stos | ins => true
  | _ => false

def touched (op : StringOp) (w : Width) (c : Cpu) : List Address :=
  (if op.movesSource then w.addresses c.source c.regs.si else []) ++
    if op.movesDestination then w.addresses c.regs.es c.regs.di else []

def stored (op : StringOp) (w : Width) (c : Cpu) : List Address :=
  if op.stores then w.addresses c.regs.es c.regs.di else []

theorem stored_subset_touched (op : StringOp) (w : Width) (c : Cpu) :
    op.stored w c ⊆ op.touched w c := by
  cases op <;> simp [stored, stores, touched, movesSource, movesDestination]

/-- The registers and the bus after a transfer, as a function of those before. -/
def transferred (w : Width) (b : Flat) (source : Word) (r : Registers) :
    StringOp → Registers × Flat
  | movs => (r, b.put w r.es r.di (b.get w source r.si))
  | cmps =>
    let (_, flags) := Arithmetic.sub (b.get w source r.si) (b.get w r.es r.di) false r.flags
    ({ r with flags }, b)
  | scas =>
    let (_, flags) := Arithmetic.sub (r.operand w 0) (b.get w r.es r.di) false r.flags
    ({ r with flags }, b)
  | lods => (r.setOperand w 0 (b.get w source r.si), b)
  | stos => (r, b.put w r.es r.di (r.operand w 0))
  | ins => (r, b.put w r.es r.di (b.input w r.dl))
  | outs => (r, b.output w r.dl (b.get w source r.si))

structure SameControl (f g : Flags) : Prop where
  trap : f.trap = g.trap
  interrupt : f.interrupt = g.interrupt
  direction : f.direction = g.direction

theorem SameControl.refl (f : Flags) : SameControl f f := ⟨rfl, rfl, rfl⟩

theorem SameControl.trans {f g h : Flags} (first : SameControl f g) (second : SameControl g h) :
    SameControl f h :=
  ⟨first.trap.trans second.trap, first.interrupt.trans second.interrupt,
    first.direction.trans second.direction⟩

theorem transferred_regs (op : StringOp) (w : Width) (b : Flat) (source : Word) (r : Registers) :
    ∃ ax flags, (op.transferred w b source r).1 = { r with ax, flags } ∧
      SameControl flags r.flags := by
  cases op <;> cases w <;> exact ⟨_, _, rfl, rfl, rfl, rfl⟩

theorem transferred_read (op : StringOp) (w : Width) (b : Flat) (c : Cpu) {a : Address}
    (outside : a ∉ op.stored w c) :
    (op.transferred w b c.source c.regs).2.read a = b.read a := by
  cases op with
  | movs | stos | ins => exact b.read_put_of_not_mem _ outside
  | outs => exact b.read_output w _ _ a
  | cmps | scas | lods => rfl

/-- Two processors that differ in their count, in their place in the code and in memory
that the element does not touch transfer the same. -/
theorem transferred_agree (op : StringOp) (w : Width) {hidden : List Address} {b b' : Flat}
    {c : Cpu} (same : b.AgreeOff hidden b') (seen : ∀ a ∈ op.touched w c, a ∉ hidden)
    (cx ip : Word) :
    let t := op.transferred w b c.source c.regs
    let t' := op.transferred w b' c.source { c.regs with cx, ip }
    t'.1 = { t.1 with cx, ip } ∧ t.2.AgreeOff hidden t'.2 := by
  have source (moves : op.movesSource = true) :
      b.get w c.source c.regs.si = b'.get w c.source c.regs.si :=
    same.get fun a member => seen a (List.mem_append_left _ (by rwa [if_pos moves]))
  have destination (moves : op.movesDestination = true) :
      b.get w c.regs.es c.regs.di = b'.get w c.regs.es c.regs.di :=
    same.get fun a member => seen a (List.mem_append_right _ (by rwa [if_pos moves]))
  cases op with
  | movs =>
    simp only [transferred, source rfl, true_and]
    exact same.put w _ _ _
  | cmps =>
    simp only [transferred, source rfl, destination rfl, true_and]
    exact same
  | scas =>
    simp only [transferred, destination rfl]
    exact ⟨by cases w <;> rfl, same⟩
  | lods =>
    simp only [transferred, source rfl]
    exact ⟨by cases w <;> rfl, same⟩
  | stos =>
    refine ⟨rfl, ?_⟩
    have accumulator : { c.regs with cx, ip }.operand w 0 = c.regs.operand w 0 := by
      cases w <;> rfl
    simp only [transferred, accumulator]
    exact same.put w _ _ _
  | ins =>
    simp only [transferred, same.input, true_and]
    exact same.put w _ _ _
  | outs =>
    simp only [transferred, source rfl, true_and]
    exact same.output w _ _

end StringOp

namespace Exec

open StringOp

theorem element_eq (w : Width) (op : StringOp) (c : Core Flat) :
    let t := op.transferred w c.bus c.cpu.source c.cpu.regs
    element w op c = ((), ⟨{ c.cpu with regs := op.advance w t.1 }, t.2⟩) := by
  cases op <;> cases w <;> rfl

theorem element_frame (w : Width) (op : StringOp) (c : Core Flat) :
    let r := c.cpu.regs
    let delta := stride w r.flags.direction
    ∃ ax flags, SameControl flags r.flags ∧ (element w op c).2.cpu = { c.cpu with
      regs := { r with
        ax, flags
        si := if op.movesSource then r.si + delta else r.si
        di := if op.movesDestination then r.di + delta else r.di } } := by
  obtain ⟨ax, flags, regs, control⟩ := op.transferred_regs w c.bus c.cpu.source c.cpu.regs
  refine ⟨ax, flags, control, ?_⟩
  rw [element_eq]
  simp only [regs, advance, control.direction]

/-- A processor that differs from another in its count, in its place in the code and in
hidden memory alone. -/
structure Follows (hidden : List Address) (s c : Core Flat) (cx ip : Word) : Prop where
  regs : c.cpu.regs = { s.cpu.regs with cx, ip }
  queue : c.cpu.prefixes = s.cpu.prefixes
  bus : s.bus.AgreeOff hidden c.bus

/-- It transfers the same elements, as long as those are not hidden. -/
theorem Follows.element {hidden : List Address} {s c : Core Flat} {cx ip : Word}
    (follows : Follows hidden s c cx ip) {w : Width} {op : StringOp}
    (seen : ∀ a ∈ op.touched w s.cpu, a ∉ hidden) :
    Follows hidden (element w op s).2 (element w op c).2 cx ip := by
  obtain ⟨regs, bus⟩ := op.transferred_agree w follows.bus seen cx ip
  have source : c.cpu.source = s.cpu.source := by
    rw [Cpu.source, Cpu.source, follows.regs, follows.queue]
    rfl
  rw [element_eq, element_eq, source, follows.regs]
  refine ⟨?_, follows.queue, bus⟩
  dsimp only
  rw [regs]
  rfl

def elements {β : Type} [Bus β] (w : Width) (op : StringOp) : Nat → Core β → Core β
  | 0, c => c
  | n + 1, c => (element w op (elements w op n c)).2

/-- What elements leave of the processor. An index moves by its stride an element. -/
theorem elements_frame (w : Width) (op : StringOp) (n : Nat) (c : Core Flat) :
    let r := c.cpu.regs
    let distance := BitVec.ofNat 16 n * stride w r.flags.direction
    ∃ ax flags, SameControl flags r.flags ∧ (elements w op n c).cpu = { c.cpu with
      regs := { r with
        ax, flags
        si := if op.movesSource then r.si + distance else r.si
        di := if op.movesDestination then r.di + distance else r.di } } := by
  induction n with
  | zero => exact ⟨c.cpu.regs.ax, c.cpu.regs.flags, .refl _, by simp [elements]⟩
  | succ n ih =>
    obtain ⟨ax, flags, control, eq⟩ := ih
    obtain ⟨ax', flags', control', eq'⟩ := element_frame w op (elements w op n c)
    rw [eq] at control' eq'
    refine ⟨ax', flags', control'.trans control, eq'.trans ?_⟩
    have moved (v delta : Word) : v + BitVec.ofNat 16 n * delta + delta =
        v + BitVec.ofNat 16 (n + 1) * delta := by
      rw [BitVec.ofNat_add, BitVec.add_mul, BitVec.add_assoc]
      simp
    simp only [control.direction]
    cases op.movesSource <;> cases op.movesDestination <;> simp [moved]

/-- Where an element of the loop reads and stores, seen from the start of the loop. -/
theorem touched_elements (w : Width) (op : StringOp) (n : Nat) (c : Core Flat) :
    let r := c.cpu.regs
    let distance := BitVec.ofNat 16 n * stride w r.flags.direction
    op.touched w (elements w op n c).cpu =
      (if op.movesSource then w.addresses c.cpu.source (r.si + distance) else []) ++
        if op.movesDestination then w.addresses r.es (r.di + distance) else [] := by
  obtain ⟨ax, flags, _, frame⟩ := elements_frame w op n c
  rw [touched, frame]
  cases op.movesSource <;> cases op.movesDestination <;> rfl

theorem elements_read (w : Width) (op : StringOp) {n : Nat} {c : Core Flat} {a : Address}
    (outside : ∀ i < n, a ∉ op.stored w (elements w op i c).cpu) :
    (elements w op n c).bus.read a = c.bus.read a := by
  induction n with
  | zero => rfl
  | succ n ih =>
    rw [elements, element_eq]
    rw [op.transferred_read w _ _ (outside n (Nat.lt_succ_self n))]
    exact ih fun i before => outside i (Nat.lt_succ_of_lt before)

end Exec

end Swan
