import Swan.Proofs.StackPush

/-! Which bytes of memory an instruction may change: an operand, a place that it names
directly, an element of a string, the words that it pushes, or none. The bounds hold for
every instruction that enters no interrupt, and only output instructions change a port. -/
namespace Swan

inductive Target where
  | nothing
  /-- The operand that the ModRM byte names, unless it is a register. -/
  | operand (w : Width)
  /-- At an offset in the instruction. -/
  | direct (w : Width)
  /-- The destination of a string instruction. -/
  | destination (w : Width)
  | stack (words : Nat)
  /-- The frame pointers that a new stack frame begins with. -/
  | frame
  deriving DecidableEq, Repr

namespace Target

/-- What an instruction may store to, by its opcode, the register field of its ModRM byte and
whether that byte names a register. -/
def of (opcode : Byte) (reg : BitVec 3) (register : Bool) : Target :=
  let n := opcode.toNat
  let w := if n % 2 = 0 then Width.byte else .word
  if n < 0x38 ∧ n % 8 < 2 then operand w
  else if n ∈ [0x80, 0x81, 0x82, 0x83] then if reg = 7 then nothing else operand w
  else if n ∈ [0x86, 0x87, 0x88, 0x89, 0xC6, 0xC7] then operand w
  else if n ∈ [0x8C, 0x8F] then operand .word
  else if n ∈ [0xC0, 0xC1, 0xD0, 0xD1, 0xD2, 0xD3] then if reg = 6 then nothing else operand w
  else if n ∈ [0xF6, 0xF7] then if reg = 2 ∨ reg = 3 then operand w else nothing
  else if n = 0xFE then if reg = 0 ∨ reg = 1 then operand .byte else nothing
  else if n = 0xFF then
    match reg.toNat with
    | 0 | 1 => operand .word
    | 2 | 6 => stack 1
    | 3 => if register then nothing else stack 2
    | _ => nothing
  else if n ∈ [0xA2, 0xA3] then direct w
  else if n ∈ [0x6C, 0x6D, 0xA4, 0xA5, 0xAA, 0xAB] then destination w
  else if n ∈ [0x06, 0x0E, 0x16, 0x1E, 0x68, 0x6A, 0x9C, 0xE8] ∨ 0x50 ≤ n ∧ n ≤ 0x57 then stack 1
  else if n = 0x9A then stack 2
  else if n = 0x60 then stack 8
  else if n = 0xC8 then frame
  else nothing

def addresses (r : Registers) (q : PrefixQueue) (operands : List Byte) : Target → List Address
  | nothing => []
  | operand w => (leadingPlace r q operands).addresses r w
  | direct w => w.addresses (r.segment (q.segmentOverride.getD .ds)) (immediate .word operands)
  | destination w => w.addresses r.es r.di
  | stack words => r.stackWords words
  | frame => r.stackWords (1 + (operands.getD 2 0 &&& 0x1F).toNat)

end Target

def outputOpcodes : List Byte := [0x6E, 0x6F, 0xE6, 0xE7, 0xEE, 0xEF]

namespace Operation

def target (reg : BitVec 3) (register : Bool) : Operation → Target
  | storeDirect w => .direct w
  | string w op => if op.stores then .destination w else .nothing
  | pushSegment _ | pushReg _ | pushImmediate _ | pushFlags | callNear => .stack 1
  | callFar => .stack 2
  | pushAll => .stack 8
  | enter => .frame
  | group5 =>
    match reg.toNat with
    | 0 | 1 => .operand .word
    | 2 | 6 => .stack 1
    | 3 => if register then .nothing else .stack 2
    | _ => .nothing
  | op => ((op.writes? reg).map Target.operand).getD .nothing

theorem target_decode (opcode : Byte) (reg : BitVec 3) (register : Bool) :
    (decode opcode).target reg register = Target.of opcode reg register := by
  have table := decode_members (f := fun op reg => (op.target reg false, op.target reg true))
    (g := fun opcode reg => (Target.of opcode reg false, Target.of opcode reg true))
    (by decide +kernel) opcode reg
  obtain ⟨memory, other⟩ := Prod.mk.inj table
  cases register with
  | false => exact memory
  | true => exact other

/-- An operation that writes its operand sets flags and does nothing else. -/
theorem flags_of_writes {op : Operation} {reg : BitVec 3} {w : Width} {e : Effect}
    (writes : op.writes? reg = some w) (member : e ∈ op.effects reg) : e = .flags := by
  unfold writes? at writes
  cases op <;> simp only [effects, List.mem_singleton, List.not_mem_nil] at writes member <;>
    grind

def outputs : Operation → Bool
  | string _ .outs | portOut .. => true
  | _ => false

theorem outputs_of_effects {op : Operation} {reg : BitVec 3} (member : .output ∈ op.effects reg) :
    op.outputs = true := by
  cases op <;> simp only [effects, outputs] at member ⊢ <;> grind

theorem outputs_decode (opcode : Byte) :
    (decode opcode).outputs = decide (opcode ∈ outputOpcodes) :=
  decode_table (f := outputs) (g := fun opcode => decide (opcode ∈ outputOpcodes))
    (by decide +kernel) opcode

end Operation

namespace Core

variable {c d : Core Flat}

def SameMemory (c d : Core Flat) : Prop := ∀ a, d.bus.read a = c.bus.read a

def SamePorts (c d : Core Flat) : Prop := d.bus.ports = c.bus.ports

/-- Nothing is stored but at a given place, and its segment stays where it is. -/
structure StoresTo (l : Location) (w : Width) (c d : Core Flat) : Prop where
  segment : ∀ s, d.cpu.regs.segment s = c.cpu.regs.segment s
  memory : ∀ a ∉ l.addresses c.cpu.regs w, d.bus.read a = c.bus.read a

instance : Across SameMemory where
  refl _ _ := rfl
  trans first second a := (second a).trans (first a)
  data _ _ _ _ := rfl
  halted _ _ _ := rfl
  read _ _ _ := rfl
  portIn _ _ _ := rfl

theorem SameMemory.allows {e : Effect} (other : e ≠ .store) : Allows SameMemory e where
  allows {c d} makes := by
    cases e with
    | segment =>
      obtain ⟨v, s, rfl⟩ := makes
      exact fun _ => rfl
    | store => exact absurd rfl other
    | output =>
      obtain ⟨p, v, rfl⟩ := makes
      exact fun _ => rfl
    | flags =>
      obtain ⟨flags, -, rfl⟩ := makes
      exact fun _ => rfl
    | control =>
      obtain ⟨flags, rfl⟩ := makes
      exact fun _ => rfl

instance : Across SamePorts where
  refl _ := rfl
  trans first second := Eq.trans second first
  data _ _ _ := rfl
  halted _ _ := rfl
  read _ _ := rfl
  portIn _ _ := rfl

theorem SamePorts.allows {e : Effect} (other : e ≠ .output) : Allows SamePorts e where
  allows {c d} makes := by
    cases e with
    | segment =>
      obtain ⟨v, s, rfl⟩ := makes
      rfl
    | store =>
      obtain ⟨a, v, rfl⟩ := makes
      rfl
    | output => exact absurd rfl other
    | flags =>
      obtain ⟨flags, -, rfl⟩ := makes
      rfl
    | control =>
      obtain ⟨flags, rfl⟩ := makes
      rfl

instance (l : Location) (w : Width) : Across (StoresTo l w) where
  refl _ := ⟨fun _ => rfl, fun _ _ => rfl⟩
  trans {c d e} first second := by
    refine ⟨fun s => (second.segment s).trans (first.segment s), fun a outside => ?_⟩
    have same : l.addresses d.cpu.regs w = l.addresses c.cpu.regs w := by
      cases l with
      | register i => rfl
      | memory s o => simp only [Location.addresses, first.segment]
    exact (second.memory a (same ▸ outside)).trans (first.memory a outside)
  data _ _ same := ⟨same.segment, fun _ _ => rfl⟩
  halted _ _ := ⟨fun _ => rfl, fun _ _ => rfl⟩
  read _ _ := ⟨fun _ => rfl, fun _ _ => rfl⟩
  portIn _ _ := ⟨fun _ => rfl, fun _ _ => rfl⟩

instance (l : Location) (w : Width) : Allows (StoresTo l w) .flags where
  allows makes := by
    obtain ⟨flags, -, rfl⟩ := makes
    exact ⟨fun s => by cases s <;> rfl, fun _ _ => rfl⟩

end Core

namespace Exec

open Swan.Core

theorem within_writeAt (w : Width) (v : Operand w) (l : Location) :
    Within (StoresTo l w) (writeAt w v l) where
  within c := by
    cases l with
    | register i =>
      have plain : Within (StoresTo (.register i) w) (setOperand w (i.setWidth 3) v) :=
        inferInstance
      exact plain.within c
    | memory s o =>
      rw [writeAt, bind_apply, Exec.regs, store_flat]
      exact ⟨fun _ => rfl, fun a outside => Flat.read_put_of_not_mem _ v outside⟩

theorem storeDirect_footprint {w : Width} {c : Core Flat} {operands : List Byte}
    (here : c.At operands) (size : operands.length = 2) {a : Address}
    (outside : a ∉ (Target.direct w).addresses c.cpu.regs c.cpu.prefixes operands) :
    (storeDirect w c).2.bus.read a = c.bus.read a := by
  rw [← List.append_nil operands] at here
  obtain ⟨d, takes, -⟩ := takes_fetch (w := .word) size here
  have bus : d.bus = c.bus := takes.skips.bus.flat
  have queue : d.cpu.prefixes = c.cpu.prefixes := by
    rw [takes.skips.cpu]
    rfl
  have segment (s : Segment) : d.cpu.regs.segment s = c.cpu.regs.segment s := by
    rw [takes.skips.cpu]
    cases s <;> rfl
  rw [storeDirect, bind_apply, show fetchWord c = _ from takes.answer]
  change (store w _ _ _ d).2.bus.read a = _
  rw [store_flat, queue, segment, ← bus]
  exact Flat.read_put_of_not_mem _ _ outside

theorem string_footprint {w : Width} {op : StringOp} {c : Core Flat} {a : Address}
    (outside : a ∉ op.stored w c.cpu) : (string w op c).2.bus.read a = c.bus.read a := by
  have transferred : (element w op c).2.bus.read a = c.bus.read a := by
    rw [element_eq]
    exact op.transferred_read w _ _ outside
  cases repeated : c.cpu.prefixes.repeatClass with
  | none => rwa [string_once repeated]
  | some k =>
    by_cases none_left : c.cpu.regs.cx = 0
    · rw [string_exhausted repeated none_left]
    · rw [string_repeated repeated none_left]
      dsimp only
      split <;> exact transferred

/-- With a register there is no pointer, and then a far call does nothing. -/
theorem group5_register {c : Core Flat} {operands : List Byte} (here : c.At operands)
    (size : operands.length = 1 + (leadingModRM operands).displacement.size)
    (far : (leadingModRM operands).reg.toNat = 3)
    (register : (leadingModRM operands).isRegister = true) : (group5 c).2.bus = c.bus := by
  obtain ⟨modRM, bytes, rest, rfl, short, -⟩ := split_modRM (n := fun _ => 0) size
  obtain ⟨d, takes, -⟩ := takes_modRM short here
  simp only [leadingModRM, List.headD_cons] at far register
  have memory := (ModRM.ofByte modRM).isMemory_place c.cpu.regs c.cpu.prefixes bytes
  rw [register] at memory
  generalize (ModRM.ofByte modRM).place c.cpu.regs c.cpu.prefixes bytes = rm at takes memory
  rw [group5, bind_apply, takes.answer, ← takes.skips.bus.flat]
  dsimp only
  rw [far]
  cases rm with
  | register i => rfl
  | memory s o => cases memory

section Operations

variable {op : Operation} {c : Core Flat} {operands : List Byte} (here : c.At operands)
  (size : operands.length =
    (if op.hasModRM then 1 + (leadingModRM operands).displacement.size else 0) +
      op.immediateSize (leadingModRM operands).reg)
  (quiet : ¬ op.EntersInterrupt c.bus.read c.cpu.regs c.cpu.prefixes operands)

include here size quiet

/-- An operation stores to its operand, or not at all, if it stores nowhere else. -/
theorem operand_footprint (unstored : .store ∉ op.effects (leadingModRM operands).reg) {a : Address}
    (outside : a ∉ (((op.writes? (leadingModRM operands).reg).map Target.operand).getD
      .nothing).addresses c.cpu.regs c.cpu.prefixes operands) :
    (op.execute c).2.bus.read a = c.bus.read a := by
  cases writes : op.writes? (leadingModRM operands).reg with
  | none =>
    have same : SameMemory c (op.execute c).2 := by
      refine within_execute quiet (fun e member => SameMemory.allows ?_) here
        (fun w found => ?_) size
      · rintro rfl
        exact unstored member
      · rw [writes] at found
        cases found
    exact same a
  | some w =>
    rw [writes] at outside
    have stores : StoresTo (leadingPlace c.cpu.regs c.cpu.prefixes operands) w c
        (op.execute c).2 := by
      refine within_execute quiet (fun e member => ?_) here (fun w' found v => ?_) size
      · rw [Operation.flags_of_writes writes member]
        infer_instance
      · rw [writes] at found
        cases found
        exact within_writeAt w v _
    exact stores.memory a outside

theorem group5_footprint (group : op = .group5) {a : Address}
    (outside : a ∉ (op.target (leadingModRM operands).reg
      (leadingModRM operands).isRegister).addresses c.cpu.regs c.cpu.prefixes operands) :
    (op.execute c).2.bus.read a = c.bus.read a := by
  subst group
  have plain := operand_footprint here size quiet (a := a)
  have pushed (n : Nat) := group5_stacks (n := n) here size
  simp only [Operation.target, Operation.effects, Operation.writes?] at outside plain
  have short : operands.length = 1 + (leadingModRM operands).displacement.size := size
  have register := group5_register here short
  generalize (leadingModRM operands).reg.toNat = member at outside plain pushed register
  split at outside
  case h_1 | h_2 => exact plain (by simp) outside
  case h_3 | h_4 => exact (pushed 1 rfl).read outside
  case h_5 =>
    cases pointer : (leadingModRM operands).isRegister with
    | true => exact congrArg (Flat.read · a) (register rfl pointer)
    | false =>
      rw [pointer] at outside
      exact (pushed 2 ⟨pointer, rfl⟩).read outside
  case h_6 zero one two six three =>
    refine plain ?_ ?_
    · split <;> first | contradiction | simp
    · split
      · exact absurd rfl zero
      · exact absurd rfl one
      · exact outside

/-- An operation that enters no interrupt stores within its target. -/
theorem execute_footprint {a : Address}
    (outside : a ∉ (op.target (leadingModRM operands).reg
      (leadingModRM operands).isRegister).addresses c.cpu.regs c.cpu.prefixes operands) :
    (op.execute c).2.bus.read a = c.bus.read a := by
  have plain := operand_footprint here size quiet (a := a)
  cases op
  case storeDirect w => exact storeDirect_footprint here size outside
  case string w op =>
    refine string_footprint fun member => outside ?_
    unfold StringOp.stored at member
    simp only [Operation.target]
    split at member <;> rename_i stores
    · rw [if_pos stores]
      exact member
    · cases member
  case pushSegment s => exact Stacks.read ⟨_, push_pushes (c.cpu.regs.segment s) c, rfl⟩ outside
  case pushReg r => exact Stacks.read ⟨_, push_pushes (c.cpu.regs.word r) c, rfl⟩ outside
  case pushFlags => exact Stacks.read ⟨_, push_pushes c.cpu.regs.flags.toWord c, rfl⟩ outside
  case pushAll => exact Stacks.read ⟨_, pushAll_pushes c, rfl⟩ outside
  case pushImmediate form =>
    have short : operands.length = form.size .word := size.trans (Nat.zero_add _)
    exact (pushImmediate_stacks here short).read outside
  case callNear => exact (callNear_stacks here size).read outside
  case callFar => exact (callFar_stacks here size).read outside
  case enter => exact (enter_stacks here size).read outside
  case group5 => exact group5_footprint here size quiet rfl outside
  case shiftRm | group3 | group4 | command =>
    refine plain ?_ outside
    simp only [Operation.effects]
    split <;> simp
  all_goals exact plain (by simp [Operation.effects]) outside

omit here size quiet in
/-- What an instruction stores does not depend on where it stands. -/
theorem addresses_moved (t : Target) (r : Registers) (ip : Word) (q : PrefixQueue) :
    t.addresses { r with ip } q operands = t.addresses r q operands := by
  cases t with
  | operand w => exact (leadingPlace r q operands).addresses_moved r ip w
  | direct w =>
    simp only [Target.addresses]
    cases q.segmentOverride.getD .ds <;> rfl
  | _ => rfl

theorem execute_ports (unwritten : op.outputs = false) :
    (op.execute c).2.bus.ports = c.bus.ports := by
  have storing : Allows SamePorts .store := SamePorts.allows nofun
  have same : SamePorts c (op.execute c).2 := by
    refine within_execute quiet (fun e member => SamePorts.allows ?_) here
      (fun w _ v => inferInstance) size
    rintro rfl
    rw [Operation.outputs_of_effects member] at unwritten
    cases unwritten
  exact same

end Operations

/-- The memory that one instruction can change. A halted processor changes none. One that runs, is
not traced and enters no interrupt changes its target's bytes at most, and a port only by an
output. -/
theorem memory_footprint (c : Core Flat) (untrapped : c.cpu.regs.flags.trap = false) :
    (c.cpu.halted = true → (step c).2.bus = c.bus) ∧
    (c.cpu.halted = false →
      (∀ cycles, (step c).1 = some cycles →
        ∃ prefixes opcode operands, c.Holds prefixes opcode operands) ∧
      ∀ prefixes opcode operands, c.Holds prefixes opcode operands →
        let r := c.cpu.regs
        let q := c.cpu.prefixes.pushAll prefixes
        let m := leadingModRM operands
        (∃ cycles, (step c).1 = some cycles) ∧
        (¬ EntersInterrupt c.bus.read r q opcode operands →
          (∀ a ∉ (Target.of opcode m.reg m.isRegister).addresses r q operands,
            (step c).2.bus.read a = c.bus.read a) ∧
          (opcode ∉ outputOpcodes → (step c).2.bus.ports = c.bus.ports))) := by
  refine ⟨fun halted => by rw [step, stepWithin_halted _ halted], fun running => ⟨fun cycles =>
    holds_of_step running, fun prefixes opcode operands holds => ?_⟩⟩
  obtain ⟨d, starts⟩ := step_starts running untrapped holds
  have bus : d.bus = c.bus := starts.bus.flat
  refine ⟨starts.returns, fun quiet => ?_⟩
  have quiet : ¬ (Operation.decode opcode).EntersInterrupt d.bus.read d.cpu.regs d.cpu.prefixes
      operands := fun enters => quiet (starts.entersInterrupt.mp enters)
  rw [starts.busAfter, ← bus]
  refine ⟨fun a outside => ?_, fun other => ?_⟩
  · refine execute_footprint starts.here holds.size_decode quiet ?_
    rw [Operation.target_decode, starts.regs, starts.queue, addresses_moved]
    exact outside
  · refine execute_ports starts.here holds.size_decode quiet ?_
    rw [Operation.outputs_decode]
    exact decide_eq_false other

/-- A word added to the last byte of a segment and to its first. -/
def wrapping : Core Flat :=
  ⟨{ regs := { bx := 0xFFFF } }, (default : Flat).load 0xFFFF0 [0x01, 0x07]⟩

theorem memory_footprint_wrapping :
    (∃ cycles, (step wrapping).1 = some cycles) ∧
    (∀ a, a ≠ 0x0FFFF → a ≠ 0 → (step wrapping).2.bus.read a = wrapping.bus.read a) ∧
    (step wrapping).2.bus.ports = wrapping.bus.ports := by
  have holds : wrapping.Holds [] 0x01 [0x07] := {
    code := by
      simp [wrapping, Core.At, Codes, Viewed.view, Flat.load, Memory.load, Flat.read,
        Memory.read_write, physical]
    queued := nofun
    plain := by decide
    size := by decide }
  have quiet : ¬ EntersInterrupt wrapping.bus.read wrapping.cpu.regs
      (wrapping.cpu.prefixes.pushAll []) 0x01 [0x07] := by
    rintro (always | ⟨sometimes, -⟩)
    · exact absurd always (by decide)
    · exact absurd sometimes (by decide)
  have target : (Target.of 0x01 (leadingModRM [0x07]).reg
      (leadingModRM [0x07]).isRegister).addresses wrapping.cpu.regs
        (wrapping.cpu.prefixes.pushAll []) [0x07] = [0x0FFFF, 0] := by decide
  obtain ⟨returns, kept⟩ := ((memory_footprint wrapping rfl).2 rfl).2 _ _ _ holds
  obtain ⟨memory, ports⟩ := kept quiet
  refine ⟨returns, fun a first second => memory a ?_, ports (by decide)⟩
  rw [target, List.mem_cons, List.mem_singleton, not_or]
  exact ⟨first, second⟩

end Exec

end Swan
