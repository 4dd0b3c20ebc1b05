import Swan.Proofs.EffectTable
import Swan.Proofs.InterruptService

/-! Which instructions touch the flags. Trap, interrupt and direction are set by the
instructions that are there to set them, and by nothing else but an interrupt, which masks
the first two. Of the other instructions most leave the whole status word as it was. -/
namespace Swan

open Arithmetic

open StringOp (SameControl)

def controlOpcodes : List Byte := [0x9D, 0xCF, 0xFA, 0xFB, 0xFC, 0xFD]

def SetsFlags (opcode : Byte) (reg : BitVec 3) : Prop :=
  let n := opcode.toNat
  n < 0x40 ∧ n % 8 < 6 ∨ n ∈ [0x27, 0x2F, 0x37, 0x3F] ∨ 0x40 ≤ n ∧ n ≤ 0x4F ∨
    n ∈ [0x69, 0x6B, 0x80, 0x81, 0x82, 0x83, 0x84, 0x85, 0x9D, 0x9E, 0xA6, 0xA7, 0xA8, 0xA9, 0xAE,
      0xAF, 0xCF, 0xD4, 0xD5, 0xF5, 0xF8, 0xF9, 0xFA, 0xFB, 0xFC, 0xFD] ∨
    n ∈ [0xC0, 0xC1, 0xD0, 0xD1, 0xD2, 0xD3] ∧ reg ≠ 6 ∨
    n ∈ [0xF6, 0xF7] ∧ reg.toNat ∈ [0, 1, 3, 4, 5] ∨ n ∈ [0xFE, 0xFF] ∧ reg.toNat < 2

instance (opcode : Byte) (reg : BitVec 3) : Decidable (SetsFlags opcode reg) := by
  unfold SetsFlags
  infer_instance

def ShiftCount.value (r : Registers) (operands : List Byte) : ShiftCount → Byte
  | one => 1
  | cl => r.cl
  | immediate => operands.getLastD 0

def shiftSource? (opcode : Byte) : Option ShiftCount :=
  if opcode ∈ [0xC0, 0xC1] then some .immediate
  else if opcode ∈ [0xD0, 0xD1] then some .one
  else if opcode ∈ [0xD2, 0xD3] then some .cl
  else none

/-- The instructions that leave the status word alone, unless they enter an interrupt: those
that set no flags, a shift or rotate by nothing, and a repeated comparison with no elements
left. -/
inductive KeepsFlags (r : Registers) (q : PrefixQueue) (opcode : Byte) (operands : List Byte) :
    Prop where
  | plain : ¬ SetsFlags opcode (leadingModRM operands).reg → KeepsFlags r q opcode operands
  | unshifted {source : ShiftCount} : shiftSource? opcode = some source →
      source.value r operands &&& 0x1F = 0 → KeepsFlags r q opcode operands
  | exhausted : opcode ∈ [0xA6, 0xA7, 0xAE, 0xAF] → q.repeatClass ≠ none → r.cx = 0 →
      KeepsFlags r q opcode operands

theorem KeepsFlags.moved {r : Registers} {q : PrefixQueue} {opcode : Byte} {operands : List Byte}
    (keeps : KeepsFlags r q opcode operands) (ip : Word) :
    KeepsFlags { r with ip } q opcode operands := by
  cases keeps with
  | plain other => exact .plain other
  | @unshifted source found masked => exact .unshifted found (by cases source <;> exact masked)
  | exhausted comparison repeated none_left => exact .exhausted comparison repeated none_left

theorem Arithmetic.shift_masked {n : Nat} (op : ShiftOp) (v : BitVec n) {count : Byte}
    (masked : count &&& 0x1F = 0) (f : Flags) : shift op v count f = (v, f) := by
  simp only [shift, masked]
  rfl

namespace Operation

def shiftSource? : Operation → Option ShiftCount
  | shiftRm _ source => some source
  | _ => none

theorem shiftSource_decode (opcode : Byte) :
    (decode opcode).shiftSource? = Swan.shiftSource? opcode :=
  decode_table (f := shiftSource?) (g := Swan.shiftSource?) (by decide +kernel) opcode

def isComparison : Operation → Bool
  | string _ .cmps | string _ .scas => true
  | _ => false

theorem isComparison_decode (opcode : Byte) :
    (decode opcode).isComparison = decide (opcode ∈ [0xA6, 0xA7, 0xAE, 0xAF]) :=
  decode_table (f := isComparison) (g := fun opcode => decide (opcode ∈ [0xA6, 0xA7, 0xAE, 0xAF]))
    (by decide +kernel) opcode

/-- The table of effects, by opcode. -/
theorem effects_decode (opcode : Byte) (reg : BitVec 3) :
    (Effect.control ∈ (decode opcode).effects reg ↔ opcode ∈ controlOpcodes) ∧
    (Effect.flags ∈ (decode opcode).effects reg ∨ Effect.control ∈ (decode opcode).effects reg ↔
      SetsFlags opcode reg) := by
  have table := decode_members
    (f := fun op reg => (decide (Effect.control ∈ op.effects reg),
      decide (Effect.flags ∈ op.effects reg ∨ Effect.control ∈ op.effects reg)))
    (g := fun opcode reg => (decide (opcode ∈ controlOpcodes), decide (SetsFlags opcode reg)))
    (by decide +kernel) opcode reg
  obtain ⟨control, any⟩ := Prod.mk.inj table
  exact ⟨decide_eq_decide.mp control, decide_eq_decide.mp any⟩

end Operation

namespace Core

variable {β : Type} {c d : Core β}

def SameFlags (c d : Core β) : Prop := d.cpu.regs.flags = c.cpu.regs.flags

def KeepsControl (c d : Core β) : Prop := SameControl d.cpu.regs.flags c.cpu.regs.flags

variable [Bus β]

instance : Across (SameFlags (β := β)) where
  refl _ := rfl
  trans first second := Eq.trans second first
  data _ _ same := same.flags
  halted _ _ := rfl
  read _ _ := rfl
  portIn _ _ := rfl

theorem SameFlags.allows {e : Effect} (flags : e ≠ .flags) (control : e ≠ .control) :
    Allows (SameFlags (β := β)) e where
  allows {c d} makes := by
    cases e with
    | segment =>
      obtain ⟨v, s, rfl⟩ := makes
      cases s <;> rfl
    | store =>
      obtain ⟨a, v, rfl⟩ := makes
      rfl
    | output =>
      obtain ⟨p, v, rfl⟩ := makes
      rfl
    | flags => exact absurd rfl flags
    | control => exact absurd rfl control

instance : Across (KeepsControl (β := β)) where
  refl _ := .refl _
  trans first second := second.trans first
  data _ _ same := by rw [KeepsControl, same.flags]; exact .refl _
  halted _ _ := .refl _
  read _ _ := .refl _
  portIn _ _ := .refl _

theorem KeepsControl.allows {e : Effect} (control : e ≠ .control) :
    Allows (KeepsControl (β := β)) e where
  allows {c d} makes := by
    cases e with
    | segment =>
      obtain ⟨v, s, rfl⟩ := makes
      cases s <;> exact .refl _
    | store =>
      obtain ⟨a, v, rfl⟩ := makes
      exact .refl _
    | output =>
      obtain ⟨p, v, rfl⟩ := makes
      exact .refl _
    | flags =>
      obtain ⟨flags, same, rfl⟩ := makes
      exact same
    | control => exact absurd rfl control

end Core

namespace Exec

open Swan.Core

variable {β : Type} [Bus β]

/-- A handler runs with interrupts and traps masked, and sees the other flags. -/
theorem enterInterrupt_flags (vector : Byte) (c : Core β) :
    (enterInterrupt vector c).2.cpu.regs.flags =
      { c.cpu.regs.flags with interrupt := false, trap := false } := rfl

variable [Viewed β] {c d : Core β} {operands : List Byte}

omit [Viewed β] in
/-- A division whose quotient does not fit, or whose divisor is zero. -/
theorem finishDivision_enters {w : Width} {c : Core β}
    (divide : BitVec (2 * w.bits) → Option (Operand w × Operand w))
    (divided : divide (wideAccumulator c.cpu.regs w) = none) (retired : Retired) :
    ((do
      finishDivision w (divide (wideAccumulator (← Exec.regs) w))
      return retired : Exec β Retired) c).2 = (enterInterrupt divideErrorVector c).2 := by
  rw [bind_apply]
  simp only [Exec.regs, divided]
  rfl

theorem group3_enters {w : Width} (here : c.At operands)
    (size : operands.length = 1 + (leadingModRM operands).displacement.size +
      (Operation.group3 w).immediateSize (leadingModRM operands).reg)
    (leaves : ¬ (Turn.division w).Stays (Viewed.view c.bus) c.cpu.regs c.cpu.prefixes operands
      True) :
    ∃ n d vector, c.Skips n d ∧ (group3 w c).2 = (enterInterrupt vector d).2 := by
  obtain ⟨modRM, bytes, rest, rfl, short, immediate⟩ :=
    split_modRM (n := fun reg => (Operation.group3 w).immediateSize reg) size
  obtain ⟨d, takes, next⟩ := takes_modRM short here
  simp only [Turn.Stays, leadingPlace_cons _ _ short, leadingModRM, List.headD_cons] at leaves
  unfold group3
  rw [bind_apply, takes.answer]
  dsimp only
  generalize (ModRM.ofByte modRM).place c.cpu.regs c.cpu.prefixes bytes = rm at *
  obtain ⟨e, read, -⟩ := takes_readAt w rm next
  have dividend : wideAccumulator e.cpu.regs w = wideAccumulator c.cpu.regs w := by
    rw [(takes.skips.trans read.skips).cpu]
    exact wideAccumulator_moved _ _ w
  rw [bind_apply, read.answer, takes.skips.value]
  refine ⟨_, e, divideErrorVector, takes.skips.trans read.skips, ?_⟩
  have few := (ModRM.ofByte modRM).reg.isLt
  generalize (ModRM.ofByte modRM).reg.toNat = member at leaves few ⊢
  dsimp only
  split
  case h_7 =>
    refine finishDivision_enters (fun dividend => div? dividend.toNat _) ?_ _
    rw [dividend]
    exact Option.not_isSome_iff_eq_none.mp leaves
  case h_8 =>
    obtain rfl : member = 7 := by grind
    refine finishDivision_enters (fun dividend => idiv? dividend.toInt _) ?_ _
    rw [dividend]
    exact Option.not_isSome_iff_eq_none.mp leaves
  all_goals exact absurd trivial leaves

theorem bound_enters (here : c.At operands)
    (size : operands.length = 1 + (leadingModRM operands).displacement.size)
    (leaves : ¬ Turn.outOfRange.Stays (Viewed.view c.bus) c.cpu.regs c.cpu.prefixes operands
      True) :
    ∃ n d vector, c.Skips n d ∧ (bound c).2 = (enterInterrupt vector d).2 := by
  obtain ⟨modRM, bytes, rest, rfl, short, -⟩ := split_modRM (n := fun _ => 0) size
  obtain ⟨d, takes, next⟩ := takes_modRM short here
  simp only [Turn.Stays, leadingPlace_cons _ _ short, leadingModRM, List.headD_cons] at leaves
  unfold bound
  rw [bind_apply, takes.answer]
  dsimp only
  generalize (ModRM.ofByte modRM).place c.cpu.regs c.cpu.prefixes bytes = rm at *
  obtain ⟨memory, outside⟩ := Classical.not_imp.mp leaves
  cases rm with
  | register i => cases memory
  | memory s o =>
    obtain ⟨e, low, next⟩ := takes_readAt .word (.memory s o) next
    obtain ⟨g, high, -⟩ := takes_readAt .word ((Location.memory s o).advance 2) next
    have index : operand .word (ModRM.ofByte modRM).reg d =
        (c.cpu.regs.operand .word (ModRM.ofByte modRM).reg, d) := by
      rw [operand, bind_apply, Exec.regs, takes.skips.cpu]
      rfl
    refine ⟨_, g, boundVector, takes.skips.trans (low.skips.trans high.skips), ?_⟩
    dsimp only
    rw [bind_apply, index, bind_apply, low.answer, bind_apply, high.answer, takes.skips.value,
      low.skips.value, takes.skips.value]
    dsimp only
    rw [if_pos (by omega)]
    rfl

/-- An operation that enters an interrupt does nothing before but read. -/
theorem execute_enters {op : Operation} (here : c.At operands)
    (size : operands.length =
      (if op.hasModRM then 1 + (leadingModRM operands).displacement.size else 0) +
        op.immediateSize (leadingModRM operands).reg)
    (enters : op.EntersInterrupt (Viewed.view c.bus) c.cpu.regs c.cpu.prefixes operands) :
    ∃ n d vector, c.Skips n d ∧ (op.execute c).2 = (enterInterrupt vector d).2 := by
  rcases enters with always | ⟨sometimes, leaves⟩
  · cases op
    case breakpoint => exact ⟨0, c, breakpointVector, .refl c, rfl⟩
    case interrupt =>
      rw [← List.append_nil operands] at here
      obtain ⟨d, takes, -⟩ := takes_fetch (w := .byte) size here
      refine ⟨_, d, immediate .byte operands, takes.skips, ?_⟩
      change (softwareInterrupt c).2 = _
      rw [softwareInterrupt, bind_apply, show fetchByte c = _ from takes.answer]
      rfl
    all_goals cases always
  · cases op
    case interruptOnOverflow =>
      have taken : c.cpu.regs.flags.overflow = true := Bool.of_not_eq_false leaves
      refine ⟨0, c, overflowVector, .refl c, ?_⟩
      change ((if c.cpu.regs.flags.overflow = true then _ else _ : Exec β Retired) c).2 = _
      rw [taken]
      rfl
    case bound => exact bound_enters here size leaves
    case group3 w => exact group3_enters here size leaves
    all_goals cases sometimes

omit [Viewed β] in
/-- A shift by no places, from where its operand and its count are known. -/
theorem within_shifted {w : Width} {count : Byte} (masked : count &&& 0x1F = 0) (reg : BitVec 3)
    (rm : Location) (cost : Nat) :
    Within SameFlags (match ShiftOp.ofIndex? reg with
      | none => return { cycles := 1 }
      | some op => do
        let r ← withFlags (shift op (← readAt w rm) count)
        writeAt w r rm
        return { cycles := cost } : Exec β Retired) := by
  have store := SameFlags.allows (β := β) (e := .store) nofun nofun
  have same (op : ShiftOp) (a : Operand w) :
      Within SameFlags (withFlags (shift op a count) : Exec β (Operand w)) := by
    refine ⟨fun c => ?_⟩
    simp only [SameFlags, withFlags, shift_masked op a masked]
  cases ShiftOp.ofIndex? reg <;> infer_instance

/-- Nothing is shifted by a masked count of zero. -/
theorem shiftRm_flags {w : Width} {source : ShiftCount} (here : c.At operands)
    (size : operands.length = 1 + (leadingModRM operands).displacement.size +
      (Operation.shiftRm w source).immediateSize (leadingModRM operands).reg)
    (unshifted : source.value c.cpu.regs operands &&& 0x1F = 0) :
    (shiftRm w source c).2.cpu.regs.flags = c.cpu.regs.flags := by
  obtain ⟨modRM, bytes, rest, rfl, short, immediate⟩ :=
    split_modRM (n := fun reg => (Operation.shiftRm w source).immediateSize reg) size
  obtain ⟨d, takes, next⟩ := takes_modRM short here
  refine within_takes (R := SameFlags) takes ?_
  cases source with
  | one => exact absurd unshifted (show ¬ (1 : Byte) &&& 0x1F = 0 by decide)
  | cl =>
    have count : d.cpu.regs.cl = c.cpu.regs.cl := by
      rw [takes.skips.cpu]
      rfl
    exact (within_shifted (count ▸ unshifted) _ _ _).within d
  | immediate =>
    obtain ⟨count, rfl⟩ := List.length_eq_one_iff.mp immediate
    obtain ⟨e, counted, -⟩ := takes_byte next
    refine within_takes (R := SameFlags) counted ?_
    refine (within_shifted ?_ _ _ _).within e
    rw [ShiftCount.value, ← List.cons_append, List.getLastD_concat] at unshifted
    exact unshifted

theorem execute_control {opcode : Byte} (here : c.At operands)
    (size : operands.length =
      (if (Operation.decode opcode).hasModRM then 1 + (leadingModRM operands).displacement.size
        else 0) + (Operation.decode opcode).immediateSize (leadingModRM operands).reg)
    (quiet : ¬ (Operation.decode opcode).EntersInterrupt (Viewed.view c.bus) c.cpu.regs
      c.cpu.prefixes operands)
    (other : opcode ∉ controlOpcodes) :
    KeepsControl c ((Operation.decode opcode).execute c).2 := by
  have store := KeepsControl.allows (β := β) (e := .store) nofun
  refine within_execute quiet (fun e member => KeepsControl.allows ?_) here
    (fun w _ v => inferInstance) size
  rintro rfl
  exact other ((Operation.effects_decode opcode _).1.mp member)

theorem execute_flags {opcode : Byte} (here : c.At operands)
    (size : operands.length =
      (if (Operation.decode opcode).hasModRM then 1 + (leadingModRM operands).displacement.size
        else 0) + (Operation.decode opcode).immediateSize (leadingModRM operands).reg)
    (quiet : ¬ (Operation.decode opcode).EntersInterrupt (Viewed.view c.bus) c.cpu.regs
      c.cpu.prefixes operands)
    (keeps : KeepsFlags c.cpu.regs c.cpu.prefixes opcode operands) :
    SameFlags c ((Operation.decode opcode).execute c).2 := by
  cases keeps with
  | plain other =>
    have store := SameFlags.allows (β := β) (e := .store) nofun nofun
    rw [← (Operation.effects_decode opcode _).2, not_or] at other
    refine within_execute quiet (fun e member => SameFlags.allows ?_ ?_) here
      (fun w _ v => inferInstance) size
    · rintro rfl
      exact other.1 member
    · rintro rfl
      exact other.2 member
  | unshifted source masked =>
    rw [← Operation.shiftSource_decode] at source
    revert source size
    cases Operation.decode opcode <;> intro size source <;> cases source
    exact shiftRm_flags here size masked
  | exhausted comparison repeated none_left =>
    have comparison : (Operation.decode opcode).isComparison = true := by
      rw [Operation.isComparison_decode]
      exact decide_eq_true comparison
    obtain ⟨w, op, decoded⟩ : ∃ w op, Operation.decode opcode = .string w op := by
      revert comparison
      cases Operation.decode opcode <;> intro comparison
      case string w op => exact ⟨w, op, rfl⟩
      all_goals cases comparison
    obtain ⟨k, repeats⟩ := Option.ne_none_iff_exists'.mp repeated
    rw [decoded]
    change SameFlags c (string w op c).2
    rw [string_exhausted repeats none_left]
    rfl

/-- The control flags change only by an instruction that loads them or by the entry of an
interrupt, which clears two of them. An instruction that neither computes nor loads flags leaves
the whole status word alone. -/
theorem flag_discipline :
    (∀ c : Core β, c.cpu.halted = false → c.cpu.regs.flags.trap = false →
      (∀ cycles, (step c).1 = some cycles →
        ∃ prefixes opcode operands, c.Holds prefixes opcode operands) ∧
      ∀ prefixes opcode operands, c.Holds prefixes opcode operands →
        let r := c.cpu.regs
        let q := c.cpu.prefixes.pushAll prefixes
        let entering := EntersInterrupt (Viewed.view c.bus) r q opcode operands
        let after := (step c).2.cpu.regs.flags
        (∃ cycles, (step c).1 = some cycles) ∧
        (opcode ∉ controlOpcodes → ¬ entering → after.trap = r.flags.trap ∧
          after.interrupt = r.flags.interrupt ∧ after.direction = r.flags.direction) ∧
        (entering → after = { r.flags with interrupt := false, trap := false }) ∧
        (KeepsFlags r q opcode operands → ¬ entering → after = r.flags)) ∧
    ∀ (c : Core β) (vector : Byte), (interrupt vector c).2.cpu.regs.flags =
      { c.cpu.regs.flags with interrupt := false, trap := false } := by
  refine ⟨fun c running untrapped => ⟨fun cycles => holds_of_step running, ?_⟩,
    fun c vector => interrupt_flags vector c⟩
  intro prefixes opcode operands holds
  obtain ⟨d, starts⟩ := step_starts running untrapped holds
  have before : d.cpu.regs.flags = c.cpu.regs.flags := by rw [starts.regs]
  refine ⟨starts.returns, fun other quiet => ?_, fun enters => ?_, fun keeps quiet => ?_⟩
  all_goals rw [starts.regsAfter, ← before]
  · rw [← starts.entersInterrupt] at quiet
    have same := execute_control starts.here holds.size_decode quiet other
    exact ⟨same.trap, same.interrupt, same.direction⟩
  · rw [← starts.entersInterrupt] at enters
    obtain ⟨n, e, vector, skips, entered⟩ := execute_enters starts.here holds.size_decode enters
    rw [entered, enterInterrupt_flags, skips.cpu]
    rfl
  · rw [← starts.entersInterrupt] at quiet
    refine execute_flags starts.here holds.size_decode quiet ?_
    rw [starts.queue, starts.regs]
    exact keeps.moved _

/-- A word shifted by thirty-two, which is by nothing. -/
def shifting : Core Flat :=
  ⟨{ regs := { flags := { carry := true, interrupt := true } } },
    (default : Flat).load 0xFFFF0 [0x2E, 0xC1, 0xE0, 0x20]⟩

theorem flag_discipline_shifting :
    (∃ cycles, (step shifting).1 = some cycles) ∧
    (step shifting).2.cpu.regs.flags = { carry := true, interrupt := true } ∧
    (interrupt 0x26 shifting).2.cpu.regs.flags = { carry := true } := by
  have holds : shifting.Holds [0x2E] 0xC1 [0xE0, 0x20] := {
    code := by
      simp [shifting, Core.At, Codes, Viewed.view, Flat.load, Memory.load, Flat.read,
        Memory.read_write, physical]
    queued := by decide
    plain := by decide
    size := by decide }
  have quiet : ¬ EntersInterrupt (Viewed.view shifting.bus) shifting.cpu.regs
      (shifting.cpu.prefixes.pushAll [0x2E]) 0xC1 [0xE0, 0x20] := by
    rintro (always | ⟨sometimes, -⟩)
    · exact absurd always (by decide)
    · exact absurd sometimes (by decide)
  obtain ⟨steps, interrupts⟩ := flag_discipline (β := Flat)
  obtain ⟨returns, -, -, kept⟩ := (steps shifting rfl rfl).2 _ _ _ holds
  have source : shiftSource? 0xC1 = some .immediate := by decide
  exact ⟨returns, kept (.unshifted source (by decide)) quiet, interrupts shifting 0x26⟩

end Exec

end Swan
