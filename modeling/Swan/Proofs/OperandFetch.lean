import Swan.Proofs.EncodingTable

/-! Every instruction that stays in its line of code is as long as the encoding table says:
it fetches the bytes of its operands in order and each once, and moves on behind them. -/
namespace Swan

def LoopTest.agrees (t : LoopTest) (f : Flags) : Bool :=
  match t with
  | nonZero => !f.zero
  | zero => f.zero
  | always => true

namespace Exec

open Arithmetic

variable {β : Type} [Bus β]

section Still

theorem still_copyFramePointers (n : Nat) : Still (enter.copyFramePointers n : Exec β Unit) := by
  induction n with
  | zero => exact inferInstanceAs (Still (pure ()))
  | succ n ih =>
    refine .bind (.setRegs (fun _ _ => rfl) fun _ => rfl) fun _ => .regs (fun _ => ?_) fun _ _ => rfl
    exact .bind inferInstance fun _ => .bind inferInstance fun _ => ih

/-- What is left to do of a new stack frame after its size and level are fetched. -/
theorem still_frame (size : Word) (level : Nat) (retired : Retired) : Still (do
    push (← Exec.regs (β := β)).bp
    let frame := (← Exec.regs).sp
    if level > 0 then
      enter.copyFramePointers (level - 1)
      push frame
    setRegs fun r => { r with bp := frame, sp := r.sp - size }
    return retired) := by
  have copied := still_copyFramePointers (β := β) (level - 1)
  have settled (frame : Word) : Still (do
      setRegs (β := β) fun r => { r with bp := frame, sp := r.sp - size }
      return retired) :=
    .bind (.setRegs (fun _ _ => rfl) fun _ => rfl) fun _ => inferInstance
  refine .regs (fun r => .bind inferInstance fun _ => .regs (fun r => ?_) fun _ _ => rfl)
    fun _ _ => rfl
  by_cases nested : level > 0
  · simp only [if_pos nested]
    exact .bind copied fun _ => .bind inferInstance fun _ => settled _
  · simp only [if_neg nested]
    exact settled _

instance (r : WordReg) : Still (incReg r : Exec β Retired) :=
  ⟨fun _ => ⟨fun _ => by cases r <;> rfl, by cases r <;> rfl⟩⟩

instance (r : WordReg) : Still (decReg r : Exec β Retired) :=
  ⟨fun _ => ⟨fun _ => by cases r <;> rfl, by cases r <;> rfl⟩⟩

instance (a : Adjustment) : Still (adjust a : Exec β Retired) :=
  ⟨fun _ => ⟨fun _ => by cases a <;> rfl, by cases a <;> rfl⟩⟩

instance (s : Segment) : Still (pushSegment s : Exec β Retired) :=
  ⟨fun _ => ⟨fun _ => by cases s <;> rfl, rfl⟩⟩

instance (r : WordReg) : Still (pushReg r : Exec β Retired) :=
  ⟨fun _ => ⟨fun _ => by cases r <;> rfl, rfl⟩⟩

instance (r : WordReg) : Still (popReg r : Exec β Retired) :=
  ⟨fun _ => ⟨fun _ => by cases r <;> rfl, by cases r <;> rfl⟩⟩

instance : Still (pushAll : Exec β Retired) := ⟨fun _ => ⟨fun _ => rfl, rfl⟩⟩

instance : Still (popAll : Exec β Retired) := ⟨fun _ => ⟨fun _ => rfl, rfl⟩⟩

instance : Still (pushFlags : Exec β Retired) := ⟨fun _ => ⟨fun _ => rfl, rfl⟩⟩

instance : Still (popFlags : Exec β Retired) := ⟨fun _ => ⟨fun _ => rfl, rfl⟩⟩

instance : Still (leave : Exec β Retired) := ⟨fun _ => ⟨fun _ => rfl, rfl⟩⟩

instance : Still (translate : Exec β Retired) := ⟨fun _ => ⟨fun _ => rfl, rfl⟩⟩

instance (r : WordReg) : Still (exchangeAccumulator r : Exec β Retired) :=
  ⟨fun _ => ⟨fun _ => by cases r <;> rfl, by cases r <;> rfl⟩⟩

instance : Still (portNumber .dx : Exec β Byte) := ⟨fun _ => ⟨fun _ => rfl, rfl⟩⟩

instance (w : Width) : Still (inputPort w .dx : Exec β Retired) :=
  .bind inferInstance fun _ => inferInstance

instance (w : Width) : Still (outputPort w .dx : Exec β Retired) :=
  .bind inferInstance fun _ => inferInstance

omit [Bus β] in
theorem stillAt_branch {taken : Bool} (untaken : taken = false) (displacement : Word)
    (cost costNotTaken : Nat) (c : Core β) :
    StillAt (branch taken displacement cost costNotTaken) c := by
  subst untaken
  exact .pure _ c

instance (w : Width) (product : BitVec (2 * w.bits)) :
    Still (setRegs (setWideAccumulator w product) : Exec β Unit) :=
  .setRegs (fun _ _ => by cases w <;> rfl) fun _ => by cases w <;> rfl

theorem wideAccumulator_moved (r : Registers) (ip : Word) (w : Width) :
    wideAccumulator { r with ip } w = wideAccumulator r w := by
  cases w <;> rfl

/-- A division that succeeds only sets registers. -/
theorem stillAt_division {w : Width} {c : Core β}
    (divide : BitVec (2 * w.bits) → Option (Operand w × Operand w))
    (divided : (divide (wideAccumulator c.cpu.regs w)).isSome = true) (retired : Retired) :
    StillAt (do finishDivision w (divide (wideAccumulator (← Exec.regs) w)); return retired) c := by
  refine .regs (.bind ?_ (.pure _ _)) fun ip => ?_
  · obtain ⟨result, found⟩ := Option.isSome_iff_exists.mp divided
    rw [found]
    exact (Still.setRegs (fun _ _ => by cases w <;> rfl) fun _ => by cases w <;> rfl).still c
  · rw [wideAccumulator_moved]

instance (w : Width) (op : StringOp) : Still (transfer w op : Exec β Unit) := by
  refine .bind inferInstance fun source => .regs (fun r => ?_) fun r ip => ?_
  · cases op <;> infer_instance
  · cases op <;> cases w <;> rfl

instance (w : Width) (op : StringOp) : Still (element w op : Exec β Unit) :=
  .bind inferInstance fun _ => .setRegs (fun _ _ => rfl) fun _ => rfl

/-- Only a repetition that goes on moves, back onto its own opcode. -/
theorem stillAt_string {w : Width} {op : StringOp} {c : Core β}
    (finished : (string w op c).1.again = false) : StillAt (string w op) c := by
  have still : StillAt (element w op) c := Still.still c
  have moved (ip : Word) : (element w op (c.moveTo ip)).2 = (element w op c).2.moveTo ip :=
    congrArg Prod.snd (still.placeless ip)
  cases repeated : c.cpu.prefixes.repeatClass with
  | none =>
    refine ⟨fun ip => ?_, ?_⟩
    · rw [string_once repeated, string_once (c := c.moveTo ip) repeated, moved]
    · rw [string_once repeated]
      exact still.segment
  | some k =>
    by_cases none_left : c.cpu.regs.cx = 0
    · refine ⟨fun ip => ?_, ?_⟩
      · rw [string_exhausted repeated none_left]
        exact string_exhausted (c := c.moveTo ip) repeated none_left
      · rw [string_exhausted repeated none_left]
    · rw [string_repeated repeated none_left] at finished
      dsimp only at finished
      split at finished
      · rename_i ends
        refine ⟨fun ip => ?_, ?_⟩
        · rw [string_repeated (c := c.moveTo ip) repeated none_left, moved,
            string_repeated repeated none_left]
          dsimp only
          rw [if_pos ends]
          exact if_pos ends
        · rw [string_repeated repeated none_left]
          dsimp only
          rw [if_pos ends]
          exact still.segment
      · contradiction

end Still

end Exec

/-- The operand that operand bytes begin with, and its ModRM byte. -/
def leadingModRM (operands : List Byte) : ModRM := .ofByte (operands.headD 0)

def leadingPlace (r : Registers) (q : PrefixQueue) (operands : List Byte) : Location :=
  let m := leadingModRM operands
  m.place r q (operands.tail.take m.displacement.size)

theorem leadingPlace_cons (r : Registers) (q : PrefixQueue) {modRM : Byte} {bytes : List Byte}
    (size : bytes.length = (ModRM.ofByte modRM).displacement.size) (rest : List Byte) :
    leadingPlace r q (modRM :: (bytes ++ rest)) = (ModRM.ofByte modRM).place r q bytes := by
  simp only [leadingPlace, leadingModRM, List.headD_cons, List.tail_cons, ← size, List.take_left]

/-- What would make an instruction leave its line is not the case. Of a repeated one it has to
be said whether it is finished. -/
def Turn.Stays (view : Address → Byte) (r : Registers) (q : PrefixQueue) (operands : List Byte)
    (finished : Prop) : Turn → Prop
  | never => True
  | always => False
  | taken t => t.holds r.flags = false
  | cxZero => r.cx ≠ 0
  | counted t => r.cx - 1 = 0 ∨ t.agrees r.flags = false
  | overflow => r.flags.overflow = false
  | outOfRange =>
    let rm := leadingPlace r q operands
    let index : Word := r.operand .word (leadingModRM operands).reg
    let low : Word := rm.value view r .word
    let high : Word := (rm.advance 2).value view r .word
    rm.isMemory = true → low.toInt ≤ index.toInt ∧ index.toInt ≤ high.toInt
  | division w =>
    let v := (leadingPlace r q operands).value view r w
    let dividend := Exec.wideAccumulator r w
    match (leadingModRM operands).reg.toNat with
    | 6 => (Arithmetic.div? dividend.toNat v).isSome
    | 7 => (Arithmetic.idiv? dividend.toInt v).isSome
    | _ => True
  | indirect =>
    match (leadingModRM operands).reg.toNat with
    | 2 | 4 => False
    | 3 | 5 => (leadingPlace r q operands).isMemory = false
    | _ => True
  | repetition => finished

namespace Exec

open Arithmetic

variable {β : Type} [Bus β] [Viewed β] {near : Prop} {c : Core β} {operands : List Byte}

/-- Operand bytes that begin with a ModRM byte. -/
theorem split_modRM {n : BitVec 3 → Nat}
    (size : operands.length = 1 + (leadingModRM operands).displacement.size +
      n (leadingModRM operands).reg) :
    ∃ modRM bytes rest, operands = modRM :: (bytes ++ rest) ∧
      bytes.length = (ModRM.ofByte modRM).displacement.size ∧
      rest.length = n (ModRM.ofByte modRM).reg := by
  cases operands with
  | nil => simp at size; omega
  | cons modRM others =>
    simp only [leadingModRM, List.headD_cons, List.length_cons] at size
    refine ⟨modRM, others.take (ModRM.ofByte modRM).displacement.size,
      others.drop (ModRM.ofByte modRM).displacement.size, ?_, ?_, ?_⟩
    · rw [List.take_append_drop]
    · rw [List.length_take]; omega
    · rw [List.length_drop]; omega

/-- After the ModRM byte and its displacement, the rest is run where they end. -/
theorem consumes_modRM {modRM : Byte} {bytes rest : List Byte}
    {f : ModRM × Location → Exec β Retired}
    (size : bytes.length = (ModRM.ofByte modRM).displacement.size)
    (here : c.At (modRM :: (bytes ++ rest)))
    (after : ∀ d, Core.Skips (bytes.length + 1) c d → d.At rest → Consumes near rest
      (f (.ofByte modRM, (ModRM.ofByte modRM).place c.cpu.regs c.cpu.prefixes bytes)) d) :
    Consumes near (modRM :: (bytes ++ rest)) (fetchModRM >>= f) c := by
  obtain ⟨d, takes, next⟩ := takes_modRM size here
  exact takes.next (after d takes.skips next)

omit [Viewed β] in
theorem Takes.last {α γ : Type} {code : List Byte} {x : Exec β α} {f : α → Exec β γ} {a : α}
    {d : Core β} (first : Takes code x a c d) (second : Consumes near [] (f a) d) :
    Consumes near code (x >>= f) c := by
  simpa only [List.append_nil] using first.next second

omit [Viewed β] in
theorem consumes_setSegment {s : Segment} (segment : near → (s == .cs) = false) (v : Word)
    (retired : Retired) (c : Core β) :
    Consumes near [] (do setRegs (·.setSegment v s); return retired) c := by
  refine .done (fun ip => ?_) fun h => ?_
  · exact congrArg (fun r => (retired, (⟨{ c.cpu with regs := r }, c.bus⟩ : Core β)))
      (c.cpu.regs.setSegment_moved ip v s)
  · have other := segment h
    cases s <;> first | rfl | cases other

section Plain

variable {operands : List Byte} (here : c.At (operands ++ []))

include here

theorem consumes_enter (size : operands.length = 3) : Consumes near operands enter c := by
  obtain ⟨low, high, level, rfl⟩ : ∃ low high level, operands = [low, high, level] := by
    match operands, size with
    | [low, high, level], _ => exact ⟨low, high, level, rfl⟩
  obtain ⟨d, first, next⟩ := takes_word here
  obtain ⟨e, second, -⟩ := takes_byte next
  change Consumes near ([low, high] ++ [level]) _ c
  exact first.next (second.last (.stillAt ((still_frame _ _ _).still e)))

variable (size : operands.length = Width.byte.bytes)

include size

theorem consumes_jumpIf {t : Condition} (untaken : t.holds c.cpu.regs.flags = false) :
    Consumes near operands (jumpIf t) c := by
  obtain ⟨d, takes, -⟩ := takes_fetch size here
  have untaken : t.holds d.cpu.regs.flags = false := by
    rw [takes.skips.cpu]
    exact untaken
  exact takes.last (.stillAt (.regs (stillAt_branch untaken _ 4 1 d) fun _ => rfl))

theorem consumes_jumpIfCxZero (counting : c.cpu.regs.cx ≠ 0) :
    Consumes near operands jumpIfCxZero c := by
  obtain ⟨d, takes, -⟩ := takes_fetch size here
  have untaken : (d.cpu.regs.cx == 0) = false := by
    rw [takes.skips.cpu]
    exact beq_eq_false_iff_ne.mpr counting
  exact takes.last (.stillAt (.regs (stillAt_branch untaken _ 4 1 d) fun _ => rfl))

theorem consumes_loop {t : LoopTest}
    (ends : c.cpu.regs.cx - 1 = 0 ∨ t.agrees c.cpu.regs.flags = false) :
    Consumes near operands (loop t) c := by
  obtain ⟨d, takes, -⟩ := takes_fetch size here
  have counted : StillAt (setRegs fun r => { r with cx := r.cx - 1 }) d := ⟨fun _ => rfl, rfl⟩
  have untaken : (d.cpu.regs.cx - 1 != 0 && t.agrees d.cpu.regs.flags) = false := by
    rw [takes.skips.cpu]
    rcases ends with last | disagrees
    · exact Bool.and_eq_false_imp.mpr fun left => absurd last (bne_iff_ne.mp left)
    · exact Bool.and_eq_false_iff.mpr (.inr disagrees)
  refine takes.last (.stillAt (counted.bind (.regs (stillAt_branch ?_ _ 6 3 _) fun _ => rfl)))
  cases t <;> exact untaken

end Plain

section Encoded

variable {modRM : Byte} {bytes rest : List Byte}
  (short : bytes.length = (ModRM.ofByte modRM).displacement.size)
  (here : c.At (modRM :: (bytes ++ rest)))

include short here

theorem consumes_imulImmediate {form : ImmediateForm} (immediate : rest.length = form.size .word) :
    Consumes near (modRM :: (bytes ++ rest)) (imulImmediate form) c := by
  refine consumes_modRM short here fun d skips next => ?_
  obtain ⟨e, read, next⟩ := takes_readAt .word _ next
  refine read.next ?_
  obtain ⟨_, takes, -⟩ := takes_immediate immediate next.append_nil
  exact takes.last .still

omit [Viewed β] short here in
theorem still_shift (w : Width) (op? : Option ShiftOp) (count : Byte) (rm : Location)
    (cost : Nat) : Still (match op? with
      | none => return { cycles := 1 }
      | some op => do
        let r ← withFlags (shift op (← readAt w rm) count)
        writeAt w r rm
        return { cycles := cost } : Exec β Retired) := by
  cases op? <;> infer_instance

/-- A shift without an operation has its count fetched all the same. -/
theorem consumes_shiftRm {w : Width} {source : ShiftCount}
    (immediate : rest.length = (Operation.shiftRm w source).immediateSize 0) :
    Consumes near (modRM :: (bytes ++ rest)) (shiftRm w source) c := by
  refine consumes_modRM short here fun d skips next => ?_
  cases source with
  | one =>
    obtain rfl := List.length_eq_zero_iff.mp immediate
    exact .stillAt ((still_shift w _ 1 _ _).still d)
  | cl =>
    obtain rfl := List.length_eq_zero_iff.mp immediate
    exact .stillAt (.regs ((still_shift w _ _ _ _).still d) fun _ => rfl)
  | immediate =>
    obtain ⟨e, takes, -⟩ := takes_fetch (w := .byte) immediate next.append_nil
    exact takes.last (.stillAt ((still_shift w _ _ _ _).still e))

theorem consumes_moveToSegment (immediate : rest = [])
    (segment : near → Operation.moveToSegment.loadsCs (ModRM.ofByte modRM).reg = false) :
    Consumes near (modRM :: (bytes ++ rest)) moveToSegment c := by
  subst immediate
  refine consumes_modRM short here fun d skips next => ?_
  exact .next (Still.still d) (consumes_setSegment segment _ _ _)

theorem consumes_loadFar {s : Segment} (immediate : rest = [])
    (segment : near → (Operation.loadFar s).loadsCs 0 = false) :
    Consumes near (modRM :: (bytes ++ rest)) (loadFar s) c := by
  subst immediate
  refine consumes_modRM short here fun d skips next => ?_
  generalize (ModRM.ofByte modRM).place c.cpu.regs c.cpu.prefixes bytes = rm
  cases rm with
  | register i => exact .still
  | memory s o =>
    refine .next (Still.still d) (.next (Still.still _) (.next (Still.still _) ?_))
    exact consumes_setSegment segment _ _ _

theorem consumes_bound (immediate : rest = [])
    (stays : Turn.outOfRange.Stays (Viewed.view c.bus) c.cpu.regs c.cpu.prefixes
      (modRM :: (bytes ++ rest)) True) :
    Consumes near (modRM :: (bytes ++ rest)) bound c := by
  simp only [Turn.Stays, leadingPlace_cons _ _ short, leadingModRM, List.headD_cons] at stays
  subst immediate
  refine consumes_modRM short here fun d skips next => ?_
  generalize (ModRM.ofByte modRM).place c.cpu.regs c.cpu.prefixes bytes = rm at stays ⊢
  cases rm with
  | register i => exact .still
  | memory s o =>
    obtain ⟨e, low, next⟩ := takes_readAt .word (.memory s o) next
    obtain ⟨g, high, -⟩ := takes_readAt .word ((Location.memory s o).advance 2) next
    have within := stays rfl
    rw [← skips.value, ← skips.value, ← low.skips.value ((Location.memory s o).advance 2)] at within
    refine .next (Still.still d) (low.last (high.last ?_))
    have index : (operand .word (ModRM.ofByte modRM).reg d).1 =
        c.cpu.regs.operand .word (ModRM.ofByte modRM).reg := by
      change d.cpu.regs.operand .word _ = _
      rw [skips.cpu]
      rfl
    rw [index, if_neg (by rw [not_or, Int.not_lt, Int.not_lt]; exact within)]
    exact .still

theorem consumes_group3 {w : Width}
    (immediate : rest.length = (Operation.group3 w).immediateSize (ModRM.ofByte modRM).reg)
    (stays : (Turn.division w).Stays (Viewed.view c.bus) c.cpu.regs c.cpu.prefixes
      (modRM :: (bytes ++ rest)) True) :
    Consumes near (modRM :: (bytes ++ rest)) (group3 w) c := by
  simp only [Turn.Stays, leadingPlace_cons _ _ short, leadingModRM, List.headD_cons] at stays
  refine consumes_modRM short here fun d skips next => ?_
  generalize (ModRM.ofByte modRM).place c.cpu.regs c.cpu.prefixes bytes = rm at stays ⊢
  obtain ⟨e, read, next⟩ := takes_readAt w rm next
  refine read.next ?_
  simp only [Operation.immediateSize] at immediate
  have few := (ModRM.ofByte modRM).reg.isLt
  generalize (ModRM.ofByte modRM).reg.toNat = member at immediate stays few ⊢
  have dividend : wideAccumulator e.cpu.regs w = wideAccumulator c.cpu.regs w := by
    rw [(skips.trans read.skips).cpu]
    exact wideAccumulator_moved _ _ w
  split
  case h_3 | h_4 | h_5 | h_6 =>
    obtain rfl := List.length_eq_zero_iff.mp immediate
    exact .still
  case h_1 | h_2 =>
    obtain ⟨g, takes, -⟩ := takes_fetch immediate next.append_nil
    exact takes.last .still
  case h_7 =>
    obtain rfl := List.length_eq_zero_iff.mp immediate
    refine .stillAt (stillAt_division (fun dividend => div? dividend.toNat _) ?_ _)
    rw [dividend, skips.value]
    exact stays
  case h_8 =>
    obtain rfl : member = 7 := by grind
    obtain rfl := List.length_eq_zero_iff.mp immediate
    refine .stillAt (stillAt_division (fun dividend => idiv? dividend.toInt _) ?_ _)
    rw [dividend, skips.value]
    exact stays

theorem consumes_group5 (immediate : rest = [])
    (stays : Turn.indirect.Stays (Viewed.view c.bus) c.cpu.regs c.cpu.prefixes
      (modRM :: (bytes ++ rest)) True) :
    Consumes near (modRM :: (bytes ++ rest)) group5 c := by
  simp only [Turn.Stays, leadingPlace_cons _ _ short, leadingModRM, List.headD_cons] at stays
  subst immediate
  refine consumes_modRM short here fun d skips next => ?_
  generalize (ModRM.ofByte modRM).place c.cpu.regs c.cpu.prefixes bytes = rm at stays ⊢
  dsimp only
  have few := (ModRM.ofByte modRM).reg.isLt
  generalize (ModRM.ofByte modRM).reg.toNat = member at stays few ⊢
  split
  case h_3 | h_5 => exact stays.elim
  case h_4 | h_6 => contradiction
  all_goals exact .still

end Encoded

section Operands

variable {op : Operation} (here : c.At operands)
  (stays : op.turn.Stays (Viewed.view c.bus) c.cpu.regs c.cpu.prefixes operands
    ((op.execute c).1.again = false))
  (segment : near → op.loadsCs (leadingModRM operands).reg = false)

include here stays segment

/-- Of an instruction without a ModRM byte, all operand bytes are immediate. -/
theorem consumes_plain (plain : op.hasModRM = false)
    (size : operands.length = op.immediateSize (leadingModRM operands).reg) :
    Consumes near operands op.execute c := by
  rw [← List.append_nil operands] at here
  cases op <;> dsimp only [Operation.execute]
  case binaryToRm | binaryToReg | binaryImmediate | testRm | imulImmediate | shiftRm | group3
    | group4 | group5 | popRm | moveToRm | moveToReg | moveFromSegment | moveToSegment
    | moveRmImmediate | loadAddress | loadFar | exchangeRm | bound | escape => cases plain
  case jumpShort | jumpNear | jumpFar | callNear | callFar | returnNear | returnFar | breakpoint
    | interrupt | returnInterrupt => exact stays.elim
  case nop | incReg | decReg | adjust | pushSegment | pushReg | popReg | pushAll | popAll
    | pushFlags | popFlags | leave | translate | exchangeAccumulator =>
    obtain rfl := List.length_eq_zero_iff.mp size
    exact .still
  case widenByte | widenWord | carryToAl | flagsFromAh | flagsToAh | command | halt =>
    obtain rfl := List.length_eq_zero_iff.mp size
    exact .stillAt ⟨fun _ => rfl, rfl⟩
  case popSegment s =>
    obtain rfl := List.length_eq_zero_iff.mp size
    exact .next (Still.still c) (consumes_setSegment segment _ _ _)
  case binaryAccumulator | testAccumulator | moveImmediate =>
    obtain ⟨d, takes, -⟩ := takes_fetch size here
    exact takes.last .still
  case pushImmediate form =>
    obtain ⟨d, takes, -⟩ := takes_immediate size here
    exact takes.last .still
  case toDigits | ofDigits =>
    obtain ⟨d, takes, -⟩ := takes_fetch (w := .byte) size here
    exact takes.last (.stillAt ⟨fun _ => rfl, rfl⟩)
  case loadDirect | storeDirect =>
    obtain ⟨d, takes, -⟩ := takes_fetch (w := .word) size here
    exact takes.last .still
  case enter => exact consumes_enter here size
  case portIn w source | portOut w source =>
    cases source with
    | immediate =>
      obtain ⟨d, takes, -⟩ := takes_fetch (w := .byte) size here
      exact takes.last .still
    | dx =>
      obtain rfl := List.length_eq_zero_iff.mp size
      exact .still
  case jumpIf t => exact consumes_jumpIf here size stays
  case jumpIfCxZero => exact consumes_jumpIfCxZero here size stays
  case loop t => exact consumes_loop here size stays
  case interruptOnOverflow =>
    obtain rfl := List.length_eq_zero_iff.mp size
    refine .stillAt (.regs ?_ fun _ => rfl)
    rw [stays]
    exact .pure _ c
  case string w op =>
    obtain rfl := List.length_eq_zero_iff.mp size
    exact .stillAt (stillAt_string stays)

/-- Of an instruction with a ModRM byte, a displacement and an immediate follow it. -/
theorem consumes_encoded (encoded : op.hasModRM = true)
    (size : operands.length = 1 + (leadingModRM operands).displacement.size +
      op.immediateSize (leadingModRM operands).reg) : Consumes near operands op.execute c := by
  obtain ⟨modRM, bytes, rest, rfl, short, immediate⟩ :=
    split_modRM (n := fun reg => op.immediateSize reg) size
  cases op <;> dsimp only [Operation.execute]
  case group4 =>
    obtain rfl := List.length_eq_zero_iff.mp immediate
    refine consumes_modRM short here fun d skips next => ?_
    dsimp only
    split <;> exact .still
  case binaryToRm | binaryToReg | testRm | popRm | moveToRm | moveToReg | exchangeRm | escape =>
    obtain rfl := List.length_eq_zero_iff.mp immediate
    exact consumes_modRM short here fun d skips next => .still
  case moveFromSegment =>
    obtain rfl := List.length_eq_zero_iff.mp immediate
    refine consumes_modRM short here fun d skips next =>
      .stillAt (.regs (Still.still d) fun ip => ?_)
    generalize Segment.ofIndex _ = s
    cases s <;> rfl
  case loadAddress =>
    obtain rfl := List.length_eq_zero_iff.mp immediate
    refine consumes_modRM short here fun d skips next => ?_
    generalize (ModRM.ofByte modRM).place c.cpu.regs c.cpu.prefixes bytes = rm
    cases rm <;> exact .still
  case binaryImmediate w form =>
    refine consumes_modRM short here fun d skips next => ?_
    obtain ⟨e, takes, -⟩ := takes_immediate immediate next.append_nil
    exact takes.last .still
  case moveRmImmediate w =>
    refine consumes_modRM short here fun d skips next => ?_
    obtain ⟨e, takes, -⟩ := takes_fetch immediate next.append_nil
    exact takes.last .still
  case imulImmediate => exact consumes_imulImmediate short here immediate
  case shiftRm w source =>
    exact consumes_shiftRm short here (by cases source <;> exact immediate)
  case group3 => exact consumes_group3 short here immediate stays
  case group5 => exact consumes_group5 short here (List.length_eq_zero_iff.mp immediate) stays
  case bound => exact consumes_bound short here (List.length_eq_zero_iff.mp immediate) stays
  case moveToSegment =>
    exact consumes_moveToSegment short here (List.length_eq_zero_iff.mp immediate) segment
  case loadFar =>
    exact consumes_loadFar short here (List.length_eq_zero_iff.mp immediate) segment
  all_goals cases encoded

theorem consumes_operands
    (size : operands.length =
      (if op.hasModRM then 1 + (leadingModRM operands).displacement.size else 0) +
        op.immediateSize (leadingModRM operands).reg) : Consumes near operands op.execute c := by
  cases encoded : op.hasModRM with
  | false => exact consumes_plain here stays segment encoded (by simpa [encoded] using size)
  | true => exact consumes_encoded here stays segment encoded (by simpa [encoded] using size)

end Operands

end Exec

end Swan
