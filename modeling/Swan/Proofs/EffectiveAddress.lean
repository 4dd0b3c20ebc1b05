import Swan.Proofs.EncodingAgreement
import Swan.Proofs.InstructionLength

/-! Where the operand of an instruction lies. The place that a ModRM byte names is said by a
table of sums, apart from how it is decoded, and decoding is shown to find it, on the way over
the byte and its displacement and over nothing else. A register that is stored to such a place
and loaded from it again comes out as it went in. -/
namespace Swan

theorem PrefixQueue.segmentOverride_eq (q : PrefixQueue) :
    q.segmentOverride = (q.bytes.filterMap segmentOfPrefix?).getLast? := by
  rw [segmentOverride, List.getLast?_filterMap]

namespace ModRM

def summands (m : ModRM) : List WordReg :=
  match m.rm.toNat with
  | 0 => [.bx, .si]
  | 1 => [.bx, .di]
  | 2 => [.bp, .si]
  | 3 => [.bp, .di]
  | 4 => [.si]
  | 5 => [.di]
  | 6 => if m.mode = 0 then [] else [.bp]
  | _ => [.bx]

/-- The forms with BP in them are meant for the stack. -/
def homeSegment (m : ModRM) : Segment :=
  if m.rm = 2 ∨ m.rm = 3 ∨ m.rm = 6 ∧ m.mode ≠ 0 then .ss else .ds

/-- What a displacement adds to an offset. A single byte of it has a sign. -/
def added (m : ModRM) (displacement : List Byte) : Int :=
  match displacementSize m.mode m.rm, displacement with
  | 1, b :: _ => b.toInt
  | 2, low :: high :: _ => low.toNat + 256 * high.toNat
  | _, _ => 0

def registerSum (m : ModRM) (r : Registers) : Int :=
  m.summands.foldr (fun i sum => ((r.word i).toNat : Int) + sum) 0

def reach (m : ModRM) (r : Registers) (displacement : List Byte) : Int :=
  m.registerSum r + m.added displacement

theorem base_eq (m : ModRM) (r : Registers) :
    m.base r = (BitVec.ofInt 16 (m.registerSum r), m.homeSegment) := by
  obtain ⟨mode, reg, rm⟩ := m
  have forms : ∀ rm : BitVec 3, rm ∈ [0#3, 1, 2, 3, 4, 5, 6, 7] := by decide
  have form := forms rm
  simp only [List.mem_cons, List.not_mem_nil, or_false] at form
  rcases form with rfl | rfl | rfl | rfl | rfl | rfl | rfl | rfl
  case inr.inr.inr.inr.inr.inr.inl =>
    by_cases bare : mode = 0#2 <;>
      simp [base, registerSum, summands, homeSegment, bare, Registers.word]
  all_goals simp [base, registerSum, summands, homeSegment, Registers.word, BitVec.ofInt_add]

theorem value_eq {m : ModRM} {displacement : List Byte}
    (size : displacement.length = m.displacement.size) :
    m.displacement.value displacement = BitVec.ofInt 16 (m.added displacement) := by
  have same := m.size_displacement
  cases kind : m.displacement with
  | none =>
    rw [kind] at same
    simp [added, ← same, Displacement.size, Displacement.value]
  | byte =>
    rw [kind] at same size
    obtain ⟨b, rfl⟩ := List.length_eq_one_iff.mp size
    simp only [added, ← same, Displacement.size, Displacement.value]
    rfl
  | word =>
    rw [kind] at same size
    obtain ⟨low, high, rfl⟩ := Exec.pair_of_length size
    simp only [added, ← same, Displacement.size, Displacement.value]
    apply BitVec.eq_of_toNat_eq
    rw [Word.toNat_ofBytes, BitVec.toNat_ofInt]
    have := low.isLt
    have := high.isLt
    omega

/-- The place that a ModRM byte names: a register, or an offset in the segment of the latest
segment prefix, and without any in the one that the form is meant for. -/
def named (m : ModRM) (r : Registers) (q : PrefixQueue) (displacement : List Byte) : Location :=
  if m.mode = 3 then .register (m.rm.setWidth 8)
  else .memory ((q.bytes.filterMap segmentOfPrefix?).getLast?.getD m.homeSegment)
    (BitVec.ofInt 16 (m.reach r displacement))

theorem place_eq {m : ModRM} {displacement : List Byte}
    (size : displacement.length = m.displacement.size) (r : Registers) (q : PrefixQueue) :
    m.place r q displacement = m.named r q displacement := by
  by_cases register : m.mode = 3
  · simp only [place, named, isRegister, register, beq_self_eq_true, if_true]
  · have memory : m.isRegister = false := by simpa [isRegister] using register
    rw [place, named, if_neg register, if_neg (by simp [memory]), base_eq, value_eq size,
      reach, BitVec.ofInt_add, q.segmentOverride_eq]

end ModRM

namespace Exec

variable {β : Type} [Bus β]

/-- Where fetching leads from a processor, byte by byte. -/
structure Line (r : Registers) (q : PrefixQueue) (bytes : Nat → Byte) (at_ : Nat → Core β) :
    Prop where
  fetch : ∀ n, fetchByte (at_ n) = (bytes n, at_ (n + 1))
  regs : ∀ n, ∃ ip, (at_ n).cpu.regs = { r with ip }
  queue : ∀ n, (at_ n).cpu.prefixes = q

namespace Line

variable {r : Registers} {q : PrefixQueue} {bytes : Nat → Byte} {at_ : Nat → Core β}

theorem fetchDisplacement (line : Line r q bytes at_) (k : ModRM.Displacement) (n : Nat) :
    fetchDisplacement k (at_ n) =
      (k.value ((List.range k.size).map fun i => bytes (n + i)), at_ (n + k.size)) := by
  cases k with
  | none => rfl
  | byte => rw [Exec.fetchDisplacement, bind_apply, line.fetch]; rfl
  | word =>
    rw [Exec.fetchDisplacement, fetchWord, bind_apply, line.fetch, bind_apply, line.fetch]
    rfl

theorem fetchModRM (line : Line r q bytes at_) :
    let m := ModRM.ofByte (bytes 0)
    let size := m.displacement.size
    Exec.fetchModRM (at_ 0) =
      ((m, m.named r q ((List.range size).map fun i => bytes (1 + i))), at_ (1 + size)) := by
  intro m size
  have resolved : resolve m (at_ 1) =
      (m.place r q ((List.range size).map fun i => bytes (1 + i)), at_ (1 + size)) := by
    obtain ⟨ip, regs⟩ := line.regs 1
    by_cases register : m.isRegister = true
    · have none : size = 0 := by
        rw [show size = m.displacement.size from rfl, ModRM.displacement_register register]
        rfl
      rw [resolve, if_pos register, none, ModRM.place, if_pos register]
      rfl
    · rw [resolve, if_neg register, ModRM.place, if_neg register, bind_apply]
      change (_ : Exec β Location) (at_ 1) = _
      rw [show (Exec.regs (at_ 1)).1 = { r with ip } from regs]
      change (Exec.fetchDisplacement m.displacement >>= _) (at_ 1) = _
      rw [bind_apply, line.fetchDisplacement]
      change (Location.memory ((at_ (1 + size)).cpu.prefixes.segmentOverride.getD _) _, _) = _
      rw [line.queue]
      rfl
  rw [Exec.fetchModRM, bind_apply, line.fetch, bind_apply]
  change ((m, (resolve m (at_ 1)).1), (resolve m (at_ 1)).2) = _
  rw [resolved, ModRM.place_eq (by rw [List.length_map, List.length_range])]

end Line

end Exec

namespace Core

def codeByte (c : Core Flat) (n : Nat) : Byte :=
  c.bus.read (physical c.cpu.regs.cs (c.cpu.regs.ip + BitVec.ofNat 16 n))

def codeReads (c : Core Flat) (n : Nat) : List Access :=
  (List.range n).map fun i =>
    .read (physical c.cpu.regs.cs (c.cpu.regs.ip + BitVec.ofNat 16 i)) (c.codeByte i)

def traced (c : Core Flat) (log : Array Access) : Core (Traced Flat) := ⟨c.cpu, ⟨c.bus, log⟩⟩

/-- The ModRM byte that a processor is at, and how many bytes it is encoded in together with its
displacement. -/
def modRM (c : Core Flat) : ModRM := .ofByte (c.codeByte 0)

def modRMLength (c : Core Flat) : Nat := 1 + displacementSize c.modRM.mode c.modRM.rm

def operandPlace (c : Core Flat) : Location :=
  c.modRM.named c.cpu.regs c.cpu.prefixes
    ((List.range (displacementSize c.modRM.mode c.modRM.rm)).map fun i => c.codeByte (1 + i))

theorem line (c : Core Flat) : Exec.Line c.cpu.regs c.cpu.prefixes c.codeByte
    fun n => c.moveTo (c.cpu.regs.ip + BitVec.ofNat 16 n) where
  fetch n := by
    rw [BitVec.ofNat_add, ← BitVec.add_assoc]
    rfl
  regs _ := ⟨_, rfl⟩
  queue _ := rfl

theorem line_traced (c : Core Flat) (log : Array Access) :
    Exec.Line c.cpu.regs c.cpu.prefixes c.codeByte fun n =>
      (c.moveTo (c.cpu.regs.ip + BitVec.ofNat 16 n)).traced (log ++ (c.codeReads n).toArray) where
  fetch n := by
    simp only [codeReads, List.range_succ, List.map_append, List.map_singleton]
    rw [← List.append_toArray, ← Array.append_assoc, Array.append_singleton, BitVec.ofNat_add,
      ← BitVec.add_assoc]
    rfl
  regs _ := ⟨_, rfl⟩
  queue _ := rfl

theorem fetchModRM_eq (c : Core Flat) : Exec.fetchModRM c = ((c.modRM, c.operandPlace),
    c.moveTo (c.cpu.regs.ip + BitVec.ofNat 16 c.modRMLength)) := by
  have fetched := c.line.fetchModRM
  simp only [ModRM.size_displacement, BitVec.add_zero] at fetched
  exact fetched

theorem fetchModRM_traced (c : Core Flat) (log : Array Access) :
    Exec.fetchModRM (c.traced log) = ((c.modRM, c.operandPlace),
      (c.moveTo (c.cpu.regs.ip + BitVec.ofNat 16 c.modRMLength)).traced
        (log ++ (c.codeReads c.modRMLength).toArray)) := by
  have fetched := (c.line_traced log).fetchModRM
  simp only [ModRM.size_displacement, BitVec.add_zero] at fetched
  have start : log ++ (c.codeReads 0).toArray = log := Array.append_empty
  rw [start] at fetched
  exact fetched

theorem operandPlace_eq {c : Core Flat} {o : OperandBytes} (here : c.At o.bytes) :
    c.operandPlace = o.place c.cpu.regs c.cpu.prefixes := by
  obtain ⟨d, takes, -⟩ := Exec.takes_operand o here.append_nil
  have answer := c.fetchModRM_eq.symm.trans takes.answer
  exact (Prod.mk.inj (Prod.mk.inj answer).1).2

end Core

theorem Flat.get_put (b : Flat) (w : Width) (segment offset : Word) (v : Operand w) :
    (b.put w segment offset v).get w segment offset = v := by
  cases w with
  | byte => simp only [get, put, read_write, if_true]
  | word => exact b.get_put_word segment offset v

namespace Exec

variable {c : Core Flat} {w : Width}

theorem amounts_moveToRm_place (o : OperandBytes) (here : c.At o.bytes) :
    Amounts o.bytes (moveToRm w) (taking
      (writeAt w (c.cpu.regs.operand w o.field) (o.place c.cpu.regs c.cpu.prefixes)) 1) c := by
  refine amounts_operands here (takes_operand o) fun d skips => ?_
  rw [← skips.operand]
  rfl

theorem amounts_moveToReg_place (o : OperandBytes) (here : c.At o.bytes) :
    Amounts o.bytes (moveToReg w) (taking (do
      setOperand w o.field (← readAt w (o.place c.cpu.regs c.cpu.prefixes))) 1) c :=
  amounts_operands here (takes_operand o) fun _ _ => rfl

end Exec

namespace Core

variable {c : Core Flat} {prefixes : List Byte}

theorem performs_store {w : Width} {o : OperandBytes} {s : Segment} {offset : Word}
    (code : c.bus.CodeAt c.cpu.regs.cs c.cpu.regs.ip (prefixes ++ w.opcode 0x88 :: o.bytes))
    (queued : ∀ b ∈ prefixes, isPrefix b = true)
    (place : o.place c.cpu.regs (c.cpu.prefixes.pushAll prefixes) = .memory s offset) :
    c.Performs prefixes (w.opcode 0x88) 1 ⟨{ c.cpu with
      regs := { c.cpu.regs with
        ip := c.cpu.regs.ip + BitVec.ofNat 16 (prefixes.length + 1 + o.bytes.length) }
      prefixes := .empty
      opcode := w.opcode 0x88
      deferred := 0 },
      c.bus.put w (c.cpu.regs.segment s) offset (c.cpu.regs.operand w o.field)⟩ := by
  have decoded : Operation.decode (w.opcode 0x88) = .moveToRm w := by cases w <;> rfl
  refine Performs.of_amounts code queued (by cases w <;> rfl) decoded
    (Exec.amounts_moveToRm_place o (fetched_at code)) ?_ (d := ⟨(c.fetched prefixes _).cpu, _⟩)
  rw [show o.place (c.fetched prefixes (w.opcode 0x88)).cpu.regs
    (c.fetched prefixes (w.opcode 0x88)).cpu.prefixes = .memory s offset from place]
  cases w <;> cases s <;> rfl

theorem performs_load {w : Width} {o : OperandBytes} {s : Segment} {offset : Word}
    (code : c.bus.CodeAt c.cpu.regs.cs c.cpu.regs.ip (prefixes ++ w.opcode 0x8A :: o.bytes))
    (queued : ∀ b ∈ prefixes, isPrefix b = true)
    (place : o.place c.cpu.regs (c.cpu.prefixes.pushAll prefixes) = .memory s offset) :
    c.Performs prefixes (w.opcode 0x8A) 1 ⟨{ c.cpu with
      regs := { c.cpu.regs.setOperand w o.field (c.bus.get w (c.cpu.regs.segment s) offset) with
        ip := c.cpu.regs.ip + BitVec.ofNat 16 (prefixes.length + 1 + o.bytes.length) }
      prefixes := .empty
      opcode := w.opcode 0x8A
      deferred := 0 }, c.bus⟩ := by
  have decoded : Operation.decode (w.opcode 0x8A) = .moveToReg w := by cases w <;> rfl
  let fetched := c.fetched prefixes (w.opcode 0x8A)
  have run : (do Exec.setOperand w o.field (← Exec.readAt w (.memory s offset)) : Exec Flat Unit)
      fetched = ((), ⟨{ fetched.cpu with
        regs := { c.cpu.regs.setOperand w o.field (c.bus.get w (c.cpu.regs.segment s) offset) with
          ip := fetched.cpu.regs.ip } }, c.bus⟩) := by
    have loaded : Exec.readAt w (.memory s offset) fetched =
        (c.bus.get w (c.cpu.regs.segment s) offset, fetched) := by
      cases w <;> cases s <;> rfl
    rw [Exec.bind_apply, loaded]
    have moved := c.cpu.regs.setOperand_moved fetched.cpu.regs.ip w o.field
      (c.bus.get w (c.cpu.regs.segment s) offset)
    exact congrArg (fun regs => ((), (⟨{ fetched.cpu with regs }, c.bus⟩ : Core Flat))) moved
  have amounts := Exec.amounts_moveToReg_place (w := w) o (fetched_at code)
  rw [show o.place fetched.cpu.regs fetched.cpu.prefixes = .memory s offset from place] at amounts
  exact Performs.of_amounts code queued (by cases w <;> rfl) decoded amounts run

/-- A register is stored to memory, and a register is loaded by the same addressing bytes. The
store keeps away from the bytes of the load. -/
structure StoresAndLoads (c : Core Flat) (front back : List Byte) (w : Width)
    (o o' : OperandBytes) : Prop where
  code : c.bus.CodeAt c.cpu.regs.cs c.cpu.regs.ip
    (front ++ w.opcode 0x88 :: (o.bytes ++ (back ++ w.opcode 0x8A :: o'.bytes)))
  queued : ∀ b ∈ front ++ back, isPrefix b = true
  form : ModRM.ofByte o'.modRM = { ModRM.ofByte o.modRM with reg := o'.field }
  displacement : o'.displacement = o.displacement
  memory : (ModRM.ofByte o.modRM).mode ≠ 3
  override : (PrefixQueue.empty.pushAll back).segmentOverride =
    (c.cpu.prefixes.pushAll front).segmentOverride
  apart : ∀ a ∈ (c.fetched front (w.opcode 0x88)).operandPlace.addresses c.cpu.regs w,
    a ∉ Flat.span c.cpu.regs.cs
      (c.cpu.regs.ip + BitVec.ofNat 16 (front.length + 1 + o.bytes.length))
      (back.length + 1 + o'.bytes.length)

namespace StoresAndLoads

variable {front back : List Byte} {w : Width} {o o' : OperandBytes}

theorem exists_place (both : c.StoresAndLoads front back w o o') :
    ∃ s offset, (c.fetched front (w.opcode 0x88)).operandPlace = .memory s offset ∧
      o.place c.cpu.regs (c.cpu.prefixes.pushAll front) = .memory s offset := by
  have place := operandPlace_eq (Codes.front (fetched_at both.code))
  have memory : (ModRM.ofByte o.modRM).isRegister ≠ true := by
    simpa [ModRM.isRegister] using both.memory
  rw [OperandBytes.place, ModRM.place, if_neg memory] at place
  exact ⟨_, _, place, by rw [OperandBytes.place, ModRM.place, if_neg memory]; rfl⟩

theorem stores (both : c.StoresAndLoads front back w o o') {s : Segment} {offset : Word}
    (place : o.place c.cpu.regs (c.cpu.prefixes.pushAll front) = .memory s offset) :
    ∃ d, c.Performs front (w.opcode 0x88) 1 d ∧
      d.cpu.regs = { c.cpu.regs with
        ip := c.cpu.regs.ip + BitVec.ofNat 16 (front.length + 1 + o.bytes.length) } ∧
      d.cpu.prefixes = .empty ∧ d.cpu.halted = c.cpu.halted ∧ d.cpu.deferred = 0 ∧
      d.bus = c.bus.put w (c.cpu.regs.segment s) offset (c.cpu.regs.operand w o.field) := by
  have code := both.code
  rw [← List.cons_append, ← List.append_assoc] at code
  exact ⟨_, performs_store (Flat.codeAt_iff.mpr (Flat.codeAt_iff.mp code).front)
    (fun b member => both.queued b (List.mem_append_left _ member)) place, rfl, rfl, rfl, rfl, rfl⟩

/-- Whatever led there: behind the store, the load finds what was stored. -/
theorem loads (both : c.StoresAndLoads front back w o o') {s : Segment} {offset : Word}
    (place : (c.fetched front (w.opcode 0x88)).operandPlace = .memory s offset)
    (place' : o.place c.cpu.regs (c.cpu.prefixes.pushAll front) = .memory s offset)
    {d : Core Flat} (regs : d.cpu.regs = { c.cpu.regs with
      ip := c.cpu.regs.ip + BitVec.ofNat 16 (front.length + 1 + o.bytes.length) })
    (queue : d.cpu.prefixes = .empty)
    (bus : d.bus = c.bus.put w (c.cpu.regs.segment s) offset (c.cpu.regs.operand w o.field)) :
    ∃ e, d.Performs back (w.opcode 0x8A) 1 e ∧ e.bus = d.bus ∧ e.cpu.regs =
      { c.cpu.regs.setOperand w o'.field (c.cpu.regs.operand w o.field) with
        ip := c.cpu.regs.ip + BitVec.ofNat 16
          (front.length + 1 + o.bytes.length + (back.length + 1 + o'.bytes.length)) } := by
  have code : d.bus.CodeAt d.cpu.regs.cs d.cpu.regs.ip (back ++ w.opcode 0x8A :: o'.bytes) := by
    have behind := both.code
    rw [← List.cons_append, ← List.append_assoc] at behind
    have here := behind.append
    have length (l rest : List Byte) (b : Byte) :
        (l ++ b :: rest).length = l.length + 1 + rest.length := by
      rw [List.length_append, List.length_cons]
      omega
    rw [length] at here
    rw [bus, regs]
    refine here.congr fun a member => Flat.read_put_of_not_mem _ _ fun stored => ?_
    rw [length] at member
    refine both.apart a ?_ member
    rw [place]
    exact stored
  have same : o'.place d.cpu.regs (d.cpu.prefixes.pushAll back) = .memory s offset := by
    rw [← place', OperandBytes.place, OperandBytes.place, both.form, both.displacement, ModRM.place,
      ModRM.place, queue, both.override, regs]
    rfl
  have performs := performs_load code
    (fun b member => both.queued b (List.mem_append_right _ member)) same
  refine ⟨_, performs, rfl, ?_⟩
  have found : d.bus.get w (d.cpu.regs.segment s) offset = c.cpu.regs.operand w o.field := by
    rw [bus, regs]
    cases s <;> exact c.bus.get_put w _ offset _
  rw [found, regs]
  dsimp only
  rw [Registers.setOperand_moved, BitVec.ofNat_add _ (back.length + 1 + _), ← BitVec.add_assoc]

end StoresAndLoads

/-- The operand is where the table of sums has it, behind a ModRM byte and its displacement. A
register stored there and loaded again has its value in the other register, and only the place is
changed. -/
theorem operands_addressed (c : Core Flat) :
    (∀ log,
      let behind := c.moveTo (c.cpu.regs.ip + BitVec.ofNat 16 c.modRMLength)
      Exec.fetchModRM c = ((c.modRM, c.operandPlace), behind) ∧
      Exec.fetchModRM (c.traced log) = ((c.modRM, c.operandPlace),
        behind.traced (log ++ (c.codeReads c.modRMLength).toArray))) ∧
    ∀ front back w o o', c.StoresAndLoads front back w o o' →
      let v := c.cpu.regs.operand w o.field
      ∃ s offset d e, (c.fetched front (w.opcode 0x88)).operandPlace = .memory s offset ∧
        c.Performs front (w.opcode 0x88) 1 d ∧ d.Performs back (w.opcode 0x8A) 1 e ∧
        e.cpu.regs = { c.cpu.regs.setOperand w o'.field v with
          ip := c.cpu.regs.ip + BitVec.ofNat 16
            (front.length + 1 + o.bytes.length + (back.length + 1 + o'.bytes.length)) } ∧
        e.bus = c.bus.put w (c.cpu.regs.segment s) offset v ∧
        (c.cpu.halted = false → c.cpu.regs.flags.trap = false → ∃ d' e',
          Exec.step c = (some (c.cpu.deferred + front.length + 1), d') ∧
          Exec.step d' = (some (back.length + 1), e') ∧
          e'.cpu.regs = e.cpu.regs ∧ e'.bus = e.bus) := by
  refine ⟨fun log => ⟨c.fetchModRM_eq, c.fetchModRM_traced log⟩, ?_⟩
  intro front back w o o' both v
  obtain ⟨s, offset, place, place'⟩ := both.exists_place
  obtain ⟨d, stored, moved, queue, halted, owed, bus⟩ := both.stores place'
  obtain ⟨e, loaded, kept, regs⟩ := both.loads place place' moved queue bus
  refine ⟨s, offset, d, e, place, stored, loaded, regs, kept.trans bus, fun running untrapped => ?_⟩
  obtain ⟨e', loaded', kept', regs'⟩ := both.loads place place' (d := ⟨{ d.cpu with
    total := c.cpu.total.advance (c.cpu.deferred + front.length + 1) }, d.bus⟩) moved queue bus
  have second := loaded'.step_untrapped (halted.trans running)
    ((congrArg (·.flags.trap) moved).trans untrapped)
  have cost : d.cpu.deferred + back.length + 1 = back.length + 1 := by rw [owed, Nat.zero_add]
  dsimp only at second
  rw [cost] at second
  exact ⟨_, _, stored.step_untrapped running untrapped, second, regs'.trans regs.symm,
    kept'.trans kept.symm⟩

/-- In front of `ES: MOV [BP+SI-1], CX` and `ES: MOV BX, [BP+SI-1]`, with a word that wraps at
the end of its segment. -/
def bouncing : Core Flat where
  cpu := { regs := { cx := 0x1234, es := 0x2000 } }
  bus := (default : Flat).load 0xFFFF0 [0x26, 0x89, 0x4A, 0xFF, 0x26, 0x8B, 0x5A, 0xFF]

theorem operands_addressed_bouncing : ∃ d e, Exec.step bouncing = (some 2, d) ∧
    Exec.step d = (some 2, e) ∧ e.cpu.regs.bx = 0x1234 ∧ e.bus.read 0x2FFFF = 0x34 ∧
    e.bus.read 0x20000 = 0x12 := by
  let o : OperandBytes := ⟨0x4A, [0xFF], by decide⟩
  let o' : OperandBytes := ⟨0x5A, [0xFF], by decide⟩
  have code : bouncing.bus.CodeAt bouncing.cpu.regs.cs bouncing.cpu.regs.ip
      ([0x26] ++ Width.word.opcode 0x88 ::
        (o.bytes ++ ([0x26] ++ Width.word.opcode 0x8A :: o'.bytes))) := by
    simp [bouncing, o, o', OperandBytes.bytes, Width.opcode, Flat.CodeAt, Flat.load, Memory.load,
      Flat.read, Memory.read_write, physical]
  have place : (bouncing.fetched [0x26] (Width.word.opcode 0x88)).operandPlace =
      .memory .es 0xFFFF := by
    rw [operandPlace_eq (Codes.front (fetched_at code))]
    decide
  have both : bouncing.StoresAndLoads [0x26] [0x26] .word o o' := {
    code
    queued := by decide
    form := by decide
    displacement := rfl
    memory := by decide
    override := by decide
    apart := by
      rw [place]
      simp [bouncing, o, o', Location.addresses, Width.addresses, Flat.span, physical,
        Registers.segment, OperandBytes.bytes] }
  obtain ⟨s, offset, d, e, place', -, -, regs, bus, steps⟩ :=
    (operands_addressed bouncing).2 _ _ _ _ _ both
  obtain ⟨rfl, rfl⟩ := Location.memory.inj (place'.symm.trans place)
  obtain ⟨d', e', first, second, regs', bus'⟩ := steps rfl rfl
  have low : Word.low (bouncing.cpu.regs.operand .word o.field) = 0x34 := by decide
  have high : Word.high (bouncing.cpu.regs.operand .word o.field) = 0x12 := by decide
  refine ⟨d', e', first, second, ?_, ?_, ?_⟩
  · rw [regs', regs]
    decide
  · rw [bus', bus, Flat.put, low, high]
    simp [Flat.read_write, physical, bouncing, Registers.segment]
  · rw [bus', bus, Flat.put, low, high]
    simp [Flat.read_write, physical, bouncing, Registers.segment]

end Core

end Swan
