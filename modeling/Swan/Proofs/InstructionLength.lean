import Swan.Proofs.OperandFetch

/-! A step of an instruction that stays in its line of code: it fetches the instruction's own
bytes, each once and in order, and goes on behind them. Prefixes are fetched one by one, then
the opcode, then what the operation behind it takes. -/
namespace Swan

/-- The place in a code segment is no part of what makes an instruction leave its line. -/
theorem Turn.stays_moved (view : Address → Byte) (r : Registers) (ip : Word) (q : PrefixQueue)
    (operands : List Byte) (finished : Prop) (t : Turn) :
    t.Stays view { r with ip } q operands finished ↔ t.Stays view r q operands finished := by
  have place : leadingPlace { r with ip } q operands = leadingPlace r q operands := rfl
  cases t with
  | outOfRange => simp only [Stays, place, Location.value_moved]; rfl
  | division w => simp only [Stays, place, Location.value_moved, Exec.wideAccumulator_moved]
  | indirect => simp only [Stays, place]
  | _ => rfl

theorem Turn.Stays.imp {view : Address → Byte} {r : Registers} {q : PrefixQueue}
    {operands : List Byte} {finished finished' : Prop} {t : Turn}
    (stays : t.Stays view r q operands finished) (follows : finished → finished') :
    t.Stays view r q operands finished' := by
  cases t with
  | repetition => exact follows stays
  | _ => exact stays

/-- A machine after the prefixes and the opcode of an instruction are fetched. -/
structure Core.Opens {β : Type} [Bus β] (prefixes : List Byte) (c d : Core β) : Prop where
  cpu : d.cpu = { c.cpu with
    regs := { c.cpu.regs with ip := c.cpu.regs.ip + BitVec.ofNat 16 (prefixes.length + 1) }
    prefixes := c.cpu.prefixes.pushAll prefixes }
  bus : Reads c.bus d.bus

theorem Core.Opens.at_ {β : Type} [Bus β] [Viewed β] {prefixes operands : List Byte}
    {opcode : Byte} {c d : Core β} (opens : c.Opens prefixes d)
    (here : c.At (prefixes ++ opcode :: operands)) : d.At operands := by
  rw [List.append_cons] at here
  have behind := Codes.append here
  rw [List.length_append] at behind
  rw [At, opens.bus.view, opens.cpu]
  exact behind

namespace Exec

variable {β : Type} [Bus β] [Viewed β]

instance (b : Byte) : Still (pushPrefix b : Exec β Unit) := ⟨fun _ => ⟨fun _ => rfl, rfl⟩⟩

instance (opcode : Byte) : Still (dispatch opcode : Exec β Unit) := ⟨fun _ => ⟨fun _ => rfl, rfl⟩⟩

instance : Still (clearPrefixes : Exec β Unit) := ⟨fun _ => ⟨fun _ => rfl, rfl⟩⟩

instance : Still (takeDeferred : Exec β Nat) := ⟨fun _ => ⟨fun _ => rfl, rfl⟩⟩

instance (cycles : Nat) : Still (charge cycles : Exec β Nat) := ⟨fun _ => ⟨fun _ => rfl, rfl⟩⟩

/-- By induction on the prefixes: each is fetched and queued before the next is looked at. -/
theorem consumes_fetchOpcode {prefixes rest : List Byte} {opcode : Byte} {c : Core β}
    (here : c.At (prefixes ++ opcode :: rest)) (queued : ∀ b ∈ prefixes, isPrefix b = true)
    (plain : isPrefix opcode = false) {limit : Nat} (enough : prefixes.length < limit)
    (fetched : Nat) :
    ∃ d, fetchOpcode? fetched limit c = (some (opcode, fetched + prefixes.length), d) ∧
      c.Opens prefixes d ∧ Consumes True (prefixes ++ [opcode]) (fetchOpcode? fetched limit) c := by
  induction prefixes generalizing fetched limit c with
  | nil =>
    obtain ⟨limit, rfl⟩ := Nat.exists_eq_succ_of_ne_zero (Nat.ne_of_gt enough)
    obtain ⟨d, takes, -⟩ := takes_byte here
    refine ⟨d, ?_, ⟨takes.skips.cpu, takes.skips.bus⟩, ?_⟩
    · rw [fetchOpcode?, bind_apply, takes.answer]
      simp only [plain]
      rfl
    · rw [fetchOpcode?]
      refine takes.last ?_
      rw [plain, if_neg Bool.false_ne_true]
      exact .still
  | cons b others ih =>
    obtain ⟨limit, rfl⟩ := Nat.exists_eq_succ_of_ne_zero (Nat.ne_of_gt (Nat.zero_lt_of_lt enough))
    obtain ⟨first, rest⟩ := List.forall_mem_cons.mp queued
    obtain ⟨d, takes, next⟩ := takes_byte here
    obtain ⟨e, found, opens, consumes⟩ := ih (c := (pushPrefix b d).2) next rest
      (Nat.lt_of_succ_lt_succ enough) (fetched + 1)
    refine ⟨e, ?_, ⟨?_, takes.skips.bus.trans opens.bus⟩, ?_⟩
    · rw [fetchOpcode?, bind_apply, takes.answer]
      simp only [first, if_true]
      rw [bind_apply, found, List.length_cons]
      congr 3
      omega
    · rw [opens.cpu]
      have ip := Word.add_one_ofNat c.cpu.regs.ip (others.length + 1)
      simp only [pushPrefix, takes.skips.cpu]
      exact congrArg (fun ip => ({ c.cpu with
        regs := { c.cpu.regs with ip }
        prefixes := c.cpu.prefixes.pushAll (b :: others) } : Cpu)) ip
    · rw [fetchOpcode?]
      refine takes.next ?_
      simp only [first, if_true]
      exact .next (Still.still d) consumes

omit [Viewed β] in
/-- Around the instruction, a step without a trap fetches nothing. -/
theorem consumes_retire {near : Prop} {operands : List Byte} {opcode : Byte} {c : Core β}
    (consumes : Consumes near operands (Operation.decode opcode).execute (dispatch opcode c).2) :
    Consumes near operands (retire opcode false) c := by
  refine .next (Still.still c) (consumes.andThen fun retired => ?_)
  simp only [Bool.false_eq_true, if_false]
  infer_instance

omit [Viewed β] in
/-- What a step fetches is the prefixes, the opcode and what the operation takes. -/
theorem consumes_step {near : Prop} {code operands : List Byte} {opcode : Byte} {n : Nat}
    {c d : Core β} (running : c.cpu.halted = false) (untrapped : c.cpu.regs.flags.trap = false)
    (found : fetchOpcode? 0 fetchLimit (takeDeferred c).2 = (some (opcode, n), d))
    (fetches : Consumes True code (fetchOpcode? 0 fetchLimit) (takeDeferred c).2)
    (executes : Consumes near operands (Operation.decode opcode).execute (dispatch opcode d).2) :
    Consumes near (code ++ operands) step c := by
  rw [step]
  refine .next (Still.still c) (.next (x := stepWithin.isHalted) ⟨fun _ => rfl, rfl⟩ ?_)
  change Consumes _ _ (if c.cpu.halted = true then _ else _) _
  rw [running, if_neg Bool.false_ne_true]
  refine .regs (fun _ => rfl) (fetches.bind ?_)
  rw [found]
  dsimp only
  rw [show (stepWithin.isHalted (takeDeferred c).2).2.cpu.regs.flags.trap = false from untrapped]
  exact (consumes_retire executes).andThen fun _ => inferInstance

omit [Viewed β] in
/-- No prefix is left behind by an instruction that does not ask to be run again. -/
theorem again_of_finished {c d : Core β} {opcode : Byte} {n : Nat} (running : c.cpu.halted = false)
    (untrapped : c.cpu.regs.flags.trap = false)
    (found : fetchOpcode? 0 fetchLimit (takeDeferred c).2 = (some (opcode, n), d))
    (finished : (step c).2.cpu.prefixes = .empty) :
    ((Operation.decode opcode).execute (dispatch opcode d).2).1.again = false := by
  rw [← Bool.not_eq_true]
  intro again
  obtain ⟨w, op, decoded⟩ := string_of_again again
  rcases run : (Operation.decode opcode).execute (dispatch opcode d).2 with ⟨r, e⟩
  rw [run] at again
  rw [step, stepWithin_running _ running,
    show fetchOpcode? 0 fetchLimit (⟨{ c.cpu with deferred := 0 }, c.bus⟩ : Core β) = _ from found]
    at finished
  simp only [untrapped] at finished
  rw [retire_untrapped run, if_pos again] at finished
  rw [decoded, Operation.execute] at run
  have quiet : Quiet (string w op : Exec β Retired) := inferInstance
  obtain ⟨regs, bus, eq⟩ := quiet.frame (dispatch opcode d).2
  rw [run] at eq
  have asked : (string w op (dispatch opcode d).2).1.again = true := by rw [run, again]
  have kept : d.cpu.prefixes = .empty := (congrArg (·.cpu.prefixes) eq).symm.trans finished
  exact (string_again asked).1 (congrArg PrefixQueue.repeatClass kept)

/-- An instruction that stays in its line of code is as long as the encoding table says, and its
bytes are what a step fetches, on any bus with a view of its memory. -/
theorem step_length {c : Core β} {prefixes operands : List Byte} {opcode : Byte}
    (running : c.cpu.halted = false) (untrapped : c.cpu.regs.flags.trap = false)
    (fresh : c.cpu.prefixes = .empty)
    (here : c.At (prefixes ++ opcode :: operands)) (queued : ∀ b ∈ prefixes, isPrefix b = true)
    (plain : isPrefix opcode = false)
    (size : 1 + operands.length = instructionLength opcode (operands.headD 0))
    (stays : (Turn.of opcode).Stays (Viewed.view c.bus) c.cpu.regs
      (PrefixQueue.empty.pushAll prefixes) operands ((step c).2.cpu.prefixes = .empty)) :
    let loadsCs := opcode = 0x8E ∧ (leadingModRM operands).reg.setWidth 2 = 1#2
    Consumes (¬loadsCs) (prefixes ++ opcode :: operands) step c ∧
    ∃ cycles d, step c = (some cycles, d) ∧
      d.cpu.regs.ip = c.cpu.regs.ip +
        BitVec.ofNat 16 (prefixes.length + instructionLength opcode (operands.headD 0)) ∧
      (¬loadsCs → d.cpu.regs.cs = c.cpu.regs.cs) := by
  intro loadsCs
  have code : Codes (Viewed.view c.bus) c.cpu.regs.cs c.cpu.regs.ip (prefixes ++ [opcode]) := by
    rw [List.append_cons] at here
    exact Codes.front here
  obtain ⟨e, found, opens, fetches⟩ := consumes_fetchOpcode (c := (takeDeferred c).2) here
    queued plain (Meets.length_lt ⟨code, queued, plain⟩) 0
  have executes : Consumes (¬loadsCs) operands (Operation.decode opcode).execute
      (dispatch opcode e).2 := by
    have queue : e.cpu.prefixes = PrefixQueue.empty.pushAll prefixes := by
      rw [opens.cpu, ← fresh]
      rfl
    have regs : e.cpu.regs = { c.cpu.regs with
        ip := c.cpu.regs.ip + BitVec.ofNat 16 (prefixes.length + 1) } := by
      rw [opens.cpu]
      rfl
    refine consumes_operands (opens.at_ here) ?_ ?_ ?_
    · change Turn.Stays (Viewed.view e.bus) e.cpu.regs e.cpu.prefixes _ _ _
      rw [Operation.turn_decode, opens.bus.view, queue, regs, Turn.stays_moved]
      exact stays.imp (again_of_finished running untrapped found)
    · intro other
      rw [Operation.loadsCs_decode, ← Bool.not_eq_true, Bool.and_eq_true, beq_iff_eq, beq_iff_eq]
      exact other
    · rw [Operation.hasModRM_decode, Operation.immediateSize_decode, ModRM.size_displacement]
      simp only [instructionLength, Nat.add_assoc] at size
      exact Nat.add_left_cancel size
  have consumes := consumes_step running untrapped found fetches executes
  rw [← List.append_cons] at consumes
  have returns : ∃ cycles, (step c).1 = some cycles := by
    rw [step, stepWithin_running _ running]
    rw [show fetchOpcode? 0 fetchLimit ⟨{ c.cpu with deferred := 0 }, c.bus⟩ = _ from found]
    exact ⟨_, rfl⟩
  obtain ⟨cycles, some⟩ := returns
  refine ⟨consumes, cycles, _, Prod.ext some rfl, ?_, consumes.segment⟩
  rw [consumes.ip, List.length_append, List.length_cons, ← size, Nat.add_comm 1]

/-- A byte of memory tested against an immediate, under a segment override. The operand is
read after its displacement and before the immediate. -/
def testing : Core (Traced Flat) :=
  ⟨{}, { bus := (default : Flat).load 0xFFFF0 [0x26, 0xF6, 0x47, 0x05, 0x80] }⟩

theorem step_length_testing : ∃ cycles d, step testing = (some cycles, d) ∧
    d.cpu.regs.ip = 5 ∧ d.cpu.regs.cs = 0xFFFF ∧
    Consumes True [0x26, 0xF6, 0x47, 0x05, 0x80] step testing := by
  have here : testing.At ([0x26] ++ 0xF6 :: [0x47, 0x05, 0x80]) := by
    simp [testing, Core.At, Codes, Viewed.view, Flat.load, Memory.load, Flat.read,
      Memory.read_write, physical]
  have other : ¬((0xF6 : Byte) = 0x8E ∧
      (leadingModRM [0x47, 0x05, 0x80]).reg.setWidth 2 = 1#2) := by decide
  obtain ⟨consumes, cycles, d, stepped, ip, cs⟩ :=
    step_length rfl rfl rfl here (by decide) (by decide) (by decide) trivial
  rw [eq_true other] at consumes
  exact ⟨cycles, d, stepped, ip, cs other, consumes⟩

end Exec

end Swan
