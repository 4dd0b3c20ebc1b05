import Swan.Proofs.EncodingAgreement
import Swan.Proofs.StackPush

/-! The stack frame of a procedure: built on entry, with copies of the frame pointers of the
procedures around it, and undone on leaving. Offsets wrap wherever the stack lies, and a frame is
small enough that the words of one never meet. -/
namespace Swan

/-- One word further down. -/
theorem Word.sub_two_sub (v : Word) (i : Nat) :
    v - 2 - BitVec.ofNat 16 (2 * i) = v - BitVec.ofNat 16 (2 * (i + 1)) := by
  rw [Nat.mul_succ, Nat.add_comm, BitVec.ofNat_add, BitVec.sub_sub]
  rfl

namespace Core

/-- Words are pushed, the first one first, and nothing else is stored. -/
structure Stacked (vs : List Word) (c d : Core Flat) : Prop where
  pushes : Pushes vs.length c d
  words : ∀ i (inside : i < vs.length), d.bus.get .word c.cpu.regs.ss
    (c.cpu.regs.sp - BitVec.ofNat 16 (2 * (i + 1))) = vs[i]

/-- The bytes of a word on the stack are not below it, as long as the stack does not meet itself. -/
theorem not_mem_below {segment sp : Word} {i m n : Nat} (above : i < m)
    (room : 2 * (m + n) ≤ 65536) {a : Address}
    (member : a ∈ Width.word.addresses segment (sp - BitVec.ofNat 16 (2 * (i + 1)))) :
    a ∉ Flat.span segment (sp - BitVec.ofNat 16 (2 * m) - BitVec.ofNat 16 (2 * n)) (2 * n) := by
  intro below
  obtain ⟨j, bound, rfl⟩ := Flat.exists_of_mem_span below
  simp only [Width.addresses, List.mem_cons, List.not_mem_nil, or_false,
    physical_right_inj] at member
  rcases member with same | same
  · have distances : BitVec.ofNat 16 (2 * m + 2 * n) = BitVec.ofNat 16 (2 * (i + 1) + j) := by
      rw [BitVec.ofNat_add, BitVec.ofNat_add _ j]
      grind
    have numbers := congrArg BitVec.toNat distances
    rw [BitVec.toNat_ofNat, BitVec.toNat_ofNat] at numbers
    omega
  · have distances : BitVec.ofNat 16 (2 * m + 2 * n + 1) = BitVec.ofNat 16 (2 * (i + 1) + j) := by
      rw [BitVec.ofNat_add, BitVec.ofNat_add, BitVec.ofNat_add _ j]
      grind
    have numbers := congrArg BitVec.toNat distances
    rw [BitVec.toNat_ofNat, BitVec.toNat_ofNat] at numbers
    omega

/-- What keeps away from all that is pushed keeps away from what is pushed later, and is the same
meanwhile. -/
theorem Pushes.apart {m n : Nat} {c d : Core Flat} (first : Pushes m c d) {addresses : List Address}
    (apart : ∀ a ∈ addresses, a ∉ c.cpu.regs.stackWords (n + m)) :
    (∀ a ∈ addresses, a ∉ d.cpu.regs.stackWords n) ∧
      ∀ a ∈ addresses, d.bus.read a = c.bus.read a := by
  rw [Nat.add_comm] at apart
  exact ⟨fun a member later => apart a member (first.stackWords_subset n later),
    fun a member => first.memory a fun earlier =>
      apart a member (c.cpu.regs.stackWords_subset m n earlier)⟩

namespace Stacked

variable {vs ws : List Word} {c d e : Core Flat}

theorem nil (start : Pushes 0 c d) : Stacked [] c d :=
  ⟨start, fun _ inside => absurd inside (Nat.not_lt_zero _)⟩

theorem append (first : Stacked vs c d) (second : Stacked ws d e)
    (room : 2 * (vs.length + ws.length) ≤ 65536) : Stacked (vs ++ ws) c e where
  pushes := by
    rw [List.length_append]
    exact first.pushes.trans second.pushes
  words i inside := by
    rw [List.length_append] at inside
    by_cases early : i < vs.length
    · rw [List.getElem_append_left early, ← first.words i early]
      refine Flat.get_congr fun a member => second.pushes.memory a ?_
      rw [Registers.stackWords, first.pushes.ss, first.pushes.sp]
      exact not_mem_below early room member
    · rw [List.getElem_append_right (Nat.le_of_not_lt early),
        ← second.words (i - vs.length) (by omega), first.pushes.ss, first.pushes.sp,
        BitVec.sub_sub, ← BitVec.ofNat_add]
      congr 3
      omega

end Stacked

end Core

namespace Exec

open Swan.Core

theorem push_stacked (v : Word) {c d : Core Flat} (start : Pushes 0 c d) :
    Stacked [v] c (push v d).2 := by
  have pushed : Stacked [v] d (push v d).2 := ⟨push_pushes v d, fun i inside => by
    obtain rfl : i = 0 := Nat.lt_one_iff.mp inside
    exact d.bus.get_put_word _ _ v⟩
  exact (Stacked.nil start).append pushed (Nat.le_of_ble_eq_true rfl)

/-- By induction on how many are copied: each pointer is read before it is pushed, and it is the
one from before if nothing has been pushed over it. -/
theorem copyFramePointers_stacked (n : Nat) (c : Core Flat) (room : 2 * n ≤ 65536) :
    let r := c.cpu.regs
    let d := (enter.copyFramePointers n c).2
    d.cpu = { c.cpu with regs := { r with
      bp := r.bp - BitVec.ofNat 16 (2 * n), sp := r.sp - BitVec.ofNat 16 (2 * n) } } ∧
    ∃ vs : List Word, vs.length = n ∧ Stacked vs c d ∧ ∀ i (inside : i < vs.length),
      (∀ a ∈ Width.word.addresses r.ss (r.bp - BitVec.ofNat 16 (2 * (i + 1))),
        a ∉ r.stackWords i) →
      vs[i] = c.bus.get .word r.ss (r.bp - BitVec.ofNat 16 (2 * (i + 1))) := by
  induction n generalizing c with
  | zero =>
    refine ⟨?_, [], rfl, .nil (.refl c), fun _ inside => absurd inside (Nat.not_lt_zero _)⟩
    simp only [BitVec.sub_zero, Nat.mul_zero]
    rfl
  | succ n ih =>
    let v := c.bus.get .word c.cpu.regs.ss (c.cpu.regs.bp - 2)
    let moved : Core Flat :=
      ⟨{ c.cpu with regs := { c.cpu.regs with bp := c.cpu.regs.bp - 2 } }, c.bus⟩
    have first : Stacked [v] c (push v moved).2 :=
      push_stacked v ⟨(BitVec.sub_zero _).symm, rfl, fun _ _ => rfl⟩
    obtain ⟨cpu, vs, length, rest, copied⟩ := ih (push v moved).2 (by omega)
    refine ⟨?_, v :: vs, by rw [List.length_cons, length],
      first.append rest (by rw [length]; simp only [List.length_singleton]; omega), ?_⟩
    · rw [← Word.sub_two_sub, ← Word.sub_two_sub]
      exact cpu
    · intro i inside apart
      cases i with
      | zero => rfl
      | succ i =>
        rw [← Word.sub_two_sub] at apart ⊢
        obtain ⟨later, same⟩ := first.pushes.apart apart
        exact (copied i (Nat.lt_of_succ_lt_succ inside) later).trans (Flat.get_congr same)

def frameCost (level : Nat) : Nat :=
  if level = 0 then 7 else if level = 1 then 11 else 12 + 4 * (level - 1)

theorem frameCost_eq (level : Nat) : frameCost level =
    match level with
    | 0 => 7
    | 1 => 11
    | n + 2 => 16 + 4 * n := by
  match level with
  | 0 => rfl
  | 1 => rfl
  | n + 2 =>
    change 12 + 4 * (n + 1) = 16 + 4 * n
    omega

end Exec

/-- A frame was built on a stack: the new frame pointer points at the old one, below that are the
frame pointers of the procedures around, and then room for variables. -/
structure Core.Framed (level : Nat) (size : Word) (c d : Core Flat) : Prop where
  regs : d.cpu.regs = { c.cpu.regs with
    bp := c.cpu.regs.sp - 2
    sp := c.cpu.regs.sp - 2 - BitVec.ofNat 16 (2 * level) - size
    ip := d.cpu.regs.ip }
  saved : d.bus.get .word c.cpu.regs.ss (c.cpu.regs.sp - 2) = c.cpu.regs.bp
  own : 0 < level → d.bus.get .word c.cpu.regs.ss
    (c.cpu.regs.sp - 2 - BitVec.ofNat 16 (2 * level)) = c.cpu.regs.sp - 2
  outer : ∀ i, 1 ≤ i → i < level →
    (∀ a ∈ Width.word.addresses c.cpu.regs.ss (c.cpu.regs.bp - BitVec.ofNat 16 (2 * i)),
      a ∉ c.cpu.regs.stackWords i) →
    d.bus.get .word c.cpu.regs.ss (c.cpu.regs.sp - 2 - BitVec.ofNat 16 (2 * i)) =
      c.bus.get .word c.cpu.regs.ss (c.cpu.regs.bp - BitVec.ofNat 16 (2 * i))
  memory : ∀ a ∉ c.cpu.regs.stackWords (level + 1), d.bus.read a = c.bus.read a

namespace Exec

open Swan.Core

theorem framed_of_stacked {level : Nat} {size : Word} {c d e : Core Flat} {ps : List Word}
    (stacked : Stacked (c.cpu.regs.bp :: ps) c e) (length : ps.length = level)
    (own : 0 < level → ps[level - 1]? = some (c.cpu.regs.sp - 2))
    (outer : ∀ i (inside : i + 1 < level),
      (∀ a ∈ Width.word.addresses c.cpu.regs.ss (c.cpu.regs.bp - BitVec.ofNat 16 (2 * (i + 1))),
        a ∉ c.cpu.regs.stackWords (i + 1)) →
      ps[i] = c.bus.get .word c.cpu.regs.ss (c.cpu.regs.bp - BitVec.ofNat 16 (2 * (i + 1))))
    (regs : d.cpu.regs = { c.cpu.regs with
      bp := c.cpu.regs.sp - 2
      sp := c.cpu.regs.sp - 2 - BitVec.ofNat 16 (2 * level) - size
      ip := d.cpu.regs.ip }) (bus : d.bus = e.bus) : Framed level size c d := by
  have word (i : Nat) (inside : i < ps.length) : d.bus.get .word c.cpu.regs.ss
      (c.cpu.regs.sp - 2 - BitVec.ofNat 16 (2 * (i + 1))) = ps[i] := by
    rw [Word.sub_two_sub, bus]
    exact stacked.words (i + 1) (Nat.succ_lt_succ inside)
  refine ⟨regs, ?saved, fun nested => ?own, fun i some_ inside apart => ?outer,
    fun a outside => ?memory⟩
  case saved =>
    rw [bus]
    exact stacked.words 0 (Nat.succ_pos _)
  case own =>
    obtain ⟨n, rfl⟩ := Nat.exists_eq_add_of_lt nested
    rw [Nat.zero_add] at nested own length ⊢
    obtain ⟨_, last⟩ := List.getElem?_eq_some_iff.mp (own nested)
    rw [word n (by omega), ← last]
    rfl
  case outer =>
    obtain ⟨j, rfl⟩ := Nat.exists_eq_add_of_le' some_
    rw [word j (by omega), outer j inside apart]
  case memory =>
    rw [bus]
    refine stacked.pushes.memory a ?_
    rwa [List.length_cons, length]

/-- Building a frame is pushing words, setting up the two pointers and nothing else. -/
theorem enter_framed {c : Core Flat} {size : Word} {level : Byte}
    (here : c.At (immediateBytes .word size ++ [level])) :
    ∃ d, enter c = ({ cycles := frameCost (level &&& 0x1F).toNat }, d) ∧
      Framed (level &&& 0x1F).toNat size c d ∧ d.cpu.regs.ip = c.cpu.regs.ip + 3 := by
  obtain ⟨d, sized, next⟩ := takes_value .word size here
  obtain ⟨e, levelled, -⟩ := takes_byte next
  obtain rfl := (sized.skips.trans levelled.skips).flat
  rw [enter, bind_apply, show fetchWord c = _ from sized.answer, bind_apply, levelled.answer]
  dsimp only
  have bound : (level &&& 0x1F).toNat < 32 := by
    rw [BitVec.toNat_and]
    exact Nat.lt_of_le_of_lt Nat.and_le_right (by decide)
  generalize (level &&& 0x1F).toNat = n at bound ⊢
  let start := c.moveTo (c.cpu.regs.ip + 3)
  have first : Stacked [c.cpu.regs.bp] c (push c.cpu.regs.bp start).2 :=
    push_stacked c.cpu.regs.bp (.of_skips (sized.skips.trans levelled.skips))
  cases n with
  | zero =>
    refine ⟨_, rfl, framed_of_stacked first rfl (fun some_ => absurd some_ (Nat.lt_irrefl 0))
      (fun i inside => absurd inside (Nat.not_lt_zero _)) ?_ rfl, rfl⟩
    simp only [Nat.mul_zero, BitVec.sub_zero]
  | succ n =>
    obtain ⟨cpu, vs, length, copies, copied⟩ :=
      copyFramePointers_stacked n (push c.cpu.regs.bp start).2 (by omega)
    generalize copy : (enter.copyFramePointers n (push c.cpu.regs.bp start).2).2 = d at cpu copies
    have last := copies.append (push_stacked (c.cpu.regs.sp - 2) (.refl d)) (by
      rw [length, List.length_singleton]
      omega)
    have stacked : Stacked (c.cpu.regs.bp :: (vs ++ [c.cpu.regs.sp - 2])) c _ :=
      first.append last (by
        change 2 * (1 + (vs ++ [c.cpu.regs.sp - 2]).length) ≤ 65536
        rw [List.length_append, List.length_singleton, length]
        omega)
    refine ⟨⟨{ d.cpu with regs := { d.cpu.regs with
        bp := c.cpu.regs.sp - 2, sp := d.cpu.regs.sp - 2 - size } },
        d.bus.put .word d.cpu.regs.ss (d.cpu.regs.sp - 2) (c.cpu.regs.sp - 2)⟩, ?run,
      framed_of_stacked stacked ?length ?own ?outer ?regs rfl, ?ip⟩
    case run =>
      rw [frameCost_eq]
      subst copy
      rfl
    case length => rw [List.length_append, length, List.length_singleton]
    case own =>
      intro _
      rw [Nat.add_sub_cancel, ← length]
      exact List.getElem?_concat_length
    case outer =>
      intro i inside apart
      obtain ⟨later, same⟩ := first.pushes.apart apart
      rw [List.getElem_append_left (by omega)]
      exact (copied i (by omega) later).trans (Flat.get_congr same)
    case regs =>
      have settled : d.cpu.regs.sp - 2 = c.cpu.regs.sp - 2 - BitVec.ofNat 16 (2 * (n + 1)) := by
        rw [cpu, Nat.mul_succ, BitVec.ofNat_add, ← BitVec.sub_sub]
        rfl
      rw [← settled, cpu]
      rfl
    case ip =>
      rw [cpu]
      rfl

end Exec

namespace Core

variable {c d : Core Flat} {prefixes : List Byte}

theorem performs_enter {size : Word} {level : Byte}
    (code : c.bus.CodeAt c.cpu.regs.cs c.cpu.regs.ip
      (prefixes ++ 0xC8 :: (immediateBytes .word size ++ [level])))
    (queued : ∀ b ∈ prefixes, isPrefix b = true) :
    let l := (level &&& 0x1F).toNat
    ∃ d, c.Performs prefixes 0xC8 (Exec.frameCost l) d ∧ Framed l size c d ∧
      d.cpu.regs.ip = c.cpu.regs.ip + BitVec.ofNat 16 (prefixes.length + 4) := by
  obtain ⟨d, run, framed, ip⟩ := Exec.enter_framed (fetched_at code)
  have decoded : Operation.decode 0xC8 = .enter := by decide
  refine ⟨⟨{ d.cpu with prefixes := .empty }, d.bus⟩,
    .of_run (.of_code code queued (by decide)) (by rw [decoded]; exact run) rfl,
    ⟨framed.regs, framed.saved, framed.own, framed.outer, framed.memory⟩, ip.trans ?_⟩
  rw [show prefixes.length + 4 = prefixes.length + 1 + 3 by omega, BitVec.ofNat_add _ 3,
    ← BitVec.add_assoc]
  rfl

/-- Leaving takes the stack pointer back above the saved frame pointer. -/
theorem performs_leave (fetches : c.Fetches prefixes 0xC9) :
    c.Performs prefixes 0xC9 2 ⟨{ c.cpu with
      regs := { c.cpu.regs with
        sp := c.cpu.regs.bp + 2
        bp := c.bus.get .word c.cpu.regs.ss c.cpu.regs.bp
        ip := c.cpu.regs.ip + BitVec.ofNat 16 (prefixes.length + 1) }
      prefixes := .empty
      opcode := 0xC9
      deferred := 0 }, c.bus⟩ := by
  have decoded : Operation.decode 0xC9 = .leave := by decide
  exact .of_run fetches (by rw [decoded]; rfl) rfl

/-- A frame is built, and whatever happens in it, leaving it undoes it, if the frame pointer and
what it points at are as they were. -/
theorem frame_built_and_left {size : Word} {level : Byte}
    (code : c.bus.CodeAt c.cpu.regs.cs c.cpu.regs.ip
      (prefixes ++ 0xC8 :: (immediateBytes .word size ++ [level])))
    (queued : ∀ b ∈ prefixes, isPrefix b = true) :
    let l := (level &&& 0x1F).toNat
    ∃ d, c.Performs prefixes 0xC8 (Exec.frameCost l) d ∧ Framed l size c d ∧
      d.cpu.regs.ip = c.cpu.regs.ip + BitVec.ofNat 16 (prefixes.length + 4) ∧
      (c.cpu.halted = false → c.cpu.regs.flags.trap = false →
        ∃ d', Exec.step c = (some (c.cpu.deferred + prefixes.length + Exec.frameCost l), d') ∧
          d'.cpu.regs = d.cpu.regs ∧ d'.bus = d.bus) ∧
      ∀ e back, e.Fetches back 0xC9 → e.cpu.regs.bp = d.cpu.regs.bp →
        e.cpu.regs.ss = d.cpu.regs.ss →
        e.bus.get .word e.cpu.regs.ss e.cpu.regs.bp =
          d.bus.get .word d.cpu.regs.ss d.cpu.regs.bp →
        ∃ f, e.Performs back 0xC9 2 f ∧ f.bus = e.bus ∧
          f.cpu.regs = { e.cpu.regs with
            sp := c.cpu.regs.sp
            bp := c.cpu.regs.bp
            ip := e.cpu.regs.ip + BitVec.ofNat 16 (back.length + 1) } ∧
          (e.cpu.halted = false → e.cpu.regs.flags.trap = false →
            ∃ f', Exec.step e = (some (e.cpu.deferred + back.length + 2), f') ∧
              f'.cpu.regs = f.cpu.regs ∧ f'.bus = f.bus) := by
  intro l
  obtain ⟨d, performs, framed, ip⟩ := performs_enter code queued
  refine ⟨d, performs, framed, ip, performs.exists_step, fun e back fetches bp ss saved => ?_⟩
  have left := performs_leave fetches
  have old : e.bus.get .word e.cpu.regs.ss e.cpu.regs.bp = c.cpu.regs.bp := by
    rw [saved, framed.regs]
    exact framed.saved
  have top : e.cpu.regs.bp + 2 = c.cpu.regs.sp := by
    rw [bp, framed.regs]
    exact BitVec.sub_add_cancel _ 2
  rw [old, top] at left
  exact ⟨_, left, rfl, rfl, left.exists_step⟩

/-- In front of `ENTER 4, 2` and `LEAVE`, at the bottom of a stack segment, with the pointer of one
procedure around. -/
def nested : Core Flat where
  cpu := { regs := { bp := 0x2000 } }
  bus := ((default : Flat).load 0x1FFE [0xCD, 0xAB]).load 0xFFFF0 [0xC8, 4, 0, 2, 0xC9]

theorem frame_built_and_left_nested : ∃ d e, Exec.step nested = (some 16, d) ∧
    d.Performs [] 0xC9 2 e ∧ d.cpu.regs.bp = 0xFFFE ∧ d.cpu.regs.sp = 0xFFF6 ∧
    d.bus.get .word 0 0xFFFC = 0xABCD ∧ d.bus.get .word 0 0xFFFA = 0xFFFE ∧
    e.cpu.regs.sp = 0 ∧ e.cpu.regs.bp = 0x2000 := by
  have code : nested.bus.CodeAt nested.cpu.regs.cs nested.cpu.regs.ip
      ([] ++ 0xC8 :: (immediateBytes .word 4 ++ [2])) := by
    simp [nested, immediateBytes, Flat.CodeAt, Flat.load, Memory.load, Flat.read,
      Memory.read_write, physical]
    decide
  have opcode : nested.bus.read (physical 0xFFFF 4) = 0xC9 := by
    simp [nested, Flat.load, Memory.load, Flat.read, physical]
  have outer : nested.bus.get .word 0 0x1FFE = 0xABCD := by
    simp [nested, Flat.get, Flat.load, Memory.load, Flat.read, Memory.read_write, physical,
      Word.ofBytes]
  obtain ⟨d, -, framed, ip, steps, leaves⟩ := frame_built_and_left code (List.forall_mem_nil _)
  obtain ⟨d', stepped, regs, bus⟩ := steps rfl rfl
  have known : d'.cpu.regs = { nested.cpu.regs with bp := 0xFFFE, sp := 0xFFF6, ip := 4 } := by
    rw [regs, framed.regs, ip]
    decide
  have fetches : d'.Fetches [] 0xC9 := by
    refine ⟨⟨?_, trivial⟩, List.forall_mem_nil _, by decide⟩
    rw [known, bus]
    refine (framed.memory _ ?_).trans opcode
    simp [nested, Registers.stackWords, Flat.span, physical]
  obtain ⟨e, left, -, regs', -⟩ := leaves d' [] fetches (by rw [regs]) (by rw [regs])
    (by rw [regs, bus])
  refine ⟨d', e, stepped, left, ?_, ?_, ?_, ?_, ?_, ?_⟩
  · rw [known]
  · rw [known]
  · rw [bus]
    refine (framed.outer 1 (by decide) (by decide) ?_).trans outer
    simp [nested, Registers.stackWords, Flat.span, physical, Width.addresses]
  · rw [bus]
    exact framed.own (by decide)
  · rw [regs']
    rfl
  · rw [regs']
    rfl

end Core

end Swan
