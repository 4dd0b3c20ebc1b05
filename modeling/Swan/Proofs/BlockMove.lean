import Swan.Proofs.RepeatedRun

/-! A block of memory moved by a repeated string instruction. Both blocks are runs of bytes that
do not wrap, and they may overlap. An element is copied whole, and it finds its source as it was
before as long as nothing has been stored there: going up, when the destination lies below, and
going down, when it lies above. -/
namespace Swan

theorem Flat.span_eq_map (segment offset : Word) (n : Nat) :
    span segment offset n =
      (List.range n).map fun j => physical segment (offset + BitVec.ofNat 16 j) := by
  induction n generalizing offset with
  | zero => rfl
  | succ n ih =>
    rw [span, ih, List.range_succ_eq_map, List.map_cons, List.map_map, BitVec.add_zero]
    congr 1
    apply List.map_congr_left
    intro j _
    rw [Word.add_one_ofNat]
    rfl

theorem Width.addresses_eq_span (w : Width) (segment offset : Word) :
    w.addresses segment offset = Flat.span segment offset w.bytes := by
  cases w <;> rfl

/-- A moved operand has the bytes that it had at its old place. -/
theorem Flat.read_put_get (b : Flat) (w : Width) (segment offset source start : Word) {j : Nat}
    (inside : j < w.bytes) :
    (b.put w segment offset (b.get w source start)).read
        (physical segment (offset + BitVec.ofNat 16 j)) =
      b.read (physical source (start + BitVec.ofNat 16 j)) := by
  cases w with
  | byte =>
    obtain rfl : j = 0 := Nat.lt_one_iff.mp inside
    simp [put, get, read_write]
  | word =>
    have apart : physical segment offset ≠ physical segment (offset + 1#16) := by
      rw [Ne, physical_right_inj]
      simp
    obtain rfl | rfl : j = 0 ∨ j = 1 := by
      simp only [Width.bytes] at inside
      omega
    · simp [put, get, read_write, apart]
    · simp [put, get, read_write]

/-- Of a block that is moved byte by byte, those done have the value that their source had, and
no other memory has changed. -/
structure Copied (source destination : Nat → Address) (done : Nat → Prop)
    (before after : Address → Byte) : Prop where
  copied : ∀ j, done j → after (destination j) = before (source j)
  frame : ∀ a, (∀ j, done j → a ≠ destination j) → after a = before a

namespace Copied

variable {source destination : Nat → Address} {done part : Nat → Prop}
  {before now after : Address → Byte}

theorem none (source destination : Nat → Address) (before : Address → Byte) :
    Copied source destination (fun _ => False) before before :=
  ⟨fun _ never => never.elim, fun _ _ => rfl⟩

/-- Another part of the block is copied from what memory is now. Its source is still to be read
from where nothing has been stored. -/
theorem step (copied : Copied source destination done before now)
    (moved : Copied source destination part now after)
    (unread : ∀ i j, done i → part j → source j ≠ destination i)
    (apart : ∀ i j, done i → part j → destination i ≠ destination j) :
    Copied source destination (fun j => done j ∨ part j) before after where
  copied j either := by
    cases either with
    | inl earlier =>
      rw [moved.frame _ fun i now => apart j i earlier now]
      exact copied.copied j earlier
    | inr new =>
      rw [moved.copied j new]
      exact copied.frame _ fun i earlier => unread i j earlier new
  frame a outside := by
    rw [moved.frame a fun j new => outside j (.inr new)]
    exact copied.frame a fun j earlier => outside j (.inl earlier)

theorem congr {done' : Nat → Prop} (copied : Copied source destination done before now)
    (same : ∀ j, done' j ↔ done j) : Copied source destination done' before now where
  copied j isDone := copied.copied j ((same j).mp isDone)
  frame a outside := copied.frame a fun j isDone => outside j ((same j).mpr isDone)

end Copied

/-- No byte of a block wraps around the end of its segment, or around the end of memory. -/
def Unwrapped (segment start : Word) (length : Nat) : Prop :=
  ∀ j < length, start.toNat + j < 0x10000 ∧ segment.toNat * 16 + start.toNat + j < 0x100000

theorem Unwrapped.toNat {segment start : Word} {length j : Nat}
    (unwrapped : Unwrapped segment start length) (inside : j < length) :
    (physical segment (start + BitVec.ofNat 16 j)).toNat =
      segment.toNat * 16 + start.toNat + j := by
  obtain ⟨short, low⟩ := unwrapped j inside
  have offset : (start + BitVec.ofNat 16 j).toNat = start.toNat + j := by
    rw [BitVec.toNat_add, BitVec.toNat_ofNat]
    omega
  rw [toNat_physical, offset, ← Nat.add_assoc]
  exact Nat.mod_eq_of_lt low

theorem Unwrapped.toNat_start {segment start : Word} {length : Nat}
    (unwrapped : Unwrapped segment start length) (some_ : 0 < length) :
    (physical segment start).toNat = segment.toNat * 16 + start.toNat := by
  simpa using unwrapped.toNat some_

namespace Registers

/-- The lowest offset of the block that an index points at. Going down, the index is at its
highest element. -/
def blockStart (r : Registers) (w : Width) (index : Word) : Word :=
  if r.flags.direction then
    index + BitVec.ofNat 16 w.bytes - r.cx * BitVec.ofNat 16 w.bytes
  else index

def blockLength (r : Registers) (w : Width) : Nat := r.cx.toNat * w.bytes

/-- Which element of the block, counted from below, is the next after so many. -/
def slot (r : Registers) (i : Nat) : Nat :=
  if r.flags.direction then r.cx.toNat - 1 - i else i

/-- Which bytes of the block belong to an element. -/
def InSlot (r : Registers) (w : Width) (i j : Nat) : Prop :=
  r.slot i * w.bytes ≤ j ∧ j < r.slot i * w.bytes + w.bytes

def InSlots (r : Registers) (w : Width) (i j : Nat) : Prop :=
  if r.flags.direction then (r.cx.toNat - i) * w.bytes ≤ j ∧ j < r.blockLength w
  else j < i * w.bytes

theorem inSlots_succ (r : Registers) (w : Width) {i : Nat} (before : i < r.cx.toNat) (j : Nat) :
    r.InSlots w (i + 1) j ↔ r.InSlots w i j ∨ r.InSlot w i j := by
  unfold InSlots InSlot slot blockLength
  cases w <;> cases r.flags.direction <;>
    simp only [Width.bytes, Bool.false_eq_true, if_true, if_false] <;> omega

theorem inSlots_all (r : Registers) (w : Width) (j : Nat) :
    r.InSlots w r.cx.toNat j ↔ j < r.blockLength w := by
  unfold InSlots blockLength
  cases r.flags.direction <;> simp

theorem InSlots.lt {r : Registers} {w : Width} {i j : Nat} (inside : r.InSlots w i j)
    (bound : i ≤ r.cx.toNat) : j < r.blockLength w := by
  unfold InSlots at inside
  cases down : r.flags.direction with
  | false =>
    rw [down, if_neg Bool.false_ne_true] at inside
    exact Nat.lt_of_lt_of_le inside (Nat.mul_le_mul_right _ bound)
  | true =>
    rw [down, if_pos rfl] at inside
    exact inside.2

theorem InSlot.lt {r : Registers} {w : Width} {i j : Nat} (inside : r.InSlot w i j)
    (before : i < r.cx.toNat) : j < r.blockLength w :=
  InSlots.lt ((r.inSlots_succ w before j).mpr (.inr inside)) before

/-- The bytes of an element lie beyond those of the elements before. -/
theorem InSlots.order {r : Registers} {w : Width} {i j j' : Nat} (before : i < r.cx.toNat)
    (earlier : r.InSlots w i j) (inside : r.InSlot w i j') :
    if r.flags.direction then j' < j else j < j' := by
  unfold InSlots at earlier
  obtain ⟨low, high⟩ := inside
  unfold slot at low high
  cases w <;> cases down : r.flags.direction <;>
    simp only [down, Width.bytes, Bool.false_eq_true, if_true, if_false] at earlier low high ⊢ <;>
    omega

/-- The index of an element is where its slot begins. -/
theorem index_eq (r : Registers) (w : Width) (index : Word) {i : Nat} (before : i < r.cx.toNat) :
    index + BitVec.ofNat 16 i * StringOp.stride w r.flags.direction =
      r.blockStart w index + BitVec.ofNat 16 (r.slot i * w.bytes) := by
  obtain ⟨m, left⟩ := Nat.exists_eq_add_of_lt before
  have slot : r.cx.toNat - 1 - i = m := by omega
  have count : r.cx = BitVec.ofNat 16 i + BitVec.ofNat 16 m + 1 := by
    change r.cx = _ + _ + BitVec.ofNat 16 1
    rw [← BitVec.ofNat_add, ← BitVec.ofNat_add, ← left, BitVec.ofNat_toNat, BitVec.setWidth_eq]
  rw [blockStart, Registers.slot, StringOp.stride, slot, count]
  cases r.flags.direction with
  | false => simp only [Bool.false_eq_true, if_false, BitVec.ofNat_mul]
  | true =>
    simp only [if_true, BitVec.ofNat_mul]
    grind

end Registers

namespace Exec

open Registers

variable (w : Width) (c : Core Flat)

def sourceByte (j : Nat) : Address :=
  physical c.cpu.source (c.cpu.regs.blockStart w c.cpu.regs.si + BitVec.ofNat 16 j)

def destinationByte (j : Nat) : Address :=
  physical c.cpu.regs.es (c.cpu.regs.blockStart w c.cpu.regs.di + BitVec.ofNat 16 j)

/-- Where the next element is after so many. -/
theorem elements_at {i : Nat} (before : i < c.cpu.regs.cx.toNat) :
    let e := (elements w .movs i c).cpu
    let first := c.cpu.regs.slot i * w.bytes
    e.source = c.cpu.source ∧ e.regs.es = c.cpu.regs.es ∧
      e.regs.si = c.cpu.regs.blockStart w c.cpu.regs.si + BitVec.ofNat 16 first ∧
      e.regs.di = c.cpu.regs.blockStart w c.cpu.regs.di + BitVec.ofNat 16 first := by
  obtain ⟨ax, flags, -, frame⟩ := elements_frame w .movs i c
  have si := c.cpu.regs.index_eq w c.cpu.regs.si before
  have di := c.cpu.regs.index_eq w c.cpu.regs.di before
  intro e first
  simp only [e, frame]
  exact ⟨rfl, trivial, si, di⟩

theorem stored_elements {i : Nat} (before : i < c.cpu.regs.cx.toNat) {a : Address}
    (stored : a ∈ StringOp.stored .movs w (elements w .movs i c).cpu) :
    ∃ j, c.cpu.regs.InSlot w i j ∧ a = destinationByte w c j := by
  obtain ⟨-, es, -, di⟩ := elements_at w c before
  change a ∈ w.addresses _ _ at stored
  rw [es, di, Width.addresses_eq_span, Flat.span_eq_map, List.mem_map] at stored
  obtain ⟨b, inside, rfl⟩ := stored
  rw [List.mem_range] at inside
  refine ⟨c.cpu.regs.slot i * w.bytes + b, ⟨Nat.le_add_right _ _, Nat.add_lt_add_left inside _⟩, ?_⟩
  rw [destinationByte, BitVec.ofNat_add, BitVec.add_assoc]

/-- The element that is next after so many fills its slot with what stands at its source. -/
theorem element_copied {i : Nat} (before : i < c.cpu.regs.cx.toNat) :
    Copied (sourceByte w c) (destinationByte w c) (c.cpu.regs.InSlot w i)
      (elements w .movs i c).bus.read (elements w .movs (i + 1) c).bus.read := by
  obtain ⟨source, es, si, di⟩ := elements_at w c before
  rw [elements, element_eq]
  refine ⟨fun j inside => ?_, fun a outside => ?_⟩
  · obtain ⟨low, high⟩ := inside
    obtain ⟨b, rfl⟩ := Nat.exists_eq_add_of_le low
    simp only [destinationByte, sourceByte, BitVec.ofNat_add, ← BitVec.add_assoc]
    rw [← source, ← es, ← si, ← di]
    exact Flat.read_put_get _ w _ _ _ _ (by omega)
  · refine Flat.read_put_of_not_mem _ _ fun stored => ?_
    obtain ⟨j, inside, same⟩ := stored_elements w c before stored
    exact outside j inside same

/-- By induction on the elements: those before have not stored where the next one reads. -/
theorem elements_copied
    (distinct : ∀ j < c.cpu.regs.blockLength w, ∀ j' < c.cpu.regs.blockLength w,
      destinationByte w c j = destinationByte w c j' → j = j')
    (unread : ∀ i < c.cpu.regs.cx.toNat, ∀ j j', c.cpu.regs.InSlots w i j →
      c.cpu.regs.InSlot w i j' → sourceByte w c j' ≠ destinationByte w c j)
    {i : Nat} (bound : i ≤ c.cpu.regs.cx.toNat) :
    Copied (sourceByte w c) (destinationByte w c) (c.cpu.regs.InSlots w i)
      c.bus.read (elements w .movs i c).bus.read := by
  induction i with
  | zero =>
    refine (Copied.none _ _ _).congr fun j => ?_
    unfold InSlots blockLength
    cases c.cpu.regs.flags.direction <;> simp
  | succ i ih =>
    have before : i < c.cpu.regs.cx.toNat := bound
    refine ((ih (Nat.le_of_lt before)).step (element_copied w c before) (unread i before) ?_).congr
      (c.cpu.regs.inSlots_succ w before)
    intro j j' earlier inside same
    obtain rfl := distinct j (earlier.lt (Nat.le_of_lt before)) j' (inside.lt before) same
    have order := earlier.order before inside
    split at order <;> exact Nat.lt_irrefl _ order

end Exec

def Core.sourceSegment (c : Core Flat) (prefixes : List Byte) : Word :=
  c.cpu.regs.segment ((PrefixQueue.empty.pushAll prefixes).segmentOverride.getD .ds)

/-- The addresses of the block at SI, and of the one at DI, from below. -/
def Core.sourceBlock (c : Core Flat) (prefixes : List Byte) (w : Width) : List Address :=
  Flat.span (c.sourceSegment prefixes) (c.cpu.regs.blockStart w c.cpu.regs.si)
    (c.cpu.regs.blockLength w)

def Core.destinationBlock (c : Core Flat) (w : Width) : List Address :=
  Flat.span c.cpu.regs.es (c.cpu.regs.blockStart w c.cpu.regs.di) (c.cpu.regs.blockLength w)

/-- A repeated instruction moves a block, in the direction that its overlap with the other one
asks for. The opcode is not stored over, so that it can be fetched again. -/
structure Core.MovesBlock (c : Core Flat) (prefixes : List Byte) (opcode : Byte) (w : Width)
    (k : RepeatClass) : Prop where
  repeats : c.Repeats prefixes opcode w .movs k
  source : Unwrapped (c.sourceSegment prefixes) (c.cpu.regs.blockStart w c.cpu.regs.si)
    (c.cpu.regs.blockLength w)
  destination : Unwrapped c.cpu.regs.es (c.cpu.regs.blockStart w c.cpu.regs.di)
    (c.cpu.regs.blockLength w)
  kept : c.opcodeAddress prefixes ∉ c.destinationBlock w
  suits :
    let start := physical (c.sourceSegment prefixes) (c.cpu.regs.blockStart w c.cpu.regs.si)
    let target := physical c.cpu.regs.es (c.cpu.regs.blockStart w c.cpu.regs.di)
    c.cpu.regs.flags.direction = false ∧ target ≤ start ∨
      c.cpu.regs.flags.direction = true ∧ start ≤ target ∨
      ∀ a ∈ c.destinationBlock w, a ∉ c.sourceBlock prefixes w

theorem Core.destinationBlock_eq (c : Core Flat) (prefixes : List Byte) (opcode : Byte)
    (w : Width) : c.destinationBlock w = (List.range (c.cpu.regs.blockLength w)).map
      (Exec.destinationByte w (c.fetched prefixes opcode)) := by
  rw [destinationBlock, Flat.span_eq_map]
  rfl

theorem Core.mem_destinationBlock (c : Core Flat) (prefixes : List Byte) (opcode : Byte)
    {w : Width} {j : Nat} (inside : j < c.cpu.regs.blockLength w) :
    Exec.destinationByte w (c.fetched prefixes opcode) j ∈ c.destinationBlock w := by
  rw [c.destinationBlock_eq prefixes opcode]
  exact List.mem_map_of_mem (List.mem_range.mpr inside)

namespace Core.MovesBlock

open Exec

variable {c : Core Flat} {prefixes : List Byte} {opcode : Byte} {w : Width} {k : RepeatClass}

theorem source_fetched (moves : c.MovesBlock prefixes opcode w k) :
    (c.fetched prefixes opcode).cpu.source = c.sourceSegment prefixes := by
  rw [Cpu.source, moves.repeats.fetched_prefixes, sourceSegment]
  cases (PrefixQueue.empty.pushAll prefixes).segmentOverride.getD .ds <;> rfl

theorem sourceBlock_eq (moves : c.MovesBlock prefixes opcode w k) :
    c.sourceBlock prefixes w = (List.range (c.cpu.regs.blockLength w)).map
      (sourceByte w (c.fetched prefixes opcode)) := by
  rw [sourceBlock, Flat.span_eq_map, ← moves.source_fetched]
  rfl

section Bytes

variable (moves : c.MovesBlock prefixes opcode w k) {j : Nat}
  (inside : j < c.cpu.regs.blockLength w)

include moves inside

theorem toNat_source : (sourceByte w (c.fetched prefixes opcode) j).toNat =
    (physical (c.sourceSegment prefixes) (c.cpu.regs.blockStart w c.cpu.regs.si)).toNat + j := by
  rw [sourceByte, moves.source_fetched, moves.source.toNat_start (Nat.zero_lt_of_lt inside)]
  exact moves.source.toNat inside

theorem toNat_destination : (destinationByte w (c.fetched prefixes opcode) j).toNat =
    (physical c.cpu.regs.es (c.cpu.regs.blockStart w c.cpu.regs.di)).toNat + j := by
  rw [moves.destination.toNat_start (Nat.zero_lt_of_lt inside)]
  exact moves.destination.toNat inside

end Bytes

/-- Nothing has been stored where the next element is read from. -/
theorem unread (moves : c.MovesBlock prefixes opcode w k) {i : Nat}
    (before : i < c.cpu.regs.cx.toNat) {j j' : Nat} (earlier : c.cpu.regs.InSlots w i j)
    (inside : c.cpu.regs.InSlot w i j') : sourceByte w (c.fetched prefixes opcode) j' ≠
      destinationByte w (c.fetched prefixes opcode) j := by
  have stored := earlier.lt (Nat.le_of_lt before)
  have next := inside.lt before
  have order := earlier.order before inside
  intro same
  have numbers := congrArg BitVec.toNat same
  rw [moves.toNat_source next, moves.toNat_destination stored] at numbers
  rcases moves.suits with ⟨up, below⟩ | ⟨down, above⟩ | disjoint
  · rw [up, if_neg Bool.false_ne_true] at order
    rw [BitVec.le_def] at below
    omega
  · rw [down, if_pos rfl] at order
    rw [BitVec.le_def] at above
    omega
  · refine disjoint _ (c.mem_destinationBlock prefixes opcode stored) ?_
    rw [moves.sourceBlock_eq, ← same]
    exact List.mem_map_of_mem (List.mem_range.mpr next)

/-- What a repeated `MOVS` leaves is a copy of the block as it was before, wherever the two
overlap, and all other memory as it was. -/
theorem block_moved (moves : c.MovesBlock prefixes opcode w k) :
    ∃ cycles d, Completes quiet c (max 1 c.cpu.regs.cx.toNat) cycles d ∧
      (c.destinationBlock w).map d.bus.read = (c.sourceBlock prefixes w).map c.bus.read ∧
      ∀ a ∉ c.destinationBlock w, d.bus.read a = c.bus.read a := by
  let s := c.fetched prefixes opcode
  let n := c.cpu.regs.cx.toNat
  have count : repetitions w .movs k s = n := repetitions_eq w .movs k s rfl
  have kept : ∀ i < repetitions w .movs k s,
      c.opcodeAddress prefixes ∉ StringOp.stored .movs w (elements w .movs i s).cpu := by
    intro i before stored
    rw [count] at before
    obtain ⟨j, inside, same⟩ := stored_elements w s before stored
    exact moves.kept (same ▸ c.mem_destinationBlock prefixes opcode (inside.lt before))
  obtain ⟨cycles, d, run, ended, -⟩ := moves.repeats.completes [] quiet List.not_mem_nil kept
    (fun _ _ _ _ => List.not_mem_nil) fun p vector served => absurd served (quiet_ne_some p vector)
  rw [count] at run ended
  have copied := elements_copied w s
    (fun j inside j' inside' same => by
      have numbers := congrArg BitVec.toNat same
      rw [moves.toNat_destination inside, moves.toNat_destination inside'] at numbers
      exact Nat.add_left_cancel numbers)
    (fun i before j j' => moves.unread before) (Nat.le_refl n)
  rw [ended.bus.eq] at copied
  refine ⟨cycles, d, run, ?_, fun a outside => copied.frame a fun j inside same => ?_⟩
  · rw [c.destinationBlock_eq prefixes opcode, moves.sourceBlock_eq, List.map_map, List.map_map]
    apply List.map_congr_left
    intro j inside
    exact copied.copied j ((c.cpu.regs.inSlots_all w j).mpr (List.mem_range.mp inside))
  · rw [same] at outside
    exact outside (c.mem_destinationBlock prefixes opcode ((c.cpu.regs.inSlots_all w j).mp inside))

/-- In front of `REP MOVSW` with two words to move, going down, by one byte. -/
def shifting : Core Flat where
  cpu := { regs := { cx := 2, si := 0x12, di := 0x13, flags := { direction := true } } }
  bus := ((default : Flat).load 0x10 [1, 2, 3, 4]).load 0xFFFF0 [0xF3, 0xA5]

theorem block_moved_shifting : ∃ cycles d, Completes quiet shifting 2 cycles d ∧
    [0x11, 0x12, 0x13, 0x14].map d.bus.read = [1, 2, 3, 4] ∧ d.bus.read 0x10 = 1 := by
  have destination : shifting.destinationBlock .word = [0x11, 0x12, 0x13, 0x14] := by decide
  have source : shifting.sourceBlock [0xF3] .word = [0x10, 0x11, 0x12, 0x13] := by decide
  have moves : shifting.MovesBlock [0xF3] 0xA5 .word .whileZero := {
    repeats := {
      running := rfl
      fresh := rfl
      untrapped := rfl
      queued := by decide
      code := by simp [shifting, Flat.CodeAt, Flat.load, Memory.load, Flat.read,
        Memory.read_write, physical]
      decoded := by decide
      repeated := by decide }
    source := by unfold Unwrapped; decide
    destination := by unfold Unwrapped; decide
    kept := by
      rw [destination]
      decide
    suits := .inr (.inl ⟨rfl, by decide⟩) }
  obtain ⟨cycles, d, run, copied, kept⟩ := moves.block_moved
  rw [destination, source] at copied
  refine ⟨cycles, d, run, copied.trans ?_, (kept 0x10 (by rw [destination]; decide)).trans ?_⟩
  · simp [shifting, Flat.load, Memory.load, Flat.read, Memory.read_write]
  · simp [shifting, Flat.load, Memory.load, Flat.read, Memory.read_write]

end Core.MovesBlock

end Swan
