import Mathlib.Data.Set.Image
import Swan.Proofs.MemoryMap
import Swan.Proofs.TransferRegisters

/-! A transfer copies its block, a word a slice. What the engine does with its registers is known
from the start: after `k` slices both places have moved on by `k` words, and so has what is left.
What is copied is known one word at a time, since a word may be one that was copied before. Only
where the blocks lie apart does the whole of the one come to be in the other. -/
namespace Swan

section Segment

theorem toNat_segment (d : Word) : (d.setWidth 20 : Address).toNat = d.toNat :=
  BitVec.toNat_setWidth_of_le (by decide)

theorem setWidth_segment (d : Word) : (d.setWidth 20 : Address).setWidth 16 = d := by
  apply BitVec.eq_of_toNat_eq
  rw [BitVec.toNat_setWidth, toNat_segment]
  exact Nat.mod_eq_of_lt d.isLt

theorem segment_eq_iff {a : Address} (low : a.toNat < 0x10000) (d : Word) :
    a = d.setWidth 20 ↔ a.setWidth 16 = d := by
  rw [← setWidth_inj low (toNat_segment d ▸ d.isLt), setWidth_segment]

theorem segment_inj {d e : Word} : (d.setWidth 20 : Address) = e.setWidth 20 ↔ d = e := by
  rw [segment_eq_iff (toNat_segment d ▸ d.isLt), setWidth_segment]

end Segment

namespace Transfer

def place {n : Nat} (down : Bool) (start : BitVec n) (distance : Nat) : BitVec n :=
  if down then start - .ofNat n distance else start + .ofNat n distance

def block {n : Nat} (down : Bool) (start : BitVec n) (size : Nat) : Set (BitVec n) :=
  {a | ∃ k, 2 * k < size ∧ (a = place down start (2 * k) ∨ a = place down start (2 * k) + 1)}

section Place

variable {n : Nat} (down : Bool) (start : BitVec n)

@[simp] theorem place_zero : place down start 0 = start := by
  cases down <;> simp [place]

theorem place_two_mul_succ (k : Nat) : place down start (2 * (k + 1)) =
    if down then place down start (2 * k) - 2 else place down start (2 * k) + 2 := by
  cases down
  · simp [place, Nat.mul_succ, BitVec.ofNat_add, BitVec.add_assoc]
  · simp [place, Nat.mul_succ, BitVec.ofNat_add, BitVec.sub_sub]

theorem place_ne_place_add_one {down : Bool} {start : Word} {j k : Nat} :
    place down start (2 * j) ≠ place down start (2 * k) + 1 := by
  unfold place
  cases down <;> simp only [Bool.false_eq_true, if_false, if_true] <;> bv_omega

theorem place_inj {down : Bool} {start : Word} {j k : Nat} (hj : 2 * j < 0x10000)
    (hk : 2 * k < 0x10000) : place down start (2 * j) = place down start (2 * k) ↔ j = k := by
  unfold place
  cases down <;> simp only [Bool.false_eq_true, if_false, if_true] <;> bv_omega

theorem mem_block {size : Nat} {a : BitVec n} : a ∈ block down start size ↔
    ∃ k, 2 * k < size ∧ (a = place down start (2 * k) ∨ a = place down start (2 * k) + 1) := Iff.rfl

theorem block_mono {size more : Nat} (le : size ≤ more) :
    block down start size ⊆ block down start more :=
  fun _ ⟨k, inside, here⟩ => ⟨k, Nat.lt_of_lt_of_le inside le, here⟩

theorem mem_block_succ (k : Nat) (a : BitVec n) : a ∈ block down start (2 * (k + 1)) ↔
    a ∈ block down start (2 * k) ∨ a = place down start (2 * k) ∨
      a = place down start (2 * k) + 1 := by
  simp only [mem_block]
  constructor
  · rintro ⟨j, inside, here⟩
    by_cases last : j = k
    · exact .inr (last ▸ here)
    · exact .inl ⟨j, by omega, here⟩
  · rintro (⟨j, inside, here⟩ | here)
    · exact ⟨j, by omega, here⟩
    · exact ⟨k, by omega, here⟩

end Place

section Program

theorem Port.number_engine (p : Port) : 0x40 ≤ p.number.toNat ∧ p.number.toNat < 0x50 := by
  cases p <;> decide

/-- A port keeps what it shows of even addresses and an even length. -/
theorem Port.keeps_byte {S : Address} {D L : Word} (source : 2 ∣ S.toNat)
    (destination : 2 ∣ D.toNat) (length : 2 ∣ L.toNat) (p : Port) :
    p.keeps (p.byte S D L) = p.byte S D L := by
  have whole : ∀ v : Byte, 2 ∣ v.toNat → evenByte v = v := by decide +kernel
  have low {n : Nat} (even : 2 ∣ n) : 2 ∣ (BitVec.ofNat 8 n).toNat := by
    rw [BitVec.toNat_ofNat]
    omega
  have bound := S.isLt
  cases p with
  | sourceLow => exact whole _ (low source)
  | destinationLow => exact whole _ (low destination)
  | lengthLow => exact whole _ (low length)
  | sourceHigh =>
    apply BitVec.eq_of_toNat_eq
    simp only [keeps, byte, BitVec.toNat_ofNat]
    omega
  | sourceMiddle | destinationHigh | lengthHigh => rfl

/-- The ports show the registers whole. -/
theorem Port.byte_inj {S S' : Address} {D D' L L' : Word}
    (same : ∀ p : Port, p.byte S D L = p.byte S' D' L') : S = S' ∧ D = D' ∧ L = L' := by
  have bytes (p : Port) := congrArg BitVec.toNat (same p)
  have low := bytes .sourceLow
  have middle := bytes .sourceMiddle
  have high := bytes .sourceHigh
  have destinationLow := bytes .destinationLow
  have destinationHigh := bytes .destinationHigh
  have lengthLow := bytes .lengthLow
  have lengthHigh := bytes .lengthHigh
  simp only [byte, BitVec.toNat_ofNat] at *
  refine ⟨?_, ?_, ?_⟩ <;> bv_omega

/-- Of all bytes that are written to a port, the last one counts. -/
theorem byte_writes (t : Transfer) (writes : List (Byte × Byte)) (p : Port) :
    (writes.foldl (fun t w => t.writePort w.1 w.2) t).byte p =
      ((writes.reverse.lookup p.number).map p.keeps).getD (t.byte p) := by
  induction writes generalizing t with
  | nil => rfl
  | cons w rest ih =>
    obtain ⟨port, v⟩ := w
    rw [List.foldl_cons, ih, byte_writePort, List.reverse_cons, List.lookup_append]
    cases rest.reverse.lookup p.number with
    | some v => rfl
    | none =>
      by_cases here : port = p.number
      · simp [here]
      · simp [here, List.lookup_singleton, beq_false_of_ne (Ne.symm here)]

end Program

/-- The registers of a transfer of `n` words after `k` slices. -/
def underway (down : Bool) (S : Address) (D : Word) (n k : Nat) : Transfer where
  source := place down S (2 * k)
  destination := place down D (2 * k)
  length := .ofNat 16 (2 * (n - k))
  active := decide (k < n)
  decrement := down
  fresh := decide (k = 0)

/-- The cycles of some slices from the start of a transfer on. -/
def spent (k : Nat) : Nat := if k = 0 then 0 else 2 * k + 5

theorem spent_succ (k : Nat) : spent k + (if k = 0 then 7 else 2) = spent (k + 1) := by
  cases k <;> simp [spent, Nat.mul_succ]

section Underway

variable {down : Bool} {S : Address} {D : Word} {n k : Nat}

theorem setControl_underway (t : Transfer) (down : Bool) (length : 2 ∣ t.length.toNat)
    (left : t.length ≠ 0) : t.setControl (if down then 0xC0 else 0x80) =
      underway down t.source t.destination (t.length.toNat / 2) 0 := by
  have starts : (if down then 0xC0 else 0x80 : Byte).getLsbD 7 = true := by cases down <;> rfl
  have direction : (if down then 0xC0 else 0x80 : Byte).getLsbD 6 = down := by cases down <;> rfl
  have nonempty : (t.length != 0) = true := bne_iff_ne.mpr left
  have words : 0 < t.length.toNat / 2 := by
    have bytes : t.length.toNat ≠ 0 := fun zero => left (BitVec.eq_of_toNat_eq zero)
    omega
  have size : BitVec.ofNat 16 (2 * (t.length.toNat / 2)) = t.length := by
    rw [Nat.mul_div_cancel' length, BitVec.ofNat_toNat, BitVec.setWidth_eq]
  rw [setControl, underway, starts, direction, nonempty, Nat.mul_zero, place_zero, place_zero,
    Nat.sub_zero, size, decide_eq_true words]
  rfl

theorem next?_underway (size : 2 * n < 0x10000) (more : k < n) :
    (underway down S D n k).next? =
      (some ⟨place down S (2 * k), place down D (2 * k), if k = 0 then 7 else 2⟩,
        underway down S D n (k + 1)) := by
  have bytes : (BitVec.ofNat 16 (2 * (n - k))).toNat = 2 * (n - k) := by
    rw [BitVec.toNat_ofNat]
    omega
  have some_left : ¬ BitVec.ofNat 16 (2 * (n - k)) < 2 := by
    rw [BitVec.lt_def, bytes]
    exact Nat.not_lt.mpr (Nat.le_mul_of_pos_right 2 (Nat.sub_pos_of_lt more))
  have fewer : BitVec.ofNat 16 (2 * (n - k)) - 2 = BitVec.ofNat 16 (2 * (n - (k + 1))) := by
    bv_omega
  have rounds : (BitVec.ofNat 16 (2 * (n - (k + 1))) != 0) = decide (k + 1 < n) := by
    rw [Bool.eq_iff_iff, bne_iff_ne, decide_eq_true_iff]
    bv_omega
  simp only [next?, underway, decide_eq_true more, Bool.not_true, Bool.false_eq_true, if_false,
    some_left, fewer, rounds, place_two_mul_succ, decide_eq_true_eq]
  rfl

theorem readPort_done :
    (underway down S D n n).readPort 0x48 = if down then 0x40 else 0 := by
  have read : (underway down S D n n).readPort 0x48 =
      BitVec.ofBool (decide (n < n)) ++ BitVec.ofBool down ++ (0 : BitVec 6) := rfl
  rw [read, decide_eq_false (Nat.lt_irrefl n)]
  cases down <;> rfl

theorem next?_done : (underway down S D n n).next? = (none, underway down S D n n) := by
  simp [next?, underway]

end Underway

end Transfer

/-- On the model with the engine, sixteen ports are the engine's. -/
theorem PortOwner.of_color_eq_transfer (port : Byte) :
    PortOwner.of .color port = .transfer ↔ 0x40 ≤ port.toNat ∧ port.toNat < 0x50 := by
  revert port
  decide +kernel

/-- An event that writes nothing itself, though the engine may copy. -/
def BusEvent.Quiet : BusEvent → Prop
  | .write _ _ | .portOut _ _ | .reset => False
  | .read _ | .portIn _ | .slice | .devices _ => True

namespace Board

open Transfer

variable {δ ω : Type} [Device δ] [Observer ω]

def started (b : Board δ ω) (writes : List (Byte × Byte)) (down : Bool) : Board δ ω :=
  Bus.portOut (writes.foldl (fun b w => Bus.portOut b w.1 w.2) b) 0x48
    (if down then 0xC0 else 0x80)

def transferCycles (b : Board δ ω) : List BusEvent → Nat
  | [] => 0
  | e :: rest => (if e = .slice then b.runSlice.1 else 0) + (b.after e).transferCycles rest

/-- A bus of the model with the engine, seen by nobody, with a bootstrap image that fits. -/
structure Plain (b : Board δ ω) : Prop where
  color : b.model = .color
  unobserved : b.observer = none
  overlay : b.bootstrap.size ≤ Model.color.bootstrapSize

omit [Device δ] [Observer ω] in
/-- So is every bus that is built of parts. -/
theorem plain_of_build {bootstrap : Image} {cartridge : Cartridge} {b : Board δ ω}
    (built : build .color bootstrap cartridge = .ok b) : b.Plain := by
  unfold build at built
  split at built
  case isTrue => cases built
  case isFalse accepted =>
    cases built
    have size : bootstrap.isEmpty = true ∨ bootstrap.size = Model.color.bootstrapSize := by
      simpa [Classical.or_iff_not_imp_left] using accepted
    have fits : bootstrap.size ≤ Model.color.bootstrapSize := by
      rcases size with none | whole
      · rw [Image.isEmpty_iff.mp none]
        exact Nat.zero_le _
      · exact Nat.le_of_eq whole
    exact ⟨rfl, rfl, fits⟩

namespace Plain

variable {b : Board δ ω} (plain : b.Plain)

include plain

theorem portOut_engine {port : Byte} (low : 0x40 ≤ port.toNat) (high : port.toNat < 0x50)
    (v : Byte) : Bus.portOut b port v = { b with transfer := b.transfer.writePort port v } := by
  rw [portOut_unobserved plain.unobserved, writePort, plain.color,
    (PortOwner.of_color_eq_transfer port).mpr ⟨low, high⟩]

theorem portIn_engine {port : Byte} (low : 0x40 ≤ port.toNat) (high : port.toNat < 0x50) :
    (Bus.portIn b port).1 = b.transfer.readPort port := by
  have read : b.readPort port = (b.transfer.readPort port, b) := by
    rw [readPort, plain.color, (PortOwner.of_color_eq_transfer port).mpr ⟨low, high⟩]
  have seen : (Bus.portIn b port).1 = (observe (Observer.portRead · port ·)
    (b.readPort port).1 (b.readPort port).2.observer).1 := rfl
  rw [seen, read, plain.unobserved]
  rfl

/-- The first segment is memory, and all of it is. -/
theorem write_segment (d : Word) (v : Byte) :
    Bus.write b (d.setWidth 20) v = { b with ram := b.ram.write d v } := by
  have low : (d.setWidth 20 : Address).toNat < 0x10000 := by
    rw [toNat_segment]
    exact d.isLt
  have first : (d.setWidth 20 : Address).toNat < Cartridge.sramStart := low
  have backed : (d.setWidth 20 : Address).toNat < b.model.ramSize := by
    rw [plain.color]
    exact low
  rw [write_unobserved plain.unobserved, poke, if_pos first, if_pos backed, setWidth_segment]

omit [Device δ] [Observer ω] in
/-- No overlay reaches down to the first segment. -/
theorem peek_segment {a : Address} (low : a.toNat < 0x10000) :
    b.peek a = b.ram.read (a.setWidth 16) := by
  have small : b.bootstrap.size ≤ 0x2000 := plain.overlay
  have under : ¬ b.inBootstrap a = true := by
    rw [inBootstrap, bootstrapStart, Bool.and_eq_true, decide_eq_true_eq]
    omega
  have first : a.toNat < Cartridge.sramStart := low
  have backed : a.toNat < b.model.ramSize := by
    rw [plain.color]
    exact low
  rw [peek, if_neg under, if_pos first, if_pos backed]

omit [Device δ] [Observer ω] in
theorem peek_write (d : Word) (v : Byte) (a : Address) :
    ({ b with ram := b.ram.write d v } : Board δ ω).peek a =
      if a = d.setWidth 20 then v else b.peek a := by
  have stored : ({ b with ram := b.ram.write d v } : Board δ ω).Plain := { plain with }
  by_cases low : a.toNat < 0x10000
  · rw [stored.peek_segment low, plain.peek_segment low, Memory.read_write]
    simp only [segment_eq_iff low]
  · have other : a ≠ d.setWidth 20 := by
      rintro rfl
      rw [toNat_segment] at low
      exact low d.isLt
    have outer : ¬ a.toNat < Cartridge.sramStart := low
    rw [if_neg other, peek, peek, if_neg outer, if_neg outer]
    rfl

omit [Device δ] [Observer ω] in
theorem peek_write_write (d e : Word) (v w : Byte) (a : Address) :
    ({ b with ram := (b.ram.write d v).write e w } : Board δ ω).peek a =
      if a = e.setWidth 20 then w else if a = d.setWidth 20 then v else b.peek a := by
  have stored : ({ b with ram := b.ram.write d v } : Board δ ω).Plain := { plain with }
  rw [← plain.peek_write d v a]
  exact stored.peek_write e w a

/-- A slice that is claimed stores two bytes. Both are read before one is stored. -/
theorem runSlice_claimed {slice : Slice} {t : Transfer}
    (next : b.transfer.next? = (some slice, t)) : b.runSlice = (slice.cycles, { b with
      transfer := t
      ram := (b.ram.write slice.destination (b.peek slice.source)).write (slice.destination + 1)
        (b.peek (slice.source + 1)) }) := by
  have claimed : ({ b with transfer := t } : Board δ ω).Plain := { plain with }
  have stored : ({ b with
      transfer := t
      ram := b.ram.write slice.destination (b.peek slice.source) } : Board δ ω).Plain :=
    { plain with }
  rw [runSlice, next]
  dsimp only
  rw [read_unobserved claimed.unobserved]
  dsimp only
  rw [read_unobserved claimed.unobserved, claimed.write_segment]
  exact congrArg (Prod.mk slice.cycles) (stored.write_segment _ _)

end Plain

def target (down : Bool) (D : Word) (size : Nat) : Set Address :=
  Set.image (fun d : Word => d.setWidth 20) (block down D size)

theorem target_mono (down : Bool) (D : Word) {size more : Nat} (le : size ≤ more) :
    target down D size ⊆ target down D more := Set.image_mono (block_mono down D le)

omit [Device δ] [Observer ω] in
theorem mem_target_succ (down : Bool) (D : Word) (k : Nat) (a : Address) :
    a ∈ target down D (2 * (k + 1)) ↔ a ∈ target down D (2 * k) ∨
      a = (place down D (2 * k)).setWidth 20 ∨ a = (place down D (2 * k) + 1).setWidth 20 := by
  simp only [target, Set.mem_image, mem_block_succ, or_and_right, exists_or, exists_eq_left,
    eq_comm]

/-- A board on which some slices have been run, of a transfer that was started on another. -/
structure Copying (b c : Board δ ω) (down : Bool) (S : Address) (D : Word) (n k : Nat) :
    Prop where
  plain : c.Plain
  transfer : c.transfer = underway down S D n k
  outside : ∀ a ∉ target down D (2 * k), c.peek a = b.peek a
  copied : (∀ a ∈ block down S (2 * n), a ∉ target down D (2 * n)) → ∀ j < k,
    c.peek ((place down D (2 * j)).setWidth 20) = b.peek (place down S (2 * j)) ∧
      c.peek ((place down D (2 * j) + 1).setWidth 20) = b.peek (place down S (2 * j) + 1)

namespace Copying

variable {b c : Board δ ω} {down : Bool} {S : Address} {D : Word} {n k : Nat}

theorem claimed (copying : Copying b c down S D n k) (size : 2 * n < 0x10000) (more : k < n) :
    ∃ ram, c.runSlice = (if k = 0 then 7 else 2,
        { c with transfer := underway down S D n (k + 1), ram }) ∧
      ∀ a, c.runSlice.2.peek a =
        if a = (place down D (2 * k) + 1).setWidth 20 then c.peek (place down S (2 * k) + 1)
        else if a = (place down D (2 * k)).setWidth 20 then c.peek (place down S (2 * k))
        else c.peek a := by
  have next := copying.transfer ▸ next?_underway size more
  have ran := copying.plain.runSlice_claimed next
  refine ⟨_, ran, fun a => ?_⟩
  rw [ran]
  have moved : ({ c with transfer := underway down S D n (k + 1) } : Board δ ω).Plain :=
    { copying.plain with }
  exact moved.peek_write_write _ _ _ _ a

theorem slice (copying : Copying b c down S D n k) (size : 2 * n < 0x10000) (more : k < n) :
    Copying b c.runSlice.2 down S D n (k + 1) := by
  obtain ⟨ram, ran, word⟩ := copying.claimed size more
  constructor
  case plain =>
    rw [ran]
    exact { copying.plain with }
  case transfer => rw [ran]
  case outside =>
    intro a far
    rw [mem_target_succ, not_or, not_or] at far
    obtain ⟨earlier, notLow, notHigh⟩ := far
    rw [word, if_neg notHigh, if_neg notLow]
    exact copying.outside a earlier
  case copied =>
    intro apart j before
    have unread {a : Address} (here : a ∈ block down S (2 * n)) : c.peek a = b.peek a :=
      copying.outside a fun stored => apart a here (target_mono down D (by omega) stored)
    rw [word, word]
    have within {i : Nat} (lt : i < n) : 2 * i < 0x10000 := by omega
    simp only [segment_inj, place_ne_place_add_one, place_ne_place_add_one.symm, if_false,
      BitVec.add_left_inj, place_inj (within (Nat.lt_of_lt_of_le before more)) (within more)]
    obtain rfl | earlier : j = k ∨ j < k := by omega
    · rw [if_pos rfl, if_pos rfl]
      exact ⟨unread ⟨j, by omega, .inl rfl⟩, unread ⟨j, by omega, .inr rfl⟩⟩
    · rw [if_neg (Nat.ne_of_lt earlier), if_neg (Nat.ne_of_lt earlier)]
      exact copying.copied apart j earlier

/-- With no word left, slices change nothing. -/
theorem done (copying : Copying b c down S D n n) : c.runSlice = (0, c) := by
  rw [Board.runSlice, copying.transfer, next?_done]

/-- A slice copies the next word, unless there is none left. -/
theorem next (copying : Copying b c down S D n k) (size : 2 * n < 0x10000) (le : k ≤ n) :
    Copying b c.runSlice.2 down S D n (min (k + 1) n) ∧
      spent k + c.runSlice.1 = spent (min (k + 1) n) := by
  obtain more | rfl := Nat.lt_or_eq_of_le le
  · obtain ⟨ram, ran, -⟩ := copying.claimed size more
    rw [Nat.min_eq_left more]
    refine ⟨copying.slice size more, ?_⟩
    rw [ran, spent_succ]
  · rw [Nat.min_eq_right (Nat.le_succ k), copying.done]
    exact ⟨copying, rfl⟩

omit [Device δ] [Observer ω] in
/-- What the devices and the ports' readers change has no part in a transfer. -/
theorem aside (copying : Copying b c down S D n k) (raster : Raster) (sound serial : Slot δ)
    (interrupts : Interrupts) :
    Copying b { c with raster, sound, serial, interrupts } down S D n k where
  plain := { copying.plain with }
  transfer := copying.transfer
  outside := copying.outside
  copied := copying.copied

theorem after (copying : Copying b c down S D n k) {e : BusEvent} (quiet : e.Quiet)
    (other : e ≠ .slice) : Copying b (c.after e) down S D n k := by
  cases e with
  | read a =>
    rw [Board.after, read_unobserved copying.plain.unobserved]
    exact copying
  | portIn p =>
    obtain ⟨sound, serial, eq⟩ := portIn_unobserved copying.plain.unobserved p
    rw [Board.after, eq]
    exact copying.aside c.raster sound serial c.interrupts
  | devices cycles => exact copying.aside _ _ _ _
  | slice => exact absurd rfl other
  | write a v => exact quiet.elim
  | portOut p v => exact quiet.elim
  | reset => exact quiet.elim

theorem run (copying : Copying b c down S D n k) (size : 2 * n < 0x10000) (le : k ≤ n)
    {events : List BusEvent} (quiet : ∀ e ∈ events, e.Quiet) :
    Copying b (c.run events) down S D n (min (k + events.count .slice) n) ∧
      spent k + c.transferCycles events = spent (min (k + events.count .slice) n) := by
  -- Only a slice counts, so the induction is over any number of slices run already.
  induction events generalizing c k with
  | nil =>
    simp only [List.count_nil, Nat.add_zero, Nat.min_eq_left le]
    exact ⟨copying, rfl⟩
  | cons e rest ih =>
    obtain ⟨first, later⟩ := List.forall_mem_cons.mp quiet
    have step : c.run (e :: rest) = (c.after e).run rest := rfl
    rw [step, transferCycles]
    by_cases isSlice : e = .slice
    · subst isSlice
      obtain ⟨sliced, paid⟩ := copying.next size le
      have counted : min (k + (BusEvent.slice :: rest).count .slice) n =
          min (min (k + 1) n + rest.count .slice) n := by
        rw [List.count_cons_self]
        omega
      rw [counted, if_pos rfl, ← Nat.add_assoc, paid]
      exact ih sliced (Nat.min_le_right _ _) later
    · rw [if_neg isSlice, Nat.zero_add, List.count_cons_of_ne isSlice]
      exact ih (copying.after first isSlice) le later

end Copying

theorem Plain.set_up {b : Board δ ω} (plain : b.Plain) {writes : List (Byte × Byte)}
    (ports : ∀ w ∈ writes, 0x40 ≤ w.1.toNat ∧ w.1.toNat < 0x48) :
    writes.foldl (fun b w => Bus.portOut b w.1 w.2) b =
      { b with transfer := writes.foldl (fun t w => t.writePort w.1 w.2) b.transfer } := by
  induction writes generalizing b with
  | nil => rfl
  | cons w rest ih =>
    obtain ⟨⟨low, high⟩, later⟩ := List.forall_mem_cons.mp ports
    have written : ({ b with transfer := b.transfer.writePort w.1 w.2 } : Board δ ω).Plain :=
      { plain with }
    rw [List.foldl_cons, plain.portOut_engine low (Nat.lt_trans high (by decide))]
    exact ih written later

/-- The engine starts with the registers that were written, whatever it did before. -/
theorem Plain.started_copying {b : Board δ ω} (plain : b.Plain) (down : Bool) {S : Address}
    {D L : Word} (source : 2 ∣ S.toNat) (destination : 2 ∣ D.toNat) (length : 2 ∣ L.toNat)
    (left : L ≠ 0) {writes : List (Byte × Byte)}
    (ports : ∀ w ∈ writes, 0x40 ≤ w.1.toNat ∧ w.1.toNat < 0x48)
    (last : ∀ p : Port, writes.reverse.lookup p.number = some (p.byte S D L)) :
    (∃ transfer, b.started writes down = { b with transfer }) ∧
      Copying b (b.started writes down) down S D (L.toNat / 2) 0 := by
  have whole : ({ b with transfer := writes.foldl (fun t w => t.writePort w.1 w.2) b.transfer } :
    Board δ ω).Plain := { plain with }
  generalize written : writes.foldl (fun t w => t.writePort w.1 w.2) b.transfer = t at whole
  have registers (p : Port) : p.byte t.source t.destination t.length = p.byte S D L := by
    have byte := byte_writes b.transfer writes p
    rw [written, last] at byte
    exact byte.trans (p.keeps_byte source destination length)
  obtain ⟨sources, destinations, lengths⟩ := Port.byte_inj registers
  have start : b.started writes down =
      { b with transfer := t.setControl (if down then 0xC0 else 0x80) } := by
    rw [started, plain.set_up ports, written, whole.portOut_engine (by decide) (by decide)]
    rfl
  have set := t.setControl_underway down (lengths ▸ length) (lengths ▸ left)
  rw [sources, destinations, lengths] at set
  rw [start, set]
  exact ⟨⟨_, rfl⟩, { plain with }, rfl, fun _ _ => rfl,
    fun _ _ none => absurd none (Nat.not_lt_zero _)⟩

/-- What there is to say of a board after some slices, which were run since a transfer was
started on a board `b`. It is active for as many slices as the length counts words. -/
structure Transferring (b c : Board δ ω) (down : Bool) (S : Address) (D L : Word) (slices : Nat) :
    Prop where
  active : c.transferActive = decide (slices < L.toNat / 2)
  cycles : c.runSlice.1 = if L.toNat / 2 ≤ slices then 0 else if slices = 0 then 7 else 2
  frame : ∃ transfer ram, c.runSlice.2 = { c with transfer, ram }
  /-- A slice reads its word from memory as earlier slices have left it. -/
  word : slices < L.toNat / 2 → ∀ a, c.runSlice.2.peek a =
    if a = (place down D (2 * slices)).setWidth 20 then c.peek (place down S (2 * slices))
    else if a = (place down D (2 * slices) + 1).setWidth 20 then
      c.peek (place down S (2 * slices) + 1)
    else c.peek a
  outside : ∀ a ∉ target down D L.toNat, c.peek a = b.peek a
  ended : L.toNat / 2 ≤ slices → c.runSlice = (0, c)
  registers : L.toNat / 2 ≤ slices → ∀ p : Port,
    (Bus.portIn c p.number).1 = p.byte (place down S L.toNat) (place down D L.toNat) 0
  control : L.toNat / 2 ≤ slices → (Bus.portIn c 0x48).1 = if down then 0x40 else 0
  copied : L.toNat / 2 ≤ slices →
    (∀ a ∈ block down S L.toNat, a ∉ target down D L.toNat) → ∀ j < L.toNat / 2,
      c.peek ((place down D (2 * j)).setWidth 20) = b.peek (place down S (2 * j)) ∧
        c.peek ((place down D (2 * j) + 1).setWidth 20) = b.peek (place down S (2 * j) + 1)

theorem Copying.transferring {b c : Board δ ω} {down : Bool} {S : Address} {D L : Word}
    {slices : Nat} (length : 2 ∣ L.toNat)
    (copying : Copying b c down S D (L.toNat / 2) (min slices (L.toNat / 2))) :
    Transferring b c down S D L slices := by
  have bytes : 2 * (L.toNat / 2) = L.toNat := Nat.mul_div_cancel' length
  have size : 2 * (L.toNat / 2) < 0x10000 := by
    rw [bytes]
    exact L.isLt
  have engine : c.transferActive = c.transfer.active := by
    rw [transferActive, copying.plain.color]
    rfl
  by_cases more : slices < L.toNat / 2
  · rw [Nat.min_eq_left (Nat.le_of_lt more)] at copying
    obtain ⟨ram, ran, word⟩ := copying.claimed size more
    have unfinished : ¬ L.toNat / 2 ≤ slices := Nat.not_le.mpr more
    exact {
      active := by rw [engine, copying.transfer]; rfl
      cycles := by rw [ran, if_neg unfinished]
      frame := ⟨_, ram, congrArg Prod.snd ran⟩
      word := fun _ a => by
        by_cases low : a = (place down D (2 * slices)).setWidth 20
        · have different : a ≠ (place down D (2 * slices) + 1).setWidth 20 := fun high =>
            place_ne_place_add_one (segment_inj.mp (low.symm.trans high))
          rw [word, if_neg different, if_pos low, if_pos low]
        · rw [word, if_neg low, if_neg low]
      outside := fun a far => copying.outside a fun near =>
        far (target_mono down D (by omega) near)
      ended := fun finished => absurd finished unfinished
      registers := fun finished => absurd finished unfinished
      control := fun finished => absurd finished unfinished
      copied := fun finished => absurd finished unfinished }
  · have finished : L.toNat / 2 ≤ slices := Nat.not_lt.mp more
    rw [Nat.min_eq_right finished] at copying
    have idle := copying.done
    exact {
      active := by rw [engine, copying.transfer, decide_eq_false more]; simp [underway]
      cycles := by rw [idle, if_pos finished]
      frame := ⟨c.transfer, c.ram, congrArg Prod.snd idle⟩
      word := fun now => absurd now more
      outside := bytes ▸ copying.outside
      ended := fun _ => idle
      registers := fun _ p => by
        obtain ⟨low, high⟩ := p.number_engine
        rw [copying.plain.portIn_engine low high, readPort_number, Transfer.byte,
          copying.transfer, underway, bytes, Nat.sub_self]
        rfl
      control := fun _ => by
        rw [copying.plain.portIn_engine (by decide) (by decide), copying.transfer,
          readPort_done]
      copied := fun _ apart => copying.copied (by rwa [bytes]) }

/-- A transfer copies its block, and nothing else, in slices whose cycles come to five more than
the length. The registers may be written in any order, and once started nothing writes to the
board. -/
theorem block_transferred {b : Board δ ω} (plain : b.Plain) (down : Bool) {S : Address}
    {D L : Word} (source : 2 ∣ S.toNat) (destination : 2 ∣ D.toNat) (length : 2 ∣ L.toNat)
    (left : L ≠ 0) {writes : List (Byte × Byte)}
    (ports : ∀ w ∈ writes, 0x40 ≤ w.1.toNat ∧ w.1.toNat < 0x48)
    (last : ∀ p : Port, writes.reverse.lookup p.number = some (p.byte S D L)) :
    (∃ transfer, b.started writes down = { b with transfer }) ∧
      ∀ events : List BusEvent, (∀ e ∈ events, e.Quiet) →
        Transferring b ((b.started writes down).run events) down S D L (events.count .slice) ∧
        (L.toNat / 2 ≤ events.count .slice →
          (b.started writes down).transferCycles events = L.toNat + 5) := by
  obtain ⟨start, copying⟩ :=
    plain.started_copying down source destination length left ports last
  refine ⟨start, fun events quiet => ?_⟩
  have bytes : 2 * (L.toNat / 2) = L.toNat := Nat.mul_div_cancel' length
  have size : 2 * (L.toNat / 2) < 0x10000 := by
    rw [bytes]
    exact L.isLt
  obtain ⟨after, cycles⟩ := copying.run size (Nat.zero_le _) quiet
  rw [Nat.zero_add] at after cycles
  refine ⟨after.transferring length, fun finished => ?_⟩
  have some : L.toNat / 2 ≠ 0 := fun none => left (BitVec.eq_of_toNat_eq (by
    rw [← bytes, none]
    rfl))
  have paid : spent (L.toNat / 2) = L.toNat + 5 := by
    rw [spent, if_neg some, bytes]
  rw [Nat.min_eq_right finished, paid] at cycles
  exact (Nat.zero_add _).symm.trans cycles

/-- Two words are copied downward, from the first address on and to it, so that both places
wrap. A byte of a register is written twice. -/
theorem block_transferred_wrapping : ∃ (cartridge : Cartridge) (b : Board Empty Empty),
    Cartridge.ofRom? (.zeros Cartridge.bankSize) 0 = .ok cartridge ∧
    Board.build .color {} cartridge = .ok b ∧
    Transferring b ((b.started [(0x45, 0x12), (0x46, 4), (0x40, 0), (0x42, 0), (0x41, 0),
      (0x45, 0), (0x44, 0), (0x47, 0)] true).run [.slice, .devices 7, .read 0, .slice, .slice])
      true 0 0 4 3 := by
  obtain ⟨cartridge, accepted⟩ := Cartridge.ofRom?_zeros_bank 0
  obtain ⟨b, built⟩ : ∃ b : Board Empty Empty, build .color {} cartridge = .ok b := ⟨_, rfl⟩
  have last (p : Port) : [(0x45, 0x12), (0x46, 4), (0x40, 0), (0x42, 0), (0x41, 0), (0x45, 0),
      (0x44, 0), (0x47, 0)].reverse.lookup p.number = some (p.byte 0 0 4) := by
    cases p <;> rfl
  obtain ⟨-, ran⟩ := block_transferred (plain_of_build built) true (S := 0) (D := 0) (L := 4) (by decide)
    (by decide) (by decide) (by decide) (by simp) last
  exact ⟨cartridge, b, accepted, built,
    (ran [.slice, .devices 7, .read 0, .slice, .slice] (by simp [BusEvent.Quiet])).1⟩

end Board

end Swan
