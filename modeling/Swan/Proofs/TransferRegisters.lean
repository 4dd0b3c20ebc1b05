import Mathlib.Algebra.Group.Nat.Defs
import Mathlib.Data.List.Induction
import Swan.Console.Transfer
import Swan.Proofs.FlatAccess

/-! The registers of the transfer engine, which are written a byte at a time, before a transfer,
during one and after it. Each port keeps what belongs to its byte, so addresses and the length are
always even. A transfer is started only with something to copy and stops with nothing left, but
its length can also be written while it is active. That is the one way to an active transfer that
has no word left, which then copies one more. -/
namespace Swan

theorem toNat_append_eq {m n : Nat} (x : BitVec m) (y : BitVec n) :
    (x ++ y).toNat = 2 ^ n * x.toNat + y.toNat := by
  rw [BitVec.toNat_append, ← Nat.shiftLeft_add_eq_or_of_lt y.isLt, Nat.shiftLeft_eq, Nat.mul_comm]

namespace Transfer

inductive Port where
  | sourceLow | sourceMiddle | sourceHigh
  | destinationLow | destinationHigh
  | lengthLow | lengthHigh
  deriving DecidableEq, Repr

namespace Port

def number : Port → Byte
  | sourceLow => 0x40
  | sourceMiddle => 0x41
  | sourceHigh => 0x42
  | destinationLow => 0x44
  | destinationHigh => 0x45
  | lengthLow => 0x46
  | lengthHigh => 0x47

def byte (source : Address) (destination length : Word) : Port → Byte
  | sourceLow => .ofNat 8 source.toNat
  | sourceMiddle => .ofNat 8 (source.toNat / 0x100)
  | sourceHigh => .ofNat 8 (source.toNat / 0x10000)
  | destinationLow => .ofNat 8 destination.toNat
  | destinationHigh => .ofNat 8 (destination.toNat / 0x100)
  | lengthLow => .ofNat 8 length.toNat
  | lengthHigh => .ofNat 8 (length.toNat / 0x100)

/-- What is left of a byte that is written to a port. -/
def keeps : Port → Byte → Byte
  | sourceLow, v | destinationLow, v | lengthLow, v => evenByte v
  | sourceHigh, v => .ofNat 8 (v.toNat % 0x10)
  | _, v => v

end Port

variable (t : Transfer)

def byte (p : Port) : Byte := p.byte t.source t.destination t.length

section Source

variable (s : Address) (v : Byte)

theorem toNat_setLow : (s.extractLsb' 8 12 ++ v : Address).toNat =
    s.toNat / 0x100 * 0x100 + v.toNat := by
  have bound := s.isLt
  refine (toNat_append_eq _ v).trans ?_
  rw [BitVec.extractLsb'_toNat, Nat.shiftRight_eq_div_pow]
  omega

theorem toNat_setMiddle : (s.extractLsb' 16 4 ++ v ++ s.setWidth 8 : Address).toNat =
    s.toNat / 0x10000 * 0x10000 + v.toNat * 0x100 + s.toNat % 0x100 := by
  have bound := s.isLt
  refine (toNat_append_eq (s.extractLsb' 16 4 ++ v) _).trans ?_
  rw [toNat_append_eq, BitVec.extractLsb'_toNat, BitVec.toNat_setWidth, Nat.shiftRight_eq_div_pow]
  omega

theorem toNat_setHigh : (v.setWidth 4 ++ s.setWidth 16 : Address).toNat =
    v.toNat % 0x10 * 0x10000 + s.toNat % 0x10000 := by
  refine (toNat_append_eq (v.setWidth 4) _).trans ?_
  rw [BitVec.toNat_setWidth, BitVec.toNat_setWidth]
  omega

end Source

theorem readPort_number (p : Port) : t.readPort p.number = t.byte p := by
  cases p <;> apply BitVec.eq_of_toNat_eq <;>
    simp [readPort, Port.number, byte, Port.byte, Word.toNat_low, Word.toNat_high,
      Nat.shiftRight_eq_div_pow] <;> omega

theorem byte_writePort_number (p q : Port) (v : Byte) :
    (t.writePort p.number v).byte q = if p = q then q.keeps v else t.byte q := by
  have hs := t.source.isLt
  cases p <;> cases q <;> apply BitVec.eq_of_toNat_eq <;>
    simp [writePort, Port.number, byte, Port.byte, Port.keeps, Word.toNat_ofBytes, Word.toNat_low,
      Word.toNat_high, toNat_setLow, toNat_setMiddle, toNat_setHigh] <;> omega

theorem Port.number_inj {p q : Port} : p.number = q.number ↔ p = q := by
  cases p <;> cases q <;> decide

/-- Other ports are no registers: they set the control bits at most. -/
theorem writePort_other {port : Byte} (other : ∀ p : Port, p.number ≠ port) (v : Byte) :
    (t.writePort port v).source = t.source ∧ (t.writePort port v).destination = t.destination ∧
      (t.writePort port v).length = t.length := by
  have absurd_of {p : Port} {α : Prop} (eq : port.toNat = p.number.toNat) : α :=
    absurd (BitVec.eq_of_toNat_eq eq.symm) (other p)
  unfold writePort
  split
  case h_1 eq => exact absurd_of (p := .sourceLow) eq
  case h_2 eq => exact absurd_of (p := .sourceMiddle) eq
  case h_3 eq => exact absurd_of (p := .sourceHigh) eq
  case h_4 eq => exact absurd_of (p := .destinationLow) eq
  case h_5 eq => exact absurd_of (p := .destinationHigh) eq
  case h_6 eq => exact absurd_of (p := .lengthLow) eq
  case h_7 eq => exact absurd_of (p := .lengthHigh) eq
  case h_8 => exact ⟨rfl, rfl, rfl⟩
  case h_9 => exact ⟨rfl, rfl, rfl⟩

theorem byte_writePort (port v : Byte) (q : Port) :
    (t.writePort port v).byte q = if port = q.number then q.keeps v else t.byte q := by
  by_cases register : ∃ p : Port, p.number = port
  · obtain ⟨p, rfl⟩ := register
    rw [byte_writePort_number]
    simp only [Port.number_inj]
  · have other (p : Port) : p.number ≠ port := fun eq => register ⟨p, eq⟩
    obtain ⟨source, destination, length⟩ := t.writePort_other other v
    rw [if_neg (other q).symm, byte, source, destination, length, byte]

/-- Addresses and the length are even: they count words, in bytes. -/
structure Aligned (t : Transfer) : Prop where
  source : 2 ∣ t.source.toNat
  destination : 2 ∣ t.destination.toNat
  length : 2 ∣ t.length.toNat

def Port.isLow : Port → Bool
  | sourceLow | destinationLow | lengthLow => true
  | _ => false

theorem aligned_iff : t.Aligned ↔ ∀ p : Port, p.isLow = true → 2 ∣ (t.byte p).toNat := by
  have low (n : Nat) : 2 ∣ (BitVec.ofNat 8 n).toNat ↔ 2 ∣ n := by
    rw [BitVec.toNat_ofNat]
    omega
  constructor
  · intro aligned p isLow
    cases p with
    | sourceLow => exact (low _).mpr aligned.source
    | destinationLow => exact (low _).mpr aligned.destination
    | lengthLow => exact (low _).mpr aligned.length
    | sourceMiddle | sourceHigh | destinationHigh | lengthHigh => cases isLow
  · intro even
    exact ⟨(low _).mp (even .sourceLow rfl), (low _).mp (even .destinationLow rfl),
      (low _).mp (even .lengthLow rfl)⟩

theorem Port.keeps_even {p : Port} (low : p.isLow = true) (v : Byte) : 2 ∣ (p.keeps v).toNat := by
  have even : ∀ v : Byte, 2 ∣ (evenByte v).toNat := by decide +kernel
  cases p with
  | sourceLow | destinationLow | lengthLow => exact even v
  | sourceMiddle | sourceHigh | destinationHigh | lengthHigh => cases low

theorem Aligned.writePort {t : Transfer} (aligned : t.Aligned) (port v : Byte) :
    (t.writePort port v).Aligned := by
  rw [aligned_iff] at aligned ⊢
  intro p low
  rw [byte_writePort]
  split
  · exact p.keeps_even low v
  · exact aligned p low

theorem Aligned.next? {t : Transfer} (aligned : t.Aligned) : t.next?.2.Aligned := by
  obtain ⟨source, destination, length⟩ := aligned
  unfold Transfer.next?
  split
  · exact ⟨source, destination, length⟩
  · constructor
    case source => dsimp only; split <;> bv_omega
    case destination => dsimp only; split <;> bv_omega
    case length => dsimp only; split <;> bv_omega

end Transfer

inductive TransferEvent where
  | write (port v : Byte)
  | next
  | reset
  deriving DecidableEq, Repr

/-- A write to a port that has no part in how much is left to copy. -/
def TransferEvent.Idle : TransferEvent → Prop
  | write port _ => port ≠ 0x46 ∧ port ≠ 0x47 ∧ port ≠ 0x48
  | next | reset => False

namespace Transfer

def after (t : Transfer) : TransferEvent → Transfer
  | .write port v => t.writePort port v
  | .next => t.next?.2
  | .reset => {}

def run (t : Transfer) (events : List TransferEvent) : Transfer := events.foldl after t

theorem Aligned.run {t : Transfer} (aligned : t.Aligned) (events : List TransferEvent) :
    (t.run events).Aligned := by
  induction events generalizing t with
  | nil => exact aligned
  | cons e rest ih =>
    refine ih ?_
    cases e with
    | write port v => exact aligned.writePort port v
    | next => exact aligned.next?
    | reset => exact ⟨Nat.dvd_zero 2, Nat.dvd_zero 2, Nat.dvd_zero 2⟩

/-- An active transfer with nothing left to copy. -/
def Dry (t : Transfer) : Prop := t.active = true ∧ t.length = 0

/-- The length of an active transfer is written, and is zero then. -/
def Drains (t : Transfer) : TransferEvent → Prop
  | .write port v =>
    t.active = true ∧ (port = 0x46 ∨ port = 0x47) ∧ (t.writePort port v).length = 0
  | .next | .reset => False

theorem writePort_active (t : Transfer) {port : Byte} (other : port ≠ 0x48) (v : Byte) :
    (t.writePort port v).active = t.active := by
  unfold writePort
  split
  case h_8 control => exact absurd (BitVec.eq_of_toNat_eq control) other
  all_goals rfl

theorem writePort_length (t : Transfer) {port : Byte} (low : port ≠ 0x46) (high : port ≠ 0x47)
    (v : Byte) : (t.writePort port v).length = t.length := by
  unfold writePort
  split
  case h_6 isLow => exact absurd (BitVec.eq_of_toNat_eq isLow) low
  case h_7 isHigh => exact absurd (BitVec.eq_of_toNat_eq isHigh) high
  all_goals rfl

/-- A start is refused, and a slice stops, where nothing is left to copy. -/
theorem not_dry_setControl (t : Transfer) (v : Byte) : ¬ (t.setControl v).Dry := by
  rintro ⟨active, zero⟩
  have left : (v.getLsbD 7 && t.length != 0) = true := active
  rw [show t.length = 0 from zero] at left
  simp at left

theorem not_dry_next (t : Transfer) : ¬ t.next?.2.Dry := by
  rintro ⟨active, zero⟩
  unfold next? at active zero
  split at active
  case isTrue idle =>
    rw [active] at idle
    cases idle
  case isFalse running =>
    rw [if_neg running] at zero
    dsimp only at active zero
    rw [zero] at active
    cases active

/-- An engine runs dry in one way only, and stays so while nothing is done about it. -/
theorem dry_after_iff (t : Transfer) (e : TransferEvent) :
    (t.after e).Dry ↔ t.Drains e ∨ t.Dry ∧ e.Idle := by
  cases e with
  | next => exact iff_of_false t.not_dry_next (by simp [Drains, TransferEvent.Idle])
  | reset =>
    have idle : ¬ ({} : Transfer).Dry := fun dry => Bool.noConfusion dry.1
    exact iff_of_false idle (by simp [Drains, TransferEvent.Idle])
  | write port v =>
    by_cases control : port = 0x48
    · subst control
      exact iff_of_false (t.not_dry_setControl v) (by simp [Drains, TransferEvent.Idle])
    have active := t.writePort_active control v
    by_cases register : port = 0x46 ∨ port = 0x47
    · have busy : ¬ (TransferEvent.write port v).Idle := fun idle =>
        register.elim idle.1 idle.2.1
      rw [or_iff_left fun dry => busy dry.2]
      exact and_congr (by rw [after, active]) (iff_and_self.mpr fun _ => register)
    · obtain ⟨low, high⟩ := not_or.mp register
      have length := t.writePort_length low high v
      rw [or_iff_right fun drains => register drains.2.1, Dry, after, active, length]
      exact (and_iff_left ⟨low, high, control⟩).symm

/-- The last that has happened to the length was that an active transfer lost it. -/
def RanDry (t : Transfer) (events : List TransferEvent) : Prop :=
  ∃ before e rest, events = before ++ e :: rest ∧ (t.run before).Drains e ∧ ∀ e ∈ rest, e.Idle

theorem run_append (t : Transfer) (events more : List TransferEvent) :
    t.run (events ++ more) = (t.run events).run more := List.foldl_append

/-- The engine has no memory of how it ran dry, so the events are read from the last one on. -/
theorem dry_run_iff {t : Transfer} (start : ¬ t.Dry) (events : List TransferEvent) :
    (t.run events).Dry ↔ t.RanDry events := by
  induction events using List.reverseRecOn with
  | nil =>
    refine iff_of_false start ?_
    rintro ⟨_, _, _, eq, -⟩
    simp at eq
  | append_singleton events e ih =>
    rw [run_append]
    refine (dry_after_iff _ e).trans ?_
    rw [ih]
    constructor
    · rintro (drains | ⟨⟨before, e', rest, rfl, drained, idle⟩, still⟩)
      · exact ⟨events, e, [], rfl, drains, List.forall_mem_nil _⟩
      · refine ⟨before, e', rest ++ [e], by simp, drained, ?_⟩
        simpa [or_imp, forall_and] using ⟨idle, still⟩
    · rintro ⟨before, e', rest, eq, drained, idle⟩
      rcases List.eq_nil_or_concat rest with rfl | ⟨rest, last, rfl⟩
      · obtain ⟨rfl, same⟩ := List.append_inj' eq rfl
        cases same
        exact .inl drained
      · rw [List.concat_eq_append] at eq idle
        have split : before ++ e' :: (rest ++ [last]) = (before ++ e' :: rest) ++ [last] := by simp
        obtain ⟨rfl, same⟩ := List.append_inj' (eq.trans split) rfl
        cases same
        obtain ⟨earlier, still⟩ := List.forall_mem_append.mp idle
        exact .inr ⟨⟨before, e', rest, rfl, drained, earlier⟩, still e List.mem_cons_self⟩

/-- A slice takes a word off the length, if there is one. -/
theorem next?_length {t u : Transfer} {slice : Slice} (next : t.next? = (some slice, u)) :
    t.active = true ∧ u.length.toNat = t.length.toNat - 2 ∧ u.active = (u.length != 0) := by
  unfold next? at next
  split at next
  · cases next
  · rename_i running
    cases next
    refine ⟨by simpa using running, ?_, rfl⟩
    dsimp only
    split <;> bv_omega

/-- The registers of the engine, after any use. An active transfer has a word left, which a slice
takes, unless zero was written to its length while it was active: then a last slice copies one
more. -/
theorem registers_of_run (events : List TransferEvent) :
    let t := ({} : Transfer).run events
    (2 ∣ t.source.toNat ∧ t.source.toNat < 0x100000 ∧ 2 ∣ t.destination.toNat ∧
      2 ∣ t.length.toNat) ∧
    (t.active = true ∧ t.length.toNat < 2 ↔ ({} : Transfer).RanDry events) ∧
    ∀ slice u, t.next? = (some slice, u) →
      (¬ ({} : Transfer).RanDry events → u.length.toNat + 2 = t.length.toNat) ∧
      (({} : Transfer).RanDry events → t.length = 0 ∧ u.length = 0 ∧ u.active = false) := by
  intro t
  have start : ({} : Transfer).Aligned := ⟨Nat.dvd_zero 2, Nat.dvd_zero 2, Nat.dvd_zero 2⟩
  have aligned : t.Aligned := start.run events
  have dry : t.Dry ↔ ({} : Transfer).RanDry events :=
    dry_run_iff (fun dry => Bool.noConfusion dry.1) events
  have empty : t.length.toNat < 2 ↔ t.length = 0 := by
    have even := aligned.length
    rw [← BitVec.toNat_inj, show (0 : Word).toNat = 0 from rfl]
    omega
  refine ⟨⟨aligned.source, t.source.isLt, aligned.destination, aligned.length⟩, ?_, ?_⟩
  · rw [← dry, empty, Dry]
  · intro slice u next
    obtain ⟨active, fewer, stops⟩ := next?_length next
    rw [← dry]
    constructor
    · intro supplied
      have some : ¬ t.length.toNat < 2 := fun few => supplied ⟨active, empty.mp few⟩
      omega
    · rintro ⟨-, zero⟩
      have none : u.length = 0 := by
        apply BitVec.eq_of_toNat_eq
        rw [fewer, zero]
        rfl
      exact ⟨zero, none, by rw [stops, none]; rfl⟩

/-- A transfer of one word loses its length before the word is copied. -/
theorem registers_of_run_drained :
    let t := ({} : Transfer).run [.write 0x46 2, .write 0x48 0x80, .write 0x46 0]
    (t.active = true ∧ t.length.toNat < 2) ∧
      ∃ slice u, t.next? = (some slice, u) ∧ t.length = 0 ∧ u.length = 0 ∧ u.active = false := by
  obtain ⟨-, dry, slices⟩ :=
    registers_of_run [.write 0x46 2, .write 0x48 0x80, .write 0x46 0]
  have drained : ({} : Transfer).RanDry [.write 0x46 2, .write 0x48 0x80, .write 0x46 0] :=
    ⟨[.write 0x46 2, .write 0x48 0x80], .write 0x46 0, [], rfl,
      ⟨by decide, .inl rfl, by decide⟩, List.forall_mem_nil _⟩
  exact ⟨dry.mpr drained, _, _, rfl, (slices _ _ rfl).2 drained⟩

/-- An active engine need not have a word left to copy. -/
theorem active_without_length :
    ¬ ∀ events : List TransferEvent,
      let t := ({} : Transfer).run events
      (2 ∣ t.source.toNat ∧ t.source.toNat < 0x100000 ∧ 2 ∣ t.destination.toNat ∧
        2 ∣ t.length.toNat) ∧
      (t.active = true → 2 ≤ t.length.toNat) ∧
      ∀ slice u, t.next? = (some slice, u) →
        t.length ≠ 0 ∧ u.length.toNat + 2 = t.length.toNat := by
  intro claim
  obtain ⟨-, supplied, -⟩ := claim [.write 0x46 2, .write 0x48 0x80, .write 0x46 0]
  exact absurd (supplied (by decide)) (by decide)

end Transfer

end Swan
