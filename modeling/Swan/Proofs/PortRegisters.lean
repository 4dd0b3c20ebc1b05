import Swan.Console.Raster
import Swan.Proofs.InterruptHistory
import Swan.Proofs.KeypadHistory
import Swan.Proofs.TransferRegisters

/-! What the devices keep of the bytes that are written to their ports, as long as nothing else
happens to them. A port that can be read back depends on what was last written to it and to no
other port, although registers are put together from several ports. Only whether a transfer was
started also depends on the length at that time. Logs have the newest write first. -/
namespace Swan

/-- What a number matched stands for. -/
theorem Byte.eq_ofNat {p : Byte} {n : Nat} (number : p.toNat = n) : p = BitVec.ofNat 8 n := by
  rw [← number, BitVec.ofNat_toNat, BitVec.setWidth_eq]

/-- The ports of a row of sixty-four have a place of their own each. -/
theorem Byte.setWidth_six_inj {p q : Byte} (row : p.toNat / 64 = q.toNat / 64) :
    p.setWidth 6 = q.setWidth 6 ↔ p = q := by
  constructor
  · intro same
    have low := congrArg BitVec.toNat same
    rw [BitVec.toNat_setWidth, BitVec.toNat_setWidth] at low
    exact BitVec.eq_of_toNat_eq (by omega)
  · exact congrArg _

abbrev PortLog := List (Byte × Byte)

namespace PortLog

def last (log : PortLog) (port : Byte) : Byte := (log.lookup port).getD 0

theorem last_cons (p v : Byte) (log : PortLog) (q : Byte) :
    last ((p, v) :: log) q = if p = q then v else log.last q := by
  unfold last
  rw [List.lookup_cons]
  by_cases same : p = q
  · simp [same]
  · rw [if_neg same, beq_false_of_ne (Ne.symm same)]

/-- What is left of a log's bytes is what is left of the last one. -/
theorem apply_last_cons {α : Type} (stored : Byte → α) (p v : Byte) (log : PortLog) (q : Byte) :
    stored (last ((p, v) :: log) q) = if p = q then stored v else stored (log.last q) := by
  rw [last_cons]
  split <;> rfl

end PortLog

namespace Raster

/-- The ports of the registers that the display's timing uses, and of the line, which nothing is
written to. -/
def ownPorts : List Byte := [0x02, 0x03, 0x15, 0x60, 0xA2, 0xA4, 0xA5, 0xA6, 0xA7]

/-- A display that only kept what was written to it. -/
def holding (log : PortLog) (registers : Memory 6) : Raster where
  compare := log.last 0x03
  icons := log.last 0x15
  lcdControl := log.last 0x60
  hblank :=
    { enabled := (log.last 0xA2).getLsbD 0
      repeats := (log.last 0xA2).getLsbD 1
      reload := .ofBytes (log.last 0xA4) (log.last 0xA5)
      counter := .ofBytes (log.last 0xA4) (log.last 0xA5) }
  vblank :=
    { enabled := (log.last 0xA2).getLsbD 2
      repeats := (log.last 0xA2).getLsbD 3
      reload := .ofBytes (log.last 0xA6) (log.last 0xA7)
      counter := .ofBytes (log.last 0xA6) (log.last 0xA7) }
  registers

/-- The registers without a meaning hold what was last written to them. -/
def Kept (log : PortLog) (registers : Memory 6) : Prop :=
  ∀ q : Byte, q ∉ ownPorts → q.toNat < 0x40 → registers.read (q.setWidth 6) = log.last q

/-- A display depends on a log of writes alone. -/
def Holds (log : PortLog) (r : Raster) : Prop :=
  ∃ registers, Kept log registers ∧ r = holding log registers

theorem holds_nil : Holds [] {} := ⟨.zero, fun _ _ _ => Memory.read_zero _, rfl⟩

theorem Kept.write {log : PortLog} {registers : Memory 6} (kept : Kept log registers) {p : Byte}
    (low : p.toNat < 0x40) (v : Byte) :
    Kept ((p, v) :: log) (registers.write (p.setWidth 6) v) := by
  intro q foreign within
  have row : q.toNat / 64 = p.toNat / 64 := by omega
  rw [Memory.read_write, PortLog.last_cons, kept q foreign within]
  simp only [Byte.setWidth_six_inj row, eq_comm]

/-- A write elsewhere is none to these registers. -/
theorem Kept.cons {log : PortLog} {registers : Memory 6} (kept : Kept log registers) {p : Byte}
    (elsewhere : p ∈ ownPorts ∨ 0x40 ≤ p.toNat) (v : Byte) : Kept ((p, v) :: log) registers := by
  intro q foreign within
  have other : p ≠ q := by
    rintro rfl
    exact elsewhere.elim foreign (Nat.not_le.mpr within)
  rw [PortLog.last_cons, if_neg other]
  exact kept q foreign within

theorem writePort_foreign {p : Byte} (foreign : p ∉ ownPorts) (r : Raster) (v : Byte) :
    r.writePort p v =
      if p.toNat < 0x40 then { r with registers := r.registers.write (p.setWidth 6) v } else r := by
  unfold writePort
  split
  case h_10 => rfl
  all_goals
    rename_i number
    obtain rfl := Byte.eq_ofNat number
    exact absurd (by decide) foreign

theorem holding_writePort_own {p : Byte} (own : p ∈ ownPorts) (log : PortLog)
    (registers : Memory 6) (v : Byte) :
    (holding log registers).writePort p v = holding ((p, v) :: log) registers := by
  simp only [ownPorts, List.mem_cons, List.not_mem_nil, or_false] at own
  rcases own with rfl | rfl | rfl | rfl | rfl | rfl | rfl | rfl | rfl <;>
    simp [writePort, holding, PortLog.last_cons, Countdown.setReload, Countdown.setControl]

theorem holding_foreign {p : Byte} (foreign : p ∉ ownPorts) (log : PortLog)
    (registers : Memory 6) (v : Byte) :
    holding ((p, v) :: log) registers = holding log registers := by
  simp only [ownPorts, List.mem_cons, List.not_mem_nil, or_false, not_or] at foreign
  simp only [holding, PortLog.last_cons, foreign, if_false]

/-- A display may hear of every write, also of those that are not for it. -/
theorem Holds.writePort {log : PortLog} {r : Raster} (holds : Holds log r) (p v : Byte) :
    Holds ((p, v) :: log) (r.writePort p v) := by
  obtain ⟨registers, kept, rfl⟩ := holds
  by_cases own : p ∈ ownPorts
  · rw [holding_writePort_own own]
    exact ⟨registers, kept.cons (.inl own) v, rfl⟩
  · rw [writePort_foreign own]
    split
    case isTrue low =>
      refine ⟨registers.write (p.setWidth 6) v, kept.write low v, ?_⟩
      rw [holding_foreign own]
      rfl
    case isFalse high =>
      refine ⟨registers, kept.cons (.inr (Nat.not_lt.mp high)) v, ?_⟩
      rw [holding_foreign own]

/-- What the ports of the display show. The counters stand where they were loaded. -/
def shown (log : PortLog) (p : Byte) : Byte :=
  if p = 0x02 then 0
  else if p.toNat < 0x40 ∨ p = 0x60 then log.last p
  else if p = 0xA2 then log.last p &&& 0x0F
  else if 0xA4 ≤ p.toNat ∧ p.toNat < 0xA8 then log.last p
  else if 0xA8 ≤ p.toNat ∧ p.toNat < 0xAC then log.last (p - 4)
  else 0

theorem control_append_control : ∀ v : Byte,
    (BitVec.ofBool (v.getLsbD 3) ++ BitVec.ofBool (v.getLsbD 2) ++
      (BitVec.ofBool (v.getLsbD 1) ++ BitVec.ofBool (v.getLsbD 0)) : BitVec 4).setWidth 8 =
        v &&& 0x0F := by
  decide +kernel

theorem Holds.readPort {log : PortLog} {r : Raster} (holds : Holds log r) (p : Byte) :
    r.readPort p = shown log p := by
  obtain ⟨registers, kept, rfl⟩ := holds
  unfold Raster.readPort
  split
  case h_5 eq =>
    obtain rfl : p = 0xA2 := BitVec.eq_of_toNat_eq eq
    exact control_append_control _
  case h_14 =>
    have foreign : p ∉ ownPorts := by
      intro own
      simp only [ownPorts, List.mem_cons, List.not_mem_nil, or_false] at own
      rcases own with rfl | rfl | rfl | rfl | rfl | rfl | rfl | rfl | rfl <;> simp at *
    have reloads : ¬ (0xA4 ≤ p.toNat ∧ p.toNat < 0xA8) := by grind
    have counters : ¬ (0xA8 ≤ p.toNat ∧ p.toNat < 0xAC) := by grind
    obtain ⟨line, lcd, control⟩ : p ≠ 0x02 ∧ p ≠ 0x60 ∧ p ≠ 0xA2 := by
      refine ⟨?_, ?_, ?_⟩ <;> rintro rfl <;> exact foreign (by decide)
    rw [shown, if_neg line, if_neg control, if_neg reloads, if_neg counters]
    by_cases register : p.toNat < 0x40
    · rw [if_pos register, if_pos (.inl register)]
      exact kept p foreign register
    · rw [if_neg register, if_neg (not_or.mpr ⟨register, lcd⟩)]
  all_goals
    rename_i number
    obtain rfl := Byte.eq_ofNat number
    simp [holding, shown]

end Raster

namespace Transfer

def lengthWritten (log : PortLog) : Word := .ofBytes (evenByte (log.last 0x46)) (log.last 0x47)

/-- What the control register shows: what was last written to it, but for a start that had
nothing to copy then. -/
def controlWritten : PortLog → Byte
  | [] => 0
  | (p, v) :: before =>
    if p = 0x48 then v &&& if lengthWritten before = 0 then 0x40 else 0xC0
    else controlWritten before

/-- An engine that has not copied anything depends on a log of writes alone. -/
structure Holds (log : PortLog) (t : Transfer) : Prop where
  byte : ∀ p : Port, t.byte p = p.keeps (log.last p.number)
  control : t.control = controlWritten log

theorem holds_nil : Holds [] {} := by
  constructor
  case byte =>
    intro p
    cases p <;> rfl
  case control => rfl

theorem Holds.length {log : PortLog} {t : Transfer} (holds : Holds log t) :
    t.length = lengthWritten log := by
  have low := holds.byte .lengthLow
  have high := holds.byte .lengthHigh
  rw [← readPort_number] at low high
  rw [← Word.ofBytes_low_high t.length]
  exact congrArg₂ Word.ofBytes low high

theorem control_setControl (t : Transfer) (v : Byte) :
    (t.setControl v).control = v &&& if t.length = 0 then 0x40 else 0xC0 := by
  have bits : (t.setControl v).control = BitVec.ofBool (v.getLsbD 7 && t.length != 0) ++
    BitVec.ofBool (v.getLsbD 6) ++ (0 : BitVec 6) := rfl
  rw [bits]
  clear bits
  by_cases empty : t.length = 0
  · rw [if_pos empty, empty, bne_self_eq_false, Bool.and_false]
    revert v
    decide +kernel
  · rw [if_neg empty, bne_iff_ne.mpr empty, Bool.and_true]
    revert v
    decide +kernel

/-- The control bits change at their port only. -/
theorem control_writePort (t : Transfer) {p : Byte} (other : p ≠ 0x48) (v : Byte) :
    (t.writePort p v).control = t.control := by
  unfold Transfer.writePort
  split
  case h_8 control => exact absurd (BitVec.eq_of_toNat_eq control) other
  all_goals rfl

/-- An engine may hear of every write, also of those that are not for it. -/
theorem Holds.writePort {log : PortLog} {t : Transfer} (holds : Holds log t) (p v : Byte) :
    Holds ((p, v) :: log) (t.writePort p v) := by
  constructor
  case byte =>
    intro q
    rw [byte_writePort, holds.byte q, PortLog.apply_last_cons q.keeps]
  case control =>
    rw [controlWritten]
    split
    case isTrue control =>
      subst control
      rw [← holds.length]
      exact t.control_setControl v
    case isFalse other => rw [control_writePort t other v, holds.control]

/-- A port that is no register shows the control bits at most. -/
theorem readPort_other (t : Transfer) {port : Byte} (other : ∀ p : Port, p.number ≠ port) :
    t.readPort port = if port = 0x48 then t.control else 0 := by
  have absurd_of {p : Port} {α : Prop} (eq : port.toNat = p.number.toNat) : α :=
    absurd (BitVec.eq_of_toNat_eq eq.symm) (other p)
  unfold Transfer.readPort
  split
  case h_1 eq => exact absurd_of (p := .sourceLow) eq
  case h_2 eq => exact absurd_of (p := .sourceMiddle) eq
  case h_3 eq => exact absurd_of (p := .sourceHigh) eq
  case h_4 eq => exact absurd_of (p := .destinationLow) eq
  case h_5 eq => exact absurd_of (p := .destinationHigh) eq
  case h_6 eq => exact absurd_of (p := .lengthLow) eq
  case h_7 eq => exact absurd_of (p := .lengthHigh) eq
  case h_8 control => rw [if_pos (BitVec.eq_of_toNat_eq control)]
  case h_9 none =>
    have nothing : port ≠ 0x48 := by
      rintro rfl
      exact none rfl
    rw [if_neg nothing]

/-- What the ports of the engine show. -/
def shown (log : PortLog) (p : Byte) : Byte :=
  if p = 0x40 ∨ p = 0x44 ∨ p = 0x46 then log.last p &&& 0xFE
  else if p = 0x41 ∨ p = 0x45 ∨ p = 0x47 then log.last p
  else if p = 0x42 then log.last p &&& 0x0F
  else if p = 0x48 then controlWritten log
  else 0

theorem Holds.readPort {log : PortLog} {t : Transfer} (holds : Holds log t) (p : Byte) :
    t.readPort p = shown log p := by
  by_cases register : ∃ q : Port, q.number = p
  · obtain ⟨q, rfl⟩ := register
    rw [readPort_number, holds.byte q]
    cases q with
    | sourceHigh =>
      have lowBits : ∀ v : Byte, BitVec.ofNat 8 (v.toNat % 0x10) = v &&& 0x0F := by decide +kernel
      exact lowBits _
    | sourceLow | sourceMiddle | destinationLow | destinationHigh | lengthLow | lengthHigh => rfl
  · have other (q : Port) : q.number ≠ p := fun same => register ⟨q, same⟩
    have low : ¬ (p = 0x40 ∨ p = 0x44 ∨ p = 0x46) :=
      not_or.mpr ⟨(other .sourceLow).symm, not_or.mpr
        ⟨(other .destinationLow).symm, (other .lengthLow).symm⟩⟩
    have high : ¬ (p = 0x41 ∨ p = 0x45 ∨ p = 0x47) :=
      not_or.mpr ⟨(other .sourceMiddle).symm, not_or.mpr
        ⟨(other .destinationHigh).symm, (other .lengthHigh).symm⟩⟩
    have top : p ≠ 0x42 := (other .sourceHigh).symm
    rw [readPort_other t other, shown, if_neg low, if_neg high, if_neg top, holds.control]

end Transfer

namespace Interrupts

/-- A controller in which no line was raised depends on a log of writes alone. -/
structure Holds (model : Model) (log : PortLog) (i : Interrupts) : Prop where
  base : i.base = log.last 0xB0 &&& model.vectorBaseMask
  enabled : i.enabled = log.last 0xB2
  status : i.status = 0

variable {model : Model}

theorem holds_nil : Holds model [] {} := by
  constructor
  case base => exact BitVec.zero_and.symm
  case enabled => rfl
  case status => rfl

/-- A controller may hear of every write, also of those that are not for it. -/
theorem Holds.writePort {log : PortLog} {i : Interrupts} (holds : Holds model log i) (p v : Byte) :
    Holds model ((p, v) :: log) (i.writePort model p v) := by
  obtain ⟨base, enabled, status⟩ := holds
  have acknowledged : (i.lower v).status = 0 := by simp [lower, status]
  rw [writePort_eq]
  split_ifs <;> constructor <;> simp_all [PortLog.last_cons, lower]

/-- What the ports of the controller show. -/
def shown (model : Model) (log : PortLog) (p : Byte) : Byte :=
  if p = 0xB0 then log.last p &&& model.vectorBaseMask ||| model.vectorBaseFixed
  else if p = 0xB2 then log.last p
  else 0

theorem Holds.readPort {log : PortLog} {i : Interrupts} (holds : Holds model log i) (p : Byte) :
    i.readPort model p = shown model log p := by
  obtain ⟨base, enabled, status⟩ := holds
  unfold Interrupts.readPort
  split
  case h_1 number =>
    obtain rfl : p = 0xB0 := BitVec.eq_of_toNat_eq number
    exact congrArg (· ||| model.vectorBaseFixed) base
  case h_2 number =>
    obtain rfl : p = 0xB2 := BitVec.eq_of_toNat_eq number
    exact enabled
  case h_3 number =>
    obtain rfl : p = 0xB4 := BitVec.eq_of_toNat_eq number
    exact status
  case h_4 noBase notEnabled _ =>
    obtain ⟨other, other'⟩ : p ≠ 0xB0 ∧ p ≠ 0xB2 :=
      ⟨fun same => noBase (congrArg _ same), fun same => notEnabled (congrArg _ same)⟩
    rw [shown, if_neg other, if_neg other']

end Interrupts

namespace Keypad

/-- A keypad that has seen no button shows which groups are selected. -/
theorem read_of_unsampled {k : Keypad} (unsampled : k.sampled = 0) : k.read = k.select := by
  simp [read, group, unsampled]

end Keypad

end Swan
