import Swan.Proofs.BoardAccess
import Swan.Proofs.Construction
import Swan.Proofs.MemoryLog

/-! The memory map over time. Every event keeps the memory of a board what its log tells, so
every address answers what the log maps it to, and no access leaves what it accesses. -/
namespace Swan

theorem Model.ramSize_le (model : Model) : model.ramSize ≤ 0x10000 := by
  cases model <;> decide

theorem setWidth_inj {a b : Address} (ha : a.toNat < 0x10000) (hb : b.toNat < 0x10000) :
    a.setWidth 16 = b.setWidth 16 ↔ a = b := by
  constructor
  · intro same
    have same := congrArg BitVec.toNat same
    simp only [BitVec.toNat_setWidth] at same
    apply BitVec.eq_of_toNat_eq
    omega
  · rintro rfl
    rfl

theorem Cartridge.toNat_sramAddress (c : Cartridge) (fits : c.sramSize ≤ 0x10000)
    (some : c.sramSize ≠ 0) (n : Nat) :
    (c.sramAddress n).toNat = (n - 0x10000) % c.sramSize := by
  rw [sramAddress, BitVec.toNat_ofNat, show sramStart = 0x10000 from rfl]
  exact Nat.mod_eq_of_lt (Nat.lt_of_lt_of_le (Nat.mod_lt _ (Nat.pos_of_ne_zero some)) fits)

theorem Cartridge.sramAddress_inj (c : Cartridge) (fits : c.sramSize ≤ 0x10000)
    (some : c.sramSize ≠ 0) {m n : Nat} : c.sramAddress m = c.sramAddress n ↔
      (m - 0x10000) % c.sramSize = (n - 0x10000) % c.sramSize := by
  rw [← BitVec.toNat_inj, c.toNat_sramAddress fits some, c.toNat_sramAddress fits some]

namespace Board

variable {δ ω : Type} [Device δ] [Observer ω]

/-- The memory of a board is what a log tells. -/
structure Holds (l : Layout) (log : List Mark) (b : Board δ ω) : Prop where
  model : b.model = l.model
  bootstrap : b.bootstrap = l.bootstrap
  rom : b.cartridge.rom = l.rom
  sramSize : b.cartridge.sramSize = l.sramSize
  unobserved : b.observer = none
  locked : b.bootstrapLocked = l.locked log
  ram : ∀ a : Address, a.toNat < l.model.ramSize →
    b.ram.read (a.setWidth 16) = (Mark.lastStored (· = a) (Mark.sinceReset log)).getD 0
  sram : ∀ a : Address, l.sramSize ≠ 0 → 0x10000 ≤ a.toNat → a.toNat < 0x20000 →
    b.cartridge.sram.read (b.cartridge.sramAddress a.toNat) =
      (Mark.lastStored (SameCell l.sramSize a) log).getD 0

section Poke

omit [Device δ] [Observer ω]

variable (b : Board δ ω) (a : Address) (v : Byte)

theorem poke_ram {c : Address} (backed : c.toNat < b.model.ramSize) :
    (b.poke a v).ram.read (c.setWidth 16) = if a = c then v else b.ram.read (c.setWidth 16) := by
  have low : c.toNat < 0x10000 := Nat.lt_of_lt_of_le backed b.model.ramSize_le
  unfold poke
  split
  case isFalse high =>
    have other : a ≠ c := by
      rintro rfl
      exact high low
    rw [if_neg other]
  case isTrue inner =>
    split
    case isFalse missing =>
      have other : a ≠ c := by
        rintro rfl
        exact missing backed
      rw [if_neg other]
    case isTrue =>
      by_cases same : a = c
      · rw [if_pos same, same, Memory.read_write_self]
      · have apart : c.setWidth 16 ≠ a.setWidth 16 := fun eq =>
          same ((setWidth_inj inner low).mp eq.symm)
        rw [if_neg same, Memory.read_write_of_ne _ _ apart]

theorem poke_sram {c : Address} (fits : b.cartridge.sramSize ≤ 0x10000)
    (some : b.cartridge.sramSize ≠ 0) :
    (b.poke a v).cartridge.sram.read (b.cartridge.sramAddress c.toNat) =
      if SameCell b.cartridge.sramSize c a then v
      else b.cartridge.sram.read (b.cartridge.sramAddress c.toNat) := by
  by_cases window : 0x10000 ≤ a.toNat ∧ a.toNat < 0x20000
  · have stored : (b.poke a v).cartridge.sram =
        b.cartridge.sram.write (b.cartridge.sramAddress a.toNat) v := by
      have inner : ¬ a.toNat < Cartridge.sramStart := Nat.not_lt.mpr window.1
      rw [poke, if_neg inner]
      dsimp only
      rw [Cartridge.write, if_pos ⟨window.1, window.2, some⟩]
    rw [stored]
    by_cases same : SameCell b.cartridge.sramSize c a
    · have cell := (b.cartridge.sramAddress_inj fits some).mpr same.2
      rw [if_pos same, ← cell, Memory.read_write_self]
    · have apart : b.cartridge.sramAddress c.toNat ≠ b.cartridge.sramAddress a.toNat := fun eq =>
        same ⟨window, ((b.cartridge.sramAddress_inj fits some).mp eq).symm⟩
      rw [if_neg same, Memory.read_write_of_ne _ _ apart]
  · have other : ¬ SameCell b.cartridge.sramSize c a := fun same => window same.1
    have kept : (b.poke a v).cartridge = b.cartridge := by
      unfold poke
      split
      · split <;> rfl
      · exact if_neg fun inside => window ⟨inside.1, inside.2.1⟩
    rw [kept, if_neg other]

end Poke

namespace Holds

variable {l : Layout} {log : List Mark} {b : Board δ ω}

omit [Device δ] [Observer ω] in
/-- A byte that is stored is the last one at its address, and at the addresses that name the
same cell of the cartridge. -/
theorem poke (fits : l.Fits) (h : Holds l log b) (a : Address) (v : Byte) :
    Holds l (.stored a v :: log) (b.poke a v) := by
  have ram (c : Address) (backed : c.toNat < l.model.ramSize) :
      (b.poke a v).ram.read (c.setWidth 16) =
        (Mark.lastStored (· = c) (Mark.sinceReset (.stored a v :: log))).getD 0 := by
    rw [Mark.sinceReset_stored, Mark.lastStored_stored, b.poke_ram a v (h.model ▸ backed)]
    by_cases same : a = c
    · rw [if_pos same, if_pos same, Option.getD_some]
    · rw [if_neg same, if_neg same, h.ram c backed]
  have sram (c : Address) (some : l.sramSize ≠ 0) (above : 0x10000 ≤ c.toNat)
      (below : c.toNat < 0x20000) :
      (b.poke a v).cartridge.sram.read (b.cartridge.sramAddress c.toNat) =
        (Mark.lastStored (SameCell l.sramSize c) (.stored a v :: log)).getD 0 := by
    rw [Mark.lastStored_stored, b.poke_sram a v (h.sramSize ▸ fits.sram) (h.sramSize ▸ some),
      h.sramSize]
    by_cases same : SameCell l.sramSize c a
    · rw [if_pos same, if_pos same, Option.getD_some]
    · rw [if_neg same, if_neg same, h.sram c some above below]
  obtain ⟨ram', sram', eq⟩ := b.poke_frame a v
  rw [eq] at ram sram ⊢
  exact { h with ram, sram, locked := h.locked.trans (l.locked_stored a v log).symm }

theorem slice (fits : l.Fits) (h : Holds l log b) :
    Holds l (b.marks .slice ++ log) b.runSlice.2 := by
  unfold marks runSlice
  dsimp only
  rcases b.transfer.next? with ⟨_ | slice, transfer⟩
  · exact h
  · have start : Holds l log { b with transfer } := { h with }
    have peeks : b.peek = ({ b with transfer } : Board δ ω).peek := rfl
    dsimp only
    rw [peeks]
    generalize { b with transfer } = claimed at start
    have low := start.poke fits (slice.destination.setWidth 20) (claimed.peek slice.source)
    rw [read_unobserved start.unobserved]
    dsimp only
    rw [read_unobserved start.unobserved, write_unobserved start.unobserved,
      write_unobserved low.unobserved]
    exact low.poke fits _ _

theorem portOut (h : Holds l log b) (p v : Byte) :
    Holds l (b.marks (.portOut p v) ++ log) (Bus.portOut b p v) := by
  rw [portOut_unobserved h.unobserved, writePort]
  by_cases system : p = 0xA0
  · rw [(PortOwner.of_eq_system b.model p).mpr system]
    cases locks : v.getLsbD 0 with
    | true =>
      rw [marks, if_pos ⟨system, locks⟩, Bool.or_true]
      exact { h with locked := (l.locked_locked log).symm }
    | false =>
      rw [marks, if_neg fun both => Bool.noConfusion (locks.symm.trans both.2), Bool.or_false]
      exact h
  · rw [marks, if_neg fun both => system both.1]
    cases owner : PortOwner.of b.model p
    case system => exact absurd ((PortOwner.of_eq_system b.model p).mp owner) system
    all_goals exact { h with }

omit [Observer ω] in
theorem reset (h : Holds l log b) : Holds l (.reset :: log) b.reset where
  model := h.model
  bootstrap := h.bootstrap
  rom := h.rom
  sramSize := h.sramSize
  unobserved := h.unobserved
  locked := by
    rw [l.locked_reset, ← h.bootstrap]
    rfl
  ram c _ := Memory.read_zero _
  sram := h.sram

/-- An event adds its marks to the log, and the memory stays what the log tells. -/
theorem after (fits : l.Fits) (h : Holds l log b) (e : BusEvent) :
    Holds l (b.marks e ++ log) (b.after e) := by
  cases e with
  | read a =>
    rw [Board.after, read_unobserved h.unobserved]
    exact h
  | write a v =>
    rw [Board.after, write_unobserved h.unobserved]
    exact h.poke fits _ v
  | portIn p =>
    obtain ⟨sound, serial, eq⟩ := portIn_unobserved h.unobserved p
    rw [Board.after, eq]
    exact { h with }
  | portOut p v => exact h.portOut p v
  | slice => exact h.slice fits
  | devices cycles => exact { h with }
  | reset => exact h.reset

theorem run (fits : l.Fits) (h : Holds l log b) (events : List BusEvent) :
    Holds l (b.log events ++ log) (b.run events) := by
  -- The log grows in front, so the induction is over any log that the board already holds.
  induction events generalizing b log with
  | nil => exact h
  | cons e rest ih =>
    rw [Board.log, List.append_assoc]
    exact ih (h.after fits e)

omit [Device δ] [Observer ω] in
theorem inBootstrap_iff (h : Holds l log b) (a : Address) : b.inBootstrap a = true ↔
    l.locked log = false ∧ 0x100000 - l.bootstrap.size ≤ a.toNat := by
  simp only [inBootstrap, bootstrapStart, h.locked, h.bootstrap, Bool.and_eq_true,
    Bool.not_eq_true', decide_eq_true_eq]

omit [Device δ] [Observer ω] in
theorem peek (h : Holds l log b) (a : Address) : b.peek a = l.mapped log a := by
  unfold Board.peek Layout.mapped
  by_cases overlaid : b.inBootstrap a = true
  · rw [if_pos overlaid, if_pos ((h.inBootstrap_iff a).mp overlaid), bootstrapStart, h.bootstrap]
  · rw [if_neg overlaid, if_neg (mt (h.inBootstrap_iff a).mpr overlaid), h.model]
    by_cases low : a.toNat < 0x10000
    · have inner : a.toNat < Cartridge.sramStart := low
      rw [if_pos inner, if_pos low]
      by_cases backed : a.toNat < l.model.ramSize
      · rw [if_pos backed, if_pos backed, h.ram a backed]
      · rw [if_neg backed, if_neg backed]
    · have outer : ¬ a.toNat < Cartridge.sramStart := low
      rw [if_neg outer, if_neg low, Cartridge.peek, h.rom, h.sramSize]
      by_cases window : a.toNat < 0x20000
      · have writable : ¬ Cartridge.romStart ≤ a.toNat := Nat.not_le.mpr window
        rw [if_neg writable, if_pos window]
        by_cases none : l.sramSize = 0
        · rw [if_pos none, if_pos none]
        · rw [if_neg none, if_neg none, h.sram a none (Nat.not_lt.mp low) window]
      · have readOnly : Cartridge.romStart ≤ a.toNat := Nat.not_lt.mp window
        have whole : a.toNat % Cartridge.romEnd = a.toNat := Nat.mod_eq_of_lt a.isLt
        rw [if_pos readOnly, if_neg window, whole]
        rfl

end Holds

/-- Every access to memory at an address stays inside what is accessed, and no subtraction
on the way there would go below zero. -/
structure InRange (b : Board δ ω) (a : Address) : Prop where
  overlay : b.bootstrap.size ≤ 0x100000
  bootstrap : b.inBootstrap a = true → b.bootstrapStart ≤ a.toNat ∧
    a.toNat - b.bootstrapStart < b.bootstrap.size
  ram : a.toNat < b.model.ramSize → (a.setWidth 16).toNat = a.toNat
  sram : 0x10000 ≤ a.toNat → b.cartridge.sramSize ≠ 0 →
    (b.cartridge.sramAddress a.toNat).toNat < b.cartridge.sramSize
  rom : 0 < b.cartridge.rom.size ∧ b.cartridge.rom.size - 1 -
    (Cartridge.romEnd - 1 - a.toNat % Cartridge.romEnd) % b.cartridge.rom.size <
      b.cartridge.rom.size

omit [Device δ] [Observer ω] in
theorem Holds.inRange {l : Layout} {log : List Mark} {b : Board δ ω} (fits : l.Fits)
    (h : Holds l log b) (a : Address) : b.InRange a where
  overlay := by
    rw [h.bootstrap]
    rcases fits.bootstrap with none | size
    · rw [Image.isEmpty_iff.mp none]
      exact Nat.zero_le _
    · rw [size]
      cases l.model <;> decide
  bootstrap overlaid := by
    obtain ⟨unlocked, inside⟩ := (h.inBootstrap_iff a).mp overlaid
    have top := a.isLt
    rw [bootstrapStart, h.bootstrap]
    exact ⟨inside, by omega⟩
  ram backed := by
    have small := b.model.ramSize_le
    rw [BitVec.toNat_setWidth]
    exact Nat.mod_eq_of_lt (Nat.lt_of_lt_of_le backed small)
  sram _ some := by
    rw [b.cartridge.toNat_sramAddress (h.sramSize ▸ fits.sram) some]
    exact Nat.mod_lt _ (Nat.pos_of_ne_zero some)
  rom := by
    have pos := b.cartridge.rom_pos
    exact ⟨pos, by omega⟩

/-- What a layout promises of a board, however it is used: at every address the byte that the log
tells, reads that change nothing, and an overlay that the system port locks until a reset. -/
structure Maps (b : Board δ ω) (l : Layout) : Prop where
  peek : ∀ events (a : BitVec 32),
    (b.run events).peek (a.setWidth 20) = l.mapped (b.log events) (a.setWidth 20)
  read : ∀ events (a : BitVec 32), Bus.read (b.run events) (a.setWidth 20) =
    ((b.run events).peek (a.setWidth 20), b.run events)
  inRange : ∀ events (a : BitVec 32), (b.run events).InRange (a.setWidth 20)
  overlay : ∀ events, (b.run events).bootstrapLocked = l.locked (b.log events)
  reset : ∀ events, ((b.run events).after .reset).bootstrapLocked = l.bootstrap.isEmpty
  locks : ∀ events v, v.getLsbD 0 = true →
    ((b.run events).after (.portOut 0xA0 v)).bootstrapLocked = true
  stays : ∀ events more, (b.run events).bootstrapLocked = true → .reset ∉ more →
    ((b.run events).run more).bootstrapLocked = true

theorem Holds.maps {l : Layout} {b : Board δ ω} (fits : l.Fits) (start : Holds l [] b) :
    b.Maps l := by
  have holds (events : List BusEvent) : Holds l (b.log events) (b.run events) := by
    have h := start.run fits events
    rwa [List.append_nil] at h
  constructor
  case peek =>
    intro events a
    exact (holds events).peek _
  case read =>
    intro events a
    exact read_unobserved (holds events).unobserved _
  case inRange =>
    intro events a
    exact (holds events).inRange fits _
  case overlay =>
    intro events
    exact (holds events).locked
  case reset =>
    intro events
    rw [((holds events).after fits .reset).locked]
    exact l.locked_reset _
  case locks =>
    intro events v bit
    rw [((holds events).after fits (.portOut 0xA0 v)).locked, marks, if_pos ⟨rfl, bit⟩]
    exact l.locked_locked _
  case stays =>
    intro events more locked noReset
    rw [(holds events).locked] at locked
    rw [((holds events).run fits more).locked]
    exact l.locked_append (reset_notMem_log _ noReset) locked

omit [Device δ] [Observer ω] in
/-- What construction accepts fits, and the board holds nothing yet. -/
theorem built_holds {model : Model} {bootstrap rom : Image} {sramSize : Nat}
    {cartridge : Cartridge} {b : Board δ ω}
    (accepted : Cartridge.ofRom? rom sramSize = .ok cartridge)
    (built : build model bootstrap cartridge = .ok b) :
    (Layout.of model bootstrap rom sramSize).Fits ∧
      Holds (Layout.of model bootstrap rom sramSize) [] b := by
  obtain ⟨pos, rfl⟩ := Cartridge.ofRom?_ok accepted
  obtain ⟨overlay, rfl⟩ := build_ok built
  refine ⟨⟨overlay, pos, Nat.min_le_right _ _⟩, ?_⟩
  exact {
    model := rfl
    bootstrap := rfl
    rom := rfl
    sramSize := rfl
    unobserved := rfl
    locked := (Bool.or_false _).symm
    ram := fun a _ => Memory.read_zero _
    sram := fun a _ _ _ => Memory.read_zero _ }

end Board

namespace Console

variable {δ ω η : Type} [Device δ] [Observer ω]

/-- The memory map is a simple store, whether a board is built alone or in a console. -/
theorem memory_map :
    (∀ (model : Model) (bootstrap rom : Image) (sramSize : Nat) (cartridge : Cartridge)
      (board : Board δ ω), Cartridge.ofRom? rom sramSize = .ok cartridge →
      Board.build model bootstrap cartridge = .ok board →
      board.Maps (.of model bootstrap rom sramSize)) ∧
    ∀ (config : Config) (c : Console δ ω η), build config = .ok c →
      c.board.Maps (.of config.model (config.bootstrap.getD {}) config.rom config.sramSize) := by
  constructor
  · intro model bootstrap rom sramSize cartridge board accepted built
    obtain ⟨fits, start⟩ := Board.built_holds accepted built
    exact start.maps fits
  · intro config c built
    obtain ⟨cartridge, board, accepted, boarded, eq⟩ := build_board built
    obtain ⟨fits, start⟩ := Board.built_holds accepted boarded
    rw [eq]
    have fresh : Board.Holds _ [] board.reset := { start.reset with }
    exact fresh.maps fits

/-- Through a window of which only a part is backed, a byte is read back at an address that
it was not written to, and after a reset. -/
theorem memory_map_mirrored :
    (∃ (cartridge : Cartridge) (board : Board Empty Empty),
      Cartridge.ofRom? (.zeros Cartridge.bankSize) 0x3000 = .ok cartridge ∧
      Board.build .color {} cartridge = .ok board ∧
      (board.run [.write 0x10004 0x77, .reset]).peek 0x13004 = 0x77) ∧
    ∃ c : Console Empty Empty Empty,
      build { model := .mono, rom := .zeros Cartridge.bankSize, sramSize := 0x3000 } = .ok c ∧
      (c.board.run [.write 0x10004 0x77, .reset]).peek 0x13004 = 0x77 := by
  have map := memory_map (δ := Empty) (ω := Empty) (η := Empty)
  constructor
  · obtain ⟨cartridge, accepted⟩ := Cartridge.ofRom?_zeros_bank 0x3000
    have maps := map.1 .color {} _ _ cartridge _ accepted rfl
    refine ⟨cartridge, _, accepted, rfl, ?_⟩
    exact (maps.peek [.write 0x10004 0x77, .reset] 0x13004).trans rfl
  · obtain ⟨c, built⟩ := build_zeros_bank (δ := Empty) (ω := Empty) (η := Empty) .mono 0x3000
    have maps := map.2 _ c built
    refine ⟨c, built, ?_⟩
    exact (maps.peek [.write 0x10004 0x77, .reset] 0x13004).trans rfl

end Console

end Swan
