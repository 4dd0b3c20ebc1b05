import Swan.Proofs.Construction
import Swan.Proofs.ConsoleSession

/-! What a board is built from. Nothing that a program or a host does takes away the model,
the images, the idle slots or the size of the writable memory, and nothing is ever stored
beyond that size. -/
namespace Swan

namespace Slot

variable {δ : Type} [Device δ] {s : Slot δ} (idle : s.device = none)

include idle

theorem step_idle (cycles : Nat) : s.step cycles = ({}, s) := by
  obtain ⟨_, _⟩ := s
  cases idle
  rfl

theorem readPort_idle (p : Byte) : s.readPort p = (s.idle, s) := by
  obtain ⟨_, _⟩ := s
  cases idle
  rfl

theorem writePort_idle (p v : Byte) : s.writePort p v = s := by
  obtain ⟨_, _⟩ := s
  cases idle
  rfl

theorem reset_idle : s.reset = s := by
  obtain ⟨_, _⟩ := s
  cases idle
  rfl

end Slot

namespace Cartridge

theorem sramAddress_lt (c : Cartridge) (some : c.sramSize ≠ 0) (address : Nat) :
    (c.sramAddress address).toNat < c.sramSize := by
  rw [sramAddress, BitVec.toNat_ofNat]
  exact Nat.lt_of_le_of_lt (Nat.mod_le _ _) (Nat.mod_lt _ (Nat.pos_of_ne_zero some))

/-- Nothing is stored beyond the writable memory in use. -/
def Spare (c : Cartridge) : Prop := ∀ a : BitVec 16, c.sramSize ≤ a.toNat → c.sram.read a = 0

theorem Spare.write {c : Cartridge} (spare : c.Spare) (address : Nat) (v : Byte) :
    (c.write address v).Spare := by
  simp only [Cartridge.write]
  split
  · rename_i used
    intro a beyond
    have inUse := c.sramAddress_lt used.2.2 address
    have elsewhere : a ≠ c.sramAddress address := by
      rintro rfl
      exact Nat.not_lt.mpr beyond inUse
    exact (Memory.read_write_of_ne _ _ elsewhere).trans (spare a beyond)
  · exact spare

/-- The bytes in use are all there is to tell two writable memories apart. -/
theorem sram_eq_of_sramBytes {c d : Cartridge} (size : d.sramSize = c.sramSize) (cs : c.Spare)
    (ds : d.Spare) (same : c.sramBytes = d.sramBytes) : c.sram = d.sram := by
  refine Memory.ext fun a => ?_
  by_cases inUse : a.toNat < c.sramSize
  · rw [sramBytes, sramBytes, size] at same
    have byte := List.map_inj_left.mp same a.toNat (List.mem_range.mpr inUse)
    simpa only [BitVec.ofNat_eq_ofNat, BitVec.zero_add, BitVec.ofNat_toNat, BitVec.setWidth_eq]
      using byte
  · rw [cs a (Nat.le_of_not_lt inUse), ds a (size ▸ Nat.le_of_not_lt inUse)]

end Cartridge

namespace Board

variable {δ ω : Type}

structure SameBuild (fresh b : Board δ ω) : Prop where
  parts : ∃ ram bootstrapLocked interrupts raster transfer keypad sram ports observer,
    b = { fresh with
      ram, bootstrapLocked, interrupts, raster, transfer, keypad, observer
      cartridge := { fresh.cartridge with sram, ports } }
  spare : b.cartridge.Spare

structure Bare (b : Board δ ω) : Prop where
  sound : b.sound.device = none
  serial : b.serial.device = none
  spare : b.cartridge.Spare

/-- A second reset finds nothing to do. -/
theorem reset_reset [Device δ] {b : Board δ ω} (bare : b.reset.Bare) : b.reset.reset = b.reset := by
  have sound := Slot.reset_idle bare.sound
  have serial := Slot.reset_idle bare.serial
  conv => lhs; rw [reset, sound, serial]
  rfl

namespace SameBuild

variable {fresh b : Board δ ω}

theorem sramSize (same : SameBuild fresh b) : b.cartridge.sramSize = fresh.cartridge.sramSize := by
  obtain ⟨⟨_, _, _, _, _, _, _, _, _, rfl⟩, -⟩ := same
  rfl

theorem refl (bare : fresh.Bare) : SameBuild fresh fresh :=
  ⟨⟨_, _, _, _, _, _, _, _, _, rfl⟩, bare.spare⟩

theorem poke (same : SameBuild fresh b) (a : Address) (v : Byte) :
    SameBuild fresh (b.poke a v) := by
  obtain ⟨⟨ram, locked, interrupts, raster, transfer, keypad, sram, ports, observer, rfl⟩, spare⟩ :=
    same
  simp only [Board.poke]
  split
  · split <;> exact ⟨⟨_, _, _, _, _, _, _, _, _, rfl⟩, spare⟩
  · have written := spare.write a.toNat v
    obtain ⟨sram', eq⟩ := Cartridge.write_frame { fresh.cartridge with sram, ports } a.toNat v
    dsimp only at written
    rw [eq] at written ⊢
    exact ⟨⟨_, _, _, _, _, _, _, _, _, rfl⟩, written⟩

theorem observe (same : SameBuild fresh b) (observer : Option ω) :
    SameBuild fresh { b with observer } := by
  obtain ⟨⟨_, _, _, _, _, _, _, _, _, rfl⟩, spare⟩ := same
  exact ⟨⟨_, _, _, _, _, _, _, _, _, rfl⟩, spare⟩

/-- The parts behind the ports hold nothing that a board is built from. -/
theorem devices (same : SameBuild fresh b) (interrupts : Interrupts) (raster : Raster)
    (transfer : Transfer) (keypad : Keypad) :
    SameBuild fresh { b with interrupts, raster, transfer, keypad } := by
  obtain ⟨⟨_, _, _, _, _, _, _, _, _, rfl⟩, spare⟩ := same
  exact ⟨⟨_, _, _, _, _, _, _, _, _, rfl⟩, spare⟩

theorem engine (same : SameBuild fresh b) (transfer : Transfer) :
    SameBuild fresh { b with transfer } :=
  same.devices b.interrupts b.raster transfer b.keypad

theorem sound (same : SameBuild fresh b) : b.sound = fresh.sound := by
  obtain ⟨⟨_, _, _, _, _, _, _, _, _, rfl⟩, -⟩ := same
  rfl

theorem serial (same : SameBuild fresh b) : b.serial = fresh.serial := by
  obtain ⟨⟨_, _, _, _, _, _, _, _, _, rfl⟩, -⟩ := same
  rfl

variable [Device δ]

/-- A reset brings back all but what is meant to stay. -/
theorem reset (same : SameBuild fresh b) : b.reset = { fresh.reset with
    cartridge := { fresh.reset.cartridge with sram := b.cartridge.sram }
    keypad := { held := b.keypad.held }
    observer := b.observer } := by
  obtain ⟨⟨_, _, _, _, _, _, _, _, _, rfl⟩, -⟩ := same
  rfl

variable (bare : fresh.Bare)

include bare

theorem readPort (same : SameBuild fresh b) (p : Byte) : (b.readPort p).2 = b := by
  have sound : (b.sound.readPort p).2 = b.sound := by
    rw [Slot.readPort_idle (same.sound ▸ bare.sound)]
  have serial : (b.serial.readPort p).2 = b.serial := by
    rw [Slot.readPort_idle (same.serial ▸ bare.serial)]
  simp only [Board.readPort]
  cases PortOwner.of b.model p <;> simp only [sound, serial]

theorem writePort (same : SameBuild fresh b) (p v : Byte) : SameBuild fresh (b.writePort p v) := by
  have sound : b.sound.writePort p v = b.sound := Slot.writePort_idle (same.sound ▸ bare.sound) p v
  have serial : b.serial.writePort p v = b.serial :=
    Slot.writePort_idle (same.serial ▸ bare.serial) p v
  simp only [Board.writePort, sound, serial]
  obtain ⟨⟨_, _, _, _, _, _, _, _, _, rfl⟩, spare⟩ := same
  cases PortOwner.of fresh.model p <;> exact ⟨⟨_, _, _, _, _, _, _, _, _, rfl⟩, spare⟩

theorem stepDevices (same : SameBuild fresh b) (cycles : Nat) :
    SameBuild fresh (b.stepDevices cycles) := by
  have sound : (b.sound.step cycles).2 = b.sound := by
    rw [Slot.step_idle (same.sound ▸ bare.sound)]
  have serial : (b.serial.step cycles).2 = b.serial := by
    rw [Slot.step_idle (same.serial ▸ bare.serial)]
  simp only [Board.stepDevices, sound, serial]
  obtain ⟨⟨_, _, _, _, _, _, _, _, _, rfl⟩, spare⟩ := same
  exact ⟨⟨_, _, _, _, _, _, _, _, _, rfl⟩, spare⟩

theorem keepsReset (same : SameBuild fresh b) : SameBuild fresh b.reset := by
  have sound : b.sound.reset = b.sound := Slot.reset_idle (same.sound ▸ bare.sound)
  have serial : b.serial.reset = b.serial := Slot.reset_idle (same.serial ▸ bare.serial)
  simp only [Board.reset, sound, serial]
  obtain ⟨⟨_, _, _, _, _, _, _, _, _, rfl⟩, spare⟩ := same
  exact ⟨⟨_, _, _, _, _, _, _, _, _, rfl⟩, spare⟩

variable [Observer ω]

theorem stable : Stable (SameBuild fresh) where
  read same _ := same.observe _
  write same a _ := (same.observe _).poke a _
  portIn {b} same p := by
    have kept : SameBuild fresh (b.readPort p).2 := (same.readPort bare p).symm ▸ same
    exact kept.observe _
  portOut same p _ := (same.observe _).writePort bare p _

end SameBuild

end Board

namespace Console

variable {δ ω η : Type}

theorem build_bare [Device δ] {config : Config} {fresh : Console δ ω η}
    (built : build config = .ok fresh) : fresh.board.Bare := by
  obtain ⟨cartridge, board, accepted, boarded, eq⟩ := build_board built
  obtain ⟨_, rfl⟩ := Cartridge.ofRom?_ok accepted
  obtain ⟨-, rfl⟩ := Board.build_ok boarded
  rw [eq]
  exact ⟨rfl, rfl, fun a _ => Memory.read_zero a⟩

section Run

variable [Device δ] [Observer ω] [StepHook η] {fresh : Board δ ω} (bare : fresh.Bare)
  {c : Console δ ω η} (same : fresh.SameBuild c.board)

include bare same

theorem runStep_sameBuild : fresh.SameBuild c.runStep.2.board :=
  runStep_keeps (Board.SameBuild.stable bare) (fun transfer same => same.engine transfer)
    (fun cycles same => same.stepDevices bare cycles) same

theorem runLine_sameBuild : fresh.SameBuild c.runLine.2.board :=
  runLine_keeps (runStep_sameBuild bare) same

end Run

end Console

end Swan
