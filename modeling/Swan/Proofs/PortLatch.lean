import Swan.Proofs.PortRegisters
import Swan.Proofs.ResetHistory

/-! What the ports show after a reset while nothing runs. Every port that is not read-only keeps
what was last written to it, as far as it keeps anything, and a write to one port never shows at
another, but for the timers, whose counters are loaded with the reload values. Reading a port
changes nothing. -/
namespace Swan

namespace PortOwner

variable (model : Model) (p : Byte)

theorem of_eq_raster : of model p = .raster ↔
    p.toNat < 0x40 ∨ p = 0x60 ∨ 0xA2 ≤ p.toNat ∧ p.toNat < 0xAC := by
  cases model <;> revert p <;> decide +kernel

theorem of_eq_transfer : of model p = .transfer ↔
    model = .color ∧ 0x40 ≤ p.toNat ∧ p.toNat < 0x50 := by
  cases model <;> revert p <;> decide +kernel

theorem of_eq_cartridge : of model p = .cartridge ↔ 0xC0 ≤ p.toNat := by
  cases model <;> revert p <;> decide +kernel

end PortOwner

variable {model : Model} {p : Byte}

theorem Raster.writePort_unowned (other : PortOwner.of model p ≠ .raster) (r : Raster) (v : Byte) :
    r.writePort p v = r := by
  have foreign : p ∉ ownPorts := by
    have owned : ∀ q ∈ ownPorts, PortOwner.of model q = .raster := by cases model <;> decide
    exact fun own => other (owned p own)
  have high : ¬ p.toNat < 0x40 := fun low => other ((PortOwner.of_eq_raster model p).mpr (.inl low))
  rw [writePort_foreign foreign, if_neg high]

theorem Interrupts.writePort_unowned (other : PortOwner.of model p ≠ .interrupts) (i : Interrupts)
    (v : Byte) : i.writePort model p v = i := by
  rw [ne_eq, PortOwner.of_eq_interrupts] at other
  rw [writePort_eq, if_neg fun h => other (.inl h), if_neg fun h => other (.inr (.inl h)),
    if_neg fun h => other (.inr (.inr (.inr h)))]

theorem Transfer.writePort_unowned (other : PortOwner.of .color p ≠ .transfer) (t : Transfer)
    (v : Byte) : t.writePort p v = t := by
  rw [ne_eq, PortOwner.of_eq_transfer] at other
  unfold writePort
  split
  case h_9 => rfl
  all_goals exact absurd ⟨rfl, by omega⟩ other

def PortLog.locks (log : PortLog) : Bool := log.any fun (p, v) => p == 0xA0 && v.getLsbD 0

namespace Board

variable {δ ω : Type} [Device δ]

/-- With empty slots, each device hears its own writes, and the rest of the board stays. -/
theorem writePort_eq {b : Board δ ω} (sound : b.sound.device = none)
    (serial : b.serial.device = none) (p v : Byte) :
    b.writePort p v = { b with
      raster := b.raster.writePort p v
      transfer := if b.model = .color then b.transfer.writePort p v else b.transfer
      interrupts := b.interrupts.writePort b.model p v
      keypad := if p = 0xB5 then b.keypad.write v else b.keypad
      cartridge := if 0xC0 ≤ p.toNat then b.cartridge.writePort p v else b.cartridge
      bootstrapLocked := b.bootstrapLocked || p == 0xA0 && v.getLsbD 0 } := by
  have raster (other : PortOwner.of b.model p ≠ .raster) :=
    Raster.writePort_unowned other b.raster v
  have interrupts (other : PortOwner.of b.model p ≠ .interrupts) :=
    Interrupts.writePort_unowned other b.interrupts v
  have transfer (other : PortOwner.of b.model p ≠ .transfer) :
      (if b.model = .color then b.transfer.writePort p v else b.transfer) = b.transfer := by
    split
    case isTrue color => exact Transfer.writePort_unowned (color ▸ other) _ v
    case isFalse => rfl
  have keypad (other : PortOwner.of b.model p ≠ .keypad) :
      (if p = 0xB5 then b.keypad.write v else b.keypad) = b.keypad :=
    if_neg (mt (PortOwner.of_eq_keypad b.model p).mpr other)
  have cartridge (other : PortOwner.of b.model p ≠ .cartridge) :
      (if 0xC0 ≤ p.toNat then b.cartridge.writePort p v else b.cartridge) = b.cartridge :=
    if_neg (mt (PortOwner.of_eq_cartridge b.model p).mpr other)
  have system (other : PortOwner.of b.model p ≠ .system) :
      (b.bootstrapLocked || p == 0xA0 && v.getLsbD 0) = b.bootstrapLocked := by
    rw [beq_false_of_ne (mt (PortOwner.of_eq_system b.model p).mpr other), Bool.false_and,
      Bool.or_false]
  unfold writePort
  cases owner : PortOwner.of b.model p <;>
    rw [owner] at raster transfer interrupts keypad cartridge system <;> dsimp only
  case raster => rw [transfer nofun, interrupts nofun, keypad nofun, cartridge nofun, system nofun]
  case transfer =>
    have color := ((PortOwner.of_eq_transfer b.model p).mp owner).1
    rw [raster nofun, interrupts nofun, keypad nofun, cartridge nofun, system nofun, if_pos color]
  case system =>
    obtain rfl := (PortOwner.of_eq_system b.model p).mp owner
    rw [raster nofun, transfer nofun, interrupts nofun, keypad nofun, cartridge nofun]
    rfl
  case interrupts =>
    rw [raster nofun, transfer nofun, keypad nofun, cartridge nofun, system nofun]
  case keypad =>
    have select := (PortOwner.of_eq_keypad b.model p).mp owner
    rw [raster nofun, transfer nofun, interrupts nofun, cartridge nofun, system nofun,
      if_pos select]
  case cartridge =>
    have bank := (PortOwner.of_eq_cartridge b.model p).mp owner
    rw [raster nofun, transfer nofun, interrupts nofun, keypad nofun, system nofun, if_pos bank]
  case sound =>
    rw [raster nofun, transfer nofun, interrupts nofun, keypad nofun, cartridge nofun,
      system nofun, Slot.writePort_idle sound p v]
  case serial =>
    rw [raster nofun, transfer nofun, interrupts nofun, keypad nofun, cartridge nofun,
      system nofun, Slot.writePort_idle serial p v]
  case nobody =>
    rw [raster nofun, transfer nofun, interrupts nofun, keypad nofun, cartridge nofun,
      system nofun]

theorem portIn_of_readPort [Observer ω] {b : Board δ ω} (unobserved : b.observer = none) {v : Byte}
    (read : b.readPort p = (v, b)) : Bus.portIn b p = (v, b) := by
  have seen : Bus.portIn b p = ((observe (Observer.portRead · p ·) (b.readPort p).1
      (b.readPort p).2.observer).1, { (b.readPort p).2 with
        observer := (observe (Observer.portRead · p ·) (b.readPort p).1
          (b.readPort p).2.observer).2 }) := rfl
  rw [seen, read, unobserved]
  cases b
  cases unobserved
  rfl

/-- What a port shows after some writes since a reset, with or without an overlay. -/
def shown (model : Model) (overlay : Bool) (log : PortLog) (p : Byte) : Byte :=
  if p.toNat < 0x40 ∨ p = 0x60 ∨ 0xA2 ≤ p.toNat ∧ p.toNat < 0xAC then Raster.shown log p
  else if model = .color ∧ 0x40 ≤ p.toNat ∧ p.toNat < 0x50 then Transfer.shown log p
  else if p = 0xA0 then
    (BitVec.ofBool model.isColor ++ BitVec.ofBool (!overlay || log.locks)).setWidth 8
  else if p = 0xB0 ∨ p = 0xB2 ∨ p = 0xB4 ∨ p = 0xB6 then Interrupts.shown model log p
  else if p = 0xB5 then log.last p &&& 0x70
  else if 0xC0 ≤ p.toNat then log.last p
  else model.unmappedPort

/-- A board with empty slots on which nothing has happened since a reset but some writes. -/
structure Latched (model : Model) (overlay : Bool) (log : PortLog) (b : Board δ ω) : Prop where
  kind : b.model = model
  locked : b.bootstrapLocked = (!overlay || log.locks)
  raster : Raster.Holds log b.raster
  transfer : model = .color → Transfer.Holds log b.transfer
  interrupts : Interrupts.Holds model log b.interrupts
  select : b.keypad.select = log.last 0xB5 &&& 0x70
  unsampled : b.keypad.sampled = 0
  banks : ∀ p : Byte, 0xC0 ≤ p.toNat → b.cartridge.readPort p = log.last p
  sound : b.sound = { idle := model.unmappedPort }
  serial : b.serial = { idle := model.unmappedPort }
  unobserved : b.observer = none

namespace Latched

variable {overlay : Bool} {log : PortLog} {b : Board δ ω}

theorem writePort (latched : Latched model overlay log b) (p v : Byte) :
    Latched model overlay ((p, v) :: log) (b.writePort p v) := by
  rw [writePort_eq (latched.sound ▸ rfl) (latched.serial ▸ rfl)]
  constructor <;> dsimp only
  case kind => exact latched.kind
  case locked =>
    rw [latched.locked, PortLog.locks, PortLog.locks, List.any_cons, Bool.or_assoc,
      Bool.or_comm (log.any _)]
  case raster => exact latched.raster.writePort p v
  case transfer =>
    intro color
    rw [latched.kind, if_pos color]
    exact (latched.transfer color).writePort p v
  case interrupts => exact latched.kind ▸ latched.interrupts.writePort p v
  case select =>
    rw [PortLog.last_cons]
    split
    case isTrue => rfl
    case isFalse => exact latched.select
  case unsampled =>
    split
    case isTrue => exact latched.unsampled
    case isFalse => exact latched.unsampled
  case banks =>
    intro q bank
    rw [PortLog.last_cons, ← latched.banks q bank]
    split
    case isTrue own =>
      have row : q.toNat / 64 = p.toNat / 64 := by omega
      refine (Memory.read_write ..).trans ?_
      simp only [Byte.setWidth_six_inj row, eq_comm, Cartridge.readPort]
    case isFalse high =>
      have other : p ≠ q := by
        rintro rfl
        exact high bank
      rw [if_neg other]
  case sound => exact latched.sound
  case serial => exact latched.serial
  case unobserved => exact latched.unobserved

theorem readPort (latched : Latched model overlay log b) (p : Byte) :
    b.readPort p = (shown model overlay log p, b) := by
  obtain rfl := latched.kind
  have sound : b.sound.readPort p = (b.model.unmappedPort, b.sound) := by
    rw [Slot.readPort_idle (latched.sound ▸ rfl), latched.sound]
  have serial : b.serial.readPort p = (b.model.unmappedPort, b.serial) := by
    rw [Slot.readPort_idle (latched.serial ▸ rfl), latched.serial]
  simp only [shown, ← PortOwner.of_eq_raster b.model, ← PortOwner.of_eq_transfer b.model,
    ← PortOwner.of_eq_system b.model, ← PortOwner.of_eq_interrupts b.model,
    ← PortOwner.of_eq_keypad b.model, ← PortOwner.of_eq_cartridge b.model]
  unfold Board.readPort
  cases owner : PortOwner.of b.model p <;> simp only [reduceCtorEq, if_true, if_false]
  case raster => rw [latched.raster.readPort]
  case transfer =>
    have color := ((PortOwner.of_eq_transfer b.model p).mp owner).1
    rw [(latched.transfer color).readPort]
  case sound => rw [sound]
  case system => rw [systemPort, latched.locked]
  case interrupts => rw [latched.interrupts.readPort]
  case serial => rw [serial]
  case keypad =>
    obtain rfl := (PortOwner.of_eq_keypad b.model p).mp owner
    rw [Keypad.read_of_unsampled latched.unsampled, latched.select]
  case cartridge => rw [latched.banks p ((PortOwner.of_eq_cartridge b.model p).mp owner)]

section Bus

variable [Observer ω]

theorem portIn (latched : Latched model overlay log b) (p : Byte) :
    Bus.portIn b p = (shown model overlay log p, b) :=
  portIn_of_readPort latched.unobserved (latched.readPort p)

theorem portOut (latched : Latched model overlay log b) (p v : Byte) :
    Latched model overlay ((p, v) :: log) (Bus.portOut b p v) := by
  rw [portOut_unobserved latched.unobserved]
  exact latched.writePort p v

theorem portOuts {b : Board δ ω} (latched : Latched model overlay [] b) (log : PortLog) :
    Latched model overlay log (log.foldr (fun (p, v) b => Bus.portOut b p v) b) := by
  induction log with
  | nil => exact latched
  | cons write before ih => exact ih.portOut write.1 write.2

end Bus

end Latched

end Board

namespace Console

variable {δ ω η : Type} [Device δ] [Observer ω] [StepHook η] {config : Config}
  {fresh : Console δ ω η}

/-- A reset takes a console that was built, and used in whatever way, to where nothing has been
written yet. -/
theorem reset_latched (built : build config = .ok fresh) (before : List (Command ω η))
    (unobserved : (fresh.obey before).board.observer = none) :
    Board.Latched config.model (!(config.bootstrap.getD {}).isEmpty) []
      (fresh.obey before).reset.board := by
  have bare := build_bare built
  have same := obey_sameBuild bare before (.refl bare)
  have again : (fresh.obey before).reset.board = (fresh.obey before).board.reset := rfl
  rw [again, same.reset, unobserved]
  obtain ⟨cartridge, board, -, boarded, eq⟩ := build_board built
  obtain ⟨-, rfl⟩ := Board.build_ok boarded
  rw [eq]
  constructor
  case kind => rfl
  case locked => simp [Board.reset, PortLog.locks]
  case raster => exact Raster.holds_nil
  case transfer => exact fun _ => Transfer.holds_nil
  case interrupts => exact Interrupts.holds_nil
  case select => rfl
  case unsampled => rfl
  case banks => exact fun p _ => Memory.read_zero _
  case sound => rfl
  case serial => rfl
  case unobserved => rfl

/-- Ports latch on their own. After a reset and any writes to ports, each port shows what the table
says of the writes. Reading a port changes nothing, on this console and on any other. -/
theorem ports_latch (built : build config = .ok fresh) (before : List (Command ω η))
    (unobserved : (fresh.obey before).board.observer = none) (p : Byte) :
    (∀ log : PortLog,
      let b := log.foldr (fun (q, v) b => Bus.portOut b q v) (fresh.obey before).reset.board
      Bus.portIn b p =
        (Board.shown config.model (!(config.bootstrap.getD {}).isEmpty) log p, b)) ∧
    (Bus.portIn (fresh.obey before).board p).2 = (fresh.obey before).board := by
  constructor
  · intro log b
    exact ((reset_latched built before unobserved).portOuts log).portIn p
  · have bare := build_bare built
    have kept := (obey_sameBuild bare before (.refl bare)).readPort bare p
    rw [Board.portIn_of_readPort unobserved (Prod.ext rfl kept)]

/-- On a console with a transfer engine that was left busy, a start is refused while there is
nothing to copy. A later start is shown, and so is the length, but for its lowest bit. -/
theorem ports_latch_refused : ∃ fresh : Console Empty Empty Empty,
    build { model := .color, rom := .zeros Cartridge.bankSize, sramSize := 0x2000 } = .ok fresh ∧
      (fresh.obey busy).board.observer = none ∧
      let write (log : PortLog) :=
        log.foldr (fun (q, v) b => Bus.portOut b q v) (fresh.obey busy).reset.board
      let refused := write [(0x46, 0x03), (0x48, 0xFF)]
      let started := write [(0x48, 0xFF), (0x46, 0x03)]
      Bus.portIn refused 0x48 = (0x40, refused) ∧ Bus.portIn started 0x48 = (0xC0, started) ∧
        Bus.portIn started 0x46 = (0x02, started) ∧ Bus.portIn started 0xB0 = (0x01, started) ∧
        (Bus.portIn (fresh.obey busy).board 0x48).2 = (fresh.obey busy).board := by
  obtain ⟨fresh, built⟩ := build_zeros_bank (δ := Empty) (ω := Empty) (η := Empty) .color 0x2000
  have unobserved : (fresh.obey busy).board.observer = none := by
    obtain ⟨cartridge, board, -, boarded, eq⟩ := build_board built
    obtain ⟨-, rfl⟩ := Board.build_ok boarded
    show fresh.board.observer = none
    rw [eq]
    rfl
  have latch (log : PortLog) (p : Byte) := (ports_latch built busy unobserved p).1 log
  refine ⟨fresh, built, unobserved, latch _ _, latch _ _, latch _ _, latch _ _, ?_⟩
  exact (ports_latch built busy unobserved 0x48).2

end Console

end Swan
