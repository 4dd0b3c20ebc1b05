import Swan.Console.Board
import Swan.Proofs.BusSimulation

/-! What an access over the bus can touch on a board. Memory accesses reach memory, the
cartridge and the observer; port accesses reach the device behind the port. A transfer
slice is made of memory accesses. -/
namespace Swan

theorem PortOwner.of_eq_system (model : Model) (p : Byte) :
    PortOwner.of model p = .system ↔ p = 0xA0 := by
  cases model <;> revert p <;> decide +kernel

theorem PortOwner.of_eq_interrupts (model : Model) (p : Byte) :
    PortOwner.of model p = .interrupts ↔ p = 0xB0 ∨ p = 0xB2 ∨ p = 0xB4 ∨ p = 0xB6 := by
  cases model <;> revert p <;> decide +kernel

theorem PortOwner.of_eq_keypad (model : Model) (p : Byte) :
    PortOwner.of model p = .keypad ↔ p = 0xB5 := by
  cases model <;> revert p <;> decide +kernel

theorem Cartridge.write_frame (c : Cartridge) (address : Nat) (v : Byte) :
    ∃ sram, c.write address v = { c with sram } := by
  unfold write
  split
  · exact ⟨_, rfl⟩
  · exact ⟨c.sram, rfl⟩

namespace Board

variable {δ ω : Type}

theorem poke_frame (b : Board δ ω) (a : Address) (v : Byte) :
    ∃ ram sram, b.poke a v = { b with ram, cartridge := { b.cartridge with sram } } := by
  unfold poke
  split
  · split
    · exact ⟨_, b.cartridge.sram, rfl⟩
    · exact ⟨b.ram, b.cartridge.sram, rfl⟩
  · obtain ⟨sram, eq⟩ := b.cartridge.write_frame a.toNat v
    rw [eq]
    exact ⟨b.ram, sram, rfl⟩

variable [Device δ]

theorem readPort_frame (b : Board δ ω) (p : Byte) :
    ∃ sound serial, (b.readPort p).2 = { b with sound, serial } := by
  unfold readPort
  cases PortOwner.of b.model p <;> exact ⟨_, _, rfl⟩

/-- A device's registers are written through its own ports only. -/
theorem writePort_raster (b : Board δ ω) (p v : Byte) :
    (b.writePort p v).raster = b.raster ∨ (b.writePort p v).raster = b.raster.writePort p v := by
  unfold writePort
  cases PortOwner.of b.model p
  case raster => exact .inr rfl
  all_goals exact .inl rfl

variable [Observer ω]

omit [Device δ] [Observer ω] in
theorem readMemory_eq (b : Board δ ω) (a : Address) : b.readMemory a = b.peek a := by
  unfold readMemory
  split
  case isTrue bare =>
    rw [peek, bare.2, if_neg Bool.false_ne_true, if_neg (Nat.not_lt.mpr bare.1)]
    rfl
  case isFalse => rfl

theorem read_eq (b : Board δ ω) (a : Address) : Bus.read b a =
    ((observe (Observer.memoryRead · a ·) (b.peek a) b.observer).1,
      { b with observer := (observe (Observer.memoryRead · a ·) (b.peek a) b.observer).2 }) := by
  rw [← readMemory_eq]
  rfl

theorem read_frame (b : Board δ ω) (a : Address) :
    ∃ observer, (Bus.read b a).2 = { b with observer } := ⟨_, rfl⟩

theorem write_frame (b : Board δ ω) (a : Address) (v : Byte) :
    ∃ ram sram observer, Bus.write b a v =
      { b with ram, cartridge := { b.cartridge with sram }, observer } := by
  let seen := observe (Observer.memoryWrite · a ·) v b.observer
  obtain ⟨ram, sram, eq⟩ := poke_frame { b with observer := seen.2 } a seen.1
  exact ⟨ram, sram, seen.2, eq⟩

/-- What holds whatever is in memory and whatever the observer thinks. -/
theorem memoryStable {P : Board δ ω → Prop}
    (blind : ∀ {b} ram sram observer,
      P b → P { b with ram, cartridge := { b.cartridge with sram }, observer }) :
    MemoryStable P where
  read {b} h a := by
    obtain ⟨observer, eq⟩ := b.read_frame a
    rw [eq]
    exact blind b.ram b.cartridge.sram observer h
  write {b} h a v := by
    obtain ⟨ram, sram, observer, eq⟩ := b.write_frame a v
    rw [eq]
    exact blind ram sram observer h

theorem portIn_frame (b : Board δ ω) (p : Byte) : ∃ sound serial v, (Bus.portIn b p).2 =
    { b with sound, serial, observer := (observe (Observer.portRead · p ·) v b.observer).2 } := by
  obtain ⟨sound, serial, eq⟩ := readPort_frame b p
  refine ⟨sound, serial, (b.readPort p).1, ?_⟩
  rw [show (Bus.portIn b p).2 = { (b.readPort p).2 with observer :=
    (observe (Observer.portRead · p ·) (b.readPort p).1 (b.readPort p).2.observer).2 } from rfl, eq]

/-- The byte that a write to a port stores, after the observer has seen it. -/
def portSeen (b : Board δ ω) (p v : Byte) : Byte × Option ω :=
  observe (Observer.portWrite · p ·) v b.observer

theorem portOut_eq (b : Board δ ω) (p v : Byte) :
    Bus.portOut b p v = { b with observer := (b.portSeen p v).2 }.writePort p (b.portSeen p v).1 :=
  rfl

section Unobserved

variable {b : Board δ ω} (unobserved : b.observer = none)

include unobserved

theorem read_unobserved (a : Address) : Bus.read b a = (b.peek a, b) := by
  rw [read_eq]
  cases b
  cases unobserved
  rfl

theorem write_unobserved (a : Address) (v : Byte) : Bus.write b a v = b.poke a v := by
  cases b
  cases unobserved
  rfl

theorem portIn_unobserved (p : Byte) :
    ∃ sound serial, (Bus.portIn b p).2 = { b with sound, serial } := by
  obtain ⟨sound, serial, v, eq⟩ := b.portIn_frame p
  refine ⟨sound, serial, ?_⟩
  rw [eq, unobserved]
  rfl

theorem portOut_unobserved (p v : Byte) : Bus.portOut b p v = b.writePort p v := by
  cases b
  cases unobserved
  rfl

end Unobserved

end Board

end Swan
