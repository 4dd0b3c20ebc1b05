import Swan.Proofs.Construction
import Swan.Proofs.InterruptService
import Swan.Proofs.KeypadHistory

/-! How a console notices that keys are pressed. While it runs, a program can only select
what it looks at. The end of a frame samples the keypad, and raises the key line if that finds
a new press. -/
namespace Swan

namespace Keypad

/-- What an event on the bus selects, if it is a write to the keypad's port. -/
def selection? : Interrupts.Event → Option Byte
  | .write p v => if p = 0xB5 then some v else none
  | .raise _ | .lower _ | .apply _ | .reset => none

def selections (heard : List Interrupts.Event) : List Byte := heard.filterMap selection?

def selecting (values : List Byte) (k : Keypad) : Keypad := after (values.map .write) k

theorem selecting_append (later before : List Byte) (k : Keypad) :
    selecting (later ++ before) k = selecting later (selecting before k) := by
  rw [selecting, List.map_append, after_append]
  rfl

theorem selecting_after (values : List Byte) (history : List Event) (k : Keypad) :
    selecting values (after history k) = after (values.map .write ++ history) k :=
  (after_append _ _ _).symm

end Keypad

theorem ButtonSet.isEmpty_eq_false (s : ButtonSet) :
    ButtonSet.isEmpty s = false ↔ ∃ i, s.getLsbD i = true := by
  have empty : ButtonSet.isEmpty s = true ↔ ∀ i, s.getLsbD i = false := by
    rw [ButtonSet.isEmpty, beq_iff_eq]
    constructor
    · rintro rfl i
      exact BitVec.getLsbD_zero
    · intro none
      exact BitVec.eq_of_getLsbD_eq fun i _ => (none i).trans BitVec.getLsbD_zero.symm
  rw [← Bool.not_eq_true, empty, Classical.not_forall]
  simp

variable {δ ω η : Type} [Device δ]

namespace Board

theorem writePort_keypad (b : Board δ ω) (p v : Byte) :
    (b.writePort p v).keypad = if p = 0xB5 then b.keypad.write v else b.keypad := by
  have owned := PortOwner.of_eq_keypad b.model p
  unfold writePort
  cases owner : PortOwner.of b.model p
  case keypad => rw [if_pos (owned.mp owner)]
  all_goals
    rw [if_neg fun own => ?_]
    rw [owned.mpr own] at owner
    cases owner

variable [Observer ω]

/-- Of all that is said on a board, the keypad heeds the selections. -/
theorem keypad_listens (k : Keypad) :
    Listens fun heard (b : Board δ ω) => b.keypad = k.selecting (Keypad.selections heard) where
  memory _ := memoryStable fun _ _ _ same => same
  engine _ same := same
  portIn {_ b} same p := by
    obtain ⟨sound, serial, v, eq⟩ := b.portIn_frame p
    rw [eq]
    exact same
  portOut {heard b} same p v := by
    rw [portOut_eq, writePort_keypad]
    by_cases own : p = 0xB5
    · have heeded : Keypad.selections (.write p (b.portSeen p v).1 :: heard) =
          (b.portSeen p v).1 :: Keypad.selections heard := List.filterMap_cons_some (if_pos own)
      rw [if_pos own, heeded, same]
      rfl
    · have ignored : Keypad.selections (.write p (b.portSeen p v).1 :: heard) =
          Keypad.selections heard := List.filterMap_cons_none (if_neg own)
      rw [if_neg own, ignored]
      exact same
  devices _ same := same

end Board

namespace Console

variable [Observer ω] [StepHook η]

theorem runStep_selects (c : Console δ ω η) :
    c.runStep.2.board.keypad = c.board.keypad.selecting (Keypad.selections c.stepEvents) := by
  have start : c.board.keypad = c.board.keypad.selecting (Keypad.selections []) := rfl
  have known := runStep_listens (Board.keypad_listens c.board.keypad) start
  rwa [List.append_nil] at known

/-- From one state to the other, all that happens to the keypad is that it is selected from. -/
def Selects (c d : Console δ ω η) : Prop :=
  ∃ values, d.board.keypad = c.board.keypad.selecting values

theorem selects_carried : Carried (Selects (δ := δ) (ω := ω) (η := η)) where
  refl c := ⟨[], rfl⟩
  trans := by
    rintro c d e ⟨before, first⟩ ⟨later, second⟩
    exact ⟨later ++ before, by rw [second, first, Keypad.selecting_append]⟩
  step c := ⟨_, runStep_selects c⟩
  line c _ := ⟨[], rfl⟩

omit [Device δ] [Observer ω] [StepHook η] in
theorem foldFrame_interrupts (c : Console δ ω η) : c.foldFrame.board.interrupts =
    if ButtonSet.isEmpty c.board.keypad.sample.1 then c.board.interrupts
    else c.board.interrupts.raise .key := rfl

omit [Device δ] [Observer ω] [StepHook η] in
theorem foldFrame_enabled (c : Console δ ω η) :
    c.foldFrame.board.interrupts.enabled = c.board.interrupts.enabled := by
  rw [foldFrame_interrupts]
  split <;> rfl

omit [Device δ] [Observer ω] [StepHook η] in
theorem foldFrame_status (c : Console δ ω η) (l : Nat) :
    c.foldFrame.board.interrupts.status.getLsbD l = true ↔
      c.board.interrupts.status.getLsbD l = true ∨
        LineSet.key.getLsbD l = true ∧ c.board.interrupts.enabled.getLsbD l = true ∧
          ∃ i, c.board.keypad.sample.1.getLsbD i = true := by
  rw [foldFrame_interrupts, ← ButtonSet.isEmpty_eq_false]
  cases ButtonSet.isEmpty c.board.keypad.sample.1 with
  | true => simp
  | false => simp [Interrupts.raise]

/-- Key presses are noticed at the end of a frame. The key line is latched after it if it was
before, or if it is enabled and a button is held that the last sample missed. -/
theorem key_presses_noticed :
    (∀ history : List Keypad.Event, (Keypad.after history {}).Told history) ∧
    (∀ (config : Config) (c : Console δ ω η), build config = .ok c → c.board.keypad = {}) ∧
    (∀ c : Console δ ω η, c.reset.board.keypad = Keypad.Event.reset.run c.board.keypad) ∧
    (∀ c : Console δ ω η, c.runStep.2.board.keypad =
      c.board.keypad.selecting (Keypad.selections c.stepEvents)) ∧
    ∀ (c d : Console δ ω η) (history : List Keypad.Event),
      c.board.keypad = Keypad.after history {} → c.runFrame = (.completed, d) →
      ∃ (e : Console δ ω η) (values : List Byte),
        c.fillFrame Model.linesPerFrame = (.completed, e) ∧
        e.board.keypad = Keypad.after (values.map .write ++ history) {} ∧
        d.board.keypad = Keypad.after (.sample :: (values.map .write ++ history)) {} ∧
        d.board.interrupts.enabled = e.board.interrupts.enabled ∧
        ∀ l, d.board.interrupts.status.getLsbD l = true ↔
          e.board.interrupts.status.getLsbD l = true ∨
            LineSet.key.getLsbD l = true ∧ e.board.interrupts.enabled.getLsbD l = true ∧
              ∃ i, ButtonSet.named.getLsbD i = true ∧
                Keypad.Held history i ∧ ¬ Keypad.Seen history i := by
  refine ⟨Keypad.after_told, ?_, fun _ => rfl, runStep_selects, ?_⟩
  · intro config c built
    obtain ⟨cartridge, board, -, boarded, eq⟩ := build_board built
    obtain ⟨-, rfl⟩ := Board.build_ok boarded
    rw [eq]
    rfl
  · intro c d history known run
    obtain ⟨e, filled, rfl⟩ := runFrame_completed run
    obtain ⟨values, selected⟩ := selects_carried.fillFrame Model.linesPerFrame c
    have before : e.board.keypad = Keypad.after (values.map .write ++ history) {} := by
      rw [filled, known, Keypad.selecting_after] at selected
      exact selected
    refine ⟨e, values, filled, before, ?_, foldFrame_enabled e, ?_⟩
    · rw [Keypad.after_cons, ← before]
      rfl
    · intro l
      simp only [foldFrame_status, before, (Keypad.after_told _).sample, Keypad.held_selected,
        Keypad.seen_selected]

/-- A console in the last line of a frame whose processor waits. Start has been pressed since
the last sample, and the key line is enabled. -/
def pressed : Console Empty Empty Empty :=
  { bare with
    core.cpu.halted := true
    core.bus.keypad := Keypad.after [.press 0x0200, .write 0x40] {}
    core.bus.interrupts.enabled := LineSet.key
    frameCycles := Model.cyclesPerFrame - Model.cyclesPerLine }

theorem key_presses_noticed_start :
    (∃ c : Console Empty Empty Empty,
      build { model := .color, rom := .zeros Cartridge.bankSize } = .ok c ∧ c.board.keypad = {}) ∧
    ∃ d, pressed.runFrame = (.completed, d) ∧ pressed.board.interrupts.status = 0 ∧
      d.board.interrupts.status.getLsbD 1 = true ∧ d.board.keypad.read = 0x42 := by
  obtain ⟨c, built⟩ := build_zeros_bank (δ := Empty) (ω := Empty) (η := Empty) .color 0
  have completes : pressed.runFrame.1 = .completed := by decide +kernel
  have enabled : pressed.runFrame.2.board.interrupts.enabled = LineSet.key := by decide +kernel
  have shown : pressed.runFrame.2.board.keypad.read = 0x42 := by decide +kernel
  rcases run : pressed.runFrame with ⟨outcome, d⟩
  rw [run] at completes enabled shown
  obtain rfl : outcome = .completed := completes
  obtain ⟨e, values, -, -, -, same, latched⟩ :=
    key_presses_noticed.2.2.2.2 pressed d [.press 0x0200, .write 0x40] rfl run
  have new : Keypad.Held [.press 0x0200, .write 0x40] 9 ∧
      ¬ Keypad.Seen [.press 0x0200, .write 0x40] 9 := by
    refine ⟨rfl, ?_⟩
    simp [Keypad.seen_cons, Keypad.not_seen_nil]
  refine ⟨⟨c, built, key_presses_noticed.2.1 _ c built⟩, d, rfl, rfl, ?_, shown⟩
  refine (latched 1).mpr (.inr ⟨rfl, ?_, 9, rfl, new⟩)
  rw [← same, enabled]
  rfl

end Console

end Swan
