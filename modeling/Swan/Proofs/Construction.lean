import Swan.Console.Scheduler

/-! What building a console accepts, and what it makes of the parts. -/
namespace Swan

theorem ok_of_bind {ε α β : Type} {x : Except ε α} {f : α → Except ε β} {v : β}
    (h : (x >>= f) = .ok v) : ∃ a, x = .ok a ∧ f a = .ok v := by
  cases x with
  | error e => cases h
  | ok a => exact ⟨a, rfl, h⟩

def Image.zeros (size : Nat) : Image := ⟨⟨Array.replicate size 0⟩⟩

theorem Image.size_zeros (size : Nat) : (zeros size).size = size := Array.size_replicate

theorem Image.byte_zeros (size i : Nat) : (zeros size).byte i = 0 := by
  simp only [byte]
  split
  · exact congrArg UInt8.toBitVec (Array.getElem_replicate _)
  · rfl

namespace Cartridge

theorem ofRom?_ok {rom : Image} {sramSize : Nat} {c : Cartridge}
    (accepted : ofRom? rom sramSize = .ok c) :
    ∃ pos : 0 < rom.size, c = { rom, rom_pos := pos, sramSize := min sramSize bankSize } := by
  unfold ofRom? at accepted
  split at accepted
  · cases accepted
  · split at accepted
    · cases accepted
    · split at accepted <;> cases accepted
      exact ⟨_, rfl⟩

/-- Any whole number of banks that fits the window is a cartridge. -/
theorem ofRom?_accepts {rom : Image} (some : rom.size ≠ 0) (fits : rom.size ≤ romWindow)
    (whole : rom.size % bankSize = 0) (sramSize : Nat) : ∃ c, ofRom? rom sramSize = .ok c := by
  unfold ofRom?
  rw [dif_neg some, if_neg (Nat.not_lt.mpr fits), if_neg fun partly => partly whole]
  exact ⟨_, rfl⟩

/-- A single bank is a cartridge, with any amount of writable memory. -/
theorem ofRom?_zeros_bank (sramSize : Nat) : ∃ c, ofRom? (.zeros bankSize) sramSize = .ok c := by
  have size := Image.size_zeros bankSize
  refine ofRom?_accepts ?_ ?_ ?_ sramSize
  all_goals
    rw [size]
    decide

end Cartridge

/-- What a board is when it is built: its parts, and nothing attached. -/
theorem Board.build_ok {δ ω : Type} {model : Model} {bootstrap : Image} {cartridge : Cartridge}
    {b : Board δ ω} (built : build model bootstrap cartridge = .ok b) :
    (bootstrap.isEmpty = true ∨ bootstrap.size = model.bootstrapSize) ∧ b = {
      model, bootstrap, cartridge
      bootstrapLocked := bootstrap.isEmpty
      sound := { idle := model.unmappedPort }
      serial := { idle := model.unmappedPort } } := by
  simp only [build] at built
  split at built
  · cases built
  · rename_i fits
    cases built
    exact ⟨by simpa [Decidable.or_iff_not_imp_left] using fits, rfl⟩

namespace Console

variable {δ ω η : Type}

/-- A console is built around a board that was built and reset. -/
theorem build_board [Device δ] {config : Config} {c : Console δ ω η}
    (built : build config = .ok c) :
    ∃ cartridge board, Cartridge.ofRom? config.rom config.sramSize = .ok cartridge ∧
      Board.build config.model (config.bootstrap.getD {}) cartridge = .ok board ∧
      c.board = board.reset := by
  unfold build at built
  obtain ⟨cartridge, accepted, built⟩ := ok_of_bind built
  have rest : ∃ board, Board.build config.model (config.bootstrap.getD {}) cartridge = .ok board ∧
      Except.ok (reset { core := { cpu := {}, bus := board } }) = Except.ok (ε := BuildError) c := by
    cases given : config.bootstrap with
    | none =>
      rw [given] at built
      exact ok_of_bind built
    | some image =>
      rw [given] at built
      dsimp only at built
      split at built
      · obtain ⟨_, refused, _⟩ := ok_of_bind built
        cases refused
      · exact ok_of_bind built
  obtain ⟨board, boarded, same⟩ := rest
  cases same
  exact ⟨cartridge, board, accepted, boarded, rfl⟩

/-- Nothing has been counted when a console is built. -/
theorem build_counts [Device δ] {config : Config} {c : Console δ ω η}
    (built : build config = .ok c) :
    c.clock = {} ∧ c.frames = 0 ∧ c.cpu.total = {} ∧ c.overflowed = false := by
  simp only [build, bind, Except.bind, pure, Except.pure] at built
  repeat' split at built
  all_goals cases built
  all_goals exact ⟨rfl, rfl, rfl, rfl⟩

/-- With such a cartridge alone, either model is built. -/
theorem build_zeros_bank [Device δ] (model : Model) (sramSize : Nat) :
    ∃ c : Console δ ω η, build { model, rom := .zeros Cartridge.bankSize, sramSize } = .ok c := by
  obtain ⟨cartridge, accepted⟩ := Cartridge.ofRom?_zeros_bank sramSize
  unfold build
  rw [accepted]
  exact ⟨_, rfl⟩

end Console

end Swan
