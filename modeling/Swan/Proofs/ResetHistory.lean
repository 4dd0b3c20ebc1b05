import Swan.Proofs.BuildInvariant
import Swan.Proofs.HostCommand

/-! What a reset leaves behind. Whatever was done to a console, the parts that it was built
from are still there, and a reset clears the rest but for what is meant to stay. So nothing
of the console's history shows afterwards, unless the history is in the writable cartridge
memory, in the buttons the host holds, or in the counts. -/
namespace Swan.Console

variable {δ ω η : Type} [Device δ] [Observer ω] [StepHook η] {fresh c : Console δ ω η}

section Bare

variable (bare : fresh.board.Bare)

include bare

/-- Whatever a host has a console do, the parts it was built from are still there. -/
theorem Command.keepsBuild (command : Command ω η) (same : fresh.board.SameBuild c.board) :
    fresh.board.SameBuild (command.run c).board := by
  cases command with
  | act act =>
    have carried : Carried fun c d : Console δ ω η =>
        fresh.board.SameBuild c.board → fresh.board.SameBuild d.board :=
      { refl := fun _ => id
        trans := fun first second same => second (first same)
        step := fun _ => runStep_sameBuild bare
        line := fun _ _ => id }
    refine carried.act (fun c _ same => same.devices _ _ _ _) (fun c act same => ?_) c act same
    cases act with
    | access a => exact (Board.SameBuild.stable bare).access same a
    | request => exact same.devices _ _ _ _
    | hold => exact same.devices _ _ _ _
    | processor => exact same
    | hook => exact same
  | reset => exact same.keepsReset bare
  | query => exact same
  | slice =>
    exact Board.runSlice_keeps (Board.SameBuild.stable bare).toMemoryStable
      (fun transfer same => same.engine transfer) same
  | devices cycles => exact same.stepDevices bare cycles
  | observe observer => exact same.observe observer
  | processor => exact same
  | interrupts => exact same.devices _ _ _ _
  | raster => exact same.devices _ _ _ _
  | transfer => exact same.devices _ _ _ _
  | keypad => exact same.devices _ _ _ _

theorem obey_sameBuild (commands : List (Command ω η)) (same : fresh.board.SameBuild c.board) :
    fresh.board.SameBuild (c.obey commands).board := by
  induction commands generalizing c with
  | nil => exact same
  | cons command rest ih => exact ih (command.keepsBuild bare same)

omit [Observer ω] [StepHook η] in
/-- Of a console built as `fresh` is, a reset makes `fresh` again, but for what is meant to
stay. -/
theorem reset_sameBuild (powerOn : ∃ d : Console δ ω η, fresh = d.reset)
    (same : fresh.board.SameBuild c.board) : c.reset = { fresh with
      core.cpu.total := c.cpu.total
      core.bus.cartridge.sram := c.board.cartridge.sram
      core.bus.keypad.held := c.board.keypad.held
      core.bus.observer := c.board.observer
      clock := c.clock
      frames := c.frames
      hook := c.hook } := by
  obtain ⟨d, rfl⟩ := powerOn
  have again : d.reset.board.reset = d.reset.board := Board.reset_reset bare
  have board := same.reset
  rw [again] at board
  exact congrArg (fun bus => { c with
    core := ⟨c.cpu.reset, bus⟩, lineCycles := 0, frameCycles := 0, icons := 0, cancelled := false,
    overflowed := false }) board

end Bare

/-- Reset leaks nothing. A console that is built, used in any way and reset is the console as it
was built, but for the cartridge memory, the buttons held, three counts, the observer and the hook. -/
theorem reset_leaks_nothing {config : Config} (built : build config = .ok fresh) :
    (∀ before : List (Command ω η),
      let c := fresh.obey before
      c.reset = { fresh with
        core.cpu.total := c.cpu.total
        core.bus.cartridge.sram := c.board.cartridge.sram
        core.bus.keypad.held := c.board.keypad.held
        core.bus.observer := c.board.observer
        clock := c.clock
        frames := c.frames
        hook := c.hook }) ∧
    ∀ before before' after : List (Command ω η),
      let c := fresh.obey before
      let c' := fresh.obey before'
      c.board.cartridge.sramBytes = c'.board.cartridge.sramBytes →
      c.board.keypad.held = c'.board.keypad.held →
      c.board.observer = c'.board.observer →
      c.hook = c'.hook → (∀ hook, c.hook = some hook → IgnoresTotal hook) →
      (∀ command ∈ after, command.IgnoresTotal) →
        c.reset.answers after = c'.reset.answers after ∧
        ∃ total clock frames,
          c'.reset.obey after = (c.reset.obey after).recount total clock frames := by
  have bare := build_bare built
  have same (before : List (Command ω η)) := obey_sameBuild bare before (.refl bare)
  have restored (before : List (Command ω η)) :=
    reset_sameBuild bare (build_eq_reset built) (same before)
  refine ⟨restored, ?_⟩
  intro before before' after c c' sram held observer hook blind ignore
  have size := (same before').sramSize.trans (same before).sramSize.symm
  have memory : c.board.cartridge.sram = c'.board.cartridge.sram :=
    Cartridge.sram_eq_of_sramBytes size (same before).spare (same before').spare sram
  have twin : Twin c.reset c'.reset := by
    refine ⟨⟨c'.cpu.total, c'.clock, c'.frames, ?_⟩, blind⟩
    rw [restored before, restored before', ← memory, ← held, ← observer, ← hook]
    rfl
  obtain ⟨answers, afterwards⟩ := twin.obey ignore
  exact ⟨answers, afterwards.counts⟩

/-- Start is held, after leaving a queued prefix, an interrupt to be paid, a transfer that was
never paid for, an enabled line and a raster in its second line. -/
def busy : List (Command Empty Empty) :=
  [.processor fun cpu => { cpu with
      halted := true, prefixes := cpu.prefixes.push 0xF3, deferred := 21 },
    .transfer fun t => { t with fresh := true },
    .interrupts fun i => { i with enabled := 0xFF },
    .devices 300,
    .act (.host (.hold 0x0400))]

theorem reset_leaks_nothing_busy : ∃ fresh : Console Empty Empty Empty,
    build { model := .color, rom := .zeros Cartridge.bankSize, sramSize := 0x2000 } = .ok fresh ∧
      let c := fresh.obey busy
      let c' := fresh.obey [.act (.host (.hold 0x0400))]
      let after : List (Command Empty Empty) := [.act .frame, .query "memory.0x100"]
      c.cpu.deferred = 21 ∧ c.board.transfer.fresh = true ∧ c.board.interrupts.enabled = 0xFF ∧
        c.reset.answers after = c'.reset.answers after ∧
        ∃ total clock frames,
          c'.reset.obey after = (c.reset.obey after).recount total clock frames := by
  obtain ⟨fresh, built⟩ := build_zeros_bank (δ := Empty) (ω := Empty) (η := Empty) .color 0x2000
  refine ⟨fresh, built, rfl, rfl, rfl, ?_⟩
  refine (reset_leaks_nothing built).2 busy _ _ rfl rfl rfl rfl (fun hook => nomatch hook) ?_
  intro command member
  simp only [List.mem_cons, List.not_mem_nil, or_false] at member
  rcases member with rfl | rfl
  · trivial
  · have other : "memory.0x100" ∉ countPaths := by decide
    exact other

end Swan.Console
