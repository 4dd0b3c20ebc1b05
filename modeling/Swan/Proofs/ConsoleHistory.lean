import Swan.Proofs.ConsoleSession
import Swan.Proofs.InterruptHistory

/-! What the interrupt controller of a console hears: what the program writes to ports, what
the devices ask for after every step, the keypad at the end of a frame, and the host. What
the program writes is found by running the processor on a board that writes it down. Any other
device that listens to the ports can be told from the same writes. -/
namespace Swan

/-- A board beside the writes to ports that its devices have seen, newest first. -/
structure Recorded (δ ω : Type) where
  board : Board δ ω
  history : List Interrupts.Event := []

variable {δ ω η : Type} [Device δ] [Observer ω]

instance : Bus (Recorded δ ω) where
  read r a := ((Bus.read r.board a).1, { r with board := (Bus.read r.board a).2 })
  write r a v := { r with board := Bus.write r.board a v }
  portIn r p := ((Bus.portIn r.board p).1, { r with board := (Bus.portIn r.board p).2 })
  portOut r p v :=
    { board := Bus.portOut r.board p v
      history := .write p (r.board.portSeen p v).1 :: r.history }

namespace Board

/-- The model of a board and what its interrupt controller holds. -/
def Hears (model : Model) (i : Interrupts) (b : Board δ ω) : Prop :=
  b.model = model ∧ b.interrupts = i

theorem hears_memoryStable (model : Model) (i : Interrupts) :
    MemoryStable (Hears (δ := δ) (ω := ω) model i) :=
  memoryStable fun _ _ _ h => h

omit [Observer ω] in
/-- The controller hears every write to a port, and ignores those that are not for it. -/
theorem writePort_hears {model : Model} {i : Interrupts} {b : Board δ ω} (h : b.Hears model i)
    (p v : Byte) : (b.writePort p v).Hears model (i.writePort model p v) := by
  obtain ⟨rfl, rfl⟩ := h
  unfold writePort
  by_cases own : PortOwner.of b.model p = .interrupts
  · rw [own]
    exact ⟨rfl, rfl⟩
  · have ignored : b.interrupts.writePort b.model p v = b.interrupts := by
      rw [PortOwner.of_eq_interrupts] at own
      rw [Interrupts.writePort_eq, if_neg fun h => own (.inl h), if_neg fun h => own (.inr (.inl h)),
        if_neg fun h => own (.inr (.inr (.inr h)))]
    rw [ignored]
    cases owner : PortOwner.of b.model p
    case interrupts => exact absurd owner own
    all_goals exact ⟨rfl, rfl⟩

theorem portIn_hears {model : Model} {i : Interrupts} {b : Board δ ω} (h : b.Hears model i)
    (p : Byte) : (Bus.portIn b p).2.Hears model i := by
  obtain ⟨sound, serial, v, eq⟩ := b.portIn_frame p
  rw [eq]
  exact h

theorem portOut_hears {model : Model} {i : Interrupts} {b : Board δ ω} (h : b.Hears model i)
    (p v : Byte) :
    (Bus.portOut b p v).Hears model (i.writePort model p (b.portSeen p v).1) := by
  have observed : Hears model i { b with observer := (b.portSeen p v).2 } := h
  exact writePort_hears observed p _

end Board

/-- What the program writes to ports in the next step of the processor, newest first, as the
devices see it. -/
def Core.portWrites (core : Core (Board δ ω)) : List Interrupts.Event :=
  (Exec.step (⟨core.cpu, { board := core.bus }⟩ : Core (Recorded δ ω))).2.bus.history

namespace Board

def requests (b : Board δ ω) (cycles : Nat) : List Interrupts.Event :=
  [.apply (b.serial.step cycles).1, .apply (b.sound.step cycles).1, .apply (b.raster.step cycles).1]

omit [Observer ω] in
theorem stepDevices_hears {model : Model} {i : Interrupts} {b : Board δ ω} (h : b.Hears model i)
    (cycles : Nat) :
    (b.stepDevices cycles).Hears model (Interrupts.after model (b.requests cycles) i) := by
  obtain ⟨rfl, rfl⟩ := h
  exact ⟨rfl, rfl⟩

end Board

/-- What is known of a board from what has been said on it, whatever is said next. -/
structure Listens (P : List Interrupts.Event → Board δ ω → Prop) : Prop where
  memory : ∀ history, MemoryStable (P history)
  engine : ∀ {history b} transfer, P history b → P history { b with transfer }
  portIn : ∀ {history b}, P history b → ∀ p, P history (Bus.portIn b p).2
  portOut : ∀ {history b}, P history b → ∀ p v,
    P (.write p (b.portSeen p v).1 :: history) (Bus.portOut b p v)
  devices : ∀ {history b} cycles, P history b →
    P (b.requests cycles ++ history) (b.stepDevices cycles)

theorem Board.hears_listens (model : Model) (i : Interrupts) :
    Listens fun history (b : Board δ ω) => b.Hears model (Interrupts.after model history i) where
  memory _ := hears_memoryStable _ _
  engine _ h := h
  portIn h p := portIn_hears h p
  portOut h p v := portOut_hears h p v
  devices cycles h := stepDevices_hears h cycles

namespace Listens

variable {P : List Interrupts.Event → Board δ ω → Prop} (listens : Listens P)
  {history : List Interrupts.Event} {core : Core (Board δ ω)}

include listens

/-- A recorded board is the board, and its record is what has been said on it. -/
theorem simulates (history : List Interrupts.Event) : Simulates fun b (r : Recorded δ ω) =>
    r.board = b ∧ P (r.history ++ history) b where
  read := by
    rintro b r ⟨rfl, known⟩ a
    exact ⟨rfl, rfl, (listens.memory _).read known a⟩
  write := by
    rintro b r ⟨rfl, known⟩ a v
    exact ⟨rfl, (listens.memory _).write known a v⟩
  portIn := by
    rintro b r ⟨rfl, known⟩ p
    exact ⟨rfl, rfl, listens.portIn known p⟩
  portOut := by
    rintro b r ⟨rfl, known⟩ p v
    exact ⟨rfl, listens.portOut known p v⟩

theorem step (known : P history core.bus) :
    P (core.portWrites ++ history) (Exec.step core).2.bus := by
  have := listens.simulates history
  obtain ⟨answer, cpu, b, r, run, recorded, rfl, after⟩ := (Exec.step_related
    (R := fun b (r : Recorded δ ω) => r.board = b ∧ P (r.history ++ history) b)).related
      (c := { board := core.bus }) ⟨rfl, known⟩ core.cpu
  rw [show Exec.step core = _ from run, Core.portWrites, recorded]
  exact after

end Listens

namespace Console

def coreEvents (core : Core (Board δ ω)) : List Interrupts.Event :=
  if core.bus.transferActive then [] else core.portWrites

theorem runCore_listens {P : List Interrupts.Event → Board δ ω → Prop} (listens : Listens P)
    {history : List Interrupts.Event} {core : Core (Board δ ω)} (known : P history core.bus) :
    P (coreEvents core ++ history) (runCore core).2.bus := by
  cases active : core.bus.transferActive with
  | true =>
    rw [runCore_active active, coreEvents, if_pos active]
    exact Board.runSlice_keeps (listens.memory history) (fun transfer => listens.engine transfer)
      known
  | false =>
    rw [runCore_free active, coreEvents, if_neg (Bool.eq_false_iff.mp active)]
    exact listens.step known

section Events

variable [StepHook η]

def stepEvents (c : Console δ ω η) : List Interrupts.Event :=
  match consultHook c.hook c.cpu with
  | (true, _) => []
  | (false, _) =>
    let served := serveInterrupt c.core
    match runCore served with
    | (none, _) => coreEvents served
    | (some cycles, core) => core.bus.requests cycles ++ coreEvents served

def frameEvents (c : Console δ ω η) : List Interrupts.Event :=
  if ButtonSet.isEmpty c.board.keypad.sample.1 then [] else [.raise .key]

def HostAct.events (c : Console δ ω η) : HostAct η → List Interrupts.Event
  | access (.portOut p v) => [.write p (c.board.portSeen p v).1]
  | request r => [.apply r]
  | access _ | hold _ | processor _ | hook _ => []

/-- The states that a console comes to from power on, each with what its interrupt controller
has heard on the way, newest first. -/
inductive Heard : Console δ ω η → List Interrupts.Event → Prop where
  | powerOn (c : Console δ ω η) : Heard c.reset []
  | reset {c : Console δ ω η} {history} : Heard c history → Heard c.reset (.reset :: history)
  | step {c : Console δ ω η} {history} : Heard c history →
      Heard c.runStep.2 (c.stepEvents ++ history)
  | line {c : Console δ ω η} {history} : Heard c history → Heard c.foldLine history
  | frame {c : Console δ ω η} {history} : Heard c history →
      Heard c.foldFrame (c.frameEvents ++ history)
  | host {c : Console δ ω η} {history} (act : HostAct η) : Heard c history →
      Heard (act.run c) (act.events c ++ history)

variable {c : Console δ ω η} {model : Model} {i : Interrupts}

/-- What is known of a board is known after a whole step. -/
theorem runStep_listens {P : List Interrupts.Event → Board δ ω → Prop} (listens : Listens P)
    {history : List Interrupts.Event} (known : P history c.board) :
    P (c.stepEvents ++ history) c.runStep.2.board := by
  have served := serveInterrupt_keeps (listens.memory history) known
  have ran := runCore_listens listens served
  obtain ⟨hook, consulted, stops⟩ | ⟨hook, core, consulted, run, stalls⟩ |
    ⟨hook, cycles, cpu, board, consulted, run, -, completes⟩ := c.runStep_cases
  · rw [stops, stepEvents, consulted]
    exact known
  · rw [run] at ran
    rw [stalls, stepEvents, consulted]
    dsimp only
    rw [run]
    exact ran
  · rw [run] at ran
    rw [completes, stepEvents, consulted]
    dsimp only
    rw [run, List.append_assoc]
    exact listens.devices cycles ran

omit [Device δ] [Observer ω] [StepHook η] in
theorem foldFrame_hears (h : c.board.Hears model i) :
    c.foldFrame.board.Hears model (Interrupts.after model c.frameEvents i) := by
  obtain ⟨rfl, rfl⟩ := h
  unfold frameEvents
  by_cases idle : ButtonSet.isEmpty c.board.keypad.sample.1 = true
  · rw [if_pos idle]
    exact ⟨rfl, if_pos idle⟩
  · rw [if_neg idle]
    exact ⟨rfl, if_neg idle⟩

omit [StepHook η] in
theorem HostAct.run_hears (act : HostAct η) (h : c.board.Hears model i) :
    (act.run c).board.Hears model (Interrupts.after model (act.events c) i) := by
  cases act with
  | access a =>
    cases a with
    | read a v => exact (Board.hears_memoryStable _ _).read h a
    | write a v => exact (Board.hears_memoryStable _ _).write h a v
    | portIn p v => exact Board.portIn_hears h p
    | portOut p v => exact Board.portOut_hears h p v
  | request r =>
    obtain ⟨rfl, rfl⟩ := h
    exact ⟨rfl, rfl⟩
  | hold buttons => exact h
  | processor cpu => exact h
  | hook hook => exact h

/-- What a console has heard is all there is to its interrupt controller. -/
theorem Heard.hears {history : List Interrupts.Event} (heard : Heard c history) :
    c.board.interrupts = Interrupts.after c.board.model history {} := by
  suffices known : ∃ model, c.board.Hears model (Interrupts.after model history {}) by
    obtain ⟨model, rfl, same⟩ := known
    exact same
  induction heard with
  | powerOn c => exact ⟨_, rfl, rfl⟩
  | reset _ ih =>
    obtain ⟨model, rfl, _⟩ := ih
    exact ⟨_, rfl, rfl⟩
  | line _ ih => exact ih
  | step _ ih =>
    obtain ⟨model, h⟩ := ih
    exact ⟨model, runStep_listens (Board.hears_listens model {}) h⟩
  | frame _ ih =>
    obtain ⟨model, h⟩ := ih
    refine ⟨model, ?_⟩
    rw [Interrupts.after_append]
    exact foldFrame_hears h
  | host act _ ih =>
    obtain ⟨model, h⟩ := ih
    refine ⟨model, ?_⟩
    rw [Interrupts.after_append]
    exact act.run_hears h

/-- Calls are made of steps and of the ends of lines and frames, so a whole session is heard. -/
theorem heard_carried : Carried fun c d : Console δ ω η =>
    (∃ history, Heard c history) → ∃ history, Heard d history where
  refl _ h := h
  trans first second h := second (first h)
  step _ := fun ⟨_, h⟩ => ⟨_, h.step⟩
  line _ _ := fun ⟨_, h⟩ => ⟨_, h.line⟩

theorem session_heard (acts : List (Act η)) (heard : ∃ history, Heard c history) :
    ∃ history, Heard (c.session acts) history :=
  heard_carried.session (fun _ _ ⟨_, h⟩ => ⟨_, h.frame⟩) (fun _ act ⟨_, h⟩ => ⟨_, h.host act⟩)
    c acts heard

end Events

end Console

end Swan
