import Swan.Proofs.FrameEnd
import Swan.Proofs.HostCommand
import Swan.Proofs.MemoryLog

/-! An observer filters values and does nothing else. An observed board does what a board
without an observer does with the values that the observer answers, and the observer is asked
once for every access, in order. So an observer that answers every value with itself could as
well not be there. -/
namespace Swan

variable {δ ω : Type}

section Observer

variable [Observer ω]

namespace Access

def value : Access → Byte
  | read _ v | write _ v | portIn _ v | portOut _ v => v

def withValue (v : Byte) : Access → Access
  | read a _ => read a v
  | write a _ => write a v
  | portIn p _ => portIn p v
  | portOut p _ => portOut p v

def ask (o : ω) : Access → Byte × ω
  | read a v => Observer.memoryRead o a v
  | write a v => Observer.memoryWrite o a v
  | portIn p v => Observer.portRead o p v
  | portOut p v => Observer.portWrite o p v

end Access

def askAll (o : ω) : List Access → List Byte × ω
  | [] => ([], o)
  | shown :: rest =>
    let (answer, o) := shown.ask o
    let (answers, o) := askAll o rest
    (answer :: answers, o)

theorem askAll_append (o : ω) (front back : List Access) :
    askAll o (front ++ back) = ((askAll o front).1 ++ (askAll (askAll o front).2 back).1,
      (askAll (askAll o front).2 back).2) := by
  induction front generalizing o with
  | nil => rfl
  | cons shown rest ih =>
    simp only [List.cons_append, askAll]
    rw [ih]

end Observer

/-- What an observed board does. An access comes with the value that the observer is shown, and
the one it answers. -/
inductive Relay where
  | access (shown : Access) (answer : Byte)
  | claim
  | devices (cycles : Nat)
  | reset

namespace Relay

def shown? : Relay → Option Access
  | access shown _ => some shown
  | _ => none

def answer? : Relay → Option Byte
  | access _ answer => some answer
  | _ => none

end Relay

namespace Board

variable [Device δ]

def watch (b : Board δ ω) (o : ω) : Board δ ω := { b with observer := some o }

def free (b : Board δ ω) : Board δ ω := { b with observer := none }

variable [Observer ω]

/-- A board does what is told of another one, with the values that were answered there. -/
def relay (b : Board δ ω) : Relay → Board δ ω
  | .access shown answer => (shown.withValue answer).run b
  | .claim => { b with transfer := b.transfer.next?.2 }
  | .devices cycles => b.stepDevices cycles
  | .reset => b.reset

/-- What an event amounts to on a board without an observer. A read shows the byte that the board
answers; a slice claims the next word, and copies it by reads and writes of the answers. -/
def relays (b : Board δ ω) (o : ω) : BusEvent → List Relay
  | .read a =>
    let shown := Access.read (a.setWidth 20) (Bus.read b (a.setWidth 20)).1
    [.access shown (shown.ask o).1]
  | .write a v =>
    let shown := Access.write (a.setWidth 20) v
    [.access shown (shown.ask o).1]
  | .portIn p =>
    let shown := Access.portIn p (Bus.portIn b p).1
    [.access shown (shown.ask o).1]
  | .portOut p v =>
    let shown := Access.portOut p v
    [.access shown (shown.ask o).1]
  | .slice =>
    match b.transfer.next?.1 with
    | none => []
    | some slice =>
      let low := Access.read slice.source (Bus.read b slice.source).1
      let (fromLow, o) := low.ask o
      let high := Access.read (slice.source + 1) (Bus.read b (slice.source + 1)).1
      let (fromHigh, o) := high.ask o
      let first := Access.write (slice.destination.setWidth 20) fromLow
      let (toFirst, o) := first.ask o
      let second := Access.write ((slice.destination + 1).setWidth 20) fromHigh
      [.claim, .access low fromLow, .access high fromHigh, .access first toFirst,
        .access second (second.ask o).1]
  | .devices cycles => [.devices cycles]
  | .reset => [.reset]

def shownAll (o : ω) (relays : List Relay) : ω := (askAll o (relays.filterMap Relay.shown?)).2

def relaysAll (b : Board δ ω) (o : ω) : List BusEvent → List Relay
  | [] => []
  | e :: rest =>
    let now := b.relays o e
    now ++ relaysAll (now.foldl relay b) (shownAll o now) rest

section Access

variable {b : Board δ ω} (free : b.observer = none) (o : ω)

include free

theorem read_watch (a : Address) : Bus.read (b.watch o) a =
    (((Access.read a (Bus.read b a).1).ask o).1,
      (Bus.read b a).2.watch ((Access.read a (Bus.read b a).1).ask o).2) := by
  rw [read_unobserved free, read_eq]
  rfl

theorem write_watch (a : Address) (v : Byte) : Bus.write (b.watch o) a v =
    (Bus.write b a ((Access.write a v).ask o).1).watch ((Access.write a v).ask o).2 := by
  rw [write_unobserved free]
  change ({ b with observer := _ } : Board δ ω).poke a _ = _
  unfold poke watch
  split
  · split <;> rfl
  · rfl

theorem portIn_watch (p : Byte) : Bus.portIn (b.watch o) p =
    (((Access.portIn p (Bus.portIn b p).1).ask o).1,
      (Bus.portIn b p).2.watch ((Access.portIn p (Bus.portIn b p).1).ask o).2) := by
  cases b
  cases free
  simp only [Bus.portIn, watch, readPort]
  generalize PortOwner.of _ p = owner
  cases owner <;> rfl

theorem portOut_watch (p v : Byte) : Bus.portOut (b.watch o) p v =
    (Bus.portOut b p ((Access.portOut p v).ask o).1).watch ((Access.portOut p v).ask o).2 := by
  rw [portOut_unobserved free]
  change ({ b with observer := _ } : Board δ ω).writePort p _ = _
  unfold writePort watch
  cases PortOwner.of b.model p <;> rfl

/-- A claimed word is copied over the bus, by accesses that the observer is shown. -/
theorem runSlice_watch : (b.watch o).runSlice =
    (b.runSlice.1, ((b.relays o .slice).foldl relay b).watch (shownAll o (b.relays o .slice))) := by
  rcases next : b.transfer.next? with ⟨_ | slice, transfer⟩
  · simp only [runSlice, relays, watch, next, List.foldl_nil, shownAll, List.filterMap_nil, askAll]
  · let d : Board δ ω := { b with transfer }
    have claimed : d.observer = none := free
    have reads (a : Address) : (Bus.read b a).1 = (Bus.read d a).1 := by
      rw [read_unobserved free, read_unobserved claimed]
      rfl
    have stays (a : Address) : (Bus.read d a).2 = d := by rw [read_unobserved claimed]
    unfold runSlice
    rw [show (b.watch o).transfer.next? = (some slice, transfer) from next, next]
    dsimp only
    rw [show ({ b.watch o with transfer } : Board δ ω) = d.watch o from rfl, read_watch claimed]
    dsimp only
    rw [stays, read_watch claimed]
    dsimp only
    rw [stays, write_watch claimed, write_watch (unobserved_stable.write claimed _ _)]
    have claims : b.relay .claim = d := by
      simp only [relay, next]
      rfl
    simp only [relays, next, List.foldl_cons, List.foldl_nil, claims]
    simp only [relay, Access.withValue, Access.run, stays, reads]
    rfl

theorem relay_free (r : Relay) : (b.relay r).observer = none := by
  cases r with
  | access shown answer => exact unobserved_stable.access free _
  | claim | devices | reset => exact free

theorem after_watch (e : BusEvent) : (b.watch o).after e =
    ((b.relays o e).foldl relay b).watch (shownAll o (b.relays o e)) := by
  cases e with
  | read a => exact congrArg Prod.snd (read_watch free o (a.setWidth 20))
  | write a v => exact write_watch free o (a.setWidth 20) v
  | portIn p => exact congrArg Prod.snd (portIn_watch free o p)
  | portOut p v => exact portOut_watch free o p v
  | slice => exact congrArg Prod.snd (runSlice_watch free o)
  | devices cycles => rfl
  | reset => rfl

end Access

/-- Each answer is the observer's, at that point. -/
theorem answers_relays (b : Board δ ω) (o : ω) (e : BusEvent) :
    (b.relays o e).filterMap Relay.answer? =
      (askAll o ((b.relays o e).filterMap Relay.shown?)).1 := by
  cases e with
  | slice =>
    unfold relays
    cases b.transfer.next?.1 <;> rfl
  | _ => rfl

theorem shownAll_append (o : ω) (front back : List Relay) :
    shownAll o (front ++ back) = shownAll (shownAll o front) back := by
  rw [shownAll, List.filterMap_append, askAll_append]
  rfl

theorem answers_relaysAll (b : Board δ ω) (o : ω) (events : List BusEvent) :
    (b.relaysAll o events).filterMap Relay.answer? =
      (askAll o ((b.relaysAll o events).filterMap Relay.shown?)).1 := by
  induction events generalizing b o with
  | nil => rfl
  | cons e rest ih =>
    simp only [relaysAll, List.filterMap_append, answers_relays, askAll_append, ih]
    rfl

theorem foldl_relay_free {b : Board δ ω} (free : b.observer = none) (log : List Relay) :
    (log.foldl relay b).observer = none := by
  induction log generalizing b with
  | nil => exact free
  | cons r rest ih => exact ih (relay_free free r)

theorem run_watch {b : Board δ ω} (free : b.observer = none) (o : ω) (events : List BusEvent) :
    (b.watch o).run events =
        ((b.relaysAll o events).foldl relay b).watch (shownAll o (b.relaysAll o events)) := by
  induction events generalizing b o with
  | nil => rfl
  | cons e rest ih =>
    have ran := ih (foldl_relay_free free (b.relays o e)) (shownAll o (b.relays o e))
    rw [relaysAll, List.foldl_append, shownAll_append]
    exact (congrArg (run · rest) (after_watch free o e)).trans ran

end Board

section Transparent

variable [Observer ω]

/-- An observer that answers every value, now and later, with the value itself. -/
def Transparent (o : ω) : Prop :=
  ∃ P : ω → Prop, P o ∧ ∀ o, P o → ∀ a : Access, (a.ask o).1 = a.value ∧ P (a.ask o).2

theorem Transparent.ask {o : ω} (transparent : Transparent o) (a : Access) :
    (a.ask o).1 = a.value ∧ Transparent (a.ask o).2 := by
  obtain ⟨P, now, later⟩ := transparent
  exact ⟨(later o now a).1, P, (later o now a).2, later⟩

namespace Board

variable [Device δ]

/-- Two boards that only a transparent observer tells apart. -/
def Unwatched (b c : Board δ ω) : Prop :=
  b.observer = none ∧ ∃ o, Transparent o ∧ c = b.watch o

instance : Simulates (Unwatched (δ := δ) (ω := ω)) where
  read := by
    rintro b _ ⟨free, o, transparent, rfl⟩ a
    obtain ⟨same, next⟩ := transparent.ask (.read a (Bus.read b a).1)
    rw [read_watch free]
    exact ⟨same.symm, unobserved_stable.read free a, _, next, rfl⟩
  write := by
    rintro b _ ⟨free, o, transparent, rfl⟩ a v
    obtain ⟨same, next⟩ := transparent.ask (.write a v)
    rw [write_watch free, same]
    exact ⟨unobserved_stable.write free a v, _, next, rfl⟩
  portIn := by
    rintro b _ ⟨free, o, transparent, rfl⟩ p
    obtain ⟨same, next⟩ := transparent.ask (.portIn p (Bus.portIn b p).1)
    rw [portIn_watch free]
    exact ⟨same.symm, unobserved_stable.portIn free p, _, next, rfl⟩
  portOut := by
    rintro b _ ⟨free, o, transparent, rfl⟩ p v
    obtain ⟨same, next⟩ := transparent.ask (.portOut p v)
    rw [portOut_watch free, same]
    exact ⟨unobserved_stable.portOut free p v, _, next, rfl⟩

theorem Unwatched.runSlice {b c : Board δ ω} (unwatched : Unwatched b c) :
    b.runSlice.1 = c.runSlice.1 ∧ Unwatched b.runSlice.2 c.runSlice.2 := by
  have same : c.transfer = b.transfer := by
    obtain ⟨free, o, transparent, rfl⟩ := unwatched
    rfl
  unfold Board.runSlice
  rw [same]
  rcases b.transfer.next? with ⟨_ | slice, transfer⟩
  · exact ⟨rfl, unwatched⟩
  · have claimed : Unwatched { b with transfer } { c with transfer } := by
      obtain ⟨free, o, transparent, rfl⟩ := unwatched
      exact ⟨free, o, transparent, rfl⟩
    obtain ⟨low, first⟩ := Simulates.read claimed slice.source
    obtain ⟨high, second⟩ := Simulates.read first (slice.source + 1)
    refine ⟨rfl, ?_⟩
    dsimp only
    rw [low, high]
    exact Simulates.write (Simulates.write second _ _) _ _

end Board

end Transparent

namespace Console

variable {η : Type} [Device δ] [Observer ω]

def watch (c : Console δ ω η) (o : ω) : Console δ ω η := { c with core.bus := c.board.watch o }

def free (c : Console δ ω η) : Console δ ω η := { c with core.bus := c.board.free }

/-- Two consoles that only a transparent observer tells apart. -/
def Unwatched (c d : Console δ ω η) : Prop :=
  c.board.observer = none ∧ ∃ o, Transparent o ∧ d = c.watch o

section Core

variable {core other : Core (Board δ ω)}
  (unwatched : core.cpu = other.cpu ∧ Board.Unwatched core.bus other.bus)

include unwatched

theorem serveInterrupt_unwatched : (serveInterrupt core).cpu = (serveInterrupt other).cpu ∧
    Board.Unwatched (serveInterrupt core).bus (serveInterrupt other).bus := by
  have same : other.bus.interrupts = core.bus.interrupts := by
    obtain ⟨-, -, o, -, eq⟩ := unwatched
    rw [eq]
    rfl
  unfold serveInterrupt
  rw [same, ← unwatched.1]
  split
  · exact unwatched
  · split
    · exact unwatched
    · exact ((Exec.interrupt_paired _).paired
        (R := fun c d => c.cpu = d.cpu ∧ Board.Unwatched c.bus d.bus) unwatched).2

theorem runCore_unwatched : (runCore core).1 = (runCore other).1 ∧
    (runCore core).2.cpu = (runCore other).2.cpu ∧
    Board.Unwatched (runCore core).2.bus (runCore other).2.bus := by
  have same : other.bus.transferActive = core.bus.transferActive := by
    obtain ⟨-, -, o, -, eq⟩ := unwatched
    rw [eq]
    rfl
  cases active : core.bus.transferActive with
  | true =>
    rw [runCore_active active, runCore_active (same.trans active)]
    obtain ⟨cycles, after⟩ := unwatched.2.runSlice
    exact ⟨congrArg some cycles, unwatched.1, after⟩
  | false =>
    rw [runCore_free active, runCore_free (same.trans active)]
    exact Exec.step_paired.paired
      (R := fun c d => c.cpu = d.cpu ∧ Board.Unwatched c.bus d.bus) unwatched

end Core

variable [StepHook η]

theorem runStep_unwatched : Keeps Unwatched (runStep (δ := δ) (ω := ω) (η := η)) := by
  refine ⟨fun {c d} unwatched => ?_⟩
  obtain ⟨free, o, transparent, rfl⟩ := unwatched
  rcases consulted : consultHook c.hook c.cpu with ⟨_ | _, hook⟩
  · have start : c.core.cpu = (c.watch o).core.cpu ∧
        Board.Unwatched c.core.bus (c.watch o).core.bus := ⟨rfl, free, o, transparent, rfl⟩
    have served := serveInterrupt_unwatched start
    obtain ⟨answered, cpus, buses⟩ := runCore_unwatched served
    rw [runStep_passed consulted,
      runStep_passed (show consultHook (c.watch o).hook (c.watch o).cpu = _ from consulted)]
    unfold proceed
    rw [← served.1]
    rcases ran : runCore (serveInterrupt c.core) with ⟨cycles, cpu, board⟩
    rcases ran' : runCore (serveInterrupt (c.watch o).core) with ⟨_, _, _⟩
    rw [ran, ran'] at answered cpus buses
    obtain rfl := answered
    obtain rfl := cpus
    obtain ⟨free', o', transparent', rfl⟩ := buses
    cases cycles <;> exact ⟨rfl, free', o', transparent', rfl⟩
  · rw [runStep_intercepted consulted,
      runStep_intercepted (show consultHook (c.watch o).hook (c.watch o).cpu = _ from consulted)]
    exact ⟨rfl, free, o, transparent, rfl⟩

theorem runLine_unwatched : Keeps Unwatched (runLine (δ := δ) (ω := ω) (η := η)) := by
  refine runStep_unwatched.runLine ?_ ?_
  · rintro c _ ⟨free, o, transparent, rfl⟩
    rfl
  · rintro c _ ⟨free, o, transparent, rfl⟩
    exact ⟨free, o, transparent, rfl⟩

theorem runFrame_unwatched : Keeps Unwatched (runFrame (δ := δ) (ω := ω) (η := η)) := by
  refine runLine_unwatched.runFrame ?_ ?_
  · rintro c _ ⟨free, o, transparent, rfl⟩
    rfl
  · rintro c _ ⟨free, o, transparent, rfl⟩
    exact ⟨free, o, transparent, rfl⟩

/-- A command that leaves the observer in place. -/
def Command.KeepsObserver : Command ω η → Prop
  | observe _ => False
  | _ => True

omit [Device δ] [Observer ω] [StepHook η] in
theorem query_watch (c : Console δ ω η) (o : ω) (path : String) :
    Inspectable.query (c.watch o) path = Inspectable.query c path := by
  change queryPath _ path = queryPath c path
  unfold queryPath
  split
  · rfl
  · split
    · rfl
    · have agree : ∀ p ∈ properties (δ := δ) (ω := ω) (η := η), p.1 ∉ ([] : List String) →
          p.2 (c.watch o) = p.2 c := by
        simp [properties, watch, Board.watch, board, Board.transferActive]
      exact lookup_agree agree List.not_mem_nil

omit [StepHook η] in
theorem access_unwatched {b c : Board δ ω} (unwatched : Board.Unwatched b c) (a : Access) :
    accessAnswer b a = accessAnswer c a ∧ Board.Unwatched (a.run b) (a.run c) := by
  cases a with
  | read a v => exact (Simulates.read unwatched a).imp_left (congrArg Answer.byte)
  | write a v => exact ⟨rfl, Simulates.write unwatched a v⟩
  | portIn p v => exact (Simulates.portIn unwatched p).imp_left (congrArg Answer.byte)
  | portOut p v => exact ⟨rfl, Simulates.portOut unwatched p v⟩

theorem Command.unwatched {command : Command ω η} (keeps : command.KeepsObserver) :
    Keeps Unwatched fun c : Console δ ω η => (command.answer c, command.run c) := by
  refine ⟨fun {c d} unwatched => ?_⟩
  cases command with
  | act act =>
    cases act with
    | step => exact (runStep_unwatched.keeps unwatched).imp_left (congrArg Answer.ended)
    | line => exact (runLine_unwatched.keeps unwatched).imp_left (congrArg Answer.ended)
    | frame => exact (runFrame_unwatched.keeps unwatched).imp_left (congrArg Answer.ended)
    | host act =>
      obtain ⟨free, o, transparent, rfl⟩ := unwatched
      cases act with
      | access a =>
        obtain ⟨same, free', o', transparent', after⟩ :=
          access_unwatched ⟨free, o, transparent, rfl⟩ a
        exact ⟨same, free', o', transparent', congrArg (fun b => { c with core.bus := b }) after⟩
      | _ => exact ⟨rfl, free, o, transparent, rfl⟩
  | query path =>
    obtain ⟨free, o, transparent, rfl⟩ := unwatched
    exact ⟨congrArg Answer.value (c.query_watch o path).symm, free, o, transparent, rfl⟩
  | slice =>
    obtain ⟨free, o, transparent, rfl⟩ := unwatched
    obtain ⟨same, free', o', transparent', after⟩ :=
      Board.Unwatched.runSlice ⟨free, o, transparent, rfl⟩
    exact ⟨congrArg Answer.cycles same, free', o', transparent',
      congrArg (fun b => { c with core.bus := b }) after⟩
  | observe => exact keeps.elim
  | reset | devices | processor | interrupts | raster | transfer | keypad =>
    obtain ⟨free, o, transparent, rfl⟩ := unwatched
    exact ⟨rfl, free, o, transparent, rfl⟩

/-- An observer is a filter of values. A board under observation does what it would do without, of
the accesses with the values that the observer answered, and is shown each access once and in
order. -/
theorem observer_filters :
    (∀ (b : Board δ ω) (o : ω) (events : List BusEvent),
      let log := b.free.relaysAll o events
      let after := log.foldl Board.relay b.free
      let asked := Board.shownAll o log
      let observed := (b.watch o).run events
      observed = after.watch asked ∧
      log.filterMap Relay.answer? = (askAll o (log.filterMap Relay.shown?)).1 ∧
      (∀ a, (Bus.read observed a).1 = ((Access.read a (Bus.read after a).1).ask asked).1) ∧
      (∀ p, (Bus.portIn observed p).1 = ((Access.portIn p (Bus.portIn after p).1).ask asked).1) ∧
      observed.runSlice.1 = after.runSlice.1 ∧
      ∀ a, observed.peek a = after.peek a) ∧
    ∀ (c : Console δ ω η) (o : ω) (commands : List (Command ω η)), Transparent o →
      (∀ command ∈ commands, command.KeepsObserver) →
      (c.watch o).answers commands = c.free.answers commands ∧
      ∃ o', Transparent o' ∧ (c.watch o).obey commands = (c.free.obey commands).watch o' := by
  constructor
  · intro b o events log after asked observed
    have free : after.observer = none := Board.foldl_relay_free rfl log
    have ran : observed = after.watch asked := Board.run_watch (b := b.free) rfl o events
    refine ⟨ran, Board.answers_relaysAll b.free o events, fun a => ?_, fun p => ?_, ?_, fun a => ?_⟩
    all_goals rw [ran]
    · rw [Board.read_watch free]
    · rw [Board.portIn_watch free]
    · rw [Board.runSlice_watch free]
    · rfl
  · intro c o commands transparent keep
    have start : Unwatched c.free (c.watch o) := ⟨rfl, o, transparent, rfl⟩
    obtain ⟨same, -, o', transparent', after⟩ :=
      Keeps.obey (fun command member => Command.unwatched (keep command member)) start
    exact ⟨same.symm, o', transparent', after⟩

/-- An observer that remembers what it is shown, and changes nothing. -/
structure Recorder where
  shown : List Access := []

instance : Observer Recorder where
  memoryRead o a v := (v, ⟨o.shown ++ [.read a v]⟩)
  memoryWrite o a v := (v, ⟨o.shown ++ [.write a v]⟩)
  portRead o p v := (v, ⟨o.shown ++ [.portIn p v]⟩)
  portWrite o p v := (v, ⟨o.shown ++ [.portOut p v]⟩)

def plain : Console Empty Recorder Empty where
  core.cpu := {}
  core.bus :=
    { model := .color
      bootstrapLocked := true
      sound := ⟨0, none⟩
      serial := ⟨0, none⟩
      cartridge := { rom := ⟨⟨#[0]⟩⟩, rom_pos := Nat.zero_lt_one, sramSize := 0 } }

theorem observer_filters_recording :
    let commands : List (Command Recorder Empty) := [.act .step, .slice, .act .frame]
    Transparent ({} : Recorder) ∧ (∀ command ∈ commands, command.KeepsObserver) ∧
    (plain.watch {}).answers commands = plain.free.answers commands ∧
    ((plain.board.watch {}).run [.write 0x100100 5, .portIn 0xB5, .read 0x100]).observer =
      some ⟨[.write 0x100 5, .portIn 0xB5 0, .read 0x100 5]⟩ := by
  intro commands
  have transparent : Transparent ({} : Recorder) :=
    ⟨fun _ => True, trivial, fun o _ a => by cases a <;> exact ⟨rfl, trivial⟩⟩
  have keep : ∀ command ∈ commands, command.KeepsObserver := by simp [commands, Command.KeepsObserver]
  obtain ⟨filters, blind⟩ := observer_filters (δ := Empty) (ω := Recorder) (η := Empty)
  obtain ⟨ran, -⟩ := filters plain.board {} [.write 0x100100 5, .portIn 0xB5, .read 0x100]
  refine ⟨transparent, keep, (blind plain {} commands transparent keep).1, ?_⟩
  rw [ran]
  rfl

end Console

end Swan
