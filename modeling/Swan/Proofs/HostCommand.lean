import Swan.Console.Inspect
import Swan.Proofs.ConsoleSession
import Swan.Proofs.Resumption

/-! Everything a host can do with a console: run it, use its bus, step its devices and its
transfer engine, reset it, and change in place whatever part it is handed. The cycle total,
the clock and the frame count are only counted: two consoles that differ in nothing else
answer every command alike, as long as no hook and no change of the host's looks at the
total. -/
namespace Swan.Console

variable {δ ω η : Type}

inductive Command (ω η : Type) where
  | act (act : Act η)
  | reset
  | query (path : String)
  | slice
  | devices (cycles : Nat)
  | observe (observer : Option ω)
  | processor (change : Cpu → Cpu)
  | interrupts (change : Interrupts → Interrupts)
  | raster (change : Raster → Raster)
  | transfer (change : Transfer → Transfer)
  | keypad (change : Keypad → Keypad)

/-- What a host is told when its command is done. -/
inductive Answer where
  | done
  | ended (outcome : RunOutcome)
  | byte (v : Byte)
  | cycles (n : Nat)
  | value (v : Option Value)
  deriving DecidableEq, Repr

def accessAnswer {β : Type} [Bus β] (b : β) : Access → Answer
  | .read a _ => .byte (Bus.read b a).1
  | .portIn p _ => .byte (Bus.portIn b p).1
  | .write .. | .portOut .. => .done

variable [Device δ] [Observer ω] [StepHook η]

namespace Command

def run (c : Console δ ω η) : Command ω η → Console δ ω η
  | act a => a.run c
  | reset => c.reset
  | query _ => c
  | slice => { c with core.bus := c.board.runSlice.2 }
  | devices cycles => { c with core.bus := c.board.stepDevices cycles }
  | observe observer => { c with core.bus.observer := observer }
  | processor change => { c with core.cpu := change c.cpu }
  | interrupts change => { c with core.bus.interrupts := change c.board.interrupts }
  | raster change => { c with core.bus.raster := change c.board.raster }
  | transfer change => { c with core.bus.transfer := change c.board.transfer }
  | keypad change => { c with core.bus.keypad := change c.board.keypad }

def answer (c : Console δ ω η) : Command ω η → Answer
  | act .step => .ended c.runStep.1
  | act .line => .ended c.runLine.1
  | act .frame => .ended c.runFrame.1
  | act (.host (.access a)) => accessAnswer c.board a
  | query path => .value (Inspectable.query c path)
  | slice => .cycles c.board.runSlice.1
  | _ => .done

end Command

def obey (c : Console δ ω η) (commands : List (Command ω η)) : Console δ ω η :=
  commands.foldl Command.run c

def answers (c : Console δ ω η) : List (Command ω η) → List Answer
  | [] => []
  | command :: rest => command.answer c :: (command.run c).answers rest

/-- A hook whose answers, now and later, do not depend on the cycle total. -/
def IgnoresTotal (hook : η) : Prop :=
  ∃ P : η → Prop, P hook ∧ ∀ h, P h → ∀ (cpu : Cpu) (total : Ticks),
    P (StepHook.intercept h cpu).2 ∧
      StepHook.intercept h { cpu with total } = StepHook.intercept h cpu

def countPaths : List String := ["cpu.cycles", "total_cycles", "frames"]

/-- A command that does not ask for a count, and puts nothing in place that looks at the
cycle total. -/
def Command.IgnoresTotal : Command ω η → Prop
  | act (.host (.hook (some hook))) => Console.IgnoresTotal hook
  | query path => path ∉ countPaths
  | processor change => ∀ (cpu : Cpu) (total : Ticks),
    ∃ after, change { cpu with total } = { change cpu with total := after }
  | _ => True

omit [Device δ] [Observer ω] [StepHook η] in
def recount (c : Console δ ω η) (total clock : Ticks) (frames : Nat) : Console δ ω η :=
  { c with core.cpu.total := total, clock, frames }

/-- Two consoles that only their counts tell apart, with a hook that looks at none. -/
structure Twin (c d : Console δ ω η) : Prop where
  counts : ∃ total clock frames, d = c.recount total clock frames
  hook : ∀ h, c.hook = some h → IgnoresTotal h

/-- A call that answers alike on related consoles, and leaves related ones. -/
structure Keeps {α : Type} (R : Console δ ω η → Console δ ω η → Prop)
    (call : Console δ ω η → α × Console δ ω η) : Prop where
  keeps : ∀ {c d}, R c d → (call c).1 = (call d).1 ∧ R (call c).2 (call d).2

structure KeepsTwins {α : Type} (call : Console δ ω η → α × Console δ ω η) : Prop where
  twins : ∀ {c d}, Twin c d → (call c).1 = (call d).1 ∧ Twin (call c).2 (call d).2

end Swan.Console

namespace Swan.Core

/-- Two processors on one bus that only their cycle totals tell apart. -/
def Recounted {β : Type} (c d : Core β) : Prop := ∃ total, d = ⟨{ c.cpu with total }, c.bus⟩

instance recounted_stepwise {β : Type} [Bus β] : Stepwise (Recounted (β := β)) where
  regs := by rintro c _ ⟨_, rfl⟩; rfl
  prefixes := by rintro c _ ⟨_, rfl⟩; rfl
  halted := by rintro c _ ⟨_, rfl⟩; rfl
  deferred := by rintro c _ ⟨_, rfl⟩; rfl
  setRegs := by rintro c _ ⟨total, rfl⟩ _; exact ⟨total, rfl⟩
  setHalted := by rintro c _ ⟨total, rfl⟩ _; exact ⟨total, rfl⟩
  setPrefixes := by rintro c _ ⟨total, rfl⟩ _; exact ⟨total, rfl⟩
  setOpcode := by rintro c _ ⟨total, rfl⟩ _; exact ⟨total, rfl⟩
  setDeferred := by rintro c _ ⟨total, rfl⟩ _; exact ⟨total, rfl⟩
  advance := by rintro c _ ⟨total, rfl⟩ cycles; exact ⟨total.advance cycles, rfl⟩
  read := by rintro c _ ⟨total, rfl⟩ _; exact ⟨rfl, total, rfl⟩
  write := by rintro c _ ⟨total, rfl⟩ _ _; exact ⟨total, rfl⟩
  portIn := by rintro c _ ⟨total, rfl⟩ _; exact ⟨rfl, total, rfl⟩
  portOut := by rintro c _ ⟨total, rfl⟩ _ _; exact ⟨total, rfl⟩

end Swan.Core

namespace Swan.Console

variable {δ ω η : Type} [Device δ] [Observer ω]

theorem serveInterrupt_recounted {core other : Core (Board δ ω)} (h : core.Recounted other) :
    (serveInterrupt core).Recounted (serveInterrupt other) := by
  obtain ⟨total, rfl⟩ := h
  unfold serveInterrupt
  dsimp only
  split
  · exact ⟨total, rfl⟩
  · split
    · exact ⟨total, rfl⟩
    · exact ((Exec.interrupt_paired _).paired (R := Core.Recounted) ⟨total, rfl⟩).2

theorem runCore_recounted {core other : Core (Board δ ω)} (h : core.Recounted other) :
    (runCore core).1 = (runCore other).1 ∧ (runCore core).2.Recounted (runCore other).2 := by
  have bus : other.bus = core.bus := by
    obtain ⟨total, rfl⟩ := h
    rfl
  cases active : core.bus.transferActive with
  | true =>
    rw [runCore_active active, runCore_active (bus ▸ active)]
    obtain ⟨total, rfl⟩ := h
    exact ⟨rfl, total, rfl⟩
  | false =>
    rw [runCore_free active, runCore_free (bus ▸ active)]
    exact Exec.step_paired.paired h

variable [StepHook η]

omit [Device δ] [Observer ω] in
theorem Twin.consult {c d : Console δ ω η} (twin : Twin c d) :
    consultHook d.hook d.cpu = consultHook c.hook c.cpu ∧
      ∀ h, (consultHook c.hook c.cpu).2 = some h → IgnoresTotal h := by
  obtain ⟨⟨total, clock, frames, rfl⟩, blind⟩ := twin
  rcases installed : c.hook with _ | hook
  · refine ⟨?_, nofun⟩
    simp only [recount, installed]
    rfl
  · obtain ⟨P, now, later⟩ := blind hook installed
    obtain ⟨next, same⟩ := later hook now c.cpu total
    constructor
    · simp only [recount, installed, consultHook]
      rw [show StepHook.intercept hook _ = _ from same]
    · intro h answered
      cases answered
      exact ⟨P, next, later⟩

/-- A step is the same on twins: only the total is counted up in the processor, and the clock
behind it. -/
theorem runStep_keepsTwins : KeepsTwins (runStep (δ := δ) (ω := ω) (η := η)) := by
  refine ⟨fun {c d} twin => ?_⟩
  obtain ⟨same, blind⟩ := twin.consult
  obtain ⟨⟨total, clock, frames, rfl⟩, -⟩ := twin
  rcases consulted : consultHook c.hook c.cpu with ⟨_ | _, hook⟩ <;>
    rw [consulted] at same blind
  · rw [runStep_passed consulted, runStep_passed same]
    have start : c.core.Recounted (c.recount total clock frames).core := ⟨total, rfl⟩
    have served := serveInterrupt_recounted start
    have owed : (serveInterrupt (c.recount total clock frames).core).cpu.deferred =
        (serveInterrupt c.core).cpu.deferred := by
      obtain ⟨_, eq⟩ := served
      rw [eq]
    obtain ⟨answered, after⟩ := runCore_recounted served
    unfold proceed
    rw [owed]
    rcases ran : runCore (serveInterrupt c.core) with ⟨cycles, core⟩
    rcases ran' : runCore (serveInterrupt (c.recount total clock frames).core) with ⟨_, core'⟩
    rw [ran, ran'] at answered after
    obtain rfl := answered
    obtain ⟨total', rfl⟩ := after
    cases cycles with
    | none => exact ⟨rfl, ⟨total', clock, frames, rfl⟩, blind⟩
    | some n => exact ⟨rfl, ⟨total', clock.advance n, frames, rfl⟩, blind⟩
  · rw [runStep_intercepted consulted, runStep_intercepted same]
    exact ⟨rfl, ⟨total, clock, frames, rfl⟩, blind⟩

omit [Device δ] [Observer ω] [StepHook η]

section Loop

variable {R : Console δ ω η → Console δ ω η → Prop}
  {body : Console δ ω η → RunOutcome × Console δ ω η} {filled : Console δ ω η → Nat}
  {fold : Console δ ω η → Console δ ω η} {budget : Nat}

/-- A loop does the same on related consoles if its body does, and if they do not differ in how
often it goes round. -/
theorem Keeps.fill (body_keeps : Keeps R body) (blind : ∀ {c d}, R c d → filled c = filled d)
    (limit : Nat) : Keeps R (Console.fill body filled budget limit) := by
  refine ⟨fun {c d} related => ?_⟩
  induction limit generalizing c d with
  | zero =>
    unfold Console.fill
    rw [← blind related]
    split <;> exact ⟨rfl, related⟩
  | succ limit ih =>
    by_cases full : budget ≤ filled c
    · rw [fill_full full, fill_full (blind related ▸ full)]
      exact ⟨rfl, related⟩
    · rw [fill_succ full, fill_succ (blind related ▸ full)]
      obtain ⟨same, after⟩ := body_keeps.keeps related
      rcases ran : body c with ⟨outcome, e⟩
      rcases ran' : body d with ⟨_, e'⟩
      rw [ran, ran'] at same after
      obtain rfl := same
      cases outcome with
      | completed => exact ih after
      | intercepted => exact ⟨rfl, after⟩
      | stalled => exact ⟨rfl, after⟩

theorem Keeps.finish (body_keeps : Keeps R body) (folds : ∀ {c d}, R c d → R (fold c) (fold d)) :
    Keeps R fun c => Console.finish fold (body c) := by
  refine ⟨fun {c d} related => ?_⟩
  obtain ⟨same, after⟩ := body_keeps.keeps related
  rcases ran : body c with ⟨outcome, e⟩
  rcases ran' : body d with ⟨_, e'⟩
  rw [ran, ran'] at same after
  obtain rfl := same
  cases outcome with
  | completed => exact ⟨rfl, folds after⟩
  | intercepted => exact ⟨rfl, after⟩
  | stalled => exact ⟨rfl, after⟩

end Loop

variable [Device δ] [Observer ω] [StepHook η]

section Calls

variable {R : Console δ ω η → Console δ ω η → Prop}

theorem Keeps.runLine (steps : Keeps R runStep)
    (blind : ∀ {c d}, R c d → c.lineCycles = d.lineCycles)
    (folds : ∀ {c d}, R c d → R c.foldLine d.foldLine) : Keeps R Console.runLine := by
  rw [funext runLine_eq]
  exact (steps.fill blind _).finish folds

theorem Keeps.runFrame (lines : Keeps R Console.runLine)
    (blind : ∀ {c d}, R c d → c.frameCycles = d.frameCycles)
    (folds : ∀ {c d}, R c d → R c.foldFrame d.foldFrame) : Keeps R Console.runFrame := by
  rw [funext runFrame_eq]
  exact (lines.fill blind _).finish folds

end Calls

theorem runLine_keepsTwins : KeepsTwins (runLine (δ := δ) (ω := ω) (η := η)) := by
  refine ⟨(Keeps.runLine ⟨runStep_keepsTwins.twins⟩ ?_ ?_).keeps⟩
  · rintro c _ ⟨⟨total, clock, frames, rfl⟩, -⟩
    rfl
  · rintro c _ ⟨⟨total, clock, frames, rfl⟩, blind⟩
    exact ⟨⟨total, clock, frames, rfl⟩, blind⟩

theorem runFrame_keepsTwins : KeepsTwins (runFrame (δ := δ) (ω := ω) (η := η)) := by
  refine ⟨(Keeps.runFrame ⟨runLine_keepsTwins.twins⟩ ?_ ?_).keeps⟩
  · rintro c _ ⟨⟨total, clock, frames, rfl⟩, -⟩
    rfl
  · rintro c _ ⟨⟨total, clock, frames, rfl⟩, blind⟩
    exact ⟨⟨total, clock, frames + 1, rfl⟩, blind⟩

omit [Device δ] [Observer ω] [StepHook η] in
theorem lookup_agree {α : Type} {properties : List (String × (α → Value))} {counts : List String}
    {a b : α} (agree : ∀ p ∈ properties, p.1 ∉ counts → p.2 a = p.2 b) {path : String}
    (other : path ∉ counts) :
    (properties.lookup path).map (· a) = (properties.lookup path).map (· b) := by
  induction properties with
  | nil => rfl
  | cons p rest ih =>
    obtain ⟨first, others⟩ := List.forall_mem_cons.mp agree
    rw [List.lookup_cons]
    split
    case h_1 found =>
      rw [beq_iff_eq] at found
      exact congrArg some (first (found ▸ other))
    case h_2 => exact ih others

omit [Device δ] [Observer ω] [StepHook η] in
theorem behind?_some {start text rest : List Char} (h : behind? start text = some rest) :
    text = start ++ rest := by
  unfold behind? at h
  split at h
  · cases h
    rename_i begins
    exact (List.prefix_iff_eq_append.mp (List.isPrefixOf_iff_prefix.mp begins)).symm
  · cases h

omit [Device δ] [Observer ω] [StepHook η] in
/-- Whatever is asked for by name, only the counts themselves show a difference in counts. -/
theorem query_recount (c : Console δ ω η) (total clock : Ticks) (frames : Nat) {path : String}
    (other : path ∉ countPaths) :
    Inspectable.query (c.recount total clock frames) path = Inspectable.query c path := by
  change queryPath _ path = queryPath c path
  unfold queryPath
  rcases own : behind? "cpu.".toList path.toList with _ | rest
  · dsimp only
    split
    · rfl
    · have uncounted : path ∉ ["total_cycles", "frames"] :=
        fun member => other (List.mem_cons_of_mem _ member)
      exact lookup_agree (by simp [properties, recount, board]) uncounted
  · have uncounted : String.ofList rest ∉ ["cycles"] := by
      intro counted
      rw [List.mem_singleton] at counted
      refine other (List.mem_cons.mpr (.inl (String.toList_injective ?_)))
      rw [behind?_some own, ← String.toList_ofList (l := rest), counted]
      rfl
    exact lookup_agree (by simp [Cpu.properties, recount, cpu, Cpu.pc]) uncounted

/-- A host cannot tell twins apart by a command, nor by what comes after it. -/
theorem Command.keepsTwins {command : Command ω η} (ignores : command.IgnoresTotal) :
    KeepsTwins fun c : Console δ ω η => (command.answer c, command.run c) := by
  refine ⟨fun {c d} twin => ?_⟩
  cases command with
  | act act =>
    cases act with
    | step => exact (runStep_keepsTwins.twins twin).imp_left (congrArg Answer.ended)
    | line => exact (runLine_keepsTwins.twins twin).imp_left (congrArg Answer.ended)
    | frame => exact (runFrame_keepsTwins.twins twin).imp_left (congrArg Answer.ended)
    | host act =>
      obtain ⟨⟨total, clock, frames, rfl⟩, blind⟩ := twin
      cases act with
      | processor cpu => exact ⟨rfl, ⟨cpu.total, clock, frames, rfl⟩, blind⟩
      | hook hook =>
        refine ⟨rfl, ⟨total, clock, frames, rfl⟩, ?_⟩
        rintro h rfl
        exact ignores
      | access | request | hold => exact ⟨rfl, ⟨total, clock, frames, rfl⟩, blind⟩
  | processor change =>
    obtain ⟨⟨total, clock, frames, rfl⟩, blind⟩ := twin
    obtain ⟨after, changed⟩ := ignores c.cpu total
    refine ⟨rfl, ⟨after, clock, frames, ?_⟩, blind⟩
    exact congrArg (fun cpu => { c with core.cpu := cpu, clock, frames }) changed
  | query path =>
    obtain ⟨⟨total, clock, frames, rfl⟩, blind⟩ := twin
    exact ⟨congrArg Answer.value (c.query_recount total clock frames ignores).symm,
      ⟨total, clock, frames, rfl⟩, blind⟩
  | reset | slice | devices | observe | interrupts | raster | transfer | keypad =>
    obtain ⟨⟨total, clock, frames, rfl⟩, blind⟩ := twin
    exact ⟨rfl, ⟨total, clock, frames, rfl⟩, blind⟩

/-- What each command keeps, any number of them keeps. -/
theorem Keeps.obey {R : Console δ ω η → Console δ ω η → Prop} {commands : List (Command ω η)}
    (each : ∀ command ∈ commands, Keeps R fun c => (command.answer c, command.run c))
    {c d : Console δ ω η} (related : R c d) :
    c.answers commands = d.answers commands ∧ R (c.obey commands) (d.obey commands) := by
  induction commands generalizing c d with
  | nil => exact ⟨rfl, related⟩
  | cons command rest ih =>
    obtain ⟨first, others⟩ := List.forall_mem_cons.mp each
    obtain ⟨same, after⟩ := first.keeps related
    obtain ⟨answered, afterwards⟩ := ih others after
    exact ⟨List.cons_eq_cons.mpr ⟨same, answered⟩, afterwards⟩

/-- Nor by any number of commands. -/
theorem Twin.obey {c d : Console δ ω η} (twin : Twin c d) {commands : List (Command ω η)}
    (ignore : ∀ command ∈ commands, command.IgnoresTotal) :
    c.answers commands = d.answers commands ∧ Twin (c.obey commands) (d.obey commands) :=
  Keeps.obey (fun command member => ⟨(Command.keepsTwins (ignore command member)).twins⟩) twin

end Swan.Console
