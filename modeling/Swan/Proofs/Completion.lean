import Swan.Proofs.StepEquation

/-! An instruction run to its end, which is a step that leaves no prefixes queued. At
each point where some are, the machine may take an interrupt; a run says of every such
point which one it takes there, if any. -/
namespace Swan.Exec

variable {β : Type} [Bus β]

/-- What comes between two steps of an instruction: an interrupt and one step in its
handler, or nothing. Answers the cycles it took. -/
def visit : Option Byte → Exec β (Option Nat)
  | none => return some 0
  | some vector => do
    interrupt vector
    step

theorem visit_none (c : Core β) : visit none c = (some 0, c) := rfl

theorem visit_some (vector : Byte) (c : Core β) :
    visit (some vector) c = step (interrupt vector c).2 := by
  rw [visit, bind_apply]

def quiet : Nat → Option Byte := fun _ => none

theorem quiet_ne_some (p : Nat) (vector : Byte) : quiet p ≠ some vector :=
  (Option.some_ne_none vector).symm

/-- The instruction at `c` ends in `d`, after so many steps of its own and so many
cycles, where point `i` between two of the steps is visited as `serve i` says. -/
inductive Completes : (serve : Nat → Option Byte) → (c : Core β) → (steps cycles : Nat) →
    (d : Core β) → Prop where
  | last {serve : Nat → Option Byte} {c d : Core β} {cycles : Nat} :
      step c = (some cycles, d) → d.cpu.prefixes = .empty → Completes serve c 1 cycles d
  | next {serve : Nat → Option Byte} {c d d' e : Core β} {cycles served steps rest : Nat} :
      step c = (some cycles, d) → d.cpu.prefixes ≠ .empty →
      visit (serve 0) d = (some served, d') →
      Completes (fun i => serve (i + 1)) d' steps rest e →
      Completes serve c (steps + 1) (cycles + served + rest) e

theorem Completes.unique {serve : Nat → Option Byte} {c d d' : Core β}
    {steps steps' cycles cycles' : Nat} (one : Completes serve c steps cycles d)
    (other : Completes serve c steps' cycles' d') :
    steps = steps' ∧ cycles = cycles' ∧ d = d' := by
  induction one generalizing steps' cycles' d' with
  | last stepped empty =>
    cases other with
    | last stepped' =>
      rw [stepped] at stepped'
      cases stepped'
      exact ⟨rfl, rfl, rfl⟩
    | next stepped' full =>
      rw [stepped] at stepped'
      cases stepped'
      exact absurd empty full
  | next stepped full visited _ ih =>
    cases other with
    | last stepped' empty =>
      rw [stepped] at stepped'
      cases stepped'
      exact absurd empty full
    | next stepped' _ visited' tail =>
      rw [stepped] at stepped'
      cases stepped'
      rw [visited] at visited'
      cases visited'
      obtain ⟨rfl, rfl, rfl⟩ := ih tail
      exact ⟨rfl, rfl, rfl⟩

theorem Completes.total {serve : Nat → Option Byte} {c d : Core β} {steps cycles : Nat}
    (completes : Completes serve c steps cycles d) :
    d.cpu.total = c.cpu.total.advance cycles := by
  induction completes with
  | last stepped _ => exact stepWithin_total stepped
  | @next serve c d d' e cycles served steps rest stepped _ visited _ ih =>
    have passed : d'.cpu.total = d.cpu.total.advance served := by
      cases vector : serve 0 with
      | none =>
        rw [vector, visit_none] at visited
        cases visited
        rfl
      | some v =>
        rw [vector, visit_some] at visited
        obtain ⟨regs, bus, eq⟩ := interrupt_frame v d
        have total := stepWithin_total visited
        rw [eq] at total
        exact total
    rw [ih, passed, stepWithin_total stepped, Ticks.advance_advance, Ticks.advance_advance, Nat.add_assoc]

end Swan.Exec
