import Mathlib.Algebra.GroupWithZero.Nat
import Mathlib.Logic.Function.Iterate
import Swan.Console.Raster

/-! The raster line by line. A step of the raster ends as many lines as its cycles complete and
keeps the rest of them in the dot, so what it does depends on the line ends passed and on nothing
else about the step. Cutting a time into steps moves no line end. -/
namespace Swan

def Request.union (p q : Request) : Request := ⟨p.raise ||| q.raise, p.lower ||| q.lower⟩

theorem Request.union_empty (p : Request) : p.union {} = p := by simp [union]

namespace Raster

def afterLines (r : Raster) (k : Nat) : Raster := (fun r => r.endLine.2)^[k] r

def raisedOver (r : Raster) : Nat → LineSet
  | 0 => 0
  | k + 1 => r.raisedOver k ||| (r.afterLines k).endLine.1

variable (r : Raster)

theorem afterLines_succ (k : Nat) : r.afterLines (k + 1) = (r.afterLines k).endLine.2 :=
  Function.iterate_succ_apply' _ k r

theorem afterLines_succ' (k : Nat) : r.afterLines (k + 1) = r.endLine.2.afterLines k := rfl

theorem afterLines_add (j k : Nat) : r.afterLines (j + k) = (r.afterLines j).afterLines k := by
  rw [Nat.add_comm]
  exact Function.iterate_add_apply _ k j r

theorem raisedOver_add (j k : Nat) :
    r.raisedOver (j + k) = r.raisedOver j ||| (r.afterLines j).raisedOver k := by
  induction k with
  | zero => exact BitVec.or_zero.symm
  | succ k ih =>
    rw [← Nat.add_assoc, raisedOver, raisedOver, ih, afterLines_add, BitVec.or_assoc]

theorem raisedOver_succ' (k : Nat) :
    r.raisedOver (k + 1) = r.endLine.1 ||| r.endLine.2.raisedOver k := by
  have first : r.raisedOver 1 = r.endLine.1 := BitVec.zero_or
  rw [Nat.add_comm, raisedOver_add, first]
  rfl

def setDot (dot : Nat) : Raster := { r with dot }

theorem setDot_dot (dot : Nat) : (r.setDot dot).dot = dot := rfl

theorem setDot_setDot (a b : Nat) : (r.setDot a).setDot b = r.setDot b := rfl

/-- A line end leaves the dot alone, and does not ask where it is. -/
theorem endLine_setDot (dot : Nat) :
    (r.setDot dot).endLine = (r.endLine.1, r.endLine.2.setDot dot) := rfl

theorem afterLines_setDot (dot k : Nat) :
    (r.setDot dot).afterLines k = (r.afterLines k).setDot dot := by
  induction k with
  | zero => rfl
  | succ k ih =>
    rw [afterLines_succ, afterLines_succ, ih]
    rfl

theorem raisedOver_setDot (dot k : Nat) : (r.setDot dot).raisedOver k = r.raisedOver k := by
  induction k with
  | zero => rfl
  | succ k ih =>
    rw [raisedOver, raisedOver, ih, afterLines_setDot]
    rfl

/-- One turn of the loop. -/
theorem endLines_past (past : Model.cyclesPerLine ≤ r.dot) (raised : LineSet) :
    endLines raised r =
      endLines (raised ||| r.endLine.1) (r.endLine.2.setDot (r.dot - Model.cyclesPerLine)) := by
  have turn := endLines.eq_1 raised r
  rw [if_pos past] at turn
  have ended := r.endLine_setDot (r.dot - Model.cyclesPerLine)
  rw [setDot] at ended
  rw [turn]
  simp only [ended]

/-- The loop ends the lines that the dot is past, and leaves the rest of the dot. -/
theorem endLines_eq (raised : LineSet) :
    endLines raised r = (raised ||| r.raisedOver (r.dot / Model.cyclesPerLine),
      (r.afterLines (r.dot / Model.cyclesPerLine)).setDot (r.dot % Model.cyclesPerLine)) := by
  induction raised, r using endLines.induct with
  | case1 raised r past next ih =>
    have ended : next = (r.endLine.1, r.endLine.2.setDot (r.dot - Model.cyclesPerLine)) :=
      r.endLine_setDot _
    rw [ended, setDot_dot, raisedOver_setDot, afterLines_setDot] at ih
    rw [endLines_past r past, ih, BitVec.or_assoc, Nat.div_eq_sub_div (by decide) past,
      Nat.mod_eq_sub_mod past, raisedOver_succ', afterLines_succ', setDot_setDot]
  | case2 raised r short =>
    have within := Nat.lt_of_not_le short
    rw [endLines, if_neg short, Nat.div_eq_of_lt within, Nat.mod_eq_of_lt within]
    exact Prod.ext BitVec.or_zero.symm rfl

def linesIn (cycles : Nat) : Nat := (r.dot + cycles) / Model.cyclesPerLine

/-- What a step does: its line ends, and a dot. -/
theorem step_eq (cycles : Nat) :
    r.step cycles = ({ raise := r.raisedOver (r.linesIn cycles) },
      (r.afterLines (r.linesIn cycles)).setDot ((r.dot + cycles) % Model.cyclesPerLine)) := by
  have ended := endLines_eq (r.setDot (r.dot + cycles)) 0
  have none (raised : LineSet) : 0 ||| raised = raised := BitVec.zero_or
  rw [raisedOver_setDot, afterLines_setDot, none] at ended
  exact congrArg (fun p : LineSet × Raster => (({ raise := p.1 } : Request), p.2)) ended

theorem step_dot (cycles : Nat) :
    (r.step cycles).2.dot = (r.dot + cycles) % Model.cyclesPerLine := by
  rw [step_eq]
  rfl

/-- Two steps in a row complete the lines that one step of all their cycles completes. -/
theorem linesIn_add (a b : Nat) :
    r.linesIn (a + b) = r.linesIn a + (r.step a).2.linesIn b := by
  simp only [linesIn, step_dot, Model.cyclesPerLine]
  omega

theorem step_add (a b : Nat) :
    r.step (a + b) = ((r.step a).1.union ((r.step a).2.step b).1, ((r.step a).2.step b).2) := by
  have dot : ((r.dot + a) % Model.cyclesPerLine + b) % Model.cyclesPerLine =
      (r.dot + (a + b)) % Model.cyclesPerLine := by
    rw [Nat.mod_add_mod, Nat.add_assoc]
  rw [step_eq (r.step a).2, step_dot, dot, step_eq r (a + b), linesIn_add, raisedOver_add,
    afterLines_add]
  generalize (r.step a).2.linesIn b = lines
  rw [step_eq r a, raisedOver_setDot, afterLines_setDot]
  exact Prod.ext (congrArg (Request.mk _) BitVec.or_zero.symm) rfl

theorem step_lower (cycles : Nat) : (r.step cycles).1.lower = 0 := by rw [step_eq]

/-- The place after a line end depends on the place before it modulo the frame. -/
theorem afterLines_line_mod (k : Nat) :
    (r.afterLines k).line % Model.linesPerFrame = (r.line + k) % Model.linesPerFrame := by
  induction k with
  | zero => rfl
  | succ k ih =>
    have next : (r.afterLines k).endLine.2.line =
        ((r.afterLines k).line + 1) % Model.linesPerFrame := rfl
    rw [afterLines_succ, next, Nat.mod_mod, Nat.add_mod, ih, ← Nat.add_mod, Nat.add_assoc]

theorem afterLines_line {r : Raster} (placed : r.line < Model.linesPerFrame) (k : Nat) :
    (r.afterLines k).line = (r.line + k) % Model.linesPerFrame := by
  have within : (r.afterLines k).line < Model.linesPerFrame := by
    cases k with
    | zero => exact placed
    | succ k =>
      rw [afterLines_succ]
      exact Nat.mod_lt _ (by decide)
  rw [← afterLines_line_mod, Nat.mod_eq_of_lt within]

theorem step_line {r : Raster} (placed : r.line < Model.linesPerFrame) (cycles : Nat) :
    (r.step cycles).2.line = (r.line + r.linesIn cycles) % Model.linesPerFrame := by
  rw [step_eq]
  exact afterLines_line placed _

/-- Cycles that complete no line move the dot. -/
theorem step_within {r : Raster} {cycles : Nat} (short : r.dot + cycles < Model.cyclesPerLine) :
    r.step cycles = ({}, r.setDot (r.dot + cycles)) := by
  rw [step_eq, linesIn, Nat.div_eq_of_lt short, Nat.mod_eq_of_lt short]
  rfl

theorem step_zero {r : Raster} (placed : r.dot < Model.cyclesPerLine) : r.step 0 = ({}, r) :=
  step_within placed

/-- The last cycle of a line ends it. -/
theorem step_last {r : Raster} (last : r.dot + 1 = Model.cyclesPerLine) :
    r.step 1 = ({ raise := r.endLine.1 }, r.endLine.2.setDot 0) := by
  have one : r.raisedOver 1 = r.endLine.1 := BitVec.zero_or
  rw [step_eq, linesIn, last, Nat.div_self (by decide), Nat.mod_self, one]
  rfl

/-- The line and the dot are read-only. -/
theorem writePort_place (p v : Byte) :
    (r.writePort p v).line = r.line ∧ (r.writePort p v).dot = r.dot := by
  unfold writePort
  split
  case h_10 => split <;> exact ⟨rfl, rfl⟩
  all_goals exact ⟨rfl, rfl⟩

def steps (r : Raster) : List Nat → Request × Raster
  | [] => ({}, r)
  | n :: rest =>
    let (request, r) := r.step n
    let (more, r) := r.steps rest
    (request.union more, r)

theorem steps_cons (n : Nat) (rest : List Nat) :
    r.steps (n :: rest) = r.step (n + rest.sum) := by
  induction rest generalizing r n with
  | nil => exact Prod.ext (Request.union_empty _) rfl
  | cons m rest ih =>
    have first : r.steps (n :: m :: rest) =
        ((r.step n).1.union ((r.step n).2.steps (m :: rest)).1,
          ((r.step n).2.steps (m :: rest)).2) := rfl
    rw [first, ih, List.sum_cons]
    exact (r.step_add n _).symm

/-- Stepping does not depend on how time is cut up. Steps that add up to a time leave what one step
of that time leaves, down to single cycles, and raise between them what it raises. -/
theorem cuts_agree (r : Raster) :
    (∀ a b, ((r.step a).2.step b).2 = (r.step (a + b)).2 ∧
      (r.step a).1.raise ||| ((r.step a).2.step b).1.raise = (r.step (a + b)).1.raise) ∧
    (∀ parts, parts ≠ [] ∨ r.dot < 256 → r.steps parts = r.step parts.sum) ∧
    (∀ cycles, (r.step cycles).1.lower = 0) ∧
    (r.dot + 1 = 256 → r.step 1 = ({ raise := r.endLine.1 }, { r.endLine.2 with dot := 0 })) ∧
    (r.dot + 1 < 256 → r.step 1 = ({}, { r with dot := r.dot + 1 })) := by
  refine ⟨fun a b => ?_, fun parts whole => ?_, r.step_lower, step_last, step_within⟩
  · rw [step_add]
    exact ⟨rfl, rfl⟩
  · cases parts with
    | cons n rest => exact r.steps_cons n rest
    | nil =>
      have placed : r.dot < 256 := whole.resolve_left fun some => some rfl
      exact (step_zero placed).symm

/-- In the last cycle before the vblank line, with everything about to fire. -/
def brimming : Raster where
  line := 143
  dot := 255
  compare := 144
  hblank := { enabled := true, repeats := true, reload := 2, counter := 1 }
  vblank := { enabled := true, counter := 1 }

theorem cuts_agree_brimming :
    brimming.steps [0, 1, 40704, 255] = brimming.step 40960 ∧ brimming.steps [] = brimming.step 0 ∧
      brimming.step 1 = ({ raise := 0xF0 }, { brimming.endLine.2 with dot := 0 }) ∧
      (brimming.step 1).2.step 1 = ({}, { (brimming.step 1).2 with dot := 1 }) := by
  obtain ⟨-, cuts, -, last, -⟩ := cuts_agree brimming
  obtain ⟨-, -, -, -, within⟩ := cuts_agree (brimming.step 1).2
  have start : (brimming.step 1).2.dot = 0 := step_dot brimming 1
  rw [start] at within
  exact ⟨cuts _ (.inl (List.cons_ne_nil _ _)), cuts _ (.inr (by decide)), last rfl,
    within (by decide)⟩

end Raster

end Swan
