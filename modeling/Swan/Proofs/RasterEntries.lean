import Swan.Proofs.RasterLines
import Swan.Proofs.RasterPhase

/-! The raster in closed form. A step of any length moves the line on by the lines it completes,
around the frame, and raises vblank or a line comparison for the lines that it enters on the way:
not for the line it starts in, and for the line it ends in. -/
namespace Swan

def LineSet.Meets (s lines : LineSet) : Prop := s &&& lines ≠ 0

namespace LineSet

instance (s lines : LineSet) : Decidable (Meets s lines) := inferInstanceAs (Decidable (_ ≠ _))

theorem not_meets_zero (lines : LineSet) : ¬ Meets 0 lines := fun meets => meets BitVec.zero_and

theorem meets_or (s t lines : LineSet) : Meets (s ||| t) lines ↔ Meets s lines ∨ Meets t lines := by
  have split : (s ||| t) &&& lines = (s &&& lines) ||| (t &&& lines) := by
    ext i
    simp [Bool.and_or_distrib_right]
  rw [Meets, split]
  exact (not_congr BitVec.or_eq_zero_iff).trans not_and_or

end LineSet

namespace Raster

inductive Event where
  | step (cycles : Nat)
  | write (port v : Byte)
  | reset
  deriving DecidableEq, Repr

def after (r : Raster) : Event → Raster
  | .step cycles => (r.step cycles).2
  | .write port v => r.writePort port v
  | .reset => {}

def run (r : Raster) (events : List Event) : Raster := events.foldl after r

/-- However a raster is used, it stays on its frame. -/
theorem OnPhase.run {n : Nat} {r : Raster} (place : r.OnPhase n) (events : List Event) :
    ∃ m, (r.run events).OnPhase m := by
  induction events generalizing n r with
  | nil => exact ⟨n, place⟩
  | cons e rest ih =>
    cases e with
    | step cycles => exact ih (place.step cycles)
    | write port v => exact ih (place.writePort port v)
    | reset => exact ih onPhase_zero

/-- Each line is raised for a reason of its own. -/
theorem meets_linesIf (hblank vblank timer compare : Bool) :
    let raised := linesIf hblank .hblankTimer ||| linesIf vblank .vblank |||
      linesIf timer .vblankTimer ||| linesIf compare .lineCompare
    (LineSet.Meets raised .hblankTimer ↔ hblank = true) ∧
      (LineSet.Meets raised .vblank ↔ vblank = true) ∧
      (LineSet.Meets raised .vblankTimer ↔ timer = true) ∧
      (LineSet.Meets raised .lineCompare ↔ compare = true) := by
  revert hblank vblank timer compare
  decide

variable (r : Raster)

theorem meets_endLine_vblank :
    LineSet.Meets r.endLine.1 .vblank ↔ (r.line + 1) % Model.linesPerFrame = vblankLine :=
  (meets_linesIf _ _ _ _).2.1.trans beq_iff_eq

theorem meets_endLine_lineCompare :
    LineSet.Meets r.endLine.1 .lineCompare ↔
      (r.line + 1) % Model.linesPerFrame = r.compare.toNat :=
  (meets_linesIf _ _ _ _).2.2.2.trans beq_iff_eq

theorem afterLines_compare (k : Nat) : (r.afterLines k).compare = r.compare := by
  induction k with
  | zero => rfl
  | succ k ih =>
    rw [afterLines_succ]
    exact ih

theorem raisedOver_meets (lines : LineSet) (k : Nat) :
    LineSet.Meets (r.raisedOver k) lines ↔
      ∃ j < k, LineSet.Meets (r.afterLines j).endLine.1 lines := by
  induction k with
  | zero => exact iff_of_false (LineSet.not_meets_zero lines) (by simp)
  | succ k ih =>
    rw [raisedOver, LineSet.meets_or, ih]
    simp only [Nat.lt_succ_iff_lt_or_eq, or_and_right, exists_or, exists_eq_left]

/-- Places entered are counted from the first line end, line ends from zero. -/
theorem exists_entry {k : Nat} {P : Nat → Prop} :
    (∃ j, 1 ≤ j ∧ j ≤ k ∧ P j) ↔ ∃ j < k, P (j + 1) := by
  constructor
  · rintro ⟨j, entered, within, holds⟩
    obtain ⟨i, rfl⟩ := Nat.exists_eq_add_of_le' entered
    exact ⟨i, within, holds⟩
  · rintro ⟨i, within, holds⟩
    exact ⟨i + 1, Nat.le_add_left 1 i, within, holds⟩

/-- A line that is raised on entering a place is raised by the line ends that lead there. -/
theorem raisedOver_entries {r : Raster} {lines : LineSet} {place : Nat}
    (entered : ∀ j, LineSet.Meets (r.afterLines j).endLine.1 lines ↔
      ((r.afterLines j).line + 1) % Model.linesPerFrame = place) (k : Nat) :
    LineSet.Meets (r.raisedOver k) lines ↔
      ∃ j, 1 ≤ j ∧ j ≤ k ∧ (r.line + j) % Model.linesPerFrame = place := by
  have next (j : Nat) : ((r.afterLines j).line + 1) % Model.linesPerFrame =
      (r.line + (j + 1)) % Model.linesPerFrame := by
    rw [Nat.add_mod, afterLines_line_mod, ← Nat.add_mod, Nat.add_assoc]
  rw [raisedOver_meets, exists_entry]
  simp only [entered, next]

/-- A step that completes `K` lines moves the line on by `K`, around the frame, and leaves the rest
in the dot. It raises vblank and the line comparison if their line is among those entered. -/
theorem closed_form (events : List Event) (cycles : Nat) :
    let r := ({} : Raster).run events
    let K := (r.dot + cycles) / 256
    let request := (r.step cycles).1
    let next := (r.step cycles).2
    next.line = (r.line + K) % 159 ∧ next.dot = (r.dot + cycles) % 256 ∧
    (next.readPort 0x02).toNat = (r.line + K) % 159 ∧
    (LineSet.Meets request.raise .vblank ↔ ∃ j, 1 ≤ j ∧ j ≤ K ∧ (r.line + j) % 159 = 144) ∧
    (LineSet.Meets request.raise .lineCompare ↔
      ∃ j, 1 ≤ j ∧ j ≤ K ∧ (r.line + j) % 159 = r.compare.toNat) ∧
    (158 < r.compare.toNat → ¬ LineSet.Meets request.raise .lineCompare) ∧
    (r.compare = 0 →
      (LineSet.Meets request.raise .lineCompare ↔ ∃ j < K, (r.line + j) % 159 = 158)) := by
  intro r K request next
  obtain ⟨n, place⟩ := onPhase_zero.run events
  have line : (r.step cycles).2.line = (r.line + K) % 159 := step_line place.line cycles
  have raised : (r.step cycles).1.raise = r.raisedOver K := by
    rw [step_eq]
    rfl
  have vblank := raisedOver_entries (fun j => (r.afterLines j).meets_endLine_vblank) K
  have compare : LineSet.Meets (r.step cycles).1.raise .lineCompare ↔
      ∃ j, 1 ≤ j ∧ j ≤ K ∧ (r.line + j) % 159 = r.compare.toNat := by
    rw [raised]
    refine raisedOver_entries (fun j => ?_) K
    rw [meets_endLine_lineCompare, afterLines_compare]
  refine ⟨line, r.step_dot cycles, ?_, raised ▸ vblank, compare, ?_, ?_⟩
  · have shown : (r.step cycles).2.readPort 0x02 = BitVec.ofNat 8 (r.step cycles).2.line := rfl
    rw [shown, line, BitVec.toNat_ofNat]
    omega
  · intro off
    rw [compare]
    rintro ⟨j, -, -, there⟩
    omega
  · intro top
    have wraps (j : Nat) :
        (r.line + (j + 1)) % 159 = (0 : Byte).toNat ↔ (r.line + j) % 159 = 158 := by
      rw [show (0 : Byte).toNat = 0 from rfl]
      omega
    rw [compare, top, exists_entry]
    simp only [wraps]

/-- From the end of the last line, a comparison with line 0 sees the wrap, and one with a line off
the frame sees nothing even over a whole frame. -/
theorem closed_form_wrapping :
    LineSet.Meets (((({} : Raster).run [.write 0x03 0, .step 40700]).step 4).1.raise) .lineCompare ∧
    ¬ LineSet.Meets
      (((({} : Raster).run [.write 0x03 159, .step 40700]).step 40704).1.raise) .lineCompare := by
  obtain ⟨-, -, -, -, -, -, top⟩ := closed_form [.write 0x03 0, .step 40700] 4
  obtain ⟨-, -, -, -, -, off, -⟩ := closed_form [.write 0x03 159, .step 40700] 40704
  exact ⟨(top (by decide +kernel)).mpr ⟨0, by decide +kernel, by decide +kernel⟩, off (by decide +kernel)⟩

end Raster

end Swan
