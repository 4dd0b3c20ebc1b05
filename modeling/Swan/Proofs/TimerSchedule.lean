import Mathlib.Data.Nat.Count
import Swan.Proofs.RasterEntries

/-! The timers of the display, one of which counts line ends and the other entries into the vblank
line. A countdown that is started from `n` fires at the tick numbered `n` or, if it repeats, at
every multiple of `n`. Which step a tick falls into is a matter of the cycles that have passed, so
a timer is on its schedule however the cycles are cut into steps. -/
namespace Swan

namespace Countdown

def ticked (t : Countdown) (k : Nat) : Countdown := (fun t => t.tick.2)^[k] t

/-- What a countdown from `n` shows after `k` ticks. -/
def left : (repeats : Bool) → (n k : Nat) → Nat
  | false, n, k => n - k
  | true, n, k => n - k % n

/-- The ticks, by their number, at which a countdown from `n` fires. -/
def Due : (repeats : Bool) → (n k : Nat) → Prop
  | false, n, k => k = n
  | true, n, k => n ∣ k

variable (t : Countdown)

theorem ticked_succ (k : Nat) : t.ticked (k + 1) = (t.ticked k).tick.2 :=
  Function.iterate_succ_apply' _ k t

theorem ticked_add (j k : Nat) : t.ticked (j + k) = (t.ticked j).ticked k := by
  rw [Nat.add_comm]
  exact Function.iterate_add_apply _ k j t

theorem setControl_control : t.setControl t.control = t := by
  have bits : ∀ enabled repeats : Bool,
      (BitVec.ofBool repeats ++ BitVec.ofBool enabled).getLsbD 0 = enabled ∧
        (BitVec.ofBool repeats ++ BitVec.ofBool enabled).getLsbD 1 = repeats := by decide
  obtain ⟨enabled, repeats⟩ := bits t.enabled t.repeats
  simp only [setControl, control, enabled, repeats]

theorem control_setControl (bits : BitVec 2) : (t.setControl bits).control = bits := by
  obtain ⟨enabled, repeats, reload, counter⟩ := t
  simp only [setControl, control]
  revert bits
  decide

variable {t}

/-- All that a tick can do. -/
theorem tick_cases (t : Countdown) :
    (t.enabled = false ∨ t.counter = 0) ∧ t.tick = (false, t) ∨
    t.enabled = true ∧ t.counter = 1 ∧
      t.tick = (true, { t with counter := if t.repeats then t.reload else 0 }) ∨
    t.enabled = true ∧ 1 < t.counter.toNat ∧
      t.tick = (false, { t with counter := t.counter - 1 }) := by
  unfold tick
  split
  case isTrue stopped => exact .inl ⟨by simpa using stopped, rfl⟩
  case isFalse running =>
    obtain ⟨enabled, some⟩ : t.enabled = true ∧ t.counter ≠ 0 := by simpa using running
    split
    case isTrue last => exact .inr (.inl ⟨enabled, last, rfl⟩)
    case isFalse more => exact .inr (.inr ⟨enabled, by bv_omega, rfl⟩)

theorem tick_stopped (stopped : t.enabled = false ∨ t.counter = 0) : t.tick = (false, t) := by
  unfold tick
  rw [if_pos (by simpa using stopped)]

/-- A tick changes nothing but the counter. -/
theorem tick_frame (t : Countdown) : ∃ counter, t.tick.2 = { t with counter } := by
  obtain ⟨-, eq⟩ | ⟨-, -, eq⟩ | ⟨-, -, eq⟩ := t.tick_cases
  · exact ⟨t.counter, by rw [eq]⟩
  · exact ⟨_, by rw [eq]⟩
  · exact ⟨_, by rw [eq]⟩

theorem ticked_control (t : Countdown) (k : Nat) : (t.ticked k).control = t.control := by
  induction k with
  | zero => rfl
  | succ k ih =>
    obtain ⟨counter, eq⟩ := (t.ticked k).tick_frame
    rw [ticked_succ, eq]
    exact ih

/-- A countdown that stands still does so for ever. -/
theorem ticked_stopped (stopped : t.enabled = false ∨ t.counter = 0) (k : Nat) :
    t.ticked k = t := by
  induction k with
  | zero => rfl
  | succ k ih => rw [ticked_succ, ih, tick_stopped stopped]

/-- A countdown has nothing more to count than it is loaded with. -/
def Bounded (t : Countdown) : Prop := t.counter.toNat ≤ t.reload.toNat

theorem Bounded.tick (bounded : t.Bounded) : t.tick.2.Bounded := by
  obtain ⟨-, eq⟩ | ⟨-, -, eq⟩ | ⟨-, more, eq⟩ := t.tick_cases
  · rw [eq]
    exact bounded
  · rw [eq, Bounded]
    dsimp only
    split
    · exact Nat.le_refl _
    · exact Nat.zero_le _
  · unfold Bounded at *
    rw [eq]
    dsimp only
    bv_omega

theorem Bounded.ticked (bounded : t.Bounded) (k : Nat) : (t.ticked k).Bounded := by
  induction k with
  | zero => exact bounded
  | succ k ih =>
    rw [ticked_succ]
    exact ih.tick

theorem Bounded.stopped (bounded : t.Bounded) (idle : t.enabled = false ∨ t.reload = 0) :
    t.enabled = false ∨ t.counter = 0 := by
  refine idle.imp_right fun empty => ?_
  rw [Bounded, empty] at bounded
  exact BitVec.eq_of_toNat_eq (Nat.le_zero.mp bounded)

theorem add_one_mod {n : Nat} (positive : 1 ≤ n) (k : Nat) :
    (k + 1) % n = if k % n + 1 = n then 0 else k % n + 1 := by
  rw [← Nat.mod_add_mod]
  split
  case isTrue wraps => rw [wraps, Nat.mod_self]
  case isFalse further =>
    have below := Nat.mod_lt k positive
    exact Nat.mod_eq_of_lt (by omega)

theorem left_start (repeats : Bool) (n : Nat) : left repeats n 0 = n := by
  cases repeats <;> simp [left]

section Left

variable {repeats : Bool} {n k : Nat} (positive : 1 ≤ n)

include positive

theorem left_zero (stopped : left repeats n k = 0) :
    ¬ Due repeats n (k + 1) ∧ left repeats n (k + 1) = 0 := by
  cases repeats with
  | false =>
    simp only [left, Due] at stopped ⊢
    omega
  | true =>
    have below := Nat.mod_lt k positive
    simp only [left] at stopped
    omega

theorem left_one (last : left repeats n k = 1) :
    Due repeats n (k + 1) ∧ left repeats n (k + 1) = if repeats then n else 0 := by
  cases repeats with
  | false =>
    simp only [left, Due, Bool.false_eq_true, if_false] at last ⊢
    omega
  | true =>
    have below := Nat.mod_lt k positive
    have wraps := add_one_mod positive k
    simp only [left, Due, if_true, Nat.dvd_iff_mod_eq_zero] at last ⊢
    rw [if_pos (by omega)] at wraps
    omega

theorem left_more (more : 1 < left repeats n k) :
    ¬ Due repeats n (k + 1) ∧ left repeats n (k + 1) = left repeats n k - 1 := by
  cases repeats with
  | false =>
    simp only [left, Due] at more ⊢
    omega
  | true =>
    have below := Nat.mod_lt k positive
    have further := add_one_mod positive k
    simp only [left, Due, Nat.dvd_iff_mod_eq_zero] at more ⊢
    rw [if_neg (by omega)] at further
    omega

end Left

/-- A countdown from `n` that has been ticked `k` times since it was enabled. -/
structure Running (mode : Bool) (n k : Nat) (t : Countdown) : Prop where
  enabled : t.enabled = true
  repeats : t.repeats = mode
  reload : t.reload.toNat = n
  counter : t.counter.toNat = left mode n k

/-- One tick more: it fires if it is due. -/
theorem Running.tick {mode : Bool} {n k : Nat} (positive : 1 ≤ n) (running : t.Running mode n k) :
    (t.tick.1 = true ↔ Due mode n (k + 1)) ∧ t.tick.2.Running mode n (k + 1) := by
  obtain ⟨enabled, repeats, reload, counter⟩ := running
  obtain ⟨stopped, eq⟩ | ⟨-, last, eq⟩ | ⟨-, more, eq⟩ := t.tick_cases
  · have zero : t.counter = 0 := stopped.resolve_left (by simp [enabled])
    have none : left mode n k = 0 := counter.symm.trans (congrArg BitVec.toNat zero)
    obtain ⟨idle, stays⟩ := left_zero positive none
    rw [eq]
    refine ⟨iff_of_false Bool.false_ne_true idle, enabled, repeats, reload, ?_⟩
    rw [counter, none, stays]
  · obtain ⟨due, restarts⟩ := left_one positive (counter.symm.trans (congrArg BitVec.toNat last))
    rw [eq]
    refine ⟨iff_of_true rfl due, enabled, repeats, reload, ?_⟩
    rw [restarts, ← reload, ← repeats]
    exact apply_ite BitVec.toNat _ _ _
  · obtain ⟨idle, fewer⟩ := left_more positive (counter ▸ more)
    rw [eq]
    refine ⟨iff_of_false Bool.false_ne_true idle, enabled, repeats, reload, ?_⟩
    rw [fewer, ← counter]
    dsimp only
    bv_omega

theorem Running.ticked {mode : Bool} {n : Nat} (positive : 1 ≤ n) (running : t.Running mode n 0)
    (k : Nat) : (t.ticked k).Running mode n k := by
  induction k with
  | zero => exact running
  | succ k ih =>
    rw [ticked_succ]
    exact (ih.tick positive).2

end Countdown

namespace Raster

inductive Timer where
  | hblank
  | vblank
  deriving DecidableEq, Repr

namespace Timer

def line : Timer → LineSet
  | hblank => .hblankTimer
  | vblank => .vblankTimer

def reloadLow : Timer → Byte
  | hblank => 0xA4
  | vblank => 0xA6

def reloadHigh : Timer → Byte
  | hblank => 0xA5
  | vblank => 0xA7

def counterLow : Timer → Byte
  | hblank => 0xA8
  | vblank => 0xAA

def counterHigh : Timer → Byte
  | hblank => 0xA9
  | vblank => 0xAB

def control : Timer → Byte → BitVec 2
  | hblank, v => v.setWidth 2
  | vblank, v => v.extractLsb' 2 2

/-- Whether a timer counts the end of a line: every one, or the one that leads to vblank. -/
def counts : Timer → (line : Nat) → Bool
  | hblank, _ => true
  | vblank, line => (line + 1) % Model.linesPerFrame == vblankLine

theorem counts_congr (timer : Timer) {a b : Nat}
    (same : a % Model.linesPerFrame = b % Model.linesPerFrame) :
    timer.counts a = timer.counts b := by
  cases timer with
  | hblank => rfl
  | vblank => rw [counts, counts, Nat.add_mod, same, ← Nat.add_mod]

end Timer

variable (r : Raster) (timer : Timer)

def countdown : Timer → Countdown
  | .hblank => r.hblank
  | .vblank => r.vblank

def counter : Word := .ofBytes (r.readPort timer.counterLow) (r.readPort timer.counterHigh)

theorem counter_eq : r.counter timer = (r.countdown timer).counter := by
  cases timer <;> exact Word.ofBytes_low_high _

def ticksOver (k : Nat) : Nat := Nat.count (fun j => timer.counts (r.line + j)) k

def ticks (cycles : Nat) : Nat := r.ticksOver timer (r.linesIn cycles)

theorem endLine_countdown : r.endLine.2.countdown timer =
    if timer.counts r.line then (r.countdown timer).tick.2 else r.countdown timer := by
  cases timer with
  | hblank => rfl
  | vblank => exact apply_ite Prod.snd _ _ _

theorem meets_endLine_timer : LineSet.Meets r.endLine.1 timer.line ↔
    timer.counts r.line = true ∧ (r.countdown timer).tick.1 = true := by
  cases timer with
  | hblank => exact (meets_linesIf _ _ _ _).1.trans (and_iff_right rfl).symm
  | vblank =>
    have fires (counts : Bool) : (if counts then r.vblank.tick else (false, r.vblank)).1 = true ↔
        counts = true ∧ r.vblank.tick.1 = true := by cases counts <;> simp
    exact (meets_linesIf _ _ _ _).2.2.1.trans (fires _)

theorem counts_afterLines (j : Nat) :
    timer.counts (r.afterLines j).line = timer.counts (r.line + j) :=
  timer.counts_congr (r.afterLines_line_mod j)

theorem ticksOver_succ (k : Nat) : r.ticksOver timer (k + 1) =
    r.ticksOver timer k + if timer.counts (r.line + k) then 1 else 0 :=
  Nat.count_succ _ k

theorem afterLines_countdown (k : Nat) :
    (r.afterLines k).countdown timer = (r.countdown timer).ticked (r.ticksOver timer k) := by
  induction k with
  | zero => rfl
  | succ k ih =>
    rw [afterLines_succ, endLine_countdown, counts_afterLines, ih, ticksOver_succ]
    split
    · exact (Countdown.ticked_succ _ _).symm
    · rfl

/-- Line ends raise a timer's line if it fires at one of the ticks among them. -/
theorem raisedOver_timer (k : Nat) : LineSet.Meets (r.raisedOver k) timer.line ↔
    ∃ t < r.ticksOver timer k, ((r.countdown timer).ticked t).tick.1 = true := by
  induction k with
  | zero => exact iff_of_false (LineSet.not_meets_zero _) fun ⟨t, few, _⟩ => Nat.not_lt_zero t few
  | succ k ih =>
    rw [raisedOver, LineSet.meets_or, ih, meets_endLine_timer, counts_afterLines,
      afterLines_countdown, ticksOver_succ]
    cases timer.counts (r.line + k) with
    | false => simp
    | true => simp only [if_true, true_and, Nat.exists_lt_succ_right]

theorem ticksOver_add (j k : Nat) : r.ticksOver timer (j + k) =
    r.ticksOver timer j + (r.afterLines j).ticksOver timer k := by
  have same (i : Nat) :
      timer.counts ((r.afterLines j).line + i) = timer.counts (r.line + (j + i)) := by
    refine timer.counts_congr ?_
    rw [Nat.add_mod, afterLines_line_mod, ← Nat.add_mod, Nat.add_assoc]
  simp only [ticksOver, same]
  exact Nat.count_add _ j k

theorem step_countdown (cycles : Nat) :
    (r.step cycles).2.countdown timer = (r.countdown timer).ticked (r.ticks timer cycles) := by
  rw [step_eq, ticks, ← afterLines_countdown]
  cases timer <;> rfl

theorem step_timer (cycles : Nat) : LineSet.Meets (r.step cycles).1.raise timer.line ↔
    ∃ t < r.ticks timer cycles, ((r.countdown timer).ticked t).tick.1 = true := by
  rw [step_eq]
  exact r.raisedOver_timer timer _

/-- Ticks add up over steps. -/
theorem ticks_add (a b : Nat) :
    r.ticks timer (a + b) = r.ticks timer a + (r.step a).2.ticks timer b := by
  have same (k : Nat) :
      (r.afterLines (r.linesIn a)).ticksOver timer k = (r.step a).2.ticksOver timer k := by
    rw [step_eq]
    rfl
  rw [ticks, linesIn_add, ticksOver_add, same, ticks, ticks]

theorem ticks_zero {r : Raster} (placed : r.dot < Model.cyclesPerLine) : r.ticks timer 0 = 0 := by
  rw [ticks, linesIn, Nat.add_zero, Nat.div_eq_of_lt placed]
  rfl

/-- What a write to a port does to a timer. -/
theorem writePort_countdown (p v : Byte) : (r.writePort p v).countdown timer =
    let t := r.countdown timer
    if p = timer.reloadLow then t.setReload (.ofBytes v t.reload.high)
    else if p = timer.reloadHigh then t.setReload (.ofBytes t.reload.low v)
    else if p = 0xA2 then t.setControl (timer.control v)
    else t := by
  by_cases low : p = timer.reloadLow
  · rw [if_pos low, low]
    cases timer <;> rfl
  rw [if_neg low]
  by_cases high : p = timer.reloadHigh
  · rw [if_pos high, high]
    cases timer <;> rfl
  rw [if_neg high]
  by_cases control : p = 0xA2
  · rw [if_pos control, control]
    cases timer <;> rfl
  rw [if_neg control]
  unfold writePort
  cases timer with
  | hblank =>
    split
    case h_5 eq => exact absurd (BitVec.eq_of_toNat_eq eq) control
    case h_6 eq => exact absurd (BitVec.eq_of_toNat_eq eq) low
    case h_7 eq => exact absurd (BitVec.eq_of_toNat_eq eq) high
    case h_10 => split <;> rfl
    all_goals rfl
  | vblank =>
    split
    case h_5 eq => exact absurd (BitVec.eq_of_toNat_eq eq) control
    case h_8 eq => exact absurd (BitVec.eq_of_toNat_eq eq) low
    case h_9 eq => exact absurd (BitVec.eq_of_toNat_eq eq) high
    case h_10 => split <;> rfl
    all_goals rfl

/-- An event that leaves a timer's registers alone: time passes, or a port is written that has no
part in the timer. The control port has one, but may be written if the timer's bits stay. -/
def Event.Spares (timer : Timer) (bits : BitVec 2) : Event → Prop
  | step _ => True
  | write p v =>
    p ≠ timer.reloadLow ∧ p ≠ timer.reloadHigh ∧ (p = 0xA2 → timer.control v = bits)
  | reset => False

variable {r timer}

theorem spared_write {p v : Byte}
    (spares : (Event.write p v).Spares timer (r.countdown timer).control) :
    (r.writePort p v).countdown timer = r.countdown timer := by
  obtain ⟨notLow, notHigh, kept⟩ := spares
  rw [writePort_countdown, if_neg notLow, if_neg notHigh]
  split
  case isTrue control => rw [kept control, Countdown.setControl_control]
  case isFalse => rfl

def elapsed (events : List Event) : Nat :=
  (events.map fun | .step cycles => cycles | .write _ _ | .reset => 0).sum

/-- While its registers are left alone, a timer is ticked as often as the time that has passed
since says, and so are the ticks of the time to come. -/
theorem run_spared {past : List Event} (placed : r.dot < Model.cyclesPerLine)
    (spares : ∀ e ∈ past, e.Spares timer (r.countdown timer).control) :
    (r.run past).countdown timer = (r.countdown timer).ticked (r.ticks timer (elapsed past)) ∧
      ∀ cycles, r.ticks timer (elapsed past + cycles) =
        r.ticks timer (elapsed past) + (r.run past).ticks timer cycles := by
  induction past generalizing r with
  | nil =>
    have none : r.ticks timer (elapsed []) = 0 := ticks_zero timer placed
    rw [none]
    refine ⟨rfl, fun cycles => ?_⟩
    exact (congrArg (r.ticks timer) (Nat.zero_add cycles)).trans (Nat.zero_add _).symm
  | cons e rest ih =>
    obtain ⟨first, others⟩ := List.forall_mem_cons.mp spares
    cases e with
    | reset => exact first.elim
    | step n =>
      have time : elapsed (.step n :: rest) = n + elapsed rest := List.sum_cons
      have countdown := r.step_countdown timer n
      have inside : (r.step n).2.dot < Model.cyclesPerLine := by
        rw [step_dot]
        exact Nat.mod_lt _ (by decide)
      obtain ⟨ticked, later⟩ := ih inside (by rwa [countdown, Countdown.ticked_control])
      constructor
      · rw [time, ticks_add, Countdown.ticked_add, ← countdown]
        exact ticked
      · intro cycles
        rw [time, Nat.add_assoc, ticks_add, later, ticks_add, Nat.add_assoc]
        rfl
    | write p v =>
      have time : elapsed (.write p v :: rest) = elapsed rest := Nat.zero_add _
      have countdown := spared_write first
      obtain ⟨line, dot⟩ := r.writePort_place p v
      have same (cycles : Nat) : (r.writePort p v).ticks timer cycles = r.ticks timer cycles := by
        simp only [ticks, ticksOver, linesIn, line, dot]
      obtain ⟨ticked, later⟩ := ih (dot ▸ placed) (by rwa [countdown])
      simp only [same, countdown] at ticked later
      rw [time]
      exact ⟨ticked, later⟩

/-- A raster after some writes to ports, of which the newest is first. -/
def written (r : Raster) (writes : List (Byte × Byte)) : Raster :=
  writes.foldr (fun w r => r.writePort w.1 w.2) r

theorem written_dot (r : Raster) (writes : List (Byte × Byte)) :
    (r.written writes).dot = r.dot := by
  induction writes with
  | nil => rfl
  | cons w before ih => exact (((r.written before).writePort_place w.1 w.2).2).trans ih

theorem enabled_countdown (r : Raster) (timer : Timer) (v : Byte) :
    (r.writePort 0xA2 v).countdown timer = (r.countdown timer).setControl (timer.control v) := by
  cases timer <;> rfl

/-- Among some writes, newest first, the last ones to the two reload ports of a timer are the
bytes of a value. -/
structure Timer.Programs (timer : Timer) (reload : Word) (writes : List (Byte × Byte)) : Prop where
  low : writes.lookup timer.reloadLow = some reload.low
  high : writes.lookup timer.reloadHigh = some reload.high

/-- Each reload byte is what was last written to its port, and the counter starts over from
both. -/
theorem written_reload (r : Raster) (timer : Timer) (writes : List (Byte × Byte)) :
    let t := (r.written writes).countdown timer
    (∀ v, writes.lookup timer.reloadLow = some v → t.reload.low = v ∧ t.counter = t.reload) ∧
      ∀ v, writes.lookup timer.reloadHigh = some v → t.reload.high = v ∧ t.counter = t.reload := by
  induction writes with
  | nil => exact ⟨nofun, nofun⟩
  | cons w before ih =>
    obtain ⟨p, v⟩ := w
    obtain ⟨low, high⟩ := ih
    have apart : timer.reloadLow ≠ timer.reloadHigh := by cases timer <;> decide
    have next : r.written ((p, v) :: before) = (r.written before).writePort p v := rfl
    have found (q : Byte) : ((p, v) :: before).lookup q =
        if p = q then some v else before.lookup q := by
      rw [List.lookup_cons, BEq.comm]
      split <;> simp_all
    simp only [next, writePort_countdown, found]
    by_cases isLow : p = timer.reloadLow
    · rw [if_pos isLow, if_pos isLow, if_neg (isLow ▸ apart)]
      refine ⟨fun u same => ?_, fun u same => ?_⟩
      · cases same
        exact ⟨Word.low_ofBytes _ _, rfl⟩
      · exact ⟨(Word.high_ofBytes _ _).trans (high u same).1, rfl⟩
    rw [if_neg isLow, if_neg isLow]
    by_cases isHigh : p = timer.reloadHigh
    · rw [if_pos isHigh, if_pos isHigh]
      refine ⟨fun u same => ?_, fun u same => ?_⟩
      · exact ⟨(Word.low_ofBytes _ _).trans (low u same).1, rfl⟩
      · cases same
        exact ⟨Word.high_ofBytes _ _, rfl⟩
    rw [if_neg isHigh, if_neg isHigh]
    split
    · exact ⟨low, high⟩
    · exact ⟨low, high⟩

/-- A timer that is programmed and then enabled begins its countdown. -/
theorem programmed_running {writes : List (Byte × Byte)} {reload : Word} {control : Byte}
    (programs : timer.Programs reload writes) (enables : (timer.control control).getLsbD 0 = true) :
    (((r.written writes).writePort 0xA2 control).countdown timer).Running
      ((timer.control control).getLsbD 1) reload.toNat 0 := by
  obtain ⟨low, high⟩ := r.written_reload timer writes
  obtain ⟨low, -⟩ := low _ programs.low
  obtain ⟨high, restarted⟩ := high _ programs.high
  have loaded : ((r.written writes).countdown timer).reload = reload := by
    rw [← Word.ofBytes_low_high ((r.written writes).countdown timer).reload, low, high,
      Word.ofBytes_low_high]
  rw [enabled_countdown]
  constructor
  case enabled => exact enables
  case repeats => rfl
  case reload => exact congrArg BitVec.toNat loaded
  case counter =>
    rw [Countdown.left_start]
    exact congrArg BitVec.toNat (restarted.trans loaded)

/-- However a raster is used, no timer has more to count than it is loaded with. -/
theorem run_bounded (events : List Event) (bounded : (r.countdown timer).Bounded) :
    ((r.run events).countdown timer).Bounded := by
  induction events generalizing r with
  | nil => exact bounded
  | cons e rest ih =>
    refine ih ?_
    cases e with
    | step cycles =>
      rw [after, step_countdown]
      exact bounded.ticked _
    | write p v =>
      rw [after, writePort_countdown]
      dsimp only
      split
      · exact Nat.le_refl _
      · split
        · exact Nat.le_refl _
        · split <;> exact bounded
    | reset => cases timer <;> exact Nat.le_refl _

/-- The timers keep their schedule. `K` ticks after a timer was programmed and enabled it shows
what is left of its reload, and a step fires it if one of its ticks is due. -/
theorem timers_keep_schedule (timer : Timer) :
    (∀ (before past : List Event) (writes : List (Byte × Byte)) (reload : Word) (control : Byte),
      1 ≤ reload.toNat → timer.Programs reload writes →
      (timer.control control).getLsbD 0 = true →
      (∀ e ∈ past, e.Spares timer (timer.control control)) →
      let start := ((({} : Raster).run before).written writes).writePort 0xA2 control
      let repeats := (timer.control control).getLsbD 1
      let K := start.ticks timer (elapsed past)
      ((start.run past).counter timer).toNat = Countdown.left repeats reload.toNat K ∧
      ∀ cycles, LineSet.Meets ((start.run past).step cycles).1.raise timer.line ↔
        ∃ tick, K < tick ∧ tick ≤ start.ticks timer (elapsed past + cycles) ∧
          Countdown.Due repeats reload.toNat tick) ∧
    ∀ before past : List Event,
      let start := ({} : Raster).run before
      let t := start.countdown timer
      t.enabled = false ∨ t.reload = 0 → (∀ e ∈ past, e.Spares timer t.control) →
      (start.run past).counter timer = start.counter timer ∧
      ∀ cycles, ¬ LineSet.Meets ((start.run past).step cycles).1.raise timer.line := by
  constructor
  · intro before past writes reload control positive programs enables spares start repeats K
    obtain ⟨n, place⟩ := onPhase_zero.run before
    have placed : start.dot < Model.cyclesPerLine := by
      rw [(writePort_place _ _ _).2, written_dot]
      exact place.dot
    have bits : (start.countdown timer).control = timer.control control := by
      rw [enabled_countdown, Countdown.control_setControl]
    have running : (start.countdown timer).Running repeats reload.toNat 0 :=
      programmed_running programs enables
    obtain ⟨ticked, later⟩ := run_spared placed (bits ▸ spares)
    have fires (k : Nat) : ((start.countdown timer).ticked k).tick.1 = true ↔
        Countdown.Due repeats reload.toNat (k + 1) := ((running.ticked positive k).tick positive).1
    constructor
    · rw [counter_eq, ticked]
      exact (running.ticked positive K).counter
    · intro cycles
      rw [step_timer, ticked, later]
      constructor
      · rintro ⟨k, within, fired⟩
        rw [← Countdown.ticked_add, fires] at fired
        exact ⟨K + k + 1, by omega, by omega, fired⟩
      · rintro ⟨tick, further, within, due⟩
        obtain ⟨k, rfl⟩ : ∃ k, tick = K + k + 1 := ⟨tick - K - 1, by omega⟩
        refine ⟨k, by omega, ?_⟩
        rw [← Countdown.ticked_add, fires]
        exact due
  · intro before past start t idle spares
    obtain ⟨n, place⟩ := onPhase_zero.run before
    have bounded : t.Bounded := run_bounded before (by cases timer <;> exact Nat.le_refl _)
    have stopped := bounded.stopped idle
    obtain ⟨ticked, -⟩ := run_spared place.dot spares
    rw [Countdown.ticked_stopped stopped] at ticked
    constructor
    · rw [counter_eq, counter_eq, ticked]
    · intro cycles
      rw [step_timer, ticked]
      rintro ⟨k, -, fired⟩
      rw [Countdown.ticked_stopped stopped, Countdown.tick_stopped stopped] at fired
      cases fired

/-- A repeating timer of two lines, programmed in the middle of a line, runs on while the other
timer is switched on and off, is loaded, and waits. -/
theorem timers_keep_schedule_sharing :
    let start := ((({} : Raster).run [.step 300]).written
      [(0xA4, 2), (0xA7, 9), (0xA5, 0)]).writePort 0xA2 0x03
    let now := start.run [.step 200, .write 0xA2 0x07, .step 56, .write 0xA2 0x03]
    (now.counter .hblank).toNat = 1 ∧ LineSet.Meets (now.step 256).1.raise .hblankTimer ∧
      ¬ LineSet.Meets (now.step 200).1.raise .hblankTimer ∧
      ((({} : Raster).run [.write 0xA6 1]).run [.step 40704]).counter .vblank = 1 := by
  intro start now
  have spares : ∀ e ∈ [.step 200, .write 0xA2 0x07, .step 56, .write 0xA2 0x03],
      Event.Spares .hblank 3 e := by
    simp [Event.Spares, Timer.control, Timer.reloadLow, Timer.reloadHigh]
  obtain ⟨shown, raises⟩ := (timers_keep_schedule .hblank).1 [.step 300] _
    [(0xA4, 2), (0xA7, 9), (0xA5, 0)] 2 0x03 (by decide) ⟨rfl, rfl⟩ rfl spares
  have raises (cycles : Nat) : LineSet.Meets (now.step cycles).1.raise .hblankTimer ↔
      ∃ tick, start.ticks .hblank 256 < tick ∧ tick ≤ start.ticks .hblank (256 + cycles) ∧
        2 ∣ tick := raises cycles
  obtain ⟨waits, -⟩ := (timers_keep_schedule .vblank).2 [.write 0xA6 1] [.step 40704] (.inl rfl)
    (by simp [Event.Spares])
  refine ⟨shown.trans (by decide +kernel), ?_, ?_, waits⟩
  · rw [raises]
    exact ⟨2, by decide +kernel, by decide +kernel, Nat.dvd_refl 2⟩
  · rw [raises]
    rintro ⟨tick, further, within, -⟩
    exact absurd (Nat.lt_of_lt_of_le further within) (by decide +kernel)

end Raster

end Swan
