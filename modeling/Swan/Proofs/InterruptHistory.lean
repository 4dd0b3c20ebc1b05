import Swan.Console.Interrupts

/-! What the interrupt controller holds, told from what has happened to it. A line is in the
status register because it was raised while it was enabled, and nothing has cleared it since.
Histories have the newest event first. -/
namespace Swan.Interrupts

inductive Event where
  | raise (lines : LineSet)
  | lower (lines : LineSet)
  | apply (r : Request)
  | write (port v : Byte)
  | reset
  deriving DecidableEq, Repr

namespace Event

def run (model : Model) (e : Event) (i : Interrupts) : Interrupts :=
  match e with
  | raise lines => i.raise lines
  | lower lines => i.lower lines
  | apply r => i.apply r
  | write p v => i.writePort model p v
  | reset => {}

def raises (l : Nat) : Event → Bool
  | raise lines => lines.getLsbD l
  | apply r => r.raise.getLsbD l
  | lower _ | write _ _ | reset => false

/-- A request lowers after it has raised, so a line in both halves is cleared. -/
def clears (l : Nat) : Event → Bool
  | raise _ => false
  | lower lines => lines.getLsbD l
  | apply r => r.lower.getLsbD l
  | write p v => p == 0xB6 && v.getLsbD l
  | reset => true

end Event

def after (model : Model) (history : List Event) (i : Interrupts) : Interrupts :=
  history.foldr (Event.run model) i

theorem after_append (model : Model) (later before : List Event) (i : Interrupts) :
    after model (later ++ before) i = after model later (after model before i) :=
  List.foldr_append

def lastWritten (port : Byte) : List Event → Byte
  | .write p v :: before => if p = port then v else lastWritten port before
  | .reset :: _ | [] => 0
  | .raise _ :: before | .lower _ :: before | .apply _ :: before => lastWritten port before

/-- A line was raised at a moment when it was enabled, and neither that event nor a later one
clears it. -/
def Latched (history : List Event) (l : Nat) : Prop :=
  ∃ later e before, history = later ++ e :: before ∧
    e.raises l = true ∧ (lastWritten 0xB2 before).getLsbD l = true ∧
    e.clears l = false ∧ ∀ f ∈ later, f.clears l = false

/-- A controller holds what a history tells. -/
structure Told (i : Interrupts) (model : Model) (history : List Event) : Prop where
  base : i.base = lastWritten 0xB0 history &&& model.vectorBaseMask
  enabled : i.enabled = lastWritten 0xB2 history
  status : ∀ l < 8, i.status.getLsbD l = true ↔ Latched history l

variable {model : Model}

theorem writePort_eq (i : Interrupts) (p v : Byte) :
    i.writePort model p v =
      if p = 0xB0 then { i with base := v &&& model.vectorBaseMask }
      else if p = 0xB2 then { i with enabled := v }
      else if p = 0xB6 then i.lower v
      else i := by
  by_cases base : p = 0xB0
  · rw [if_pos base, base]
    rfl
  · rw [if_neg base]
    by_cases enabled : p = 0xB2
    · rw [if_pos enabled, enabled]
      rfl
    · rw [if_neg enabled]
      by_cases acknowledge : p = 0xB6
      · rw [if_pos acknowledge, acknowledge]
        rfl
      · rw [if_neg acknowledge]
        unfold writePort
        split
        · exact absurd (BitVec.eq_of_toNat_eq ‹_›) base
        · exact absurd (BitVec.eq_of_toNat_eq ‹_›) enabled
        · exact absurd (BitVec.eq_of_toNat_eq ‹_›) acknowledge
        · rfl

theorem latched_cons {e : Event} {before : List Event} {l : Nat} :
    Latched (e :: before) l ↔ e.clears l = false ∧
      (Latched before l ∨ e.raises l = true ∧ (lastWritten 0xB2 before).getLsbD l = true) := by
  constructor
  · rintro ⟨later, f, older, split, raised, enabled, kept, after⟩
    cases later with
    | nil =>
      obtain ⟨rfl, rfl⟩ := List.cons.inj split
      exact ⟨kept, .inr ⟨raised, enabled⟩⟩
    | cons g later =>
      obtain ⟨rfl, rfl⟩ := List.cons.inj split
      refine ⟨after e List.mem_cons_self, .inl ⟨later, f, older, rfl, raised, enabled, kept, ?_⟩⟩
      intro f member
      exact after f (List.mem_cons_of_mem e member)
  · rintro ⟨kept, ⟨later, f, older, rfl, raised, enabled, kept', after⟩ | ⟨raised, enabled⟩⟩
    · refine ⟨e :: later, f, older, rfl, raised, enabled, kept', ?_⟩
      intro g member
      cases List.mem_cons.mp member with
      | inl same => exact same ▸ kept
      | inr older => exact after g older
    · exact ⟨[], e, before, rfl, raised, enabled, kept, nofun⟩

/-- What one event makes of a line. -/
theorem run_status (e : Event) (i : Interrupts) {l : Nat} (line : l < 8) :
    (e.run model i).status.getLsbD l = true ↔ e.clears l = false ∧
      (i.status.getLsbD l = true ∨ e.raises l = true ∧ i.enabled.getLsbD l = true) := by
  cases e with
  | raise lines => simp [Event.run, raise, Event.clears, Event.raises]
  | lower lines => simp [Event.run, lower, Event.clears, Event.raises, line, and_comm]
  | apply r => simp [Event.run, apply, raise, lower, Event.clears, Event.raises, line, and_comm]
  | reset => simp [Event.run, Event.clears]
  | write p v =>
    rw [Event.run, writePort_eq]
    by_cases acknowledge : p = 0xB6
    · rw [acknowledge]
      simp [lower, Event.clears, Event.raises, line, and_comm]
    · rw [Event.clears, beq_false_of_ne acknowledge, Bool.false_and]
      repeat' split
      all_goals simp [Event.raises]

theorem not_latched_nil (l : Nat) : ¬ Latched [] l := by
  rintro ⟨later, e, before, split, _⟩
  exact absurd split (by simp)

/-- A register that one port stores to, and that nothing but a reset touches otherwise, holds
what was last written to the port. -/
theorem register_after {α : Type} (field : Interrupts → α) (stored : Byte → α) {port : Byte}
    (written : ∀ i p v, field (i.writePort model p v) = if p = port then stored v else field i)
    (latched : ∀ i status, field { i with status } = field i)
    (initial : field {} = stored 0) (history : List Event) :
    field (after model history {}) = stored (lastWritten port history) := by
  induction history with
  | nil => exact initial
  | cons e before ih =>
    have next : after model (e :: before) {} = e.run model (after model before {}) := rfl
    rw [next]
    cases e with
    | raise lines => exact (latched _ _).trans ih
    | lower lines => exact (latched _ _).trans ih
    | apply r => exact (latched _ _).trans ((latched _ _).trans ih)
    | reset => exact initial
    | write p v =>
      rw [Event.run, written, lastWritten, ih]
      split <;> rfl

/-- Whatever happens to a controller from power on, it holds what the history tells. -/
theorem after_told (model : Model) (history : List Event) :
    (after model history {}).Told model history := by
  have enabled (history : List Event) :
      (after model history {}).enabled = lastWritten 0xB2 history := by
    refine register_after Interrupts.enabled id (fun i p v => ?_) (fun _ _ => rfl) rfl history
    rw [writePort_eq]
    grind [lower]
  constructor
  case base =>
    refine register_after Interrupts.base (· &&& model.vectorBaseMask) (fun i p v => ?_)
      (fun _ _ => rfl) BitVec.zero_and.symm history
    rw [writePort_eq]
    grind [lower]
  case enabled => exact enabled history
  case status =>
    intro l line
    induction history with
    | nil => exact iff_of_false (by simp [after]) (not_latched_nil l)
    | cons e before ih =>
      have next : after model (e :: before) {} = e.run model (after model before {}) := rfl
      rw [next, run_status e _ line, ih, enabled, latched_cons]

/-- A line that is raised before it is enabled is lost. -/
example : (after .mono [.write 0xB2 0x40, .raise LineSet.vblank] {}).status = 0 := rfl

end Swan.Interrupts
