import Swan.Console.Keypad

/-! What the keypad holds, told from what has happened to it. A button is held because the
newest event that decides about it says so, and the program sees what was held when the keypad
was last sampled. Histories have the newest event first. -/
namespace Swan.Keypad

inductive Event where
  | hold (buttons : ButtonSet)
  | press (buttons : ButtonSet)
  | release (buttons : ButtonSet)
  | sample
  | write (v : Byte)
  | reset
  deriving DecidableEq, Repr

namespace Event

def run (e : Event) (k : Keypad) : Keypad :=
  match e with
  | hold buttons => k.hold buttons
  | press buttons => k.press buttons
  | release buttons => k.release buttons
  | sample => k.sample.2
  | write v => k.write v
  | reset => k.reset

/-- What an event decides about a button. A release also releases whatever has no name, even
if it is asked to release nothing. -/
def decides (i : Nat) : Event → Option Bool
  | hold buttons => some (buttons.getLsbD i)
  | press buttons => if buttons.getLsbD i then some true else none
  | release buttons =>
    if buttons.getLsbD i || !ButtonSet.named.getLsbD i then some false else none
  | sample | write _ | reset => none

end Event

def after (history : List Event) (k : Keypad) : Keypad := history.foldr Event.run k

/-- The newest event that decides about a button says that it is held. -/
def Held (history : List Event) (i : Nat) : Prop :=
  history.findSome? (Event.decides i) = some true

/-- The button was held at the last sample, and there was no reset since. -/
def Seen (history : List Event) (i : Nat) : Prop :=
  ∃ later before, history = later ++ .sample :: before ∧
    .sample ∉ later ∧ .reset ∉ later ∧ Held before i

def lastSelected : List Event → Byte
  | .write v :: _ => v &&& 0x70
  | .reset :: _ | [] => 0
  | .hold _ :: before | .press _ :: before | .release _ :: before | .sample :: before =>
    lastSelected before

/-- A keypad tells what has happened to it: to the host the new presses, and to the program
what it selected, beside the keys it saw of the selected groups. -/
structure Told (k : Keypad) (history : List Event) : Prop where
  sample : ∀ i, k.sample.1.getLsbD i = true ↔
    ButtonSet.named.getLsbD i = true ∧ Held history i ∧ ¬ Seen history i
  read : ∀ i, k.read.getLsbD i = true ↔ (lastSelected history).getLsbD i = true ∨
    i < 4 ∧ ∃ group < 3, (lastSelected history).getLsbD (4 + group) = true ∧
      Seen history (4 * group + i)

theorem after_append (later before : List Event) (k : Keypad) :
    after (later ++ before) k = after later (after before k) :=
  List.foldr_append

theorem after_cons (e : Event) (before : List Event) (k : Keypad) :
    after (e :: before) k = e.run (after before k) := rfl

variable {e : Event} {history : List Event} {i : Nat}

theorem getLsbD_complement (s : ButtonSet) (i : Nat) :
    (ButtonSet.complement s).getLsbD i = (ButtonSet.named.getLsbD i && !s.getLsbD i) := by
  by_cases within : i < 16
  · simp [ButtonSet.complement, within]
  · have unnamed : ButtonSet.named.getLsbD i = false := BitVec.getLsbD_of_ge _ _ (by omega)
    simp [ButtonSet.complement, unnamed]

/-- What one event makes of a button. -/
theorem run_held (e : Event) (k : Keypad) (i : Nat) :
    (e.run k).held.getLsbD i = ((e.decides i).getD (k.held.getLsbD i)) := by
  cases e with
  | hold buttons => rfl
  | press buttons =>
    simp only [Event.run, press, Event.decides, BitVec.getLsbD_or]
    cases buttons.getLsbD i <;> simp
  | release buttons =>
    simp only [Event.run, release, Event.decides, BitVec.getLsbD_and,
      getLsbD_complement]
    cases buttons.getLsbD i <;> cases ButtonSet.named.getLsbD i <;> simp
  | sample => rfl
  | write v => rfl
  | reset => rfl

theorem after_held (history : List Event) (i : Nat) :
    (after history {}).held.getLsbD i = true ↔ Held history i := by
  suffices told : (after history {}).held.getLsbD i =
      (history.findSome? (Event.decides i)).getD false by
    rw [told, Held]
    cases history.findSome? (Event.decides i) <;> simp
  induction history with
  | nil => simp [after]
  | cons e before ih =>
    rw [after_cons, run_held, ih, List.findSome?_cons]
    cases e.decides i <;> rfl

theorem not_seen_nil (i : Nat) : ¬ Seen [] i := by
  rintro ⟨later, before, split, _⟩
  exact absurd split (by simp)

/-- A sample shows what is held, a reset hides it, and nothing else changes what is seen. -/
theorem seen_cons : Seen (e :: history) i ↔
    (e = .sample ∧ Held history i) ∨ (e ≠ .sample ∧ e ≠ .reset ∧ Seen history i) := by
  constructor
  · rintro ⟨later, before, split, unsampled, kept, held⟩
    cases later with
    | nil =>
      obtain ⟨rfl, rfl⟩ := List.cons.inj split
      exact .inl ⟨rfl, held⟩
    | cons f later =>
      obtain ⟨rfl, rfl⟩ := List.cons.inj split
      simp only [List.mem_cons, not_or] at unsampled kept
      exact .inr ⟨Ne.symm unsampled.1, Ne.symm kept.1,
        later, before, rfl, unsampled.2, kept.2, held⟩
  · rintro (⟨rfl, held⟩ | ⟨unsampled, kept, later, before, rfl, unsampled', kept', held⟩)
    · exact ⟨[], history, rfl, List.not_mem_nil, List.not_mem_nil, held⟩
    · refine ⟨e :: later, before, rfl, ?_, ?_, held⟩
      · simp [unsampled.symm, unsampled']
      · simp [kept.symm, kept']

theorem after_sampled (history : List Event) (i : Nat) :
    (after history {}).sampled.getLsbD i = true ↔ Seen history i := by
  induction history with
  | nil => exact iff_of_false (by simp [after]) (not_seen_nil i)
  | cons e before ih =>
    rw [after_cons, seen_cons]
    cases e with
    | sample => simpa [Event.run, sample] using after_held before i
    | reset => simp [Event.run, reset]
    | hold buttons => simpa [Event.run, hold] using ih
    | press buttons => simpa [Event.run, press] using ih
    | release buttons => simpa [Event.run, release] using ih
    | write v => simpa [Event.run, write] using ih

theorem after_select (history : List Event) : (after history {}).select = lastSelected history := by
  induction history with
  | nil => rfl
  | cons e before ih =>
    rw [after_cons]
    cases e with
    | write v => rfl
    | reset => rfl
    | hold buttons => exact ih
    | press buttons => exact ih
    | release buttons => exact ih
    | sample => exact ih

theorem getLsbD_group (k : Keypad) (selectBit firstButton i : Nat) :
    (k.group selectBit firstButton).getLsbD i =
      (k.select.getLsbD selectBit && (decide (i < 4) && k.sampled.getLsbD (firstButton + i))) := by
  unfold group
  split
  case isTrue selected => simp [selected]
  case isFalse ignored => simp [ignored]

theorem getLsbD_read (k : Keypad) (i : Nat) : k.read.getLsbD i = true ↔
    k.select.getLsbD i = true ∨ i < 4 ∧ ∃ group < 3,
      k.select.getLsbD (4 + group) = true ∧ k.sampled.getLsbD (4 * group + i) = true := by
  have groups (P : Nat → Prop) : (∃ group < 3, P group) ↔ P 0 ∨ P 1 ∨ P 2 := by
    constructor
    · rintro ⟨group, within, h⟩
      obtain rfl | rfl | rfl : group = 0 ∨ group = 1 ∨ group = 2 := by omega
      · exact .inl h
      · exact .inr (.inl h)
      · exact .inr (.inr h)
    · rintro (h | h | h)
      · exact ⟨0, by decide, h⟩
      · exact ⟨1, by decide, h⟩
      · exact ⟨2, by decide, h⟩
  rw [groups]
  simp only [read, BitVec.getLsbD_or, BitVec.getLsbD_setWidth, getLsbD_group]
  grind

/-- What the program selects is no matter to what is held and what is seen. -/
theorem held_selected (values : List Byte) :
    Held (values.map .write ++ history) i ↔ Held history i := by
  induction values with
  | nil => rfl
  | cons v values ih => exact ih

theorem seen_selected (values : List Byte) :
    Seen (values.map .write ++ history) i ↔ Seen history i := by
  induction values with
  | nil => rfl
  | cons v values ih =>
    rw [← ih, List.map_cons, List.cons_append, seen_cons]
    simp

/-- Whatever happens to a keypad, it tells. -/
theorem after_told (history : List Event) : (after history {}).Told history := by
  constructor
  case sample =>
    intro i
    rw [sample, BitVec.getLsbD_and, getLsbD_complement, ← after_held, ← after_sampled]
    grind
  case read =>
    intro i
    simp only [getLsbD_read, after_select, after_sampled]

end Swan.Keypad
