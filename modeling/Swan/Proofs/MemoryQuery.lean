import Mathlib.Data.List.Induction
import Swan.Console.AddressText
import Swan.Proofs.HostCommand
import Swan.Proofs.InterruptService

/-! Which texts name an address, and what a console shows under such a name. An address is written
as digits, behind at most one plus sign, behind at most one marker, and the texts that are read
are just those. So every address is read back from what is printed for it, in any of the forms. -/
namespace Swan

namespace AddressText

/-- A digit of a base, in either case, and what it is worth. -/
def IsDigit (base : Nat) (c : Char) (v : Nat) : Prop :=
  v < base ∧ (c = v.digitChar ∨ c = v.digitChar.toUpper)

/-- A number in a base is a digit, or a number and a digit. -/
inductive Written (base : Nat) : List Char → Nat → Prop where
  | digit {c : Char} {v : Nat} : IsDigit base c v → Written base [c] v
  | append {cs : List Char} {n : Nat} {c : Char} {v : Nat} : Written base cs n →
      IsDigit base c v → Written base (cs ++ [c]) (n * base + v)

inductive Sign : List Char → Prop where
  | none : Sign []
  | plus : Sign ['+']

inductive Marker : List Char → Nat → Prop where
  | none : Marker [] 10
  | lower : Marker ['0', 'x'] 16
  | upper : Marker ['0', 'X'] 16
  | dollar : Marker ['$'] 16

/-- The grammar of addresses: a text denotes a number. -/
def Denotes (text : List Char) (n : Nat) : Prop :=
  ∃ marker base sign digits, Marker marker base ∧ Sign sign ∧ Written base digits n ∧
    text = marker ++ sign ++ digits

/-- The base only limits what the digits are worth. -/
theorem digit?_eq_filter {base : Nat} (small : base ≤ 16) (c : Char) :
    digit? base c = (digit? 16 c).filter (· < base) := by
  unfold digit?
  dsimp only
  rw [Option.filter_filter]
  congr 1
  funext v
  rw [Bool.eq_iff_iff]
  simp only [Bool.and_eq_true, decide_eq_true_eq]
  omega

/-- All digits are in the first half of the bytes. -/
theorem toNat_lt_of_digit? {base : Nat} {c : Char} {v : Nat} (digit : digit? base c = some v) :
    c.toNat < 128 := by
  unfold digit? at digit
  simp only [Option.filter_eq_some_iff] at digit
  have below {d : Char} (small : d.toNat < 128) (le : c ≤ d) : c.toNat < 128 :=
    Nat.lt_of_le_of_lt le small
  obtain ⟨found, -⟩ := digit
  split at found
  · rename_i range
    exact below (d := '9') (by decide) range.2
  · split at found
    · rename_i range
      exact below (d := 'f') (by decide) range.2
    · split at found
      · rename_i range
        exact below (d := 'F') (by decide) range.2
      · cases found

theorem toNat_digitChar_lt :
    ∀ v < 16, v.digitChar.toNat < 128 ∧ v.digitChar.toUpper.toNat < 128 := by
  decide

theorem digit?_sixteen : ∀ n < 128, ∀ v < 16, digit? 16 (Char.ofNat n) = some v ↔
    Char.ofNat n = v.digitChar ∨ Char.ofNat n = v.digitChar.toUpper := by
  decide +kernel

theorem digit?_eq_some {base : Nat} (small : base ≤ 16) {c : Char} {v : Nat} :
    digit? base c = some v ↔ IsDigit base c v := by
  have read (within : c.toNat < 128) (lt : v < base) :
      digit? 16 c = some v ↔ c = v.digitChar ∨ c = v.digitChar.toUpper := by
    have table := digit?_sixteen c.toNat within v (Nat.lt_of_lt_of_le lt small)
    rwa [Char.ofNat_toNat] at table
  constructor
  · intro digit
    have within := toNat_lt_of_digit? digit
    rw [digit?_eq_filter small, Option.filter_eq_some_iff, decide_eq_true_eq] at digit
    exact ⟨digit.2, (read within digit.2).mp digit.1⟩
  · rintro ⟨lt, char⟩
    obtain ⟨lower, upper⟩ := toNat_digitChar_lt v (Nat.lt_of_lt_of_le lt small)
    have within : c.toNat < 128 := by
      rcases char with rfl | rfl
      · exact lower
      · exact upper
    rw [digit?_eq_filter small, Option.filter_eq_some_iff, decide_eq_true_eq]
    exact ⟨(read within lt).mpr char, lt⟩

theorem digits?_append_singleton (base start : Nat) (cs : List Char) (c : Char) :
    digits? base start (cs ++ [c]) =
      (digits? base start cs).bind fun n => (digit? base c).map (n * base + ·) := by
  induction cs generalizing start with
  | nil =>
    simp only [List.nil_append, digits?]
    cases digit? base c <;> rfl
  | cons d cs ih =>
    simp only [List.cons_append, digits?]
    cases digit? base d with
    | none => rfl
    | some v => exact ih (start * base + v)

theorem Written.ne_nil {base : Nat} {cs : List Char} {n : Nat} (written : Written base cs n) :
    cs ≠ [] := by
  cases written with
  | digit => nofun
  | append => simp

/-- Digits are read as the number that they write. -/
theorem digits?_eq_some {base : Nat} (small : base ≤ 16) {cs : List Char} {n : Nat} :
    cs ≠ [] ∧ digits? base 0 cs = some n ↔ Written base cs n := by
  constructor
  · rintro ⟨some, read⟩
    induction cs using List.reverseRecOn generalizing n with
    | nil => exact absurd rfl some
    | append_singleton cs c ih =>
      rw [digits?_append_singleton, Option.bind_eq_some_iff] at read
      obtain ⟨m, before, read⟩ := read
      obtain ⟨v, digit, rfl⟩ := Option.map_eq_some_iff.mp read
      have digit := (digit?_eq_some small).mp digit
      by_cases first : cs = []
      · rw [first] at before ⊢
        cases before
        rw [Nat.zero_mul, Nat.zero_add]
        exact .digit digit
      · exact .append (ih first before) digit
  · intro written
    refine ⟨written.ne_nil, ?_⟩
    induction written with
    | digit digit =>
      rw [digits?, (digit?_eq_some small).mpr digit]
      exact congrArg some (by rw [Nat.zero_mul, Nat.zero_add])
    | append _ digit ih =>
      rw [digits?_append_singleton, ih, (digit?_eq_some small).mpr digit]
      rfl

theorem not_isDigit_plus {base v : Nat} (small : base ≤ 16) : ¬ IsDigit base '+' v := by
  intro digit
  have read := (digit?_eq_some small).mpr digit
  rw [digit?_eq_filter small] at read
  cases read

/-- What a number is written with is digits, its first character among them. -/
theorem Written.isDigit {base : Nat} {cs : List Char} {n : Nat} (written : Written base cs n) :
    ∀ c ∈ cs, ∃ v, IsDigit base c v := by
  induction written with
  | digit digit =>
    intro c member
    cases List.mem_singleton.mp member
    exact ⟨_, digit⟩
  | append _ digit ih =>
    intro c member
    rcases List.mem_append.mp member with earlier | last
    · exact ih c earlier
    · cases List.mem_singleton.mp last
      exact ⟨_, digit⟩

/-- A number is read where digits are written, with or without a sign. -/
theorem number?_eq_some {base : Nat} (small : base ≤ 16) {text : List Char} {n : Nat} :
    number? base text = some n ↔
      ∃ sign digits, Sign sign ∧ Written base digits n ∧ text = sign ++ digits := by
  constructor
  · intro read
    unfold number? at read
    split at read
    · rename_i c rest
      exact ⟨['+'], c :: rest, .plus, (digits?_eq_some small).mp ⟨nofun, read⟩, rfl⟩
    · cases read
    · cases read
    · rename_i some
      exact ⟨[], text, .none, (digits?_eq_some small).mp ⟨some, read⟩, rfl⟩
  · rintro ⟨sign, digits, sign, written, rfl⟩
    obtain ⟨some, read⟩ := (digits?_eq_some small).mpr written
    cases digits with
    | nil => exact absurd rfl some
    | cons c rest =>
      cases sign with
      | plus => exact read
      | none =>
        have other : c ≠ '+' := by
          rintro rfl
          obtain ⟨v, digit⟩ := written.isDigit _ List.mem_cons_self
          exact not_isDigit_plus small digit
        unfold number?
        split
        · rename_i eq
          cases eq
          exact absurd rfl other
        · rename_i eq
          cases eq
          exact absurd rfl other
        · exact absurd ‹_› some
        · exact read

theorem Marker.base_le {marker : List Char} {base : Nat} (marks : Marker marker base) :
    base ≤ 16 := by
  cases marks <;> decide

theorem unmark_eq {text rest : List Char} {base : Nat} (unmarked : unmark text = (base, rest)) :
    ∃ marker, Marker marker base ∧ text = marker ++ rest := by
  unfold unmark at unmarked
  split at unmarked <;> cases unmarked
  · exact ⟨_, .lower, rfl⟩
  · exact ⟨_, .upper, rfl⟩
  · exact ⟨_, .dollar, rfl⟩
  · exact ⟨_, .none, rfl⟩

/-- A decimal number has nothing in it that is read as a marker. -/
theorem unmark_decimal {sign digits : List Char} {n : Nat} (signed : Sign sign)
    (written : Written 10 digits n) : unmark (sign ++ digits) = (10, sign ++ digits) := by
  cases signed with
  | plus => rfl
  | none =>
    have isDigit := written.isDigit
    have unmarked {c : Char} (marks : c ∈ ['x', 'X', '$']) : ¬ ∃ v, IsDigit 10 c v := by
      rintro ⟨v, digit⟩
      have read := (digit?_eq_some (by decide)).mpr digit
      simp only [List.mem_cons, List.not_mem_nil, or_false] at marks
      rcases marks with rfl | rfl | rfl <;> cases read
    rw [List.nil_append]
    unfold unmark
    split
    · exact absurd (isDigit 'x' (by simp)) (unmarked (by simp))
    · exact absurd (isDigit 'X' (by simp)) (unmarked (by simp))
    · exact absurd (isDigit '$' (by simp)) (unmarked (by simp))
    · rfl

/-- Texts are read as numbers by the grammar. -/
theorem number?_unmark_eq_some {text : List Char} {n : Nat} :
    number? (unmark text).1 (unmark text).2 = some n ↔ Denotes text n := by
  constructor
  · intro read
    rcases unmarked : unmark text with ⟨base, rest⟩
    rw [unmarked] at read
    obtain ⟨marker, marks, rfl⟩ := unmark_eq unmarked
    obtain ⟨sign, digits, signed, written, rfl⟩ := (number?_eq_some marks.base_le).mp read
    exact ⟨marker, base, sign, digits, marks, signed, written, (List.append_assoc ..).symm⟩
  · rintro ⟨marker, base, sign, digits, marks, signed, written, rfl⟩
    have unmarked : unmark (marker ++ sign ++ digits) = (base, sign ++ digits) := by
      cases marks with
      | none => exact unmark_decimal signed written
      | lower | upper | dollar => rfl
    rw [unmarked]
    exact (number?_eq_some marks.base_le).mpr ⟨sign, digits, signed, written, rfl⟩

/-- Texts are read as addresses by the grammar, if what they denote is one. -/
theorem parse?_eq_some {text : List Char} {a : Address} :
    parse? text = some a ↔ ∃ n ≤ 0xFFFFF, Denotes text n ∧ BitVec.ofNat 20 n = a := by
  have parsed : parse? text = (number? (unmark text).1 (unmark text).2).bind fun n =>
    if n < 0x100000 then some (BitVec.ofNat 20 n) else none := rfl
  rw [parsed, Option.bind_eq_some_iff]
  constructor
  · rintro ⟨n, read, within⟩
    split at within
    · rename_i lt
      cases within
      exact ⟨n, Nat.le_of_lt_succ lt, number?_unmark_eq_some.mp read, rfl⟩
    · cases within
  · rintro ⟨n, le, denotes, rfl⟩
    exact ⟨n, number?_unmark_eq_some.mpr denotes, if_pos (Nat.lt_succ_of_le le)⟩

section Printing

variable {base : Nat} {cs : List Char} {n : Nat}

theorem isDigit_digitChar {v : Nat} (lt : v < base) : IsDigit base v.digitChar v :=
  ⟨lt, .inl rfl⟩

theorem written_toDigits (many : 1 < base) (n : Nat) : Written base (Nat.toDigits base n) n := by
  induction n using Nat.strongRecOn with
  | ind n ih =>
    rw [Nat.toDigits_eq_if many]
    split
    case isTrue one => exact .digit (isDigit_digitChar one)
    case isFalse more =>
      have rest := ih (n / base) (Nat.div_lt_self (by omega) many)
      have written := rest.append (isDigit_digitChar (Nat.mod_lt n (by omega)))
      rwa [Nat.div_add_mod'] at written

theorem Written.cons_zero (many : 1 < base) (written : Written base cs n) :
    Written base ('0' :: cs) n := by
  have zero : IsDigit base '0' 0 := isDigit_digitChar (Nat.lt_of_succ_lt many)
  induction written with
  | digit digit =>
    have written := (Written.digit zero).append digit
    rwa [Nat.zero_mul, Nat.zero_add] at written
  | append _ digit ih => exact ih.append digit

theorem Written.padLeft (many : 1 < base) (written : Written base cs n) (length : Nat) :
    Written base (Text.padLeft '0' length cs) n := by
  unfold Text.padLeft
  induction length - cs.length with
  | zero => exact written
  | succ k ih => exact ih.cons_zero many

theorem toUpper_toUpper_digitChar :
    ∀ v < 16, v.digitChar.toUpper.toUpper = v.digitChar.toUpper := by
  decide

theorem Written.map_toUpper (small : base ≤ 16) (written : Written base cs n) :
    Written base (cs.map Char.toUpper) n := by
  have upper {c : Char} {v : Nat} (digit : IsDigit base c v) : IsDigit base c.toUpper v := by
    obtain ⟨lt, rfl | rfl⟩ := digit
    · exact ⟨lt, .inr rfl⟩
    · exact ⟨lt, .inr (toUpper_toUpper_digitChar v (Nat.lt_of_lt_of_le lt small))⟩
  induction written with
  | digit digit => exact .digit (upper digit)
  | append _ digit ih =>
    rw [List.map_append]
    exact ih.append (upper digit)

end Printing

theorem denotes_decimal (n : Nat) : Denotes (toString n).toList n := by
  refine ⟨[], 10, [], _, .none, .none, written_toDigits (by decide) n, ?_⟩
  rw [Nat.toString_eq_ofList_toDigits, String.toList_ofList]
  rfl

theorem denotes_hexadecimal {marker : String} (marks : Marker marker.toList 16) (length n : Nat) :
    Denotes (marker ++ Text.hex length n).toList n ∧
      Denotes (marker ++ Text.hexUpper length n).toList n := by
  have lower : Written 16 _ n := written_toDigits (by decide) n
  have upper := lower.map_toUpper (by decide)
  constructor
  · refine ⟨_, 16, [], _, marks, .none, lower.padLeft (by decide) length, ?_⟩
    rw [String.toList_append, Text.hex, String.toList_ofList, List.append_nil]
  · refine ⟨_, 16, [], _, marks, .none, upper.padLeft (by decide) length, ?_⟩
    rw [String.toList_append, Text.hexUpper, String.toList_ofList, List.append_nil]

end AddressText

namespace Console

open AddressText

variable {δ ω η : Type}

theorem query_memory (c : Console δ ω η) (text : String) :
    Inspectable.query c ("memory." ++ text) =
      (parse? text.toList).map fun a => .byte (c.board.peek a) := by
  have other : behind? "cpu.".toList ("memory." ++ text).toList = none := by
    rw [String.toList_append]
    rfl
  have own : behind? "memory.".toList ("memory." ++ text).toList = some text.toList := by
    rw [String.toList_append, behind?, if_pos (by simp), List.drop_left]
  show queryPath c ("memory." ++ text) = _
  rw [queryPath, other, own]

/-- A byte is shown under the texts that denote its address, and nothing under any other. -/
theorem query_memory_eq_some {c : Console δ ω η} {text : String} {v : Value} :
    Inspectable.query c ("memory." ++ text) = some v ↔
      ∃ n ≤ 0xFFFFF, Denotes text.toList n ∧ v = .byte (c.board.peek (BitVec.ofNat 20 n)) := by
  rw [query_memory, Option.map_eq_some_iff]
  constructor
  · rintro ⟨a, parsed, rfl⟩
    obtain ⟨n, le, denotes, rfl⟩ := parse?_eq_some.mp parsed
    exact ⟨n, le, denotes, rfl⟩
  · rintro ⟨n, le, denotes, rfl⟩
    exact ⟨_, parse?_eq_some.mpr ⟨n, le, denotes, rfl⟩, rfl⟩

theorem query_memory_denoted {c : Console δ ω η} {a : Address} {text : String}
    (denotes : Denotes text.toList a.toNat) :
    Inspectable.query c ("memory." ++ text) = some (.byte (c.board.peek a)) := by
  refine query_memory_eq_some.mpr ⟨a.toNat, Nat.le_of_lt_succ a.isLt, denotes, ?_⟩
  rw [BitVec.ofNat_toNat, BitVec.setWidth_eq]

variable [Device δ] [Observer ω] [StepHook η]

def Command.isQuery : Command ω η → Bool
  | query _ => true
  | _ => false

/-- Queries between other commands change neither the console nor what the others answer. -/
theorem queries_change_nothing (c : Console δ ω η) (commands : List (Command ω η)) :
    c.obey (commands.filter (!·.isQuery)) = c.obey commands ∧
      c.answers (commands.filter (!·.isQuery)) =
        ((commands.zip (c.answers commands)).filter (!·.1.isQuery)).map (·.2) := by
  induction commands generalizing c with
  | nil => exact ⟨rfl, rfl⟩
  | cons command rest ih =>
    obtain ⟨state, told⟩ := ih (command.run c)
    have obeyed : c.obey (command :: rest) = (command.run c).obey rest := rfl
    have answered : c.answers (command :: rest) =
        command.answer c :: (command.run c).answers rest := rfl
    rw [obeyed, answered, List.zip_cons_cons]
    cases own : command.isQuery with
    | true =>
      have kept : command.run c = c := by
        cases command with
        | query path => rfl
        | _ => cases own
      rw [List.filter_cons_of_neg (by simp [own]), List.filter_cons_of_neg (by simp [own]), ← told,
        kept]
      rw [kept] at state
      exact ⟨state, rfl⟩
    | false =>
      rw [List.filter_cons_of_pos (by simp [own]), List.filter_cons_of_pos (by simp [own]),
        List.map_cons, ← told]
      exact ⟨state, rfl⟩

/-- Memory is shown under exactly the names of the grammar. A text behind the memory's name that
denotes a number below a megabyte shows the byte there, every other shows nothing, and asking
changes nothing. -/
theorem memory_query_grammar (c : Console δ ω η) :
    (∀ (text : String) (v : Value), Inspectable.query c ("memory." ++ text) = some v ↔
      ∃ n ≤ 0xFFFFF, Denotes text.toList n ∧ v = .byte (c.board.peek (BitVec.ofNat 20 n))) ∧
    (∀ text : String, Inspectable.query c ("memory." ++ text) = none ↔
      ∀ n, Denotes text.toList n → 0xFFFFF < n) ∧
    (∀ a : Address,
      Inspectable.query c ("memory." ++ toString a.toNat) = some (.byte (c.board.peek a)) ∧
      ∀ marker ∈ ["0x", "0X", "$"], ∀ length,
        Inspectable.query c ("memory." ++ (marker ++ Text.hex length a.toNat)) =
          some (.byte (c.board.peek a)) ∧
        Inspectable.query c ("memory." ++ (marker ++ Text.hexUpper length a.toNat)) =
          some (.byte (c.board.peek a))) ∧
    ∀ commands : List (Command ω η),
      c.obey (commands.filter (!·.isQuery)) = c.obey commands ∧
        c.answers (commands.filter (!·.isQuery)) =
          ((commands.zip (c.answers commands)).filter (!·.1.isQuery)).map (·.2) := by
  refine ⟨fun text v => query_memory_eq_some, fun text => ?_, fun a => ⟨?_, ?_⟩,
    c.queries_change_nothing⟩
  · rw [Option.eq_none_iff_forall_ne_some]
    constructor
    · intro nothing n denotes
      by_contra within
      exact nothing _ (query_memory_eq_some.mpr ⟨n, Nat.not_lt.mp within, denotes, rfl⟩)
    · intro beyond v shown
      obtain ⟨n, le, denotes, -⟩ := query_memory_eq_some.mp shown
      exact Nat.not_lt.mpr le (beyond n denotes)
  · exact query_memory_denoted (denotes_decimal a.toNat)
  · intro marker member length
    have marks : Marker marker.toList 16 := by
      simp only [List.mem_cons, List.not_mem_nil, or_false] at member
      rcases member with rfl | rfl | rfl
      · exact .lower
      · exact .upper
      · exact .dollar
    obtain ⟨lower, upper⟩ := denotes_hexadecimal marks length a.toNat
    exact ⟨query_memory_denoted lower, query_memory_denoted upper⟩

/-- A byte is shown under digits of both cases behind a marker, a sign and zeros, but there is none
at a megabyte, nor far beyond it. -/
theorem memory_query_grammar_bare :
    Denotes "0X+00fF".toList 0xFF ∧
      Inspectable.query bare ("memory." ++ "0X+00fF") = some (.byte (bare.board.peek 0xFF)) ∧
      Inspectable.query bare ("memory." ++ "$fffff") = some (.byte (bare.board.peek 0xFFFFF)) ∧
      Inspectable.query bare ("memory." ++ "1048576") = none ∧
      Inspectable.query bare ("memory." ++ "0x10000000000") = none := by
  obtain ⟨shown, hidden, printed, -⟩ := memory_query_grammar bare
  have denotes : Denotes "0X+00fF".toList 0xFF := number?_unmark_eq_some.mp (by decide)
  have beyond {text : String} {m : Nat} (read : number? (unmark text.toList).1
      (unmark text.toList).2 = some m) (large : 0xFFFFF < m) (n : Nat)
      (denotes : Denotes text.toList n) : 0xFFFFF < n := by
    rw [← number?_unmark_eq_some, read] at denotes
    cases denotes
    exact large
  refine ⟨denotes, (shown _ _).mpr ⟨0xFF, by decide, denotes, rfl⟩, ?_, ?_, ?_⟩
  · exact ((printed 0xFFFFF).2 "$" (by decide) 5).1
  · exact (hidden _).mpr (beyond (m := 1048576) (by decide) (by decide))
  · exact (hidden _).mpr (beyond (m := 0x10000000000) (by decide) (by decide))

end Console

end Swan
