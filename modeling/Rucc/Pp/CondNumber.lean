import Rucc.Pp.CondSpec

/-!
# The integer constants of a controlling expression

The evaluator reads every integer constant of the grammar that fits `uintmax_t`. What it makes of one is the number its
digits are, unsigned where the constant has a `u` or does not fit `intmax_t`.
-/

namespace Rucc.Pp.Cond

open Base (hexDigit)
open Rucc.Lex (DigitOf Ending Radix Spelling digitsText pushDigit)

variable {d : ℕ} {digits : List Char}

/-- The characters that are digits of some base. -/
def digitChars : List Char := "0123456789abcdefABCDEF".toList

theorem mem_digitChars {c : Char} (h : hexDigit c = some d) : c ∈ digitChars := by
  have hlo : (48 ≤ c.toNat ∧ c.toNat ≤ 57) ∨ (97 ≤ c.toNat ∧ c.toNat ≤ 102) ∨ (65 ≤ c.toNat ∧ c.toNat ≤ 70) := by
    unfold hexDigit at h
    split_ifs at h with h1 h2 h3
    · exact Or.inl h1
    · exact Or.inr (Or.inl h2)
    · exact Or.inr (Or.inr h3)
  rw [← Char.ofNat_toNat c]
  generalize c.toNat = n at hlo
  rcases hlo with ⟨h1, h2⟩ | ⟨h1, h2⟩ | ⟨h1, h2⟩ <;> interval_cases n <;> decide

/-- A digit is the same one in lower case, and no separator. -/
theorem digit_lower {c : Char} (h : hexDigit c = some d) : hexDigit c.toLower = some d ∧ c ≠ '\x27' := by
  have hall : digitChars.all fun c => hexDigit c.toLower = hexDigit c ∧ c ≠ '\x27' := by decide
  obtain ⟨hlower, hne⟩ := of_decide_eq_true (List.all_eq_true.1 hall c (mem_digitChars h))
  exact ⟨hlower.trans h, hne⟩

variable {radix : ℕ} {c : Char}

theorem toDigit_lower (h : DigitOf radix c) : toDigit radix c.toLower = hexDigit c := by
  obtain ⟨d, hd, hdigit⟩ := h
  rw [toDigit, (digit_lower hdigit).1, hdigit, Option.filter_some, if_pos (by simpa using hd)]

/-! ## The text in lower case, without the separators -/

theorem cleaned_digitsText {digits : List (Bool × Char)} (h : ∀ digit ∈ digits, DigitOf radix digit.2) :
    (digitsText digits).filter (· ≠ '\x27') = digits.map Prod.snd := by
  induction digits with
  | nil => rfl
  | cons digit digits ih =>
    obtain ⟨separated, c⟩ := digit
    obtain ⟨d, -, hdigit⟩ := h (separated, c) List.mem_cons_self
    have hne := (digit_lower hdigit).2
    have hrest := ih fun digit hmem => h digit (List.mem_cons_of_mem _ hmem)
    cases separated <;> simpa [digitsText, List.filter_cons, hne] using hrest

theorem cleaned_ending (e : Ending) : e.text.filter (· ≠ '\x27') = e.text := by
  obtain ⟨_ | (_ | _), _ | ⟨_ | _ | _, _ | _⟩, _ | _⟩ := e <;> rfl

theorem cleaned_mark (r : Radix) : r.mark.filter (· ≠ '\x27') = r.mark := by
  obtain _ | _ | (_ | _) | (_ | _) := r <;> rfl

theorem cleaned_text (s : Spelling) :
    s.text.filter (· ≠ '\x27') = s.radix.mark ++ (s.first :: s.rest.map Prod.snd ++ s.ending.text) := by
  obtain ⟨d, -, hdigit⟩ := s.first_digit
  have hne := (digit_lower hdigit).2
  rw [Spelling.text, List.filter_append, cleaned_mark, List.cons_append, List.filter_cons_of_pos (by simpa using hne),
    List.filter_append, cleaned_digitsText s.rest_digits, cleaned_ending]
  rfl

theorem suffixOf_ending (text : List Char) (e : Ending) :
    suffixOf text (e.text.map Char.toLower) 0 false = .ok e.unsigned.isSome := by
  obtain ⟨_ | (_ | _), _ | ⟨_ | _ | _, _ | _⟩, _ | _⟩ := e <;> rfl

/-- No suffix starts with a digit. -/
theorem ending_head (e : Ending) : ∀ c ∈ (e.text.map Char.toLower).head?, hexDigit c = none := by
  have hnone : (e.text.map Char.toLower).head?.all fun c => (hexDigit c).isNone := by
    obtain ⟨_ | (_ | _), _ | ⟨_ | _ | _, _ | _⟩, _ | _⟩ := e <;> rfl
  intro c hc
  rw [Option.mem_def.1 hc] at hnone
  exact Option.isNone_iff_eq_none.1 hnone

/-! ## The digits -/

theorem numberOf_lower (h : ∀ c ∈ digits, DigitOf radix c) :
    numberOf radix (digits.map Char.toLower) = digits.foldl (pushDigit radix) 0 := by
  unfold numberOf
  rw [List.foldl_map]
  refine List.foldl_ext _ _ 0 fun n c hmem => ?_
  rw [pushDigit, toDigit_lower (h c hmem)]

/-- The digits are told from the suffix. -/
theorem span_digits {suffix : List Char} (h : ∀ c ∈ digits, DigitOf radix c)
    (hsuffix : ∀ c ∈ suffix.head?, hexDigit c = none) :
    (digits.map Char.toLower ++ suffix).takeWhile (fun c => (toDigit radix c).isSome) = digits.map Char.toLower ∧
      (digits.map Char.toLower ++ suffix).dropWhile (fun c => (toDigit radix c).isSome) = suffix := by
  have hmap : ∀ c ∈ digits.map Char.toLower, (toDigit radix c).isSome = true := by
    intro c hmem
    obtain ⟨c, hc, rfl⟩ := List.mem_map.1 hmem
    obtain ⟨d, -, hdigit⟩ := h c hc
    rw [toDigit_lower (h c hc), hdigit, Option.isSome_some]
  rw [List.takeWhile_append_of_pos hmap, List.dropWhile_append_of_pos hmap]
  cases suffix with
  | nil => simp
  | cons c suffix =>
    have hc : toDigit radix c = none := by simp [toDigit, hsuffix c rfl]
    simp [hc]

/-! ## The base -/

theorem radixOf_marked (s : Spelling) (h : s.radix.mark ≠ []) (lower : List Char) :
    radixOf (s.radix.mark.map Char.toLower ++ lower) = (s.radix.base, lower) := by
  cases hradix : s.radix with
  | decimal => exact absurd (congrArg Radix.mark hradix) h
  | octal => exact absurd (congrArg Radix.mark hradix) h
  | hexadecimal capital => cases capital <;> rfl
  | binary capital => cases capital <;> rfl

theorem radixOf_decimal (h : c ≠ '0') (lower : List Char) : radixOf (c :: lower) = (10, c :: lower) := by
  unfold radixOf
  split
  · exact absurd (List.cons.inj ‹_›).1 h
  · exact absurd (List.cons.inj ‹_›).1 h
  · exact absurd (List.cons.inj ‹_›).1 h
  · rfl

theorem toLower_decimal (h : DigitOf 10 c) : c.toLower = c := by
  obtain ⟨d, hd, hdigit⟩ := h
  have hall : digitChars.all fun c => (hexDigit c).all (· < 10) → c.toLower = c := by decide
  exact of_decide_eq_true (List.all_eq_true.1 hall c (mem_digitChars hdigit)) (by simpa [hdigit] using hd)

theorem radixOf_zero (e : Ending) :
    radixOf ('0' :: e.text.map Char.toLower) = (10, '0' :: e.text.map Char.toLower) := by
  obtain ⟨_ | (_ | _), _ | ⟨_ | _ | _, _ | _⟩, _ | _⟩ := e <;> rfl

theorem radixOf_octal (h : DigitOf 8 c) (lower : List Char) :
    radixOf ('0' :: c.toLower :: lower) = (8, c.toLower :: lower) := by
  obtain ⟨d, hd, hdigit⟩ := h
  have hall : digitChars.all fun c => (hexDigit c).all (· < 8) →
      c.toLower.isDigit = true ∧ c.toLower ≠ 'x' ∧ c.toLower ≠ 'b' := by decide
  obtain ⟨hdig, hx, hb⟩ :=
    of_decide_eq_true (List.all_eq_true.1 hall c (mem_digitChars hdigit)) (by simpa [hdigit] using hd)
  unfold radixOf
  split
  · exact absurd (List.cons.inj (List.cons.inj ‹_›).2).1 hx
  · exact absurd (List.cons.inj (List.cons.inj ‹_›).2).1 hb
  · obtain ⟨rfl, rfl⟩ := List.cons.inj (List.cons.inj ‹_›).2
    rw [if_pos hdig]
  · simp_all

/-- A text whose base and digits are told apart is read as the number the digits are. -/
theorem parseInteger_of_radix {text : List Char} (e : Ending) (hne : digits ≠ [])
    (h : ∀ c ∈ digits, DigitOf radix c) (hvalue : digits.foldl (pushDigit radix) 0 < 2^64)
    (hradix : radixOf ((text.filter (· ≠ '\x27')).map Char.toLower) =
      (radix, digits.map Char.toLower ++ e.text.map Char.toLower)) :
    parseInteger text = .ok ⟨BitVec.ofNat 64 (digits.foldl (pushDigit radix) 0),
      e.unsigned.isSome || decide (2^63 ≤ digits.foldl (pushDigit radix) 0)⟩ := by
  obtain ⟨htake, hdrop⟩ := span_digits h (ending_head e)
  unfold parseInteger
  simp only [hradix, htake, hdrop, List.map_eq_nil_iff, if_neg hne, suffixOf_ending, numberOf_lower h, if_pos hvalue]
  rfl

/-- The zero in front of an octal constant is only dropped where a digit is behind it. -/
theorem parseInteger_octal (s : Spelling) (hradix : s.radix = .octal) (h : s.value < 2^64)
    (hlower : (s.text.filter (· ≠ '\x27')).map Char.toLower =
      (s.first :: s.rest.map Prod.snd).map Char.toLower ++ s.ending.text.map Char.toLower) :
    parseInteger s.text = .ok ⟨BitVec.ofNat 64 s.value, s.ending.unsigned.isSome || decide (2^63 ≤ s.value)⟩ := by
  have hfirst : s.first = '0' := by simpa [hradix, Radix.Starts] using s.starts
  have hdigits := s.rest_digits
  rw [hradix] at hdigits
  have hvalue : s.value = (s.rest.map Prod.snd).foldl (pushDigit 8) 0 := by
    rw [Spelling.value, hradix, hfirst]
    rfl
  rw [hvalue] at h ⊢
  rw [hfirst] at hlower
  cases hrest : s.rest with
  | nil =>
    rw [hrest] at hlower
    have hzero : ∀ c ∈ ['0'], DigitOf 10 c := fun c hmem => ⟨0, by decide, List.mem_singleton.1 hmem ▸ rfl⟩
    have hread := parseInteger_of_radix s.ending (List.cons_ne_nil _ _) hzero (by decide) (by
      rw [hlower]
      exact radixOf_zero s.ending)
    exact hread
  | cons digit rest =>
    rw [hrest] at hlower h
    refine parseInteger_of_radix s.ending (by simp) ?_ h ?_
    · intro c hmem
      obtain ⟨digit', hdigit, rfl⟩ := List.mem_map.1 hmem
      exact hdigits digit' (hrest ▸ hdigit)
    · rw [hlower]
      exact radixOf_octal (hdigits digit (hrest ▸ List.mem_cons_self)) _

/-- An integer constant of the grammar is read as what it is. -/
theorem parseInteger_text (s : Spelling) (h : s.value < 2^64) : parseInteger s.text =
    .ok ⟨BitVec.ofNat 64 s.value, s.ending.unsigned.isSome || decide (2^63 ≤ s.value)⟩ := by
  have hdigits : ∀ c ∈ s.first :: s.rest.map Prod.snd, DigitOf s.radix.base c := by
    intro c hmem
    rcases List.mem_cons.1 hmem with rfl | hmem
    · exact s.first_digit
    · obtain ⟨digit, hdigit, rfl⟩ := List.mem_map.1 hmem
      exact s.rest_digits digit hdigit
  have hlower : (s.text.filter (· ≠ '\x27')).map Char.toLower = s.radix.mark.map Char.toLower ++
      ((s.first :: s.rest.map Prod.snd).map Char.toLower ++ s.ending.text.map Char.toLower) := by
    rw [cleaned_text, List.map_append, List.map_append]
  by_cases hmark : s.radix.mark = []
  case neg =>
    exact parseInteger_of_radix s.ending (List.cons_ne_nil _ _) hdigits h (by rw [hlower, radixOf_marked s hmark])
  case pos =>
    rw [hmark, List.map_nil, List.nil_append] at hlower
    have hstarts := s.starts
    cases hradix : s.radix with
    | decimal =>
      rw [hradix] at hstarts
      have hfirst := toLower_decimal (hradix ▸ s.first_digit)
      refine parseInteger_of_radix s.ending (List.cons_ne_nil _ _) hdigits h ?_
      rw [hlower, List.map_cons, List.cons_append, hfirst, radixOf_decimal hstarts, hradix]
      rfl
    | octal => exact parseInteger_octal s hradix h hlower
    | hexadecimal capital => simp [hradix, Radix.mark] at hmark
    | binary capital => simp [hradix, Radix.mark] at hmark

end Rucc.Pp.Cond
