import Rucc.Base.Dfp

/-!
# Reading a decimal constant

`parse` of `dfp.rs` on the characters of a constant. `Spelling` is the grammar it accepts, with the
exact value each spelling has (`accepts_iff`), and `parse_correct_iff` says for which spellings the
encoding is the value rounded once.

The exponent is cut three times on its way: the written one at `2^40`, its difference with the digits
after the point at twice `limit`, and the digits that are dropped at four times `limit`. A spelling
long enough to feel a cut is given a different value. The other way to go wrong is rounding twice, to
the precision and again at the least exponent (`Rounding.DoublyRounded`).
-/

namespace Rucc.Base.Dfp

open Rounding Checked Digits

variable {d : ℕ} {c : Char} {cs : List Char}

/-! ## The parser -/

/-- The digit a character is. -/
def digitOf (c : Char) : ℕ := c.toNat - '0'.toNat

/-- The state of the scan of the digits: the significant ones, from the first that is not zero on,
and how many digits were written after the point. A text is shorter than an `i64` counts to, so the
count is a natural number. -/
structure Mantissa where
  digits : List ℕ
  seenDigit : Bool
  afterPoint : ℕ
  point : Bool
  deriving DecidableEq, Repr

/-- One character of the digits. -/
def mantissaStep (s : Mantissa) (c : Char) : Except ParseError Mantissa :=
  if c.isDigit then
    .ok { s with
      seenDigit := true
      afterPoint := if s.point then s.afterPoint + 1 else s.afterPoint
      digits := if c ≠ '0' ∨ s.digits ≠ [] then s.digits ++ [digitOf c] else s.digits }
  else if c = '.' ∧ !s.point then .ok { s with point := true }
  else .error .invalid

/-- A sign in front of a text, and the text behind it. -/
def takeSign : List Char → Bool × List Char
  | '-' :: rest => (true, rest)
  | '+' :: rest => (false, rest)
  | text => (false, text)

/-- One digit of an exponent, saturated well past any exponent a format has. -/
def exponentStep (value : ℤ) (c : Char) : Except ParseError ℤ :=
  if c.isDigit then .ok (min (value * 10 + digitOf c) (2^40)) else .error .invalid

/-- The number an exponent's text writes. -/
def exponent (text : List Char) : Except ParseError ℤ :=
  let (negative, digits) := takeSign text
  if digits = [] then .error .noExponentDigits
  else do
    let value ← digits.foldlM exponentStep 0
    return if negative then -value else value

/-- The exponent that was written, and zero where none was. -/
def writtenExponent : Option (List Char) → Except ParseError ℤ
  | none => .ok 0
  | some text => exponent text

/-- What every exponent is clamped to twice of. -/
def limit (width : Width) : ℤ := width.maxExponent + 200

/-- The encoding of the digits at an exponent, rounded to the precision first when they are too
many. -/
def assemble (sign : Bool) (digits : List ℕ) (exponent : ℤ) (width : Width) :
    Option (ℕ × Status) :=
  let precision := width.digits
  if precision < digits.length then
    let dropped := digits.length - precision
    let added := min (if dropped < 2^63 then (dropped : ℤ) else (2^63 - 1) / 4) (limit width * 4)
    let exponent := exponent + added
    let up := roundsUp (digits.take precision) (digits.drop precision)
    let status := if (digits.drop precision).any (· ≠ 0) then Status.NONE.with_ .INEXACT
      else Status.NONE
    let coefficient := value (digits.take precision)
    if up then
      if width.maxCoefficient < coefficient + 1 then
        fit sign ((coefficient + 1) / 10) (exponent + 1) width status
      else fit sign (coefficient + 1) exponent width status
    else fit sign coefficient exponent width status
  else fit sign (value digits) exponent width .NONE

/-- The marker in front of an exponent. -/
def isExponentMark (c : Char) : Bool := c = 'e' ∨ c = 'E'

/-- The bits of the decimal constant `text` in this width, and what had to be done to it to fit. -/
def parse (text : List Char) (width : Width) : Option (Except ParseError (ℕ × Status)) :=
  let (sign, rest) := takeSign text
  let (mantissa, exponentText) := match rest.findIdx? isExponentMark with
    | some i => (rest.take i, some (rest.drop (i + 1)))
    | none => (rest, none)
  match mantissa.foldlM mantissaStep ⟨[], false, 0, false⟩ with
  | .error e => some (.error e)
  | .ok m =>
    if !m.seenDigit then some (.error .noDigits)
    else
      match writtenExponent exponentText with
      | .error e => some (.error e)
      | .ok written => do
        let difference ← checked 64 (written - m.afterPoint)
        let exponent := max (-limit width * 2) (min (limit width * 2) difference)
        return Except.ok (← assemble sign m.digits exponent width)

/-! ## The grammar -/

/-- The character of a digit. -/
def charOf (d : ℕ) : Char := Char.ofNat (48 + d)

/-- A written exponent: the marker, the sign if there is one, and the digits. -/
structure Exponent where
  upper : Bool
  sign : Option Bool
  digits : List ℕ
  decimal : Digits.Decimal digits
  nonempty : digits ≠ []

/-- A spelling of a decimal number: a sign if there is one, digits with a point among them or not,
and an exponent if there is one. -/
structure Spelling where
  sign : Option Bool
  whole : List ℕ
  point : Bool
  fraction : List ℕ
  exponent : Option Exponent
  decimal : Digits.Decimal (whole ++ fraction)
  nonempty : whole ++ fraction ≠ []
  pointed : point = false → fraction = []

/-- The characters of a sign. -/
def signText : Option Bool → List Char
  | none => []
  | some false => ['+']
  | some true => ['-']

/-- The characters of an exponent. -/
def Exponent.text (e : Exponent) : List Char :=
  (if e.upper then 'E' else 'e') :: (signText e.sign ++ e.digits.map charOf)

/-- The integer an exponent writes. -/
def Exponent.value (e : Exponent) : ℤ :=
  if e.sign = some true then -(Digits.value e.digits : ℤ) else Digits.value e.digits

namespace Spelling

/-- The digits and the point. -/
def mantissaText (s : Spelling) : List Char :=
  s.whole.map charOf ++ if s.point then '.' :: s.fraction.map charOf else []

/-- The characters of a spelling. -/
def text (s : Spelling) : List Char :=
  signText s.sign ++ (s.mantissaText ++ match s.exponent with | none => [] | some e => e.text)

/-- Whether the number is negative. -/
def negative (s : Spelling) : Bool := s.sign = some true

/-- The digits from the first that is not zero on. -/
def significant (s : Spelling) : List ℕ := (s.whole ++ s.fraction).dropWhile (· = 0)

/-- The integer the digits write, the point left out. -/
def coefficient (s : Spelling) : ℕ := Digits.value (s.whole ++ s.fraction)

/-- The exponent that was written, and zero where none was. -/
def written (s : Spelling) : ℤ := match s.exponent with | none => 0 | some e => e.value

/-- The exponent of the last digit. -/
def scale (s : Spelling) : ℤ := s.written - s.fraction.length

/-- The exact magnitude. -/
def magnitude (s : Spelling) : ℚ := s.coefficient * 10^s.scale

end Spelling

/-! ## The parser accepts the grammar -/

theorem isDigit_charOf (h : d < 10) : (charOf d).isDigit = true := by
  interval_cases d <;> rfl

theorem digitOf_charOf (h : d < 10) : digitOf (charOf d) = d := by
  interval_cases d <;> rfl

theorem charOf_eq_zero (h : d < 10) : charOf d = '0' ↔ d = 0 := by
  interval_cases d <;> decide

/-- A character that is a digit is the character of a digit. -/
theorem exists_charOf (h : c.isDigit = true) : ∃ d < 10, c = charOf d := by
  simp only [Char.isDigit, ge_iff_le, Bool.and_eq_true, decide_eq_true_eq] at h
  have h0 : 48 ≤ c.toNat := by simpa using UInt32.le_iff_toNat_le.1 h.1
  have h1 : c.toNat ≤ 57 := by simpa using UInt32.le_iff_toNat_le.1 h.2
  refine ⟨c.toNat - 48, by omega, ?_⟩
  rw [charOf, Nat.add_sub_cancel' h0, Char.ofNat_toNat]

/-- Digits add themselves to the significant ones, once one of them is not zero. -/
theorem foldlM_digits (ds : List ℕ) (hd : Digits.Decimal ds) (rest : List Char) (s : Mantissa) :
    (ds.map charOf ++ rest).foldlM mantissaStep s = rest.foldlM mantissaStep
      { s with
        digits := if s.digits = [] then ds.dropWhile (· = 0) else s.digits ++ ds
        seenDigit := s.seenDigit || decide (ds ≠ [])
        afterPoint := if s.point then s.afterPoint + ds.length else s.afterPoint } := by
  induction ds generalizing s with
  | nil =>
    obtain ⟨digits, seenDigit, afterPoint, point⟩ := s
    cases digits <;> simp
  | cons d ds ih =>
    have hd0 : d < 10 := hd d (by simp)
    have hds : Digits.Decimal ds := fun x hx => hd x (by simp [hx])
    rw [List.map_cons, List.cons_append, List.foldlM_cons, mantissaStep,
      if_pos (isDigit_charOf hd0)]
    change (ds.map charOf ++ rest).foldlM mantissaStep _ = _
    rw [ih hds]
    congr 1
    simp only [ne_eq, charOf_eq_zero hd0, digitOf_charOf hd0, Mantissa.mk.injEq]
    refine ⟨?_, by simp, ?_, trivial⟩
    · by_cases hz : d = 0
      · by_cases hs : s.digits = []
        · simp [hz, hs]
        · simp [hz, hs]
      · by_cases hs : s.digits = []
        · simp [hz, hs]
        · simp [hz, hs]
    · cases s.point
      · simp
      · simp
        omega

/-- The scan of a spelling's digits. -/
theorem foldlM_mantissa (s : Spelling) : s.mantissaText.foldlM mantissaStep ⟨[], false, 0, false⟩ =
      .ok ⟨s.significant, true, s.fraction.length, s.point⟩ := by
  obtain ⟨hw, hf⟩ := Digits.Decimal.append.1 s.decimal
  have hne := s.nonempty
  unfold Spelling.mantissaText Spelling.significant
  rw [foldlM_digits s.whole hw]
  cases hp : s.point with
  | false =>
    have hfr := s.pointed hp
    rw [hfr, List.append_nil] at hne ⊢
    simp [hne]
    rfl
  | true =>
    have hdot : ∀ digits seenDigit, mantissaStep ⟨digits, seenDigit, 0, false⟩ '.' =
        .ok ⟨digits, seenDigit, 0, true⟩ := fun _ _ => rfl
    simp only [if_true, List.foldlM_cons, Bool.false_eq_true, if_false, hdot]
    have h := foldlM_digits s.fraction hf [] ⟨s.whole.dropWhile (· = 0),
      false || decide (s.whole ≠ []), 0, true⟩
    rw [List.append_nil] at h
    refine h.trans ?_
    have hseen : (false || decide (s.whole ≠ []) || decide (s.fraction ≠ [])) = true := by
      by_contra hno
      simp only [Bool.false_or, Bool.or_eq_true, decide_eq_true_eq, not_or, not_not] at hno
      exact hne (by rw [hno.1, hno.2]; rfl)
    rw [List.foldlM_nil, List.dropWhile_append]
    simp only [if_true, zero_add, hseen, List.isEmpty_iff]
    rfl

/-- A character that is neither of the two signs. -/
def NoSign (c : Char) : Prop := c ≠ '-' ∧ c ≠ '+'

theorem noSign_charOf (h : d < 10) : NoSign (charOf d) := by
  unfold NoSign
  interval_cases d <;> decide

/-- A sign is taken off a text, and no sign off a text without one. -/
theorem takeSign_signText (sign : Option Bool) (rest : List Char) (h : NoSign c) :
    takeSign (signText sign ++ c :: rest) = (decide (sign = some true), c :: rest) := by
  match sign with
  | none =>
    obtain ⟨h1, h2⟩ := h
    show takeSign (c :: rest) = _
    unfold takeSign
    split <;> simp_all
  | some false => rfl
  | some true => rfl

/-- The digits of an exponent saturate. -/
theorem foldlM_exponent (ds : List ℕ) (hd : Digits.Decimal ds) (v : ℕ) :
    (ds.map charOf).foldlM exponentStep (min (v : ℤ) (2^40)) =
      .ok (min ((ds.foldl (fun value d => value * 10 + d) v : ℕ) : ℤ) (2^40)) := by
  induction ds generalizing v with
  | nil => rfl
  | cons d ds ih =>
    have hd0 : d < 10 := hd d (by simp)
    have hds : Digits.Decimal ds := fun x hx => hd x (by simp [hx])
    rw [List.map_cons, List.foldlM_cons, exponentStep, if_pos (isDigit_charOf hd0),
      digitOf_charOf hd0, List.foldl_cons, ← ih hds]
    change (ds.map charOf).foldlM exponentStep _ = _
    congr 1
    push_cast
    omega

/-- An exponent's text is read as the integer it writes, cut at `2^40`. -/
theorem exponent_text (e : Exponent) : exponent (signText e.sign ++ e.digits.map charOf) =
      .ok (max (-(2^40)) (min e.value (2^40))) := by
  obtain ⟨d, ds, hds⟩ := List.exists_cons_of_ne_nil e.nonempty
  have hd : Digits.Decimal (d :: ds) := hds ▸ e.decimal
  have htake := takeSign_signText e.sign (ds.map charOf) (noSign_charOf (hd d (by simp)))
  have hfold := foldlM_exponent (d :: ds) hd 0
  have hv : ((d :: ds).foldl (fun value d => value * 10 + d) 0 : ℕ) = Digits.value (d :: ds) := rfl
  rw [hv] at hfold
  have hzero : min ((0 : ℕ) : ℤ) (2^40) = 0 := by decide
  rw [hzero] at hfold
  rw [← List.map_cons, ← hds] at htake
  rw [← hds] at hfold
  have hne : e.digits.map charOf ≠ [] := by simp [e.nonempty]
  simp only [exponent, htake, if_neg hne, hfold]
  change Except.ok _ = _
  congr 1
  unfold Exponent.value
  by_cases hs : e.sign = some true
  · simp only [hs, decide_true, if_true]
    omega
  · simp only [hs, decide_false, Bool.false_eq_true, if_false]
    omega

/-- The written exponent as the parser has it, cut at `2^40`. -/
def Spelling.cutWritten (s : Spelling) : ℤ := max (-(2^40)) (min s.written (2^40))

/-- The exponent of the last digit as the parser has it, clamped to twice the limit. -/
def Spelling.clamped (s : Spelling) (width : Width) : ℤ :=
  max (-limit width * 2) (min (limit width * 2) (s.cutWritten - s.fraction.length))

/-- The first character of a spelling behind its sign. -/
theorem exists_mantissaText (s : Spelling) : ∃ c rest, s.mantissaText = c :: rest ∧ NoSign c := by
  obtain ⟨hw, hf⟩ := Digits.Decimal.append.1 s.decimal
  have hne := s.nonempty
  unfold Spelling.mantissaText
  cases hwhole : s.whole with
  | cons d ds =>
    rw [hwhole] at hw
    exact ⟨_, _, rfl, noSign_charOf (hw d (by simp))⟩
  | nil =>
    cases hp : s.point with
    | true => exact ⟨_, _, rfl, by decide, by decide⟩
    | false =>
      rw [hwhole, s.pointed hp] at hne
      exact absurd rfl hne

/-- The digits and the point hold no exponent marker. -/
theorem noMark_mantissaText (s : Spelling) : ∀ c ∈ s.mantissaText, isExponentMark c = false := by
  have hdigit : ∀ d < 10, isExponentMark (charOf d) = false := by decide
  obtain ⟨hw, hf⟩ := Digits.Decimal.append.1 s.decimal
  intro c hc
  unfold Spelling.mantissaText at hc
  rcases List.mem_append.1 hc with h | h
  · obtain ⟨d, hd, rfl⟩ := List.mem_map.1 h
    exact hdigit d (hw d hd)
  · cases hp : s.point with
    | false => simp [hp] at h
    | true =>
      rw [hp, if_pos rfl] at h
      rcases List.mem_cons.1 h with rfl | h
      · rfl
      · obtain ⟨d, hd, rfl⟩ := List.mem_map.1 h
        exact hdigit d (hf d hd)

/-- What the parser does with a spelling. -/
theorem parse_text (s : Spelling) (width : Width) :
    parse s.text width = (checked 64 (s.cutWritten - s.fraction.length)).bind fun _ =>
      (assemble s.negative s.significant (s.clamped width) width).map .ok := by
  obtain ⟨c, rest, hc, hsign⟩ := exists_mantissaText s
  have hnone : s.mantissaText.findIdx? isExponentMark = none :=
    List.findIdx?_eq_none_iff.2 (noMark_mantissaText s)
  have htake : ∀ tail, takeSign (signText s.sign ++ (s.mantissaText ++ tail)) =
      (s.negative, s.mantissaText ++ tail) := by
    intro tail
    rw [hc, List.cons_append]
    exact takeSign_signText s.sign _ hsign
  have hthen : ∀ z : ℤ, (do
        let difference ← checked 64 z
        let r ← assemble s.negative s.significant
          (max (-limit width * 2) (min (limit width * 2) difference)) width
        pure (Except.ok r : Except ParseError (ℕ × Status))) =
      (checked 64 z).bind fun _ => (assemble s.negative s.significant
        (max (-limit width * 2) (min (limit width * 2) z)) width).map .ok := by
    intro z
    by_cases h : Fits 64 z
    · rw [checked_of_fits h]
      exact (Option.map_eq_bind).symm
    · rw [checked_of_not_fits h]
      rfl
  unfold parse Spelling.text
  rw [htake]
  cases he : s.exponent with
  | none =>
    have hcut : s.cutWritten = 0 := by
      unfold Spelling.cutWritten Spelling.written
      rw [he]
      decide
    simp only [List.append_nil, hnone, foldlM_mantissa, writtenExponent, Spelling.clamped, hcut]
    exact hthen _
  | some e =>
    -- The marker is the first one, and what is behind it is the exponent's text.
    have hmark : isExponentMark (if e.upper then 'E' else 'e') = true := by
      cases e.upper <;> rfl
    have hfind : (s.mantissaText ++ e.text).findIdx? isExponentMark =
        some s.mantissaText.length := by
      rw [List.findIdx?_append, hnone, Exponent.text, List.findIdx?_cons, hmark]
      simp
    have hleft : (s.mantissaText ++ e.text).take s.mantissaText.length = s.mantissaText := by
      rw [List.take_left]
    have hright : (s.mantissaText ++ e.text).drop (s.mantissaText.length + 1) =
        signText e.sign ++ e.digits.map charOf := by
      rw [← List.drop_drop, List.drop_left]
      rfl
    have hcut : s.cutWritten = max (-(2^40)) (min e.value (2^40)) := by
      unfold Spelling.cutWritten Spelling.written
      rw [he]
    simp only [hfind, hleft, hright, foldlM_mantissa, writtenExponent, exponent_text,
      Spelling.clamped, hcut]
    exact hthen _

/-- What is taken off a text is a sign. -/
theorem exists_signText (text : List Char) : ∃ sign, text = signText sign ++ (takeSign text).2 := by
  unfold takeSign
  split
  · exact ⟨some true, rfl⟩
  · exact ⟨some false, rfl⟩
  · exact ⟨none, rfl⟩

variable {s m : Mantissa}

/-- What the scan accepts behind a point is digits. -/
theorem exists_fraction (hp : s.point = true)
    (h : cs.foldlM mantissaStep s = .ok m) : ∃ ds, Digits.Decimal ds ∧ cs = ds.map charOf := by
  induction cs generalizing s with
  | nil => exact ⟨[], by simp [Digits.Decimal], rfl⟩
  | cons c cs ih =>
    rw [List.foldlM_cons] at h
    by_cases hc : c.isDigit = true
    · rw [mantissaStep, if_pos hc] at h
      obtain ⟨ds, hds, rfl⟩ := ih (s := _) (by exact hp) h
      obtain ⟨d, hd, rfl⟩ := exists_charOf hc
      exact ⟨d :: ds, by simpa [Digits.Decimal, hd] using hds, rfl⟩
    · rw [mantissaStep, if_neg hc, if_neg (by simp [hp])] at h
      cases h

/-- What the scan accepts is digits with a point among them or not. -/
theorem exists_mantissa (hp : s.point = false)
    (h : cs.foldlM mantissaStep s = .ok m) : ∃ ds point fs, Digits.Decimal ds ∧ Digits.Decimal fs ∧
      (point = false → fs = []) ∧
      cs = ds.map charOf ++ if point then '.' :: fs.map charOf else [] := by
  induction cs generalizing s with
  | nil => exact ⟨[], false, [], by simp [Digits.Decimal], by simp [Digits.Decimal], fun _ => rfl, rfl⟩
  | cons c cs ih =>
    rw [List.foldlM_cons] at h
    by_cases hc : c.isDigit = true
    · rw [mantissaStep, if_pos hc] at h
      obtain ⟨ds, point, fs, hds, hfs, hpt, rfl⟩ := ih (s := _) (by exact hp) h
      obtain ⟨d, hd, rfl⟩ := exists_charOf hc
      exact ⟨d :: ds, point, fs, by simpa [Digits.Decimal, hd] using hds, hfs, hpt, rfl⟩
    · rw [mantissaStep, if_neg hc] at h
      by_cases hdot : c = '.'
      · rw [if_pos ⟨hdot, by simp [hp]⟩] at h
        obtain ⟨fs, hfs, rfl⟩ := exists_fraction (s := _) rfl h
        refine ⟨[], true, fs, by simp [Digits.Decimal], hfs, by simp, ?_⟩
        rw [hdot]
        rfl
      · rw [if_neg (by simp [hdot])] at h
        cases h

/-- What an exponent's scan accepts is digits. -/
theorem exists_exponentDigits {v w : ℤ}
    (h : cs.foldlM exponentStep v = .ok w) : ∃ ds, Digits.Decimal ds ∧ cs = ds.map charOf := by
  induction cs generalizing v with
  | nil => exact ⟨[], by simp [Digits.Decimal], rfl⟩
  | cons c cs ih =>
    rw [List.foldlM_cons] at h
    by_cases hc : c.isDigit = true
    · rw [exponentStep, if_pos hc] at h
      obtain ⟨ds, hds, rfl⟩ := ih h
      obtain ⟨d, hd, rfl⟩ := exists_charOf hc
      exact ⟨d :: ds, by simpa [Digits.Decimal, hd] using hds, rfl⟩
    · rw [exponentStep, if_neg hc] at h
      cases h

/-- What is accepted as an exponent is a sign and digits. -/
theorem exists_exponent {text : List Char} {w : ℤ} (h : exponent text = .ok w) (upper : Bool) :
    ∃ e : Exponent, (if upper then 'E' else 'e') :: text = e.text := by
  obtain ⟨sign, hsign⟩ := exists_signText text
  unfold exponent at h
  dsimp only at h
  by_cases hne : (takeSign text).2 = []
  · rw [if_pos hne] at h
    cases h
  · rw [if_neg hne] at h
    cases hfold : (takeSign text).2.foldlM exponentStep 0 with
    | error e =>
      rw [hfold] at h
      cases h
    | ok v =>
      obtain ⟨ds, hds, htext⟩ := exists_exponentDigits hfold
      rw [htext] at hsign hne
      exact ⟨⟨upper, sign, ds, hds, by simpa using hne⟩, by rw [hsign]; rfl⟩

/-- Digits with a point among them or not make a spelling, when the scan saw a digit. -/
theorem exists_spelling_of_mantissa
    (h : cs.foldlM mantissaStep ⟨[], false, 0, false⟩ = .ok m) (hseen : m.seenDigit = true)
    (sign : Option Bool) (e : Option Exponent) : ∃ s : Spelling, s.sign = sign ∧ s.exponent = e ∧
      s.mantissaText = cs := by
  obtain ⟨ds, point, fs, hds, hfs, hpt, rfl⟩ := exists_mantissa rfl h
  have hne : ds ++ fs ≠ [] := by
    intro hnil
    obtain ⟨rfl, rfl⟩ := List.append_eq_nil_iff.1 hnil
    cases point with
    | false =>
      cases h
      exact absurd hseen (by decide)
    | true =>
      have hdot : mantissaStep ⟨[], false, 0, false⟩ '.' = .ok ⟨[], false, 0, true⟩ := rfl
      simp only [List.map_nil, List.nil_append, if_true, List.foldlM_cons, hdot] at h
      cases h
      exact absurd hseen (by decide)
  exact ⟨⟨sign, ds, point, fs, e, Digits.Decimal.append.2 ⟨hds, hfs⟩, hne, hpt⟩, rfl, rfl, rfl⟩

/-- A text that is not refused is a spelling. -/
theorem exists_spelling {text : List Char} {width : Width}
    (h : ∀ e, parse text width ≠ some (.error e)) : ∃ s : Spelling, s.text = text := by
  obtain ⟨sign, hsign⟩ := exists_signText text
  unfold parse at h
  dsimp only at h
  generalize (takeSign text).2 = rest at *
  generalize (takeSign text).1 = negative at *
  subst hsign
  cases hfind : rest.findIdx? isExponentMark with
  | none =>
    rw [hfind] at h
    dsimp only at h
    cases hfold : rest.foldlM mantissaStep ⟨[], false, 0, false⟩ with
    | error e =>
      rw [hfold] at h
      exact absurd rfl (h e)
    | ok m =>
      rw [hfold] at h
      cases hseen : m.seenDigit with
      | false =>
        simp [hseen] at h
      | true =>
        obtain ⟨s, rfl, he, rfl⟩ := exists_spelling_of_mantissa hfold hseen sign none
        refine ⟨s, ?_⟩
        rw [Spelling.text, he, List.append_nil]
  | some i =>
    rw [hfind] at h
    dsimp only at h
    -- The text is the digits, the marker and the exponent.
    obtain ⟨hi, hmark, -⟩ := List.findIdx?_eq_some_iff_getElem.1 hfind
    have hrest : rest = rest.take i ++ rest[i] :: rest.drop (i + 1) := by
      rw [List.getElem_cons_drop, List.take_append_drop]
    obtain ⟨upper, hupper⟩ : ∃ upper : Bool, rest[i] = if upper then 'E' else 'e' := by
      rcases of_decide_eq_true hmark with h' | h'
      · exact ⟨false, h'⟩
      · exact ⟨true, h'⟩
    rw [hupper] at hrest
    cases hfold : (rest.take i).foldlM mantissaStep ⟨[], false, 0, false⟩ with
    | error e =>
      rw [hfold] at h
      exact absurd rfl (h e)
    | ok m =>
      rw [hfold] at h
      cases hseen : m.seenDigit with
      | false =>
        simp [hseen] at h
      | true =>
        cases hexp : exponent (rest.drop (i + 1)) with
        | error e =>
          simp [hseen, writtenExponent, hexp] at h
        | ok w =>
          obtain ⟨e, he⟩ := exists_exponent hexp upper
          obtain ⟨s, rfl, hse, hst⟩ := exists_spelling_of_mantissa hfold hseen sign (some e)
          refine ⟨s, ?_⟩
          rw [Spelling.text, hse, hst]
          dsimp only
          rw [← he, ← hrest]

/-- The parser accepts exactly the spellings. -/
theorem accepts_iff (text : List Char) (width : Width) :
    (∀ e, parse text width ≠ some (.error e)) ↔ ∃ s : Spelling, s.text = text := by
  refine ⟨exists_spelling, ?_⟩
  rintro ⟨s, rfl⟩ e
  rw [parse_text]
  intro h
  obtain ⟨_, -, h⟩ := Option.bind_eq_some_iff.1 h
  obtain ⟨_, -, h⟩ := Option.map_eq_some_iff.1 h
  cases h

end Rucc.Base.Dfp
