import Rucc.Lex.Number

/-!
# The integer constants of the grammar

A constant is written as the grammar of C says: the digits of a base behind its mark, with a separator between two of
them where one is wanted, and a suffix whose parts come in either order and in either case. Reading one gives the number
its digits are, and what is left to find is its type.
-/

namespace Rucc.Lex

open Base (hexDigit toDigits_induction hexDigit_digitChar)

/-! ## The grammar -/

/-- The base of a constant, and for those that are marked with a letter whether it is a capital one. -/
inductive Radix where
  | decimal
  | octal
  | hexadecimal (capital : Bool)
  | binary (capital : Bool)
  deriving DecidableEq

namespace Radix

def base : Radix → ℕ
  | decimal => 10
  | octal => 8
  | hexadecimal _ => 16
  | binary _ => 2

/-- What is written before the digits. The zero of an octal constant is a digit of it. -/
def mark : Radix → List Char
  | decimal | octal => []
  | hexadecimal capital => ['0', if capital then 'X' else 'x']
  | binary capital => ['0', if capital then 'B' else 'b']

/-- The first digit tells a decimal constant from an octal one. -/
def Starts : Radix → Char → Prop
  | decimal, c => c ≠ '0'
  | octal, c => c = '0'
  | hexadecimal _, _ | binary _, _ => True

end Radix

/-- A suffix: its two parts, whether each is in capital letters, and which comes first. -/
structure Ending where
  unsigned : Option Bool
  length : Option (Length × Bool)
  unsignedFirst : Bool
  deriving DecidableEq

namespace Ending

def unsignedText (e : Ending) : List Char :=
  match e.unsigned with
  | none => []
  | some capital => if capital then ['U'] else ['u']

def lengthText (e : Ending) : List Char :=
  match e.length with
  | none => []
  | some (.long, capital) => if capital then ['L'] else ['l']
  | some (.longLong, capital) => if capital then ['L', 'L'] else ['l', 'l']
  | some (.bitInt, capital) => if capital then ['W', 'B'] else ['w', 'b']

def text (e : Ending) : List Char :=
  if e.unsignedFirst then e.unsignedText ++ e.lengthText else e.lengthText ++ e.unsignedText

/-- What the suffix asks for. -/
def suffix (e : Ending) : Suffix := ⟨e.unsigned.isSome, e.length.map Prod.fst, false⟩

end Ending

/-- A digit of a base. -/
def DigitOf (base : ℕ) (c : Char) : Prop := ∃ d < base, hexDigit c = some d

/-- The digits past the first one, each with whether there is a separator before it. -/
def digitsText (digits : List (Bool × Char)) : List Char :=
  digits.flatMap fun (separated, c) => if separated then ['\x27', c] else [c]

/-- One more digit behind a number. -/
def pushDigit (base n : ℕ) (c : Char) : ℕ := n * base + (hexDigit c).getD 0

/-- An integer constant of the grammar. -/
structure Spelling where
  radix : Radix
  first : Char
  rest : List (Bool × Char)
  ending : Ending
  starts : radix.Starts first
  first_digit : DigitOf radix.base first
  rest_digits : ∀ digit ∈ rest, DigitOf radix.base digit.2

namespace Spelling

def text (s : Spelling) : List Char := s.radix.mark ++ (s.first :: digitsText s.rest ++ s.ending.text)

/-- The number the digits are. -/
def value (s : Spelling) : ℕ :=
  (s.rest.map Prod.snd).foldl (pushDigit s.radix.base) (pushDigit s.radix.base 0 s.first)

/-- The base a constant is read in. A zero alone is read as a decimal one. -/
def readBase (s : Spelling) : ℕ := if s.radix = .octal ∧ s.rest = [] then 10 else s.radix.base

end Spelling

/-! ## Characters -/

variable {base d : ℕ} {c : Char} {std : Std}

theorem DigitOf.mono {base' : ℕ} (h : DigitOf base c) (hle : base ≤ base') : DigitOf base' c := by
  obtain ⟨d, hd, hdigit⟩ := h
  exact ⟨d, hd.trans_le hle, hdigit⟩

theorem DigitOf.ne (h : DigitOf base c) {other : Char} (hother : ∀ d, hexDigit other = some d → base ≤ d) :
    c ≠ other := by
  rintro rfl
  obtain ⟨d, hd, hdigit⟩ := h
  exact absurd (hother d hdigit) (not_le.2 hd)

/-- A digit below ten is one of those of the decimal numbers. -/
theorem DigitOf.isDigit (h : DigitOf 10 c) : c.isDigit = true := by
  obtain ⟨d, hd, hdigit⟩ := h
  unfold hexDigit at hdigit
  split_ifs at hdigit with h1 h2 h3
  · simpa [Char.isDigit, Char.le_def] using h1
  all_goals
    have hval := Option.some.inj hdigit
    omega

theorem digit_of (h : DigitOf base c) : ∃ d < base, digit c base = some d ∧ hexDigit c = some d := by
  obtain ⟨d, hd, hdigit⟩ := h
  refine ⟨d, hd, ?_, hdigit⟩
  rw [digit, hdigit, Option.filter_some, if_pos]
  split_ifs <;> simp <;> omega

/-! ## Reading the parts -/

theorem suffixOf_text (e : Ending) : suffixOf e.text = .ok e.suffix := by
  obtain ⟨_ | (_ | _), _ | ⟨_ | _ | _, _ | _⟩, _ | _⟩ := e <;> rfl

/-- A suffix has no letter that marks an exponent. -/
theorem Ending.plain (e : Ending) : ∀ c ∈ e.text, c ∉ ['.', 'p', 'P', 'e', 'E'] := by
  obtain ⟨_ | (_ | _), _ | ⟨_ | _ | _, _ | _⟩, _ | _⟩ := e <;>
    simp [Ending.text, Ending.unsignedText, Ending.lengthText]

/-- The suffix has no digits. -/
theorem readDigits_ending (e : Ending) (base : ℕ) (read : Read) :
    readDigits base std e.text read = .ok (read, e.text) := by
  obtain ⟨_ | (_ | _), _ | ⟨_ | _ | _, _ | _⟩, _ | _⟩ := e <;> rfl

theorem le_foldl_pushDigit (hbase : 1 ≤ base) (l : List Char) (n : ℕ) : n ≤ l.foldl (pushDigit base) n := by
  induction l generalizing n with
  | nil => exact le_rfl
  | cons c l ih =>
    refine le_trans ?_ (ih _)
    exact (Nat.le_mul_of_pos_right n hbase).trans (Nat.le_add_right _ _)

/-- One digit behind those before it. -/
theorem readDigits_digit (h : DigitOf base c) (rest : List Char) (read : Read) :
    readDigits base std (c :: rest) read =
      if pushDigit base read.value c < 2^128 then
        readDigits base std rest { read with value := pushDigit base read.value c, digits := read.digits + 1 }
      else .error .tooLarge := by
  obtain ⟨d, hd, hdigit, hhex⟩ := digit_of h
  have hquote : c ≠ '\x27' := h.ne fun d hd => by cases hd
  have hpush : pushDigit base read.value c = read.value * base + d := by rw [pushDigit, hhex]; rfl
  rw [readDigits, if_neg hquote, hdigit, hpush]

/-- The digits are read as the number they are, as long as there is room for it. -/
theorem readDigits_digitsText (hbase : 1 ≤ base) (digits : List (Bool × Char))
    (hdigits : ∀ digit ∈ digits, DigitOf base digit.2) (e : Ending) (read : Read) (hread : read.digits ≠ 0)
    (hlt : read.value < 2^128) :
    let n := (digits.map Prod.snd).foldl (pushDigit base) read.value
    (n < 2^128 → ∃ count remarks, count ≠ 0 ∧
        readDigits base std (digitsText digits ++ e.text) read = .ok (⟨n, count, remarks⟩, e.text)) ∧
      (2^128 ≤ n → readDigits base std (digitsText digits ++ e.text) read = .error .tooLarge) := by
  induction digits generalizing read with
  | nil => exact ⟨fun _ => ⟨read.digits, read.remarks, hread, readDigits_ending e base read⟩, fun hge => absurd hlt (not_lt.2 hge)⟩
  | cons one digits ih =>
    obtain ⟨separated, c⟩ := one
    have hc : DigitOf base c := hdigits _ List.mem_cons_self
    have hdigits := fun digit h => hdigits digit (List.mem_cons_of_mem _ h)
    -- past the separator the digit is read the same
    have hskip : ∃ remarks, readDigits base std (digitsText ((separated, c) :: digits) ++ e.text) read =
        readDigits base std (c :: (digitsText digits ++ e.text)) { read with remarks } := by
      cases separated with
      | false => exact ⟨read.remarks, rfl⟩
      | true =>
        obtain ⟨d, -, hdigit, -⟩ := digit_of hc
        refine ⟨if std < .C23 then read.remarks.with_ .SEPARATORS else read.remarks, ?_⟩
        show readDigits base std ('\x27' :: c :: (digitsText digits ++ e.text)) read = _
        rw [readDigits, if_pos rfl, if_neg]
        rw [List.head?_cons, Option.bind_some, hdigit]
        simpa using hread
    obtain ⟨remarks, hskip⟩ := hskip
    rw [hskip, readDigits_digit hc]
    dsimp only
    rw [List.map_cons, List.foldl_cons]
    by_cases hroom : pushDigit base read.value c < 2^128
    · rw [if_pos hroom]
      exact ih hdigits ⟨pushDigit base read.value c, read.digits + 1, remarks⟩ (Nat.succ_ne_zero _) hroom
    · rw [if_neg hroom]
      have hle := le_foldl_pushDigit hbase (digits.map Prod.snd) (pushDigit base read.value c)
      exact ⟨fun hlt => absurd (hle.trans_lt hlt) hroom, fun _ => rfl⟩

/-! ## Reading a constant -/

namespace Spelling

variable (s : Spelling)

theorem baseOf_text : baseOf s.text = (s.readBase, s.radix.mark.length) := by
  obtain ⟨radix, first, rest, ending, starts, hfirst, hrest⟩ := s
  cases radix with
  | decimal =>
    unfold baseOf
    split
    next heq => exact absurd (List.cons.inj heq).1 starts
    next => rfl
  | hexadecimal capital => cases capital <;> rfl
  | binary capital => cases capital <;> rfl
  | octal =>
    obtain rfl : first = '0' := starts
    cases rest with
    | nil => obtain ⟨_ | (_ | _), _ | ⟨_ | _ | _, _ | _⟩, _ | _⟩ := ending <;> rfl
    | cons one rest =>
      obtain ⟨separated, c⟩ := one
      have hc : DigitOf 8 c := hrest _ List.mem_cons_self
      have hisDigit := (hc.mono (by decide : 8 ≤ 10)).isDigit
      cases separated with
      | true => rfl
      | false =>
        show baseOf ('0' :: c :: (digitsText rest ++ ending.text)) = _
        have hx : ¬ (c = 'x' ∨ c = 'X') := by
          rintro (rfl | rfl) <;> cases hisDigit
        have hb : ¬ (c = 'b' ∨ c = 'B') := by
          rintro (rfl | rfl) <;> cases hisDigit
        rw [baseOf, if_neg hx, if_neg hb, if_pos (Or.inl hisDigit)]
        rfl

/-- What a character of a constant may be. -/
theorem mem_text (h : c ∈ s.text) : c ∈ s.radix.mark ∨ DigitOf s.radix.base c ∨ c = '\x27' ∨ c ∈ s.ending.text := by
  obtain h | h := List.mem_append.1 h
  · exact Or.inl h
  obtain h | h := List.mem_append.1 h
  · obtain rfl | h := List.mem_cons.1 h
    · exact Or.inr (Or.inl s.first_digit)
    · obtain ⟨⟨separated, digit⟩, hin, hc⟩ := List.mem_flatMap.1 h
      have hdigit := s.rest_digits _ hin
      cases separated with
      | false =>
        obtain rfl := List.mem_singleton.1 hc
        exact Or.inr (Or.inl hdigit)
      | true =>
        obtain rfl | hc := List.mem_cons.1 hc
        · exact Or.inr (Or.inr (Or.inl rfl))
        · obtain rfl := List.mem_singleton.1 hc
          exact Or.inr (Or.inl hdigit)
  · exact Or.inr (Or.inr (Or.inr h))

/-- No digit, no mark and no letter of a suffix makes a constant a floating one. -/
theorem isFloating_text : isFloating s.text s.readBase = false := by
  have hbase : s.readBase = 16 ↔ s.radix.base = 16 := by
    unfold readBase
    split_ifs with h
    · rw [h.1]
      decide
    · rfl
  rw [isFloating, List.any_eq_false]
  intro c hc
  simp only [hbase, decide_eq_true_eq]
  obtain hmark | hdigit | rfl | hending := s.mem_text hc
  · cases hradix : s.radix with
    | decimal | octal =>
      rw [hradix] at hmark
      cases hmark
    | hexadecimal capital | binary capital =>
      rw [hradix] at hmark
      obtain rfl | rfl := (List.mem_pair.1 hmark)
      · split_ifs <;> decide
      · cases capital <;> split_ifs <;> decide
  · have hpoint : c ≠ '.' := hdigit.ne fun d hd => by cases hd
    refine fun h => h.elim hpoint ?_
    split_ifs with h16
    · -- an exponent mark of base sixteen is no digit at all
      have hp : c ≠ 'p' := hdigit.ne fun d hd => by cases hd
      have hP : c ≠ 'P' := hdigit.ne fun d hd => by cases hd
      simp [hp, hP]
    · have hle : s.radix.base ≤ 14 := by
        cases hradix : s.radix <;> simp_all [Radix.base]
      have he : c ≠ 'e' := hdigit.ne fun d hd => by cases hd; exact hle
      have hE : c ≠ 'E' := hdigit.ne fun d hd => by cases hd; exact hle
      simp [he, hE]
  · split_ifs <;> decide
  · have hplain := s.ending.plain c hending
    simp only [List.mem_cons, List.not_mem_nil, or_false, not_or] at hplain
    split_ifs <;> simp [hplain]

/-- Only a zero alone is read in another base, where it has the same value. -/
theorem readBase_cases : s.readBase = s.radix.base ∨ s.rest = [] ∧ s.radix.base ≤ s.readBase := by
  unfold readBase
  split_ifs with h
  · refine Or.inr ⟨h.2, ?_⟩
    rw [h.1]
    decide
  · exact Or.inl rfl

theorem first_readBase : DigitOf s.readBase s.first :=
  s.first_digit.mono (s.readBase_cases.elim (fun h => h.ge) fun h => h.2)

theorem rest_readBase : ∀ digit ∈ s.rest, DigitOf s.readBase digit.2 := by
  obtain h | ⟨h, -⟩ := s.readBase_cases
  · rw [h]
    exact s.rest_digits
  · rw [h]
    exact fun digit hin => by cases hin

theorem value_readBase :
    s.value = (s.rest.map Prod.snd).foldl (pushDigit s.readBase) (pushDigit s.readBase 0 s.first) := by
  obtain h | ⟨h, -⟩ := s.readBase_cases
  · rw [h]
    rfl
  · rw [value, h]
    simp [pushDigit]

theorem readBase_le : 1 ≤ s.readBase ∧ s.readBase ≤ 16 := by
  unfold readBase
  split_ifs
  · decide
  · cases s.radix <;> simp [Radix.base]

/-- An octal constant has neither of the digits that are none of it. -/
theorem any_octal (h : s.readBase = 8) :
    (s.first :: digitsText s.rest).any (fun byte => byte = '8' ∨ byte = '9') = false := by
  rw [List.any_eq_false]
  intro c hc
  have hdigit : DigitOf 8 c ∨ c = '\x27' := by
    obtain rfl | hc := List.mem_cons.1 hc
    · exact Or.inl (h ▸ s.first_readBase)
    · obtain ⟨⟨separated, digit⟩, hin, hc⟩ := List.mem_flatMap.1 hc
      have hdigit : DigitOf 8 digit := h ▸ s.rest_readBase _ hin
      cases separated with
      | false => exact Or.inl (List.mem_singleton.1 hc ▸ hdigit)
      | true =>
        obtain rfl | hc := List.mem_cons.1 hc
        · exact Or.inr rfl
        · exact Or.inl (List.mem_singleton.1 hc ▸ hdigit)
  obtain hdigit | rfl := hdigit
  · have h8 : c ≠ '8' := hdigit.ne fun d hd => by cases hd; rfl
    have h9 : c ≠ '9' := hdigit.ne fun d hd => by cases hd; decide
    simp [h8, h9]
  · decide

/-- A constant is read as the number its digits are and the type there is for it, unless it is too large for what
numbers are held in. -/
theorem integer_text (std : Std) (target : TargetInfo) :
    (s.value < 2^128 → ∃ remarks, integer s.text std target =
        constant s.readBase std target s.value s.ending.suffix remarks) ∧
      (2^128 ≤ s.value → integer s.text std target = .error .tooLarge) := by
  have hdrop : s.text.drop s.radix.mark.length = s.first :: (digitsText s.rest ++ s.ending.text) := List.drop_left
  obtain ⟨hle, hle16⟩ := s.readBase_le
  have hfirst : pushDigit s.readBase 0 s.first < 2^128 := by
    obtain ⟨d, hd, hdigit⟩ := s.first_readBase
    rw [pushDigit, hdigit, Option.getD_some]
    omega
  unfold integer
  rw [s.baseOf_text]
  dsimp only
  rw [s.isFloating_text, hdrop, if_neg Bool.false_ne_true]
  generalize (if s.readBase = 2 ∧ std < .C23 then Remarks.NONE.with_ .BINARY else .NONE) = remarks
  rw [readDigits_digit s.first_readBase, if_pos hfirst, value_readBase]
  obtain ⟨hfits, hlarge⟩ := @readDigits_digitsText s.readBase std hle s.rest s.rest_readBase s.ending
    ⟨pushDigit s.readBase 0 s.first, 0 + 1, remarks⟩ (Nat.succ_ne_zero _) hfirst
  refine ⟨fun hlt => ?_, fun hge => ?_⟩
  · obtain ⟨count, remarks', hcount, hread⟩ := hfits hlt
    refine ⟨remarks', ?_⟩
    rw [hread]
    show (if count = 0 then _ else _) = _
    have htake : (s.first :: (digitsText s.rest ++ s.ending.text)).take
        ((s.first :: (digitsText s.rest ++ s.ending.text)).length - s.ending.text.length) =
          s.first :: digitsText s.rest := by
      rw [← List.cons_append, List.length_append, Nat.add_sub_cancel, List.take_left]
    rw [if_neg hcount, htake, if_neg, suffixOf_text]
    · rfl
    · rintro ⟨hoctal, hany⟩
      rw [s.any_octal hoctal] at hany
      cases hany
  · rw [hlarge hge]
    rfl

/-! ## Putting a number back -/

/-- The decimal digits of a number start with a zero only where it is the number. -/
theorem toDigits_ten (n : ℕ) : ∃ first rest, Nat.toDigits 10 n = first :: rest ∧
    (∀ c ∈ first :: rest, DigitOf 10 c) ∧ rest.foldl (pushDigit 10) (pushDigit 10 0 first) = n ∧
      (first = '0' ↔ n = 0) ∧ (n = 0 → rest = []) := by
  have hpush {m d : ℕ} (hd : d < 10) : pushDigit 10 m d.digitChar = 10 * m + d := by
    rw [pushDigit, hexDigit_digitChar (by omega), Option.getD_some, Nat.mul_comm]
  have hdigit {d : ℕ} (hd : d < 10) : DigitOf 10 d.digitChar := ⟨d, hd, hexDigit_digitChar (by omega)⟩
  refine toDigits_induction (by norm_num)
    (motive := fun n text => ∃ first rest, text = first :: rest ∧ (∀ c ∈ first :: rest, DigitOf 10 c) ∧
      rest.foldl (pushDigit 10) (pushDigit 10 0 first) = n ∧ (first = '0' ↔ n = 0) ∧ (n = 0 → rest = [])) ?_ ?_ n
  · intro d hd
    refine ⟨d.digitChar, [], rfl, fun c hc => List.mem_singleton.1 hc ▸ hdigit hd, ?_, ?_, fun _ => rfl⟩
    · rw [List.foldl_nil, hpush hd, Nat.mul_zero, Nat.zero_add]
    · interval_cases d <;> decide
  · rintro m d hm hd ⟨first, rest, htext, hdigits, hvalue, hzero, -⟩
    refine ⟨first, rest ++ [d.digitChar], by rw [htext, List.cons_append], fun c hc => ?_, ?_, ?_, fun h => by omega⟩
    · rw [← List.cons_append] at hc
      obtain hc | hc := List.mem_append.1 hc
      · exact hdigits c hc
      · exact List.mem_singleton.1 hc ▸ hdigit hd
    · rw [List.foldl_append, hvalue, List.foldl_cons, List.foldl_nil, hpush hd]
    · exact ⟨fun h => absurd (hzero.1 h) hm.ne', fun h => by omega⟩

/-- The decimal digits of a number and a suffix are a constant of that number. -/
theorem exists_toDigits (n : ℕ) (e : Ending) :
    ∃ s : Spelling, s.text = Nat.toDigits 10 n ++ e.text ∧ s.value = n ∧ s.readBase = 10 ∧ s.ending = e := by
  obtain ⟨first, rest, htext, hdigits, hvalue, hzero, hrest⟩ := toDigits_ten n
  have hplain : digitsText (rest.map (Prod.mk false)) = rest := by
    simp [digitsText, List.flatMap_map]
  have hsnd : (rest.map (Prod.mk false)).map Prod.snd = rest := by
    rw [List.map_map]
    exact List.map_id _
  have hrest' : ∀ digit ∈ rest.map (Prod.mk false), DigitOf 10 digit.2 := by
    intro digit hin
    obtain ⟨c, hc, rfl⟩ := List.mem_map.1 hin
    exact hdigits c (List.mem_cons_of_mem _ hc)
  by_cases hn : n = 0
  · -- a zero is an octal constant
    obtain rfl := hzero.2 hn
    obtain rfl := hrest hn
    refine ⟨⟨.octal, '0', [], e, rfl, ⟨0, by decide, rfl⟩, fun _ h => by cases h⟩, ?_, ?_, rfl, rfl⟩
    · rw [htext]
      rfl
    · rw [hn]
      rfl
  · refine ⟨⟨.decimal, first, rest.map (Prod.mk false), e, fun h => hn (hzero.1 h), hdigits _ List.mem_cons_self, hrest'⟩,
      ?_, ?_, rfl, rfl⟩
    · show first :: digitsText (rest.map (Prod.mk false)) ++ e.text = _
      rw [hplain, htext]
    · show ((rest.map (Prod.mk false)).map Prod.snd).foldl _ _ = n
      rw [hsnd]
      exact hvalue

end Spelling

end Rucc.Lex
