import Rucc.Base.Decimal
import Rucc.Base.DfpParse

/-!
# The text of a software float

`parse` and `to_hex` of `float.rs`, on the characters of a constant. A hexadecimal constant is exact
until the one rounding at its end, and `parse_toHex` says that the spelling a number is given is read
back as that number, with nothing rounded.

A decimal constant is scaled by powers of two until it is between one and two. How often that takes is
the fuel of `parse`, which is `none` when it runs out and where an `i32` would overflow. Everything
here is about the answers it gives, whatever the fuel.
-/

namespace Rucc.Base

open Checked
open Dfp (takeSign digitOf isExponentMark)

variable {c : Char} {d s n : ℕ} {text : List Char} {rest : Option (List Char)} {z : ℤ} {x : Float}

/-! ## Writing -/

namespace Float

/-- The significand with its trailing zero digits taken off, and the exponent that makes up for them.
A word has no more than the thirty-two digits there is fuel for. -/
def stripZeros : ℕ → ℕ → ℤ → ℕ × ℤ
  | 0, significand, exponent => (significand, exponent)
  | fuel + 1, significand, exponent =>
    if significand &&& 0xf = 0 then stripZeros fuel (significand >>> 4) (exponent + 4)
    else (significand, exponent)

/-- An integer with its sign, which a positive one has too. -/
def signedText (z : ℤ) : List Char := (if z < 0 then '-' else '+') :: Nat.toDigits 10 z.natAbs

/-- A hexadecimal spelling of the number. -/
def toHex (x : Float) : List Char :=
  let sign := if x.sign then ['-'] else []
  match x.category with
  | .nan => sign ++ ['n', 'a', 'n']
  | .infinite => sign ++ '0' :: 'x' :: '1' :: 'p' :: signedText (x.format.maxExponent + 1)
  | .zero => sign ++ ['0', 'x', '0', 'p', '+', '0']
  | .finite =>
    let (significand, exponent) :=
      stripZeros 32 x.significand (x.exponent - (x.format.precision - 1))
    sign ++ '0' :: 'x' :: (Nat.toDigits 16 significand ++ 'p' :: signedText exponent)

end Float

/-! ## Reading an exponent -/

/-- One character of an exponent. One far past the range of every format is the same as one at the edge
of it, so it saturates. -/
def exponentStep (value : ℤ) (c : Char) : Except ParseError ℤ :=
  if c = '\x27' then .ok value
  else if c.isDigit then .ok (saturated 32 (saturated 32 (value * 10) + digitOf c))
  else .error .invalid

/-- Reads the digits of an exponent, which may be signed. -/
def exponentOf (text : List Char) : Except ParseError ℤ :=
  let (negative, digits) := takeSign text
  if digits = [] then .error .noExponentDigits
  else do
    let value ← digits.foldlM exponentStep 0
    return if negative then -value else value

/-- A power with the exponent that was written added to it, where one was. -/
def scaledBy (power : ℤ) : Option (List Char) → Except ParseError ℤ
  | none => .ok power
  | some text => do return saturated 32 (power + (← exponentOf text))

/-! ## Reading a hexadecimal constant -/

/-- The digit a character is in base sixteen. -/
def hexDigit (c : Char) : Option ℕ :=
  if '0' ≤ c ∧ c ≤ '9' then some (c.toNat - '0'.toNat)
  else if 'a' ≤ c ∧ c ≤ 'f' then some (c.toNat - 'a'.toNat + 10)
  else if 'A' ≤ c ∧ c ≤ 'F' then some (c.toNat - 'A'.toNat + 10)
  else none

/-- The state of the scan of hexadecimal digits. -/
structure HexScan where
  significand : ℕ
  exponent : ℤ
  sticky : Bool
  seenPoint : Bool
  seenDigit : Bool
  deriving DecidableEq, Repr

/-- One more digit. Past a hundred and twenty-eight bits the digits cannot change the value, only whether
it is exactly halfway. -/
def HexScan.push (s : HexScan) (digit : ℕ) : Option HexScan :=
  if 4 ≤ leadingZeros s.significand then
    (if s.seenPoint then checked 32 (s.exponent - 4) else some s.exponent).map fun exponent =>
      { s with significand := (s.significand <<< 4) ||| digit, exponent, seenDigit := true }
  else
    (if s.seenPoint then some s.exponent else checked 32 (s.exponent + 4)).map fun exponent =>
      { s with sticky := s.sticky || digit ≠ 0, exponent, seenDigit := true }

/-- Scans the digits up to the exponent, and leaves the text behind its marker. -/
def hexadecimalScan : List Char → HexScan → Option (Except ParseError (HexScan × Option (List Char)))
  | [], s => some (.ok (s, none))
  | c :: rest, s =>
    match hexDigit c with
    | some digit => (s.push digit).bind fun s => hexadecimalScan rest s
    | none =>
      if c = '\x27' then hexadecimalScan rest s
      else if c = '.' ∧ !s.seenPoint then hexadecimalScan rest { s with seenPoint := true }
      else if c = 'p' ∨ c = 'P' then some (.ok (s, some rest))
      else some (.error .invalid)

/-- Converts a hexadecimal spelling, which is exact until the one rounding at the end. -/
def hexadecimal (text : List Char) (sign : Bool) (format : Format) :
    Option (Except ParseError (Float × Status)) :=
  match hexadecimalScan text ⟨0, 0, false, false, false⟩ with
  | none => none
  | some (.error e) => some (.error e)
  | some (.ok (s, exponentText)) =>
    if !s.seenDigit then some (.error .noDigits)
    else
      match scaledBy s.exponent exponentText with
      | .error e => some (.error e)
      | .ok exponent => (round s.significand exponent s.sticky sign format).map .ok

/-! ## Reading a decimal constant -/

namespace Format

/-- A decimal exponent above which every number is too large for the format. -/
def maxDecimalExponent (f : Format) : ℤ := ((f.maxExponent + 1) * 30103).tdiv 100000 + 2

/-- A decimal exponent below which every number rounds to zero. -/
def minDecimalExponent (f : Format) : ℤ := ((f.minExponent - f.precision) * 30103).tdiv 100000 - 2

end Format

/-- The state of the scan of decimal digits. -/
structure DecimalScan where
  digits : List ℕ
  integerDigits : ℤ
  seenPoint : Bool
  seenDigit : Bool
  deriving DecidableEq, Repr

/-- Scans the digits up to the exponent, and leaves the text behind its marker. -/
def decimalScan :
    List Char → DecimalScan → Option (Except ParseError (DecimalScan × Option (List Char)))
  | [], s => some (.ok (s, none))
  | c :: rest, s =>
    if c.isDigit then
      (if s.seenPoint then some s.integerDigits else checked 32 (s.integerDigits + 1)).bind
        fun integerDigits => decimalScan rest
          { s with digits := s.digits ++ [digitOf c], integerDigits, seenDigit := true }
    else if c = '\x27' then decimalScan rest s
    else if c = '.' ∧ !s.seenPoint then decimalScan rest { s with seenPoint := true }
    else if isExponentMark c then some (.ok (s, some rest))
    else some (.error .invalid)

/-- Roughly how many binary digits a decimal one of this many digits has, never overestimating. -/
def binaryDigits (decimal : ℤ) : Option ℤ := (checked 32 (decimal * 33219)).map fun n => n.tdiv 10000

/-- The shift of one step of the scaling, from the distance left. -/
def scaleStep (distance : ℤ) : ℤ := max 1 (min 60 distance)

/-- Scales a number until it is between one and two, counting the powers of two taken out of it. -/
def scaleDown : ℕ → Decimal → ℤ → Option (Decimal × ℤ)
  | 0, _, _ => none
  | fuel + 1, value, exponent =>
    let point := value.point
    if 1 < point ∨ point = 1 ∧ 2 ≤ value.firstDigit then do
      let step := scaleStep (← binaryDigits (point - 1))
      let value ← value.shift (-step)
      scaleDown fuel value (← checked 32 (exponent + step))
    else if point < 1 then do
      let step := scaleStep (1 + (← binaryDigits (-point)))
      let value ← value.shift step
      scaleDown fuel value (← checked 32 (exponent - step))
    else some (value, exponent)

/-- The integer nearest a value, from the integer below it and what is left. -/
def nearest (integer : ℕ) : Fraction → ℕ
  | .zero => integer
  | .belowHalf => integer
  | .half => integer + (integer &&& 1)
  | .aboveHalf => integer + 1

/-- Scales an exact decimal down to the format's significand and rounds it. -/
def convert (fuel : ℕ) (value : Decimal) (sign : Bool) (format : Format) :
    Option (Float × Status) :=
  if value.isZero then some (Float.zero format sign, .NONE)
  else if format.maxDecimalExponent < value.point then
    some (Float.infinity format sign, Status.OVERFLOW.with_ .INEXACT)
  else if value.point < format.minDecimalExponent then
    some (Float.zero format sign, Status.UNDERFLOW.with_ .INEXACT)
  else do
    let (value, exponent) ← scaleDown fuel value 0
    let precision : ℤ := format.precision
    -- Clamped so that a number below the smallest normal loses precision instead of exponent.
    let scale := max (← checked 32 ((← checked 32 (exponent - precision)) + 1))
      (format.minExponent - precision + 1)
    let value ← value.shift (← checked 32 (exponent - scale))
    let (integer, fraction) := value.roundToU128
    finish (nearest integer fraction) scale (fraction ≠ .zero) sign format

/-- Converts a decimal spelling. -/
def decimal (fuel : ℕ) (text : List Char) (sign : Bool) (format : Format) :
    Option (Except ParseError (Float × Status)) :=
  match decimalScan text ⟨[], 0, false, false⟩ with
  | none => none
  | some (.error e) => some (.error e)
  | some (.ok (s, exponentText)) =>
    if !s.seenDigit then some (.error .noDigits)
    else
      match scaledBy s.integerDigits exponentText with
      | .error e => some (.error e)
      | .ok point => do
        let value ← Decimal.new s.digits point
        let answer ← convert fuel value sign format
        return .ok answer

/-- Converts a decimal or hexadecimal spelling into the nearest number in `format`. -/
def parse (fuel : ℕ) (text : List Char) (format : Format) :
    Option (Except ParseError (Float × Status)) :=
  let (sign, rest) := takeSign text
  match rest with
  | '0' :: mark :: digits =>
    if mark = 'x' ∨ mark = 'X' then hexadecimal digits sign format
    else decimal fuel rest sign format
  | _ => decimal fuel rest sign format

/-! ## What the scans read -/

/-- The digits of base sixteen are below it. -/
theorem hexDigit_lt (h : hexDigit c = some d) : d < 16 := by
  unfold hexDigit at h
  split_ifs at h with h1 h2 h3
  all_goals
    obtain rfl := Option.some.inj h
    simp only [Char.le_def, UInt32.le_iff_toNat_le] at *
    simp only [Char.toNat]
  · have := h1.2
    change c.val.toNat ≤ 57 at this
    show c.val.toNat - 48 < 16
    omega
  · have := h2.2
    change c.val.toNat ≤ 102 at this
    show c.val.toNat - 97 + 10 < 16
    omega
  · have := h3.2
    change c.val.toNat ≤ 70 at this
    show c.val.toNat - 65 + 10 < 16
    omega

/-- One more digit leaves the significand a word. -/
theorem HexScan.push_lt {s t : HexScan} (hs : s.significand < 2^128) (hd : d < 16)
    (h : s.push d = some t) : t.significand < 2^128 := by
  unfold HexScan.push at h
  by_cases hroom : 4 ≤ leadingZeros s.significand
  · rw [if_pos hroom] at h
    obtain ⟨exponent, -, rfl⟩ := Option.map_eq_some_iff.mp h
    have hsize : s.significand < 2^124 := by
      refine Nat.size_le.1 ?_
      unfold leadingZeros at hroom
      omega
    refine Nat.or_lt_two_pow ?_ (by omega)
    rw [Nat.shiftLeft_eq]
    omega
  · rw [if_neg hroom] at h
    obtain ⟨exponent, -, rfl⟩ := Option.map_eq_some_iff.mp h
    exact hs

/-- The scan of hexadecimal digits leaves the significand a word. -/
theorem hexadecimalScan_lt {s t : HexScan}
    (hs : s.significand < 2^128) (h : hexadecimalScan text s = some (.ok (t, rest))) :
    t.significand < 2^128 := by
  induction text generalizing s with
  | nil =>
    obtain ⟨rfl, -⟩ := Prod.mk.inj (Except.ok.inj (Option.some.inj h))
    exact hs
  | cons c text ih =>
    unfold hexadecimalScan at h
    cases hdigit : hexDigit c with
    | some d =>
      rw [hdigit] at h
      obtain ⟨next, hnext, h⟩ := Option.bind_eq_some_iff.mp h
      exact ih (HexScan.push_lt hs (hexDigit_lt hdigit) hnext) h
    | none =>
      rw [hdigit] at h
      dsimp only at h
      split_ifs at h
      · exact ih hs h
      · exact ih (s := { s with seenPoint := true }) hs h
      · obtain ⟨rfl, -⟩ := Prod.mk.inj (Except.ok.inj (Option.some.inj h))
        exact hs
      · cases Option.some.inj h

/-- A character that is a decimal digit is one below ten. -/
theorem digitOf_lt (h : c.isDigit = true) : digitOf c < 10 := by
  obtain ⟨d, hd, rfl⟩ := Dfp.exists_charOf h
  rwa [Dfp.digitOf_charOf hd]

/-- The scan of decimal digits reads digits. -/
theorem decimalScan_decimal {s t : DecimalScan}
    (hs : Digits.Decimal s.digits) (h : decimalScan text s = some (.ok (t, rest))) :
    Digits.Decimal t.digits := by
  induction text generalizing s with
  | nil =>
    obtain ⟨rfl, -⟩ := Prod.mk.inj (Except.ok.inj (Option.some.inj h))
    exact hs
  | cons c text ih =>
    unfold decimalScan at h
    by_cases hdigit : c.isDigit = true
    · rw [if_pos hdigit] at h
      obtain ⟨count, -, h⟩ := Option.bind_eq_some_iff.mp h
      refine ih ?_ h
      exact Digits.Decimal.append.2 ⟨hs, by simpa [Digits.Decimal] using digitOf_lt hdigit⟩
    · rw [if_neg hdigit] at h
      split_ifs at h
      · exact ih hs h
      · exact ih (s := { s with seenPoint := true }) hs h
      · obtain ⟨rfl, -⟩ := Prod.mk.inj (Except.ok.inj (Option.some.inj h))
        exact hs
      · cases Option.some.inj h

/-- The scaling ends between one and two, where the point is behind a first digit below two. -/
theorem scaleDown_spec {fuel : ℕ} {d t : Decimal} {e e' : ℤ} (hd : d.Trimmed)
    (h : scaleDown fuel d e = some (t, e')) : t.Trimmed ∧ t.value < 2 := by
  induction fuel generalizing d e with
  | zero => cases h
  | succ fuel ih =>
    unfold scaleDown at h
    dsimp only at h
    split_ifs at h with hbig hsmall
    · obtain ⟨digits, -, h⟩ := Option.bind_eq_some_iff.mp h
      obtain ⟨shifted, hshift, h⟩ := Option.bind_eq_some_iff.mp h
      obtain ⟨exponent, -, h⟩ := Option.bind_eq_some_iff.mp h
      exact ih (Decimal.shift_spec hd hshift).1 h
    · obtain ⟨digits, -, h⟩ := Option.bind_eq_some_iff.mp h
      obtain ⟨shifted, hshift, h⟩ := Option.bind_eq_some_iff.mp h
      obtain ⟨exponent, -, h⟩ := Option.bind_eq_some_iff.mp h
      exact ih (Decimal.shift_spec hd hshift).1 h
    · obtain ⟨rfl, -⟩ := Prod.mk.inj (Option.some.inj h)
      rw [not_or, not_and] at hbig
      have hpoint : d.point = 1 := by omega
      exact ⟨hd, Decimal.value_lt_two hd hpoint (not_le.1 (hbig.2 hpoint))⟩

/-- Rounding goes up by one at most. -/
theorem nearest_le (n : ℕ) (fraction : Fraction) : nearest n fraction ≤ n + 1 := by
  cases fraction
  · exact Nat.le_succ n
  · exact Nat.le_succ n
  · exact Nat.add_le_add_left Nat.and_le_right n
  · exact le_rfl

/-! ## Numbers read back -/

/-- The digits of a number are one digit, or those of a number before it, which is not zero, and one more. -/
theorem toDigits_induction {base : ℕ} (hbase : 1 < base) {motive : ℕ → List Char → Prop}
    (digit : ∀ d < base, motive d [d.digitChar])
    (more : ∀ n d, 0 < n → d < base → motive n (Nat.toDigits base n) →
      motive (base * n + d) (Nat.toDigits base n ++ [d.digitChar])) (n : ℕ) :
    motive n (Nat.toDigits base n) := by
  induction n using Nat.strong_induction_on with
  | _ n ih =>
    rcases lt_or_ge n base with hlt | hge
    · rw [Nat.toDigits_of_lt_base hlt]
      exact digit n hlt
    · have hdiv : n / base < n := Nat.div_lt_self (by omega) hbase
      have hpos : 0 < n / base := Nat.div_pos hge (by omega)
      have := more (n / base) (n % base) hpos (Nat.mod_lt _ (by omega)) (ih _ hdiv)
      rwa [Nat.div_add_mod, ← Nat.toDigits_of_base_le hbase hge] at this

/-- A decimal digit is read as itself, and is no separator. -/
theorem digitChar_decimal (hd : d < 10) :
    d.digitChar ≠ '\x27' ∧ d.digitChar.isDigit = true ∧ digitOf d.digitChar = d := by
  interval_cases d <;> decide

/-- One digit of an exponent that stays in range. -/
theorem exponentStep_digit (hd : d < 10) (hlt : 10 * n + d < 2^31) :
    exponentStep n d.digitChar = .ok ((10 * n + d : ℕ) : ℤ) := by
  obtain ⟨hquote, hdigit, hval⟩ := digitChar_decimal hd
  have hsat : saturated 32 (saturated 32 ((n : ℤ) * 10) + d) = ((10 * n + d : ℕ) : ℤ) := by
    unfold saturated
    omega
  rw [exponentStep, if_neg hquote, if_pos hdigit, hval, hsat]

/-- The digits of an exponent are read back. -/
theorem foldlM_exponentStep (n : ℕ) (hn : n < 2^31) : (Nat.toDigits 10 n).foldlM exponentStep 0 = .ok (n : ℤ) := by
  revert hn
  refine toDigits_induction (by norm_num)
    (motive := fun n text => n < 2^31 → text.foldlM exponentStep 0 = .ok (n : ℤ)) ?_ ?_ n
  · intro d hd hlt
    have hstep := exponentStep_digit (n := 0) hd (by omega)
    rw [Nat.mul_zero, Nat.zero_add] at hstep
    exact congrArg (· >>= pure) hstep
  · intro m d _ hd ih hlt
    rw [List.foldlM_append, ih (by omega)]
    exact congrArg (· >>= pure) (exponentStep_digit hd hlt)

/-- A signed exponent is read back. -/
theorem exponentOf_signedText (hz : |z| < 2^31) : exponentOf (Float.signedText z) = .ok z := by
  rw [abs_lt] at hz
  have hread := foldlM_exponentStep z.natAbs (by omega)
  have hne : Nat.toDigits 10 z.natAbs ≠ [] := Nat.toDigits_ne_nil
  rcases lt_or_ge z 0 with hneg | hpos
  · have htext : Float.signedText z = '-' :: Nat.toDigits 10 z.natAbs := by
      rw [Float.signedText, if_pos hneg]
    have hval : -((z.natAbs : ℕ) : ℤ) = z := by omega
    rw [htext, exponentOf]
    simp only [takeSign, if_neg hne, hread]
    exact congrArg Except.ok hval
  · have htext : Float.signedText z = '+' :: Nat.toDigits 10 z.natAbs := by
      rw [Float.signedText, if_neg hpos.not_gt]
    have hval : ((z.natAbs : ℕ) : ℤ) = z := by omega
    rw [htext, exponentOf]
    simp only [takeSign, if_neg hne, hread]
    exact congrArg Except.ok hval

/-- A digit in base sixteen is read as itself. -/
theorem hexDigit_digitChar (hd : d < 16) : hexDigit d.digitChar = some d := by
  interval_cases d <;> decide

/-- The state of the scan after the digits of an integer, with no point among them. -/
def HexScan.read (n : ℕ) : HexScan := ⟨n, 0, false, false, true⟩

/-- One digit behind the first ones, while there is room for it. -/
theorem HexScan.push_digit {seen : Bool} (hd : d < 16) (hn : n < 2^124) :
    HexScan.push ⟨n, 0, false, false, seen⟩ d = some (HexScan.read (16 * n + d)) := by
  have hroom : 4 ≤ leadingZeros n := by
    have := Nat.size_le.2 hn
    unfold leadingZeros
    omega
  have hor : (n <<< 4) ||| d = 16 * n + d := by
    rw [← Nat.shiftLeft_add_eq_or_of_lt (by omega), Nat.shiftLeft_eq]
    omega
  simp only [HexScan.push, if_pos hroom, Bool.false_eq_true, if_false, Option.map_some, hor,
    HexScan.read]

/-- The digits of a word are read back, whatever follows them. -/
theorem hexadecimalScan_toDigits (n : ℕ) (hn : n < 2^128) (rest : List Char) :
    hexadecimalScan (Nat.toDigits 16 n ++ rest) ⟨0, 0, false, false, false⟩ =
      hexadecimalScan rest (HexScan.read n) := by
  revert hn rest
  refine toDigits_induction (by norm_num)
    (motive := fun n text => n < 2^128 → ∀ rest,
      hexadecimalScan (text ++ rest) ⟨0, 0, false, false, false⟩ =
        hexadecimalScan rest (HexScan.read n)) ?_ ?_ n
  · intro d hd _ rest
    have hpush : HexScan.push ⟨0, 0, false, false, false⟩ d = some (HexScan.read (16 * 0 + d)) :=
      HexScan.push_digit hd (by norm_num)
    rw [Nat.mul_zero, Nat.zero_add] at hpush
    rw [List.singleton_append, hexadecimalScan, hexDigit_digitChar hd]
    dsimp only
    rw [hpush]
    rfl
  · intro m d _ hd ih hlt rest
    rw [List.append_assoc, ih (by omega), List.singleton_append, hexadecimalScan,
      hexDigit_digitChar hd]
    dsimp only
    rw [HexScan.read, HexScan.push_digit hd (by omega)]
    rfl

namespace Float

/-- What is taken off a significand is made up for by the exponent. -/
theorem stripZeros_spec (fuel significand : ℕ) (exponent : ℤ) :
    ∃ j : ℕ, (stripZeros fuel significand exponent).1 * 2^(4 * j) = significand ∧
      (stripZeros fuel significand exponent).2 = exponent + 4 * j := by
  induction fuel generalizing significand exponent with
  | zero => exact ⟨0, by simp [stripZeros], by simp [stripZeros]⟩
  | succ fuel ih =>
    unfold stripZeros
    split_ifs with h
    · obtain ⟨j, hval, hexp⟩ := ih (significand >>> 4) (exponent + 4)
      have hmod : significand % 2^4 = 0 := by
        rw [← Nat.and_two_pow_sub_one_eq_mod]
        exact h
      refine ⟨j + 1, ?_, by rw [hexp]; push_cast; ring⟩
      have hpow : (2 : ℕ)^(4 * (j + 1)) = 2^(4 * j) * 2^4 := by
        rw [← pow_add]
        rfl
      rw [hpow, ← mul_assoc, hval, Nat.shiftRight_eq_div_pow]
      exact Nat.div_mul_cancel (Nat.dvd_of_mod_eq_zero hmod)
    · exact ⟨0, by simp, by simp⟩

end Float

/-- The significand of a number at its own scale is finished as the number. -/
theorem finish_self (hx : x.Canonical) (hfin : x.category = .finite) :
    finish x.significand x.scale false x.sign x.format = some (x, .NONE) := by
  obtain ⟨f, category, sign, exponent, significand⟩ := x
  dsimp only at hfin
  subst hfin
  obtain ⟨hpos, hlt, hmin, hmax, hfull⟩ := hx
  dsimp only at hpos hlt hmin hmax hfull
  obtain ⟨hm15, hm⟩ := f.maxExponent_bounds
  have hleast : f.minExponent = 1 - f.maxExponent := rfl
  have hcarry : significand >>> f.precision = 0 := by
    rw [Nat.shiftRight_eq_div_pow, Nat.div_eq_of_lt hlt]
  have hscale : Float.scale ⟨f, .finite, sign, exponent, significand⟩ = exponent - f.precision + 1 :=
    rfl
  have hadd : exponent - f.precision + 1 + f.precision = exponent + 1 := by ring
  have hsub : exponent + 1 - 1 = exponent := by ring
  have hfit : Fits 32 (exponent + 1) := by unfold Fits; omega
  have hfit' : Fits 32 exponent := by unfold Fits; omega
  -- A subnormal number has the least exponent, which is the one it is given.
  have hnormal : (if ¬significand >>> (f.precision - 1) = 0 then exponent else f.minExponent) =
      exponent := by
    split_ifs with h
    · refine (hfull.resolve_right fun hge => ?_).symm
      rw [Nat.shiftRight_eq_div_pow, Nat.div_eq_zero_iff_lt (Nat.two_pow_pos _)] at h
      omega
    · rfl
  simp only [finish, hscale, hcarry, ne_eq, not_true_eq_false, if_false, hpos.ne', hadd,
    checked_of_fits hfit, hsub, checked_of_fits hfit', bind, pure, Option.bind, hmax.not_gt,
    Bool.and_false, Bool.false_eq_true, decide_not, Bool.not_eq_true', decide_eq_false_iff_not,
    hnormal]

/-- A number written out exactly is itself when it is rounded, however many zeros were taken off its
significand. -/
theorem round_self (hx : x.Canonical) (hfin : x.category = .finite) {k : ℕ} (hs : s * 2^k = x.significand) :
    round s (x.scale + k) false x.sign x.format = some (x, .NONE) := by
  have hfinish := finish_self hx hfin
  obtain ⟨f, category, sign, exponent, significand⟩ := x
  dsimp only at hfin hs hfinish
  subst hfin
  obtain ⟨hpos, hlt, hmin, hmax, hfull⟩ := hx
  dsimp only at hpos hlt hmin hmax hfull
  obtain ⟨hp8, hp113⟩ := f.precision_bounds
  obtain ⟨hm15, hm⟩ := f.maxExponent_bounds
  have hleast : f.minExponent = 1 - f.maxExponent := rfl
  have hs0 : s ≠ 0 := by
    rintro rfl
    omega
  have hsize : s.size + k = significand.size := by
    rw [← Nat.size_shiftLeft hs0, Nat.shiftLeft_eq, hs]
  have hfits : significand.size ≤ f.precision := Nat.size_le.2 hlt
  have hsmall : significand < 2^128 :=
    hlt.trans_le (Nat.pow_le_pow_right (by norm_num) (by omega))
  have hs128 : s < 2^128 := by
    refine lt_of_le_of_lt ?_ hsmall
    rw [← hs]
    exact Nat.le_mul_of_pos_right _ (Nat.two_pow_pos k)
  generalize hscale : Float.scale ⟨f, .finite, sign, exponent, significand⟩ = scale at *
  have hscale' : exponent - f.precision + 1 = scale := hscale
  -- The scale it is rounded at is its own.
  have hmaxscale : max (scale + k + s.size - f.precision) (f.minExponent - f.precision + 1) =
      scale := by
    rcases hfull with h | h
    · omega
    · have := Nat.lt_size.2 h
      omega
  have htop : Fits 32 (scale + k + s.size) := by unfold Fits; omega
  have hwant : Fits 32 (scale + k + s.size - f.precision) := by unfold Fits; omega
  have hle : scale ≤ scale + k := by omega
  have hup : scale + k - scale = k := by ring
  have hfit : Fits 32 (k : ℤ) := by unfold Fits; omega
  have hshift : (s <<< k) % 2^128 = significand := by
    rw [Nat.shiftLeft_eq, hs, Nat.mod_eq_of_lt hsmall]
  simp only [round, hs0, if_false, leadingZeros_cast hs128, checked_of_fits htop,
    checked_of_fits hwant, bind, pure, Option.bind, hmaxscale, if_pos hle, hup,
    checked_of_fits hfit, Int.toNat_natCast, hshift, Bool.false_and, Bool.false_eq_true,
    Bool.or_false]
  exact hfinish

/-- The digits of a significand and an exponent behind them are read back. -/
theorem hexadecimal_spelled (hs : s < 2^128) (hz : |z| < 2^31) (sign : Bool)
    (f : Format) : hexadecimal (Nat.toDigits 16 s ++ 'p' :: Float.signedText z) sign f =
      (round s z false sign f).map .ok := by
  have hscan : hexadecimalScan (Nat.toDigits 16 s ++ 'p' :: Float.signedText z)
      ⟨0, 0, false, false, false⟩ = some (.ok (HexScan.read s, some (Float.signedText z))) := by
    rw [hexadecimalScan_toDigits s hs]
    rfl
  have hsat : saturated 32 (0 + z) = z := by
    rw [abs_lt] at hz
    unfold saturated
    omega
  have hscaled : scaledBy (HexScan.read s).exponent (some (Float.signedText z)) = .ok z := by
    rw [scaledBy, exponentOf_signedText hz]
    exact congrArg Except.ok hsat
  rw [hexadecimal, hscan]
  dsimp only
  rw [hscaled]
  rfl

/-- A hexadecimal spelling with its sign in front of it. -/
theorem parse_hexadecimal (fuel : ℕ) (sign : Bool) (text : List Char) (f : Format) :
    parse fuel ((if sign then ['-'] else []) ++ '0' :: 'x' :: text) f = hexadecimal text sign f := by
  cases sign <;> rfl

/-- What is left of a significand is a word, and its exponent is far from the ends of an `i32`. -/
theorem stripped_bounds (hx : x.Canonical) (hfin : x.category = .finite) {j : ℕ}
    (hs : s * 2^(4 * j) = x.significand) : s < 2^128 ∧ |x.scale + 4 * j| < 2^31 := by
  obtain ⟨f, category, sign, exponent, significand⟩ := x
  dsimp only at hfin hs
  subst hfin
  obtain ⟨hpos, hlt, hmin, hmax, -⟩ := hx
  dsimp only at hpos hlt hmin hmax
  obtain ⟨hp8, hp113⟩ := f.precision_bounds
  obtain ⟨hm15, hm⟩ := f.maxExponent_bounds
  have hleast : f.minExponent = 1 - f.maxExponent := rfl
  have hscale : Float.scale ⟨f, .finite, sign, exponent, significand⟩ = exponent - f.precision + 1 :=
    rfl
  have hsmall : significand < 2^128 :=
    hlt.trans_le (Nat.pow_le_pow_right (by norm_num) (by omega))
  have hs0 : 0 < s := by
    refine Nat.pos_of_ne_zero ?_
    rintro rfl
    omega
  have hj : 4 * j < 128 := by
    refine (Nat.pow_lt_pow_iff_right (a := 2) (by norm_num)).1 (lt_of_le_of_lt ?_ hsmall)
    rw [← hs]
    exact Nat.le_mul_of_pos_left _ hs0
  refine ⟨lt_of_le_of_lt ?_ hsmall, ?_⟩
  · rw [← hs]
    exact Nat.le_mul_of_pos_right _ (Nat.two_pow_pos _)
  · rw [hscale, abs_lt]
    omega

/-- The hexadecimal spelling of a finite number is read back as that number, with nothing rounded. -/
theorem parse_toHex_of_canonical (hx : x.Canonical) (hfin : x.category = .zero ∨ x.category = .finite) (fuel : ℕ) :
    parse fuel x.toHex x.format = some (.ok (x, .NONE)) := by
  rcases hfin with hzero | hfin
  · obtain ⟨f, category, sign, exponent, significand⟩ := x
    dsimp only at hzero
    subst hzero
    obtain ⟨rfl, rfl⟩ : exponent = 0 ∧ significand = 0 := hx
    have htext : Float.toHex ⟨f, .zero, sign, 0, 0⟩ =
        (if sign then ['-'] else []) ++ '0' :: 'x' :: (Nat.toDigits 16 0 ++ 'p' ::
          Float.signedText 0) := by
      cases sign <;> rfl
    rw [htext, parse_hexadecimal, hexadecimal_spelled (by norm_num) (by norm_num)]
    simp [round, Float.zero]
  · obtain ⟨j, hval, hexp⟩ := Float.stripZeros_spec 32 x.significand x.scale
    have htext : x.toHex = (if x.sign then ['-'] else []) ++ '0' :: 'x' ::
        (Nat.toDigits 16 (Float.stripZeros 32 x.significand x.scale).1 ++ 'p' ::
          Float.signedText (Float.stripZeros 32 x.significand x.scale).2) := by
      have hscale : x.exponent - (x.format.precision - 1) = x.scale := by
        unfold Float.scale
        ring
      unfold Float.toHex
      rw [hfin, hscale]
    generalize Float.stripZeros 32 x.significand x.scale = stripped at hval hexp htext
    obtain ⟨digits, exponent⟩ := stripped
    dsimp only at hval hexp htext
    obtain ⟨hs, hz⟩ := stripped_bounds hx hfin hval
    have hval' : round digits (x.scale + (4 * j : ℕ)) false x.sign x.format = some (x, .NONE) :=
      round_self hx hfin hval
    rw [htext, parse_hexadecimal, hexp]
    push_cast at hval'
    rw [hexadecimal_spelled hs hz, hval']
    rfl

end Rucc.Base
