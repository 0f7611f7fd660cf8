import Mathlib.NumberTheory.Padics.PadicVal.Basic
import Rucc.Opt.Fold
import Rucc.Opt.RangeCompare

/-!
# Constant folding agrees with the arithmetic

`meaning` is the exact result of an instruction on two bit patterns, and `Right` what is asked of a constant it is
folded to: the result modulo the width, with every promise of the flags kept and nothing undefined. The folding
works on the signed readings at 128 bits, so an unsigned promise is checked of the wrong numbers and a shift left is
checked after it has lost bits; `Misread` says when that lets a promise that is not kept through.
-/

namespace Rucc.Opt

open KnownBits U128 Checked

instance (pred : Ops.IntPred) (width x y : ℕ) : Decidable (pred.Holds width x y) :=
  match pred with
  | .eq => inferInstanceAs (Decidable (x = y))
  | .ne => inferInstanceAs (Decidable (x ≠ y))
  | .ult => inferInstanceAs (Decidable (x < y))
  | .ule => inferInstanceAs (Decidable (x ≤ y))
  | .ugt => inferInstanceAs (Decidable (y < x))
  | .uge => inferInstanceAs (Decidable (y ≤ x))
  | .slt => inferInstanceAs (Decidable (signedValue width x < signedValue width y))
  | .sle => inferInstanceAs (Decidable (signedValue width x ≤ signedValue width y))
  | .sgt => inferInstanceAs (Decidable (signedValue width y < signedValue width x))
  | .sge => inferInstanceAs (Decidable (signedValue width y ≤ signedValue width x))

namespace Fold

open Ops (Promised)

/-! ## What an instruction means -/

/-- The operations the folding is about. -/
def Opcode.IsArithmetic : Opcode → Prop
  | .select | .saddOverflow | .uaddOverflow | .ssubOverflow | .usubOverflow | .smulOverflow | .umulOverflow
  | .other => False
  | _ => True

/-- Whether an operation has one operand. -/
def Opcode.IsUnary : Opcode → Prop
  | .trunc | .sext | .zext | .ctlz | .cttz | .ctpop | .bswap | .bitreverse => True
  | _ => False

/-- The type an operation on operands of a width gives, as the verifier has it. -/
def Opcode.Gives (opcode : Opcode) (width : ℕ) (ty : Ty) : Prop :=
  match opcode with
  | .trunc => 1 ≤ ty.bits ∧ ty.bits ≤ width
  | .sext | .zext => width ≤ ty.bits ∧ ty.bits ≤ 128
  | .icmp => ty.bits = 1
  | _ => ty.bits = width

/-- An operand is a constant of a width. -/
def Reads {Value : Type} (operand : Value → Option (Imm × Ty)) (args : List Value) (i width bits : ℕ) : Prop :=
  ∃ value source, args[i]? = some value ∧ operand value = some (⟨bits⟩, source) ∧ source.bits = width ∧
    bits < 2^width

/-- The exact result of an instruction on bit patterns of a width. -/
def meaning (data : InstData) (width x y : ℕ) : ℤ :=
  match data.opcode with
  | .trunc | .zext => x
  | .sext => signedValue width x
  | .shl => x * 2^y
  | .lshr => x / 2^y
  | .ashr => signedValue width x / 2^y
  | .add => x + y
  | .sub => x - y
  | .mul => x * y
  | .and => (x &&& y : ℕ)
  | .or => (x ||| y : ℕ)
  | .xor => (x ^^^ y : ℕ)
  | .sdiv => (signedValue width x).tdiv (signedValue width y)
  | .udiv => x / y
  | .srem => (signedValue width x).tmod (signedValue width y)
  | .urem => x % y
  | .ctlz => width - x.size
  | .cttz => if x = 0 then width else padicValNat 2 x
  | .ctpop => Nat.count (fun i => x.testBit i) width
  | .bswap => Nat.ofBits fun i : Fin width => x.testBit (8 * (width / 8 - 1 - i / 8) + i % 8)
  | .bitreverse => Nat.ofBits fun i : Fin width => x.testBit (width - 1 - i)
  | .icmp => if data.intPred.any fun pred => pred.Holds width x y then 1 else 0
  | _ => 0

/-- What the flags promise of the operands: the exact results of both readings fit. -/
def Keeps (data : InstData) (width x y : ℕ) : Prop :=
  match data.opcode with
  | .add => Promised data.flags width (signedValue width x + signedValue width y) (x + y)
  | .sub => Promised data.flags width (signedValue width x - signedValue width y) (x - y)
  | .mul => Promised data.flags width (signedValue width x * signedValue width y) (x * y)
  | .shl => Promised data.flags width (signedValue width x * 2^y) (x * 2^y)
  | _ => True

/-- The operands an operation is defined on. -/
def Opcode.Defined (opcode : Opcode) (width x y : ℕ) : Prop :=
  match opcode with
  | .shl | .lshr | .ashr => y < width
  | .udiv | .urem => y ≠ 0
  | .sdiv | .srem => y ≠ 0 ∧ ¬ (signedValue width x = -2^(width - 1) ∧ signedValue width y = -1)
  | _ => True

/-- What is asked of the constant an instruction is folded to. -/
structure Right (data : InstData) (ty : Ty) (width x y : ℕ) (folded : Imm) : Prop where
  result : folded.bits = pattern ty.bits (meaning data width x y)
  keeps : Keeps data width x y
  defined : data.opcode.Defined width x y

/-- The bound of a signed result that no check stops, where an unsigned promise is made. -/
def room (flags : Flags) (width : ℕ) : ℤ := if flags.nsw then 2^(width - 1) else 2^min width 127

/-- When a promise that is not kept is let through. -/
def Misread (data : InstData) (width x y : ℕ) : Prop :=
  let sx := signedValue width x
  let sy := signedValue width y
  match data.opcode with
  | .add => data.flags.nuw = true ∧ (sx < 0 ∧ 0 ≤ sy ∨ 0 ≤ sx ∧ sy < 0) ∧ 0 ≤ sx + sy
  | .sub => data.flags.nuw = true ∧ 0 ≤ sx ∧ sy < 0 ∧ sx - sy < room data.flags width
  | .mul => data.flags.nuw = true ∧ 2 ≤ width ∧ sx < 0 ∧ sy < 0 ∧ sx * sy < room data.flags width
  | .shl => (data.flags.nsw = true ∨ data.flags.nuw = true) ∧ y < width ∧ ¬ Fits 128 (sx * 2^y) ∧
      Promised data.flags width (signedValue 128 (pattern 128 (sx * 2^y))) (signedValue 128 (pattern 128 (sx * 2^y)))
  | _ => False

/-! ## Words and patterns -/

section Imm

variable {ty : Ty} {width : ℕ}

variable {z : ℤ}

theorem Imm.bits_int (hw : ty.bits ≤ 128) (z : ℤ) : (Imm.int z ty).bits = pattern ty.bits z := by
  have h := fromI128_mod hw z
  rw [← pattern_cast] at h
  unfold Imm.int
  dsimp only
  rw [and_mask hw]
  exact_mod_cast h

theorem Imm.signed_eq (h₁ : 1 ≤ ty.bits) (hw : ty.bits ≤ 128) {imm : Imm} (h : imm.bits < 2^ty.bits) :
    imm.signed ty = signedValue ty.bits imm.bits := Opt.signed_eq h₁ hw h

/-- Words that read alike at the width leave one pattern. -/
theorem pattern_toI128 (hw : width ≤ 128) {n : ℕ} : pattern width (toI128 n) = n % 2^width := by
  rw [← pattern_natCast]
  apply pattern_congr
  unfold toI128
  split_ifs
  · rfl
  · apply (Int.modEq_iff_dvd.mpr _)
    rw [sub_sub_cancel]
    exact pow_dvd_pow 2 hw

theorem toI128_eq (n : ℕ) : toI128 n = signedValue 128 n := rfl

theorem fromI128_eq (z : ℤ) : fromI128 z = pattern 128 z := rfl

theorem fromI128_signedValue (hw : width ≤ 128) {x : ℕ} (hx : x < 2^width) :
    fromI128 (signedValue width x) % 2^width = x := by
  have h := fromI128_mod hw (signedValue width x)
  rw [signedValue_emod hx] at h
  exact_mod_cast h

/-- A number fits the width just when it is read back from its pattern. -/
theorem signedValue_pattern_iff (h₁ : 1 ≤ width) : signedValue width (pattern width z) = z ↔ Fits width z := by
  constructor
  · intro h
    rw [← h]
    exact signedValue_bounds h₁ (pattern_lt width z)
  · exact signedValue_pattern h₁

theorem pattern_eq_iff (hz : 0 ≤ z) : (pattern width z : ℤ) = z ↔ z < 2^width := by
  rw [pattern_cast]
  constructor
  · intro h
    rw [← h]
    exact Int.emod_lt_of_pos z (by positivity)
  · exact Int.emod_eq_of_lt hz

/-- Nothing is lost that the flags promised would not be just when the result fits both ways. -/
theorem overflowed_eq_false (h₁ : 1 ≤ ty.bits) (hw : ty.bits ≤ 128) {z : ℤ} (hz : Fits 128 z) (flags : Flags) :
    overflowed z ty flags = false ↔ Promised flags ty.bits z z := by
  have hsigned : (Imm.int z ty).signed ty = z ↔ Fits ty.bits z := by
    have hbits := Imm.bits_int hw z
    rw [Imm.signed_eq h₁ hw (by rw [hbits]; exact pattern_lt _ _), hbits, signedValue_pattern_iff h₁]
  have hunsigned : decide (z < 0 ∨ (Imm.int z ty).unsigned ≠ fromI128 z) = false ↔ 0 ≤ z ∧ z < 2^ty.bits := by
    rw [decide_eq_false_iff_not, not_or, not_lt, not_not]
    refine and_congr_right fun h0 => ?_
    have hword : (fromI128 z : ℤ) = z := (pattern_eq_iff h0).mpr (by unfold Fits at hz; omega)
    rw [← pattern_eq_iff h0, ← Imm.bits_int hw]
    unfold Imm.unsigned
    omega
  unfold overflowed Promised
  dsimp only
  cases flags.nuw with
  | false =>
    cases flags.nsw <;> simp [hsigned]
  | true =>
    simp only [true_and, forall_const, ← hunsigned]
    cases flags.nsw <;> simp only [Bool.false_eq_true, false_and, if_false, false_implies, true_and, true_implies]
    by_cases hfits : Fits ty.bits z
    · rw [if_neg (not_not.mpr (hsigned.mpr hfits))]
      exact (and_iff_right hfits).symm
    · rw [if_pos (fun h => hfits (hsigned.mp h))]
      simp [hfits]

end Imm

/-! ## When a broken promise is let through -/

section Misread

variable {width x y : ℕ} (h₁ : 1 ≤ width) (hw : width ≤ 128) (hx : x < 2^width) (hy : y < 2^width)

variable {data : InstData}

/-- The two halves of a pattern's readings. -/
theorem signedValue_cases (width x : ℕ) : signedValue width x = x ∧ (x : ℤ) < 2^(width - 1) ∨
      signedValue width x = x - 2^width ∧ (2^(width - 1) : ℤ) ≤ x := by
  unfold signedValue
  split_ifs with h
  · exact Or.inl ⟨rfl, by exact_mod_cast h⟩
  · exact Or.inr ⟨rfl, by exact_mod_cast not_lt.mp h⟩

include h₁ hw in
/-- The powers of two that the checks compare with. -/
theorem powers : (2^width : ℤ) = 2 * 2^(width - 1) ∧ (1 : ℤ) ≤ 2^(width - 1) ∧ (2^(width - 1) : ℤ) ≤ 2^127 ∧
    (2^min width 127 : ℤ) = min (2^width) (2^127) := by
  have hmono {a b : ℕ} (h : a ≤ b) : (2^a : ℤ) ≤ 2^b := pow_le_pow_right₀ (by norm_num) h
  refine ⟨by exact_mod_cast two_pow_pred h₁, by exact_mod_cast Nat.one_le_two_pow, hmono (by omega), ?_⟩
  rcases Nat.le_total width 127 with h | h
  · rw [Nat.min_eq_left h, min_eq_left (hmono h)]
  · rw [Nat.min_eq_right h, min_eq_right (hmono h)]

include h₁ hw hx hy in
theorem misread_add (hop : data.opcode = .add) : Misread data width x y ↔
      (Fits 128 (signedValue width x + signedValue width y) ∧
        Promised data.flags width (signedValue width x + signedValue width y)
          (signedValue width x + signedValue width y)) ∧ ¬ Keeps data width x y := by
  obtain ⟨hpow, hpos, hword, -⟩ := powers h₁ hw
  have hcases := signedValue_cases width x
  have hcases' := signedValue_cases width y
  have hx' : (x : ℤ) < 2^width := by exact_mod_cast hx
  have hy' : (y : ℤ) < 2^width := by exact_mod_cast hy
  unfold Misread Keeps Promised Fits
  rw [hop]
  dsimp only
  cases data.flags.nsw <;> cases data.flags.nuw <;> simp only [Bool.false_eq_true, false_implies, true_implies,
    true_and, false_and, and_true, not_true_eq_false, and_false, false_iff] <;> omega

include h₁ hw hx hy in
theorem misread_sub (hop : data.opcode = .sub) : Misread data width x y ↔
      (Fits 128 (signedValue width x - signedValue width y) ∧
        Promised data.flags width (signedValue width x - signedValue width y)
          (signedValue width x - signedValue width y)) ∧ ¬ Keeps data width x y := by
  obtain ⟨hpow, hpos, hword, hroom⟩ := powers h₁ hw
  have hcases := signedValue_cases width x
  have hcases' := signedValue_cases width y
  have hx' : (x : ℤ) < 2^width := by exact_mod_cast hx
  have hy' : (y : ℤ) < 2^width := by exact_mod_cast hy
  unfold Misread Keeps Promised Fits room
  rw [hop]
  dsimp only
  cases data.flags.nsw <;> cases data.flags.nuw <;> simp only [Bool.false_eq_true, false_implies, true_implies,
    true_and, false_and, and_true, not_true_eq_false, and_false, if_true, if_false, false_iff] <;> omega

include h₁ hx hy in
/-- The two products by the signs: they are one where neither reading is negative, and the unsigned one fits with
two negative readings at one bit only. -/
theorem products :
    (0 ≤ signedValue width x → 0 ≤ signedValue width y → signedValue width x * signedValue width y = x * y) ∧
    ((signedValue width x < 0 ∧ 0 ≤ signedValue width y ∨ 0 ≤ signedValue width x ∧ signedValue width y < 0) →
      signedValue width x * signedValue width y < 0 ∨
        signedValue width x * signedValue width y = 0 ∧ (x * y : ℤ) = 0) ∧
    (signedValue width x < 0 → signedValue width y < 0 → 0 < signedValue width x * signedValue width y ∧
      (2 ≤ width ↔ (2^width : ℤ) ≤ x * y)) := by
  have hpow : (2^width : ℤ) = 2 * 2^(width - 1) := by exact_mod_cast two_pow_pred h₁
  have hcases := signedValue_cases width x
  have hcases' := signedValue_cases width y
  have hx' : (x : ℤ) < 2^width := by exact_mod_cast hx
  have hy' : (y : ℤ) < 2^width := by exact_mod_cast hy
  have hpos : (0 : ℤ) < 2^(width - 1) := by positivity
  refine ⟨fun h h' => ?_, ?_, fun h h' => ⟨mul_pos_of_neg_of_neg h h', ?_⟩⟩
  · rw [show signedValue width x = x by omega, show signedValue width y = y by omega]
  · rintro (⟨h, h'⟩ | ⟨h, h'⟩)
    · rcases h'.eq_or_lt with h0 | hlt
      · rw [← h0, show (y : ℤ) = 0 by omega, mul_zero, mul_zero]
        exact Or.inr ⟨rfl, rfl⟩
      · exact Or.inl (mul_neg_of_neg_of_pos h hlt)
    · rcases h.eq_or_lt with h0 | hlt
      · rw [← h0, show (x : ℤ) = 0 by omega, zero_mul, zero_mul]
        exact Or.inr ⟨rfl, rfl⟩
      · exact Or.inl (mul_neg_of_pos_of_neg hlt h')
  · have hxhalf : (2^(width - 1) : ℤ) ≤ x := by omega
    have hyhalf : (2^(width - 1) : ℤ) ≤ y := by omega
    constructor
    · intro hwidth
      have htwo : (2 : ℤ) ≤ 2^(width - 1) := by
        calc (2 : ℤ) = 2^1 := by norm_num
          _ ≤ 2^(width - 1) := pow_le_pow_right₀ (by norm_num) (by omega)
      calc (2^width : ℤ) = 2 * 2^(width - 1) := hpow
        _ ≤ 2^(width - 1) * 2^(width - 1) := mul_le_mul_of_nonneg_right htwo hpos.le
        _ ≤ x * y := mul_le_mul hxhalf hyhalf hpos.le (by omega)
    · intro hle
      by_contra hone
      obtain rfl : width = 1 := by omega
      norm_num at *
      rw [show x = 1 by omega, show y = 1 by omega] at hle
      norm_num at hle

include h₁ hw hx hy in
theorem misread_mul (hop : data.opcode = .mul) : Misread data width x y ↔
      (Fits 128 (signedValue width x * signedValue width y) ∧
        Promised data.flags width (signedValue width x * signedValue width y)
          (signedValue width x * signedValue width y)) ∧ ¬ Keeps data width x y := by
  obtain ⟨hpow, hpos, hword, hroom⟩ := powers h₁ hw
  obtain ⟨hnonneg, hmixed, hneg⟩ := products h₁ hx hy
  unfold Misread Keeps Promised Fits room
  rw [hop]
  dsimp only
  have hsquare : (0 : ℤ) ≤ x * y := by positivity
  generalize signedValue width x * signedValue width y = e at *
  generalize (x * y : ℤ) = u at *
  cases data.flags.nsw <;> cases data.flags.nuw <;> simp only [Bool.false_eq_true, false_implies, true_implies,
    true_and, false_and, and_true, not_true_eq_false, and_false, if_true, if_false, false_iff] <;> omega

/-- A word that has the top bit set is negative as signed. -/
theorem signedValue_pattern_neg {z : ℤ} (hz : 2^127 ≤ z) (hlt : z < 2^128) : signedValue 128 (pattern 128 z) < 0 := by
  have hpat : (pattern 128 z : ℤ) = z := (pattern_eq_iff (by omega)).mpr hlt
  exact signedValue_neg (pattern_lt 128 z) (by omega)

include h₁ hw hx in
/-- An unsigned promise that is kept loses no bit that the reading at 128 bits does not show. -/
theorem shl_keeps_unsigned {z : ℤ} (hz : z = signedValue width x * 2^y) (hlost : ¬ Fits 128 z)
    (hkept : 0 ≤ signedValue 128 (pattern 128 z)) : ¬ (x * 2^y : ℤ) < 2^width := by
  intro hfits
  obtain ⟨hpow, hpos, hword, -⟩ := powers h₁ hw
  have htop : (2^width : ℤ) ≤ 2^128 := pow_le_pow_right₀ (by norm_num) hw
  have hx' : (x : ℤ) < 2^width := by exact_mod_cast hx
  rcases signedValue_cases width x with ⟨heq, hhalf⟩ | ⟨heq, hhalf⟩
  · -- The product is not negative, and is in the upper half of the word.
    rw [heq] at hz
    have hnonneg : 0 ≤ z := by rw [hz]; positivity
    have hupper : 2^127 ≤ z := by
      unfold Fits at hlost
      omega
    have := signedValue_pattern_neg hupper (by omega)
    omega
  · -- The reading is negative, so the pattern has the top bit of the width, and the shift pushes it out.
    have hy0 : y ≠ 0 := by
      rintro rfl
      rw [pow_zero, mul_one] at hz
      unfold Fits at hlost
      omega
    have htwo : (2 : ℤ) ≤ 2^y := by
      calc (2 : ℤ) = 2^1 := by norm_num
        _ ≤ 2^y := pow_le_pow_right₀ (by norm_num) (by omega)
    have hlarge : (2^width : ℤ) ≤ x * 2^y := by
      calc (2^width : ℤ) = 2^(width - 1) * 2 := by rw [hpow]; ring
        _ ≤ x * 2^y := mul_le_mul hhalf htwo (by norm_num) (by omega)
    omega

include h₁ hw hx in
theorem misread_shl (hop : data.opcode = .shl) : Misread data width x y ↔
      (y < width ∧ Promised data.flags width (signedValue 128 (pattern 128 (signedValue width x * 2^y)))
        (signedValue 128 (pattern 128 (signedValue width x * 2^y)))) ∧ ¬ Keeps data width x y := by
  have hlarge := @shl_keeps_unsigned width x y h₁ hw hx _ rfl
  have hfits := @signedValue_pattern 128 (by norm_num) (signedValue width x * 2^y)
  have hmono := @Fits.mono width 128 (signedValue width x * 2^y)
  have hnonneg : 0 ≤ signedValue width x * 2^y → signedValue width x = x := by
    intro h
    have h0 : 0 ≤ signedValue width x := nonneg_of_mul_nonneg_left h (by positivity)
    have hcases := signedValue_cases width x
    have hx' : (x : ℤ) < 2^width := by exact_mod_cast hx
    omega
  have hpositive : (0 : ℤ) ≤ x * 2^y := by positivity
  unfold Misread Keeps Promised
  rw [hop]
  dsimp only
  constructor
  · rintro ⟨hflags, hlt, hlost, hsigned, hunsigned⟩
    refine ⟨⟨hlt, hsigned, hunsigned⟩, ?_⟩
    rintro ⟨hkeeps, hkeeps'⟩
    rcases hflags with hnsw | hnuw
    · exact hlost (hmono (hkeeps hnsw) hw)
    · exact hlarge hlost (hunsigned hnuw).1 (hkeeps' hnuw).2
  · rintro ⟨⟨hlt, hsigned, hunsigned⟩, hkeeps⟩
    have hflags : data.flags.nsw = true ∨ data.flags.nuw = true := by
      by_contra hnone
      rw [not_or] at hnone
      exact hkeeps ⟨fun h => absurd h hnone.1, fun h => absurd h hnone.2⟩
    refine ⟨hflags, hlt, fun hkept => hkeeps ?_, hsigned, hunsigned⟩
    rw [hfits hkept] at hsigned hunsigned
    refine ⟨hsigned, fun hnuw => ?_⟩
    rw [← hnonneg (hunsigned hnuw).1]
    exact hunsigned hnuw

end Misread

/-! ## The operations on two constants -/

section Operations

variable {data : InstData} {source ty : Ty} {width x y : ℕ}

variable {folded : Option Imm} {opcode : Opcode} {c : Imm} {flags : Flags} {e : ℤ} {f : ℕ → ℕ → ℕ} {countTy : Ty}

/-- A constant that is given under a condition is right wherever no broken promise is let through. -/
theorem right_iff {const : Imm} {returned : Prop} (hfolded : ∀ c, folded = some c ↔ returned ∧ c = const)
    (hresult : const.bits = pattern ty.bits (meaning data width x y))
    (hdefined : returned → data.opcode.Defined width x y)
    (hmisread : Misread data width x y ↔ returned ∧ ¬ Keeps data width x y) :
    (∀ c, folded = some c → Right data ty width x y c) ↔ ¬ Misread data width x y := by
  constructor
  · intro h hmis
    obtain ⟨hreturned, hbroken⟩ := hmisread.mp hmis
    exact hbroken (h const ((hfolded const).mpr ⟨hreturned, rfl⟩)).keeps
  · intro hmis c hc
    obtain ⟨hreturned, rfl⟩ := (hfolded c).mp hc
    exact ⟨hresult, not_not.mp fun hbroken => hmis (hmisread.mpr ⟨hreturned, hbroken⟩), hdefined hreturned⟩

/-- An instruction that promises nothing is folded right if its constant is. -/
theorem right_of_result (hkeeps : Keeps data width x y) (hmisread : ¬ Misread data width x y)
    (h : ∀ c, folded = some c →
      c.bits = pattern ty.bits (meaning data width x y) ∧ data.opcode.Defined width x y) :
    (∀ c, folded = some c → Right data ty width x y c) ↔ ¬ Misread data width x y := by
  refine ⟨fun _ => hmisread, fun _ c hc => ?_⟩
  obtain ⟨hresult, hdefined⟩ := h c hc
  exact ⟨hresult, hkeeps, hdefined⟩

variable (h₁ : 1 ≤ width) (hw : width ≤ 128) (hsource : source.bits = width) (hty : ty.bits = width)
  (hx : x < 2^width) (hy : y < 2^width)

theorem binary_eq_some {lhs rhs : Imm} : binary opcode lhs rhs source ty flags = some c ↔
      ∃ e, combined opcode (lhs.signed source) (rhs.signed source) = some e ∧ overflowed e ty flags = false ∧
        Imm.int e ty = c := by
  unfold binary
  simp only [Option.bind_eq_bind, Option.bind_eq_some_iff]
  refine exists_congr fun e => and_congr_right fun _ => ?_
  cases overflowed e ty flags <;> simp

include h₁ hw hsource hty hx hy in
/-- The three that can overflow are given where the exact result fits 128 bits and the checks pass. -/
theorem binary_checked
    (hcombined : combined opcode (signedValue width x) (signedValue width y) = checked 128 e) (c : Imm) :
    binary opcode ⟨x⟩ ⟨y⟩ source ty flags = some c ↔
      (Fits 128 e ∧ Promised flags width e e) ∧ c = Imm.int e ty := by
  rw [binary_eq_some, Imm.signed_eq (by omega) (by omega) (by rwa [hsource]),
    Imm.signed_eq (by omega) (by omega) (by rwa [hsource]), hsource, hcombined]
  constructor
  · rintro ⟨e, he, hover, rfl⟩
    obtain ⟨hfits, rfl⟩ := checked_eq_some.mp he
    have hpromised := (overflowed_eq_false (by omega) (by omega) hfits flags).mp hover
    rw [hty] at hpromised
    exact ⟨⟨hfits, hpromised⟩, rfl⟩
  · rintro ⟨⟨hfits, hpromised⟩, rfl⟩
    rw [← hty] at hpromised
    exact ⟨e, checked_of_fits hfits, (overflowed_eq_false (by omega) (by omega) hfits flags).mpr hpromised, rfl⟩

include h₁ hw hsource hty hx hy in
/-- An addition, a subtraction or a multiplication. -/
theorem binary_right_iff
    (hcombined : combined data.opcode (signedValue width x) (signedValue width y) = checked 128 e)
    (hmeaning : e ≡ meaning data width x y [ZMOD 2^width]) (hdefined : data.opcode.Defined width x y)
    (hmisread : Misread data width x y ↔ (Fits 128 e ∧ Promised data.flags width e e) ∧ ¬ Keeps data width x y) :
    (∀ c, binary data.opcode ⟨x⟩ ⟨y⟩ source ty data.flags = some c → Right data ty width x y c) ↔
      ¬ Misread data width x y := by
  apply right_iff (binary_checked h₁ hw hsource hty hx hy hcombined) _ (fun _ => hdefined) hmisread
  rw [Imm.bits_int (by omega), hty, pattern_congr hmeaning]

include hw in
/-- A bitwise operation commutes with cutting to the width. -/
theorem pattern_bitwise (hf : ∀ a b, f a b % 2^width = f (a % 2^width) (b % 2^width))
    (hx : x < 2^width) (hy : y < 2^width) :
    pattern width (toI128 (f (fromI128 (signedValue width x)) (fromI128 (signedValue width y)))) =
      pattern width (f x y : ℕ) := by
  rw [pattern_toI128 hw, hf, fromI128_signedValue hw hx, fromI128_signedValue hw hy, pattern_natCast, hf,
    Nat.mod_eq_of_lt hx, Nat.mod_eq_of_lt hy]

include h₁ hw hsource hty hx hy in
theorem binary_bits (hcombined : ∀ a b, combined opcode a b = some (toI128 (f (fromI128 a) (fromI128 b))))
    (hf : ∀ a b, f a b % 2^width = f (a % 2^width) (b % 2^width))
    (hc : binary opcode ⟨x⟩ ⟨y⟩ source ty flags = some c) : c.bits = pattern ty.bits (f x y : ℕ) := by
  rw [binary_eq_some, Imm.signed_eq (by omega) (by omega) (by rwa [hsource]),
    Imm.signed_eq (by omega) (by omega) (by rwa [hsource]), hsource, hcombined] at hc
  obtain ⟨e, he, -, rfl⟩ := hc
  obtain rfl := Option.some.inj he
  rw [Imm.bits_int (by omega), hty, pattern_bitwise hw hf hx hy]

/-! ### Shifts -/

include h₁ hw hsource hty in
theorem shift_eq_some (hcount : countTy.bits = width) (hy : y < 2^width)
     :
    shift opcode ⟨x⟩ source ⟨y⟩ countTy ty flags = some c ↔
      y < width ∧ ∃ e, shifted opcode ⟨x⟩ source y = some e ∧ (opcode = .shl → overflowed e ty flags = false) ∧
        Imm.int e ty = c := by
  have hsigned : y < width → ¬ (⟨y⟩ : Imm).signed countTy < 0 := by
    intro hlt
    rw [Imm.signed_eq (by omega) (by omega) (by rwa [hcount]), hcount, not_lt]
    have := @Nat.lt_two_pow_self (width - 1)
    exact signedValue_nonneg (show y < 2^(width - 1) by omega)
  unfold shift Imm.unsigned
  dsimp only
  rw [hty]
  by_cases hlt : y < width
  · rw [if_neg (not_or.mpr ⟨not_le.mpr hlt, hsigned hlt⟩)]
    simp only [hlt, true_and, Option.bind_eq_bind, Option.bind_eq_some_iff]
    refine exists_congr fun e => and_congr_right fun _ => ?_
    by_cases hover : opcode = .shl ∧ overflowed e ty flags = true
    · rw [if_pos hover]
      simp [hover.1, hover.2]
    · rw [if_neg hover, Option.some.injEq]
      refine (and_iff_right fun hshl => ?_).symm
      rw [← Bool.not_eq_true]
      exact fun h => hover ⟨hshl, h⟩
  · rw [if_pos (Or.inl (not_lt.mp hlt))]
    simp [hlt]

/-- The word a shift left leaves is that of the product. -/
theorem shiftLeft_fromI128 (z : ℤ) (y : ℕ) : shiftLeft (fromI128 z) y = pattern 128 (z * 2^y) := by
  have hcast : ((shiftLeft (fromI128 z) y : ℕ) : ℤ) = pattern 128 (z * 2^y) := by
    unfold shiftLeft
    rw [Nat.shiftLeft_eq, fromI128_eq, pattern_cast, Int.natCast_mod, Nat.cast_mul, pattern_cast, Nat.cast_pow,
      Nat.cast_pow, Nat.cast_ofNat]
    exact (Int.mod_modEq z (2^128)).mul_right (2^y)
  exact_mod_cast hcast

include h₁ hw hsource hty hx in
theorem shl_eq_some {countTy : Ty} (hcount : countTy.bits = width) (hy : y < 2^width) {flags : Flags} (c : Imm) :
    shift .shl ⟨x⟩ source ⟨y⟩ countTy ty flags = some c ↔
      (y < width ∧ Promised flags width (signedValue 128 (pattern 128 (signedValue width x * 2^y)))
        (signedValue 128 (pattern 128 (signedValue width x * 2^y)))) ∧
        c = Imm.int (signedValue 128 (pattern 128 (signedValue width x * 2^y))) ty := by
  rw [shift_eq_some h₁ hw hsource hty hcount hy, and_assoc]
  refine and_congr_right fun hlt => ?_
  have hshifted : shifted .shl ⟨x⟩ source y =
      some (signedValue 128 (pattern 128 (signedValue width x * 2^y))) := by
    unfold shifted
    dsimp only
    rw [if_pos (by omega), Imm.signed_eq (by omega) (by omega) (by rwa [hsource]), hsource, shiftLeft_fromI128,
      toI128_eq]
  rw [hshifted]
  have hfits : Fits 128 (signedValue 128 (pattern 128 (signedValue width x * 2^y))) :=
    signedValue_bounds (by norm_num) (pattern_lt 128 _)
  have hover := @overflowed_eq_false ty (by omega) (by omega) _ hfits flags
  rw [hty] at hover
  rw [← hover]
  constructor
  · rintro ⟨e, he, hnot, rfl⟩
    obtain rfl := Option.some.inj he
    exact ⟨hnot rfl, rfl⟩
  · rintro ⟨hnot, rfl⟩
    exact ⟨_, rfl, fun _ => hnot, rfl⟩

include h₁ hw hsource hty hx hy in
theorem shl_right_iff (hop : data.opcode = .shl) (hcount : countTy.bits = width) :
    (∀ c, shift data.opcode ⟨x⟩ source ⟨y⟩ countTy ty data.flags = some c → Right data ty width x y c) ↔
      ¬ Misread data width x y := by
  have hfolded := @shl_eq_some source ty width x y h₁ hw hsource hty hx countTy hcount hy data.flags
  rw [← hop] at hfolded
  apply right_iff hfolded _ _ (misread_shl h₁ hw hx hop)
  · rw [Imm.bits_int (by omega), hty]
    apply pattern_congr
    unfold meaning
    rw [hop]
    dsimp only
    -- The product of the signed reading, cut to 128 bits and read back, at the width.
    have hword := (signedValue_modEq (pattern_lt 128 (signedValue width x * 2^y))).trans
      (Ops.pattern_modEq 128 (signedValue width x * 2^y))
    exact (hword.of_dvd (pow_dvd_pow 2 hw)).trans ((signedValue_modEq hx).mul_right _)
  · rintro ⟨hlt, -⟩
    unfold Opcode.Defined
    rw [hop]
    exact hlt

include h₁ hw hsource hty hx hy in
theorem shr_right_iff (hop : data.opcode = .lshr ∨ data.opcode = .ashr) (hcount : countTy.bits = width) :
    (∀ c, shift data.opcode ⟨x⟩ source ⟨y⟩ countTy ty data.flags = some c → Right data ty width x y c) ↔
      ¬ Misread data width x y := by
  apply right_of_result
  · rcases hop with hop | hop <;> simp [Keeps, hop]
  · rcases hop with hop | hop <;> simp [Misread, hop]
  · intro c hc
    rw [shift_eq_some h₁ hw hsource hty hcount hy] at hc
    obtain ⟨hlt, e, he, -, rfl⟩ := hc
    rw [Imm.bits_int (by omega), hty]
    rcases hop with hop | hop <;> simp only [hop, shifted, Option.some.injEq] at he <;>
      simp only [meaning, Opcode.Defined, hop, hlt, and_true] <;> rw [← he]
    · rw [pattern_toI128 hw, ← pattern_natCast, Imm.unsigned, Nat.shiftRight_eq_div_pow]
      push_cast
      rfl
    · rw [Imm.signed_eq (by omega) (by omega) (by rwa [hsource]), hsource, Int.shiftRight_eq_div_pow]
      push_cast
      rfl

/-! ### Divides, comparisons and conversions -/

include h₁ hw in
/-- The signed quotient and remainder are refused for the one quotient that does not fit. -/
theorem divideSigned_eq_some (hsource : source.bits = width) :
    divideSigned opcode (signedValue width x) (signedValue width y) source = some e ↔
      ¬ (signedValue width x = -2^(width - 1) ∧ signedValue width y = -1) ∧
        (if opcode = .sdiv then (signedValue width x).tdiv (signedValue width y)
          else (signedValue width x).tmod (signedValue width y)) = e := by
  have hleast : (if source.bits ≥ 128 then -2^127 else -((1 <<< (source.bits - 1) : ℕ) : ℤ)) = -2^(width - 1) := by
    rw [hsource]
    split_ifs with h
    · rw [show width = 128 by omega]
    · rw [Nat.one_shiftLeft]
      push_cast
      rfl
  unfold divideSigned
  rw [hleast]
  dsimp only
  by_cases hover : signedValue width y = -1 ∧ signedValue width x = -2^(width - 1)
  · rw [if_pos hover]
    simp [hover.1, hover.2]
  · rw [if_neg hover, Option.some.injEq]
    exact (and_iff_right fun h => hover h.symm).symm

include h₁ hw hsource hty hx hy in
theorem divide_right_iff
    (hop : data.opcode = .sdiv ∨ data.opcode = .udiv ∨ data.opcode = .srem ∨ data.opcode = .urem) :
    (∀ c, divide data.opcode ⟨x⟩ ⟨y⟩ source ty = some c → Right data ty width x y c) ↔
      ¬ Misread data width x y := by
  apply right_of_result
  · rcases hop with hop | hop | hop | hop <;> simp [Keeps, hop]
  · rcases hop with hop | hop | hop | hop <;> simp [Misread, hop]
  · intro c hc
    unfold divide at hc
    rw [Imm.signed_eq (by omega) (by omega) (by rwa [hsource]),
      Imm.signed_eq (by omega) (by omega) (by rwa [hsource]), hsource] at hc
    unfold Imm.unsigned at hc
    dsimp only at hc
    split_ifs at hc with hzero
    rcases hop with hop | hop | hop | hop <;> rw [hop] at hc <;>
      obtain ⟨e, he, hc⟩ := Option.bind_eq_some_iff.mp hc <;> obtain rfl := Option.some.inj hc <;>
      rw [Imm.bits_int (by omega), hty] <;>
      simp only [meaning, Opcode.Defined, hop, ne_eq, hzero, not_false_eq_true, true_and, and_true]
    · obtain ⟨hdefined, rfl⟩ := (divideSigned_eq_some h₁ hw hsource).mp he
      rw [if_pos rfl]
      exact ⟨rfl, hdefined⟩
    · rw [← Option.some.inj he, pattern_toI128 hw, ← pattern_natCast]
      push_cast
      rfl
    · obtain ⟨hdefined, rfl⟩ := (divideSigned_eq_some h₁ hw hsource).mp he
      rw [if_neg (by decide)]
      exact ⟨rfl, hdefined⟩
    · rw [← Option.some.inj he, pattern_toI128 hw, ← pattern_natCast]
      push_cast
      rfl

include h₁ hw hsource hx hy in
/-- A comparison of immediates is the comparison of what they read as. -/
theorem compare_eq (pred : Ops.IntPred) : compare pred ⟨x⟩ ⟨y⟩ source = decide (pred.Holds width x y) := by
  have hsx : (⟨x⟩ : Imm).signed source = signedValue width x := by
    rw [Imm.signed_eq (by omega) (by omega) (by rwa [hsource]), hsource]
  have hsy : (⟨y⟩ : Imm).signed source = signedValue width y := by
    rw [Imm.signed_eq (by omega) (by omega) (by rwa [hsource]), hsource]
  rw [Bool.eq_iff_iff, decide_eq_true_iff]
  cases pred <;> refine decide_eq_true_iff.trans ?_ <;> simp [Ops.IntPred.Holds, hsx, hsy, Imm.unsigned]

/-- A conversion of a constant, which promises nothing. -/
theorem convert_bits (h₁ : 1 ≤ width) (hw : width ≤ 128) (hsource : source.bits = width) (hto : ty.bits ≤ 128)
    (hx : x < 2^width) :
    (convert .trunc ⟨x⟩ source ty).bits = pattern ty.bits (signedValue width x) ∧
      (convert .sext ⟨x⟩ source ty).bits = pattern ty.bits (signedValue width x) ∧
      (convert .zext ⟨x⟩ source ty).bits = pattern ty.bits x := by
  have hsigned : (⟨x⟩ : Imm).signed source = signedValue width x := by
    rw [Imm.signed_eq (by omega) (by omega) (by rwa [hsource]), hsource]
  simp only [convert, Imm.bits_int hto, hsigned, true_and]
  rw [pattern_toI128 hto, ← pattern_natCast]
  rfl

/-! ### Bit counts -/

include hw hx in
/-- No bit past the width is set, so the word's count is the width's. -/
theorem countOnes_eq : countOnes x = Nat.count (fun i => x.testBit i) width := by
  have hword : countOnes x = Nat.count (fun i => x.testBit i) 128 := by
    unfold countOnes Nat.count
    exact List.countP_congr fun i _ => by simp
  have hzero : Nat.count (fun k => x.testBit (width + k)) (128 - width) = 0 := by
    rw [Nat.count_eq_card_filter_range, Finset.card_eq_zero, Finset.filter_eq_empty_iff]
    intro k _
    rw [testBit_of_lt hx (Nat.le_add_right width k)]
    exact Bool.false_ne_true
  rw [hword, ← Nat.add_sub_cancel' hw, Nat.count_add, hzero, Nat.add_zero]

include hw hx in
theorem trailingZeros_eq (h0 : x ≠ 0) : trailingZeros x = padicValNat 2 x ∧ trailingZeros x < width := by
  obtain ⟨rest, hrest⟩ := trailingZeros_spec h0 (hx.trans_le (Nat.pow_le_pow_right (by norm_num) hw))
  generalize trailingZeros x = t at *
  constructor
  · rw [hrest, padicValNat.mul (by positivity) (by omega), padicValNat.prime_pow,
      padicValNat.eq_zero_of_not_dvd (by omega), Nat.add_zero]
  · by_contra hge
    have : 2^width ≤ 2^t := Nat.pow_le_pow_right (by norm_num) (by omega)
    have : 2^t ≤ x := by
      rw [hrest]
      exact Nat.le_mul_of_pos_right _ (by omega)
    omega

include hw in
/-- The bytes the other way round, in the top of the word and then moved down. -/
theorem swapBytes_eq (hbytes : width % 8 = 0) : swapBytes x >>> (128 - width) =
      Nat.ofBits fun i : Fin width => x.testBit (8 * (width / 8 - 1 - i / 8) + i % 8) := by
  apply Nat.eq_of_testBit_eq
  intro i
  unfold swapBytes
  rw [Nat.testBit_shiftRight, Nat.testBit_ofBits, Nat.testBit_ofBits]
  by_cases hi : i < width
  · rw [dif_pos (by omega), dif_pos hi]
    dsimp only
    congr 1
    omega
  · rw [dif_neg (by omega), dif_neg hi]

include hw in
theorem reverseBits_eq :
    reverseBits x >>> (128 - width) = Nat.ofBits fun i : Fin width => x.testBit (width - 1 - i) := by
  apply Nat.eq_of_testBit_eq
  intro i
  unfold reverseBits
  rw [Nat.testBit_shiftRight, Nat.testBit_ofBits, Nat.testBit_ofBits]
  by_cases hi : i < width
  · rw [dif_pos (by omega), dif_pos hi]
    dsimp only
    congr 1
    omega
  · rw [dif_neg (by omega), dif_neg hi]

include h₁ hw hsource hty hx in
theorem count_right_iff (hop : data.opcode = .ctlz ∨ data.opcode = .cttz ∨ data.opcode = .ctpop ∨
    data.opcode = .bswap ∨ data.opcode = .bitreverse) :
    (∀ c, count data.opcode ⟨x⟩ source ty = some c → Right data ty width x y c) ↔ ¬ Misread data width x y := by
  apply right_of_result
  · rcases hop with hop | hop | hop | hop | hop <;> simp [Keeps, hop]
  · rcases hop with hop | hop | hop | hop | hop <;> simp [Misread, hop]
  · intro c hc
    unfold count Imm.unsigned at hc
    dsimp only at hc
    rw [hsource, if_neg (by omega)] at hc
    refine ⟨?_, by rcases hop with hop | hop | hop | hop | hop <;> simp [Opcode.Defined, hop]⟩
    rcases hop with hop | hop | hop | hop | hop <;> rw [hop] at hc <;> simp only [meaning, hop]
    · obtain ⟨answer, hanswer, rfl⟩ := Option.map_eq_some_iff.mp hc
      rw [Imm.bits_int (by omega)]
      have hsize : x.size ≤ width := Nat.size_le.mpr hx
      obtain ⟨-, rfl⟩ := checkedSub_eq_some.mp hanswer
      unfold leadingZeros
      congr 1
      omega
    · obtain rfl := Option.some.inj hc
      rw [Imm.bits_int (by omega)]
      congr 1
      split_ifs with h0
      · rw [h0]
        have : trailingZeros 0 = 128 := by decide
        omega
      · obtain ⟨heq, hlt⟩ := trailingZeros_eq hw hx h0
        omega
    · obtain rfl := Option.some.inj hc
      rw [Imm.bits_int (by omega), countOnes_eq hw hx]
    · split_ifs at hc with hbytes
      obtain rfl := Option.some.inj hc
      rw [Imm.bits_int (by omega), swapBytes_eq hw hbytes, pattern_toI128 (by omega), pattern_natCast]
    · obtain rfl := Option.some.inj hc
      rw [Imm.bits_int (by omega), reverseBits_eq hw, pattern_toI128 (by omega), pattern_natCast]

end Operations

/-! ## The operations that check for overflow -/

/-- Which arithmetic an operation checks, and whether of the signed readings. -/
def Opcode.checks : Opcode → Option (Ops.CheckedOp × Bool)
  | .saddOverflow => some (.add, true)
  | .uaddOverflow => some (.add, false)
  | .ssubOverflow => some (.sub, true)
  | .usubOverflow => some (.sub, false)
  | .smulOverflow => some (.mul, true)
  | .umulOverflow => some (.mul, false)
  | _ => none

section Overflowing

variable {ty : Ty} (h₁ : 1 ≤ ty.bits) (hw : ty.bits ≤ 128) {x y : ℕ}

variable {opcode : Opcode} {op : Ops.CheckedOp} {signed : Bool}

include h₁ hw in
theorem signed_fits (z : ℤ) :
    ((checked 128 z).any fun exact => decide ((Imm.int exact ty).signed ty = exact)) = true ↔ Fits ty.bits z := by
  have hback : (Imm.int z ty).signed ty = z ↔ Fits ty.bits z := by
    have hbits := Imm.bits_int hw z
    rw [Imm.signed_eq h₁ hw (by rw [hbits]; exact pattern_lt _ _), hbits, signedValue_pattern_iff h₁]
  by_cases hfits : Fits 128 z
  · rw [checked_of_fits hfits, Option.any_some, decide_eq_true_iff, hback]
  · rw [checked_of_not_fits hfits, Option.any_none]
    exact ⟨fun h => (by cases h), fun h => absurd (h.mono hw) hfits⟩

include hw in
theorem unsigned_fits {n : ℕ} (hn : n ≤ MAX) :
    (decide (ty.bits ≥ 128) || decide (n >>> ty.bits = 0)) = true ↔ n < 2^ty.bits := by
  rw [Bool.or_eq_true, decide_eq_true_iff, decide_eq_true_iff, Nat.shiftRight_eq_div_pow, Nat.div_eq_zero_iff_lt
    (by positivity)]
  constructor
  · rintro (h | h)
    · obtain heq : ty.bits = 128 := by omega
      rw [heq]
      unfold MAX at hn
      omega
    · exact h
  · exact Or.inr

include hw in
/-- An unsigned result that a word holds fits where it is below two to the width, and one that none holds does not. -/
theorem exactUnsigned_fits (h : opcode.checks = some (op, false)) (hx : x < 2^ty.bits) :
    ((exactUnsigned opcode x y).any fun exact => decide (ty.bits ≥ 128) || decide (exact >>> ty.bits = 0)) = true ↔
      0 ≤ op.exact x y ∧ op.exact x y < 2^ty.bits := by
  have hword : 2^ty.bits ≤ 2^128 := Nat.pow_le_pow_right (by norm_num) hw
  have hmax : 2^128 = MAX + 1 := rfl
  have hsmall {n : ℕ} : (if n ≤ MAX then some n else none).any
      (fun exact => decide (ty.bits ≥ 128) || decide (exact >>> ty.bits = 0)) = true ↔
        0 ≤ (n : ℤ) ∧ (n : ℤ) < 2^ty.bits := by
    have hcast : (n : ℤ) < 2^ty.bits ↔ n < 2^ty.bits := by exact_mod_cast Iff.rfl
    rw [hcast]
    split_ifs with hn
    · rw [Option.any_some, unsigned_fits hw hn]
      omega
    · rw [Option.any_none]
      simp only [Bool.false_eq_true, false_iff]
      omega
  have hadd := @hsmall (x + y)
  have hmul := @hsmall (x * y)
  have hsub : ((checkedSub x y).any fun exact => decide (ty.bits ≥ 128) || decide (exact >>> ty.bits = 0)) = true ↔
      0 ≤ (x - y : ℤ) ∧ (x - y : ℤ) < 2^ty.bits := by
    have hx' : (x : ℤ) < 2^ty.bits := by exact_mod_cast hx
    unfold checkedSub
    split_ifs with hle
    · rw [Option.any_some, unsigned_fits hw (by omega)]
      omega
    · rw [Option.any_none]
      simp only [Bool.false_eq_true, false_iff]
      omega
  push_cast at hadd hmul
  cases opcode <;> cases h <;> assumption

include hw in
/-- The all-ones mask of the width keeps what a word's pattern is at the width. -/
theorem and_ones (n : ℕ) : n &&& (Imm.int (-1) ty).unsigned = n % 2^ty.bits := by
  have hones : (Imm.int (-1) ty).unsigned = 2^ty.bits - 1 := by
    have hpos : 0 < 2^ty.bits := by positivity
    have hcast : (pattern ty.bits (-1) : ℤ) = 2^ty.bits - 1 := by
      rw [pattern_cast, ← Int.add_emod_right, neg_add_eq_sub]
      exact Int.emod_eq_of_lt (by have : (1 : ℤ) ≤ 2^ty.bits := one_le_pow₀ (by norm_num); omega) (by omega)
    unfold Imm.unsigned
    rw [Imm.bits_int hw]
    zify [Nat.one_le_two_pow]
    exact hcast
  rw [hones, Nat.and_two_pow_sub_one_eq_mod]

include hw in
/-- The wrapped result at 128 bits, cut to the width, is the pattern of the exact one. -/
theorem wrapped_eq (h : opcode.checks = some (op, signed))
    (hy : y < 2^ty.bits) : wrapped opcode x y % 2^ty.bits = pattern ty.bits (op.exact x y) := by
  have hdvd : 2^ty.bits ∣ 2^128 := Nat.pow_dvd_pow 2 hw
  have hword : 2^ty.bits ≤ 2^128 := Nat.pow_le_pow_right (by norm_num) hw
  have hadd : wrappingAdd x y % 2^ty.bits = pattern ty.bits (x + y) := by
    rw [wrappingAdd, Nat.mod_mod_of_dvd _ hdvd, ← pattern_natCast, Nat.cast_add]
  have hmul : wrappingMul x y % 2^ty.bits = pattern ty.bits (x * y) := by
    rw [wrappingMul, Nat.mod_mod_of_dvd _ hdvd, ← pattern_natCast, Nat.cast_mul]
  have hsub : wrappingSub x y % 2^ty.bits = pattern ty.bits (x - y) := by
    rw [wrappingSub, Nat.mod_mod_of_dvd _ hdvd, ← pattern_natCast]
    apply pattern_congr
    -- The word that is added is a multiple of two to the width.
    have hturn : ((x + (2^128 - y) : ℕ) : ℤ) = (x - y) + 2^128 := by omega
    rw [hturn]
    apply Int.ModEq.symm
    apply Int.modEq_of_dvd
    rw [add_sub_cancel_left]
    exact pow_dvd_pow 2 hw
  cases opcode <;> cases h <;> assumption

include h₁ hw in
/-- The wrapped result, and the flag just when the exact one does not fit. -/
theorem overflowing_spec
    (h : opcode.checks = some (op, signed)) (hint : ty.isInt = true) (hscalar : ty.isVector = false)
    (hx : x < 2^ty.bits) (hy : y < 2^ty.bits) :
    ∃ flag, overflowing opcode ⟨x⟩ ⟨y⟩ ty = some (⟨pattern ty.bits (op.exact x y)⟩, flag) ∧
      (flag = true ↔ op.Overflows signed ty.bits x y) := by
  have hchecks : checksSigned opcode = some signed := by cases opcode <;> cases h <;> rfl
  have hsx : (⟨x⟩ : Imm).signed ty = signedValue ty.bits x := Imm.signed_eq h₁ hw hx
  have hsy : (⟨y⟩ : Imm).signed ty = signedValue ty.bits y := Imm.signed_eq h₁ hw hy
  unfold overflowing
  rw [hchecks, Option.bind_eq_bind, Option.bind_some, hint, hscalar]
  dsimp only [Imm.unsigned]
  rw [← Imm.unsigned, and_ones hw, wrapped_eq hw h hy, hsx, hsy]
  refine ⟨_, rfl, ?_⟩
  unfold Ops.CheckedOp.Overflows
  rw [Bool.not_eq_true', ← Bool.not_eq_true]
  cases signed with
  | true =>
    have hexact (a b : ℤ) : exactSigned opcode a b = checked 128 (op.exact a b) := by cases opcode <;> cases h <;> rfl
    rw [if_pos rfl, if_pos rfl, hexact, signed_fits h₁ hw]
  | false =>
    rw [if_neg Bool.false_ne_true, if_neg Bool.false_ne_true, exactUnsigned_fits hw h hx]

end Overflowing

/-! ## Folding an instruction -/

section Arithmetic

variable {Value : Type} {operand : Value → Option (Imm × Ty)} {data : InstData} {args : List Value} {ty : Ty}
  {width x y : ℕ} (h₁ : 1 ≤ width) (hw : width ≤ 128) (hx : Reads operand args 0 width x)

include h₁ hw hx in
theorem folded_convert (hop : data.opcode = .trunc ∨ data.opcode = .sext ∨ data.opcode = .zext)
    (hgives : data.opcode.Gives width ty) :
    (∀ c, arithmetic operand data args ty = some c → Right data ty width x y c) ↔ ¬ Misread data width x y := by
  obtain ⟨value, source, hvalue, hread, hsource, hxlt⟩ := hx
  have hto : ty.bits ≤ 128 := by
    rcases hop with hop | hop | hop <;> rw [hop] at hgives <;> unfold Opcode.Gives at hgives <;> omega
  obtain ⟨htrunc, hsext, hzext⟩ := convert_bits h₁ hw hsource hto hxlt
  apply right_of_result
  · rcases hop with hop | hop | hop <;> simp [Keeps, hop]
  · rcases hop with hop | hop | hop <;> simp [Misread, hop]
  · intro c hc
    have hdefined : data.opcode.Defined width x y := by
      rcases hop with hop | hop | hop <;> simp [Opcode.Defined, hop]
    refine ⟨?_, hdefined⟩
    rcases hop with hop | hop | hop <;>
      simp only [arithmetic, hop, hvalue, hread, Option.bind_eq_bind, Option.bind_some, Option.some.injEq] at hc <;>
      rw [← hc] <;> simp only [meaning, hop]
    · -- The low bits of the signed reading are those of the pattern.
      rw [hop] at hgives
      rw [htrunc]
      exact pattern_congr ((signedValue_modEq hxlt).of_dvd (pow_dvd_pow 2 hgives.2))
    · exact hsext
    · exact hzext

include h₁ hw hx in
theorem folded_count (hop : data.opcode = .ctlz ∨ data.opcode = .cttz ∨ data.opcode = .ctpop ∨
    data.opcode = .bswap ∨ data.opcode = .bitreverse) (hty : ty.bits = width) :
    (∀ c, arithmetic operand data args ty = some c → Right data ty width x y c) ↔ ¬ Misread data width x y := by
  obtain ⟨value, source, hvalue, hread, hsource, hxlt⟩ := hx
  have harith : arithmetic operand data args ty = count data.opcode ⟨x⟩ source ty := by
    rcases hop with hop | hop | hop | hop | hop <;>
      simp only [arithmetic, hop, hvalue, hread, Option.bind_eq_bind, Option.bind_some]
  rw [harith]
  exact count_right_iff h₁ hw hsource hty hxlt hop

variable (hy : Reads operand args 1 width y)

include h₁ hw hx hy in
theorem folded_shift (hop : data.opcode = .shl ∨ data.opcode = .lshr ∨ data.opcode = .ashr) (hty : ty.bits = width) :
    (∀ c, arithmetic operand data args ty = some c → Right data ty width x y c) ↔ ¬ Misread data width x y := by
  obtain ⟨value, source, hvalue, hread, hsource, hxlt⟩ := hx
  obtain ⟨count, countTy, hcount, hread', hsource', hylt⟩ := hy
  have harith : arithmetic operand data args ty = shift data.opcode ⟨x⟩ source ⟨y⟩ countTy ty data.flags := by
    rcases hop with hop | hop | hop <;>
      simp only [arithmetic, hop, hvalue, hread, hcount, hread', Option.bind_eq_bind, Option.bind_some]
  rw [harith]
  rcases hop with hop | hop
  · exact shl_right_iff h₁ hw hsource hty hxlt hylt hop hsource'
  · exact shr_right_iff h₁ hw hsource hty hxlt hylt hop hsource'

include h₁ hw hx hy in
theorem folded_divide (hop : data.opcode = .sdiv ∨ data.opcode = .udiv ∨ data.opcode = .srem ∨ data.opcode = .urem)
    (hty : ty.bits = width) :
    (∀ c, arithmetic operand data args ty = some c → Right data ty width x y c) ↔ ¬ Misread data width x y := by
  obtain ⟨value, source, hvalue, hread, hsource, hxlt⟩ := hx
  obtain ⟨value', source', hvalue', hread', hsource', hylt⟩ := hy
  have harith : arithmetic operand data args ty = divide data.opcode ⟨x⟩ ⟨y⟩ source ty := by
    rcases hop with hop | hop | hop | hop <;>
      simp only [arithmetic, hop, hvalue, hread, hvalue', hread', Option.bind_eq_bind, Option.bind_some]
  rw [harith]
  exact divide_right_iff h₁ hw hsource hty hxlt hylt hop

include h₁ hw hx hy in
theorem folded_icmp (hop : data.opcode = .icmp) (hty : ty.bits = 1) :
    (∀ c, arithmetic operand data args ty = some c → Right data ty width x y c) ↔ ¬ Misread data width x y := by
  obtain ⟨value, source, hvalue, hread, hsource, hxlt⟩ := hx
  obtain ⟨value', source', hvalue', hread', hsource', hylt⟩ := hy
  apply right_of_result
  · simp [Keeps, hop]
  · simp [Misread, hop]
  · intro c hc
    refine ⟨?_, by simp [Opcode.Defined, hop]⟩
    cases hpred : data.intPred with
    | none =>
      simp only [arithmetic, hop, hpred, Option.bind_eq_bind, Option.bind_none] at hc
      cases hc
    | some pred =>
      simp only [arithmetic, hop, hpred, hvalue, hread, hvalue', hread', Option.bind_eq_bind, Option.bind_some,
        Option.some.injEq] at hc
      rw [← hc, Imm.bits_int (by omega), compare_eq h₁ hw hsource hxlt hylt]
      simp only [meaning, hop, hpred, Option.any_some]

include h₁ hw hx hy in
theorem folded_binary (hop : data.opcode = .add ∨ data.opcode = .sub ∨ data.opcode = .mul ∨ data.opcode = .and ∨
    data.opcode = .or ∨ data.opcode = .xor) (hty : ty.bits = width) :
    (∀ c, arithmetic operand data args ty = some c → Right data ty width x y c) ↔ ¬ Misread data width x y := by
  obtain ⟨value, source, hvalue, hread, hsource, hxlt⟩ := hx
  obtain ⟨value', source', hvalue', hread', hsource', hylt⟩ := hy
  have harith : arithmetic operand data args ty = binary data.opcode ⟨x⟩ ⟨y⟩ source ty data.flags := by
    rcases hop with hop | hop | hop | hop | hop | hop <;>
      simp only [arithmetic, hop, hvalue, hread, hvalue', hread', Option.bind_eq_bind, Option.bind_some]
  rw [harith]
  have hdefined : data.opcode.Defined width x y := by
    rcases hop with hop | hop | hop | hop | hop | hop <;> simp [Opcode.Defined, hop]
  have hsx := signedValue_modEq hxlt
  have hsy := signedValue_modEq hylt
  rcases hop with hop | hop | hop | hop
  · apply binary_right_iff h₁ hw hsource hty hxlt hylt (by rw [hop]; rfl) _ hdefined
      (misread_add h₁ hw hxlt hylt hop)
    simpa only [meaning, hop] using hsx.add hsy
  · apply binary_right_iff h₁ hw hsource hty hxlt hylt (by rw [hop]; rfl) _ hdefined
      (misread_sub h₁ hw hxlt hylt hop)
    simpa only [meaning, hop] using hsx.sub hsy
  · apply binary_right_iff h₁ hw hsource hty hxlt hylt (by rw [hop]; rfl) _ hdefined
      (misread_mul h₁ hw hxlt hylt hop)
    simpa only [meaning, hop] using hsx.mul hsy
  · apply right_of_result
    · rcases hop with hop | hop | hop <;> simp [Keeps, hop]
    · rcases hop with hop | hop | hop <;> simp [Misread, hop]
    · intro c hc
      refine ⟨?_, hdefined⟩
      rcases hop with hop | hop | hop <;> rw [hop] at hc <;> simp only [meaning, hop]
      · exact binary_bits h₁ hw hsource hty hxlt hylt (fun _ _ => rfl) (fun _ _ => Nat.and_mod_two_pow) hc
      · exact binary_bits h₁ hw hsource hty hxlt hylt (fun _ _ => rfl) (fun _ _ => Nat.or_mod_two_pow) hc
      · exact binary_bits h₁ hw hsource hty hxlt hylt (fun _ _ => rfl) (fun _ _ => Nat.xor_mod_two_pow) hc

end Arithmetic

/-- What is asked of folding an instruction on bit patterns of a width, and of every check for overflow there. -/
structure Agrees {Value : Type} (operand : Value → Option (Imm × Ty)) (data : InstData) (args : List Value) (ty : Ty)
    (width x y : ℕ) : Prop where
  folded : ∀ c, arithmetic operand data args ty = some c → Right data ty width x y c
  checked : ∀ (opcode : Opcode) (op : Ops.CheckedOp) (signed : Bool) (ty : Ty) (a b : ℕ),
    opcode.checks = some (op, signed) → ty.isInt = true → ty.isVector = false → ty.bits = width →
    a < 2^width → b < 2^width →
    ∃ flag, overflowing opcode ⟨a⟩ ⟨b⟩ ty = some (⟨pattern width (op.exact a b)⟩, flag) ∧
      (flag = true ↔ op.Overflows signed width a b)

/-- Folding agrees with the arithmetic just where no promise that is broken is let through. -/
theorem agrees_iff {Value : Type} {operand : Value → Option (Imm × Ty)} {data : InstData} {args : List Value} {ty : Ty}
    {width x y : ℕ} (h₁ : 1 ≤ width) (hw : width ≤ 128) (hop : data.opcode.IsArithmetic)
    (hgives : data.opcode.Gives width ty) (hx : Reads operand args 0 width x)
    (hy : ¬ data.opcode.IsUnary → Reads operand args 1 width y) :
    Agrees operand data args ty width x y ↔ ¬ Misread data width x y := by
  have hfolded : (∀ c, arithmetic operand data args ty = some c → Right data ty width x y c) ↔
      ¬ Misread data width x y := by
    cases hcase : data.opcode <;> rw [hcase] at hop hgives hy
    case trunc => exact folded_convert h₁ hw hx (Or.inl hcase) (by rwa [hcase])
    case sext => exact folded_convert h₁ hw hx (Or.inr (Or.inl hcase)) (by rwa [hcase])
    case zext => exact folded_convert h₁ hw hx (Or.inr (Or.inr hcase)) (by rwa [hcase])
    case icmp => exact folded_icmp h₁ hw hx (hy id) hcase hgives
    case select | saddOverflow | uaddOverflow | ssubOverflow | usubOverflow | smulOverflow | umulOverflow | other =>
      exact hop.elim
    case shl | lshr | ashr => exact folded_shift h₁ hw hx (hy id) (by simp [hcase]) hgives
    case sdiv | udiv | srem | urem => exact folded_divide h₁ hw hx (hy id) (by simp [hcase]) hgives
    case ctlz | cttz | ctpop | bswap | bitreverse => exact folded_count h₁ hw hx (by simp [hcase]) hgives
    case add | sub | mul | and | or | xor => exact folded_binary h₁ hw hx (hy id) (by simp [hcase]) hgives
  rw [← hfolded]
  constructor
  · exact fun h => h.folded
  · intro h
    refine ⟨h, ?_⟩
    rintro opcode op signed ty a b hchecks hint hscalar rfl ha hb
    exact overflowing_spec h₁ hw hchecks hint hscalar ha hb

/-- Five and three are added at eight bits with both promises. -/
theorem agrees_five_three :
    Agrees (fun v : ℕ => some (⟨v⟩, Ty.int 8)) ⟨.add, ⟨true, true⟩, none⟩ [5, 3] (Ty.int 8) 8 5 3 := by
  refine (agrees_iff (by decide) (by decide) ?_ ?_ ?_ fun _ => ?_).mpr ?_
  · exact trivial
  · exact rfl
  · exact ⟨5, Ty.int 8, rfl, rfl, rfl, by decide⟩
  · exact ⟨3, Ty.int 8, rfl, rfl, rfl, by decide⟩
  · rintro ⟨-, hsigns, -⟩
    exact absurd hsigns (by decide)

/-- An addition of 255 and one that does not wrap as unsigned is folded to zero at eight bits. -/
theorem not_agrees_wrapping :
    arithmetic (fun v : ℕ => some (⟨v⟩, Ty.int 8)) ⟨.add, ⟨false, true⟩, none⟩ [255, 1] (Ty.int 8) = some ⟨0⟩ ∧
      ¬ Agrees (fun v : ℕ => some (⟨v⟩, Ty.int 8)) ⟨.add, ⟨false, true⟩, none⟩ [255, 1] (Ty.int 8) 8 255 1 := by
  have hzero : arithmetic (fun v : ℕ => some (⟨v⟩, Ty.int 8)) ⟨.add, ⟨false, true⟩, none⟩ [255, 1] (Ty.int 8) =
      some ⟨0⟩ := by decide +kernel
  refine ⟨hzero, fun h => ?_⟩
  have hkeeps := (h.folded ⟨0⟩ hzero).keeps
  exact absurd (hkeeps.2 rfl).2 (by norm_num)

end Fold

end Rucc.Opt
