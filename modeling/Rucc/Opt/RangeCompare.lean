import Rucc.Opt.RangeSound

/-!
# What ranges settle, and what an operand must have been

The questions of `rucc-opt`'s `range/ops.rs` that are asked of ranges and not of values: whether a comparison or
an overflow check is settled, what a comparison leaves of its left operand, and what an operation must have been
given. A range's bounds are the outermost ends of its intervals, which hold every value of it and may hold more,
so each question is answered for the bounds and the answer is one about the values.
-/

namespace Rucc.Opt.Ops

open U128 Checked Range

variable {width x : ℕ} {never always : Bool} {p : ℕ × ℕ}

/-- What is known about whether something holds. -/
inductive Truth where
  | always | never | either
  deriving DecidableEq

/-- Which arithmetic an overflow builtin checks. -/
inductive CheckedOp where
  | add | sub | mul
  deriving DecidableEq

/-- The answer of two tests, the first for never. -/
def settled (never always : Bool) : Truth := if never then .never else if always then .always else .either

/-- The bounds of an operation done in the integers, if a word holds what they are made of. -/
def signedWindow (op : CheckedOp) (a b : ℤ × ℤ) : Option (ℤ × ℤ) :=
  match op with
  | .add => do some (← checked 128 (a.1 + b.1), ← checked 128 (a.2 + b.2))
  | .sub => do some (← checked 128 (a.1 - b.2), ← checked 128 (a.2 - b.1))
  | .mul =>
    [checked 128 (a.1 * b.1), checked 128 (a.1 * b.2), checked 128 (a.2 * b.1), checked 128 (a.2 * b.2)].foldlM
      (fun (window : ℤ × ℤ) corner => corner.map fun c => (min window.1 c, max window.2 c)) (2^127 - 1, -2^127)

/-- The two tests of an unsigned check. -/
def unsignedTests (op : CheckedOp) (a b : ℕ × ℕ) (top : ℕ) : Bool × Bool :=
  match op with
  | .add => ((checkedAdd a.2 b.2).any fun hi => hi ≤ top, (checkedAdd a.1 b.1).all fun lo => lo > top)
  | .sub => (a.1 ≥ b.2, a.2 < b.1)
  | .mul => ((checkedMul a.2 b.2).any fun hi => hi ≤ top, (checkedMul a.1 b.1).all fun lo => lo > top)

/-- Whether an overflow builtin's flag is settled, read off the bounds of its operands. -/
def overflows (op : CheckedOp) (signed : Bool) (a b : Range) : Truth :=
  if signed then
    match a.signedBounds, b.signedBounds with
    | some left, some right =>
      let (least, greatest) := signedLimits a.width
      match signedWindow op left right with
      | some (lo, hi) => settled (lo ≥ least && hi ≤ greatest) (hi < least || lo > greatest)
      | none => .either
    | _, _ => .either
  else
    match a.unsignedBounds, b.unsignedBounds with
    | some left, some right =>
      let (never, always) := unsignedTests op left right (mask a.width)
      settled never always
    | _, _ => .either

/-- The predicate that holds when this one does not. -/
def IntPred.inverse : IntPred → IntPred
  | .eq => .ne
  | .ne => .eq
  | .slt => .sge
  | .sge => .slt
  | .sle => .sgt
  | .sgt => .sle
  | .ult => .uge
  | .uge => .ult
  | .ule => .ugt
  | .ugt => .ule

/-- Whether two ranges are the same one value. -/
def sameSingleton (a b : Range) : Bool :=
  match a.singleton, b.singleton with
  | some x, some y => x == y
  | _, _ => false

/-- Whether some pair of values, one from each, satisfies the comparison. -/
def possible (pred : IntPred) (a b : Range) : Bool :=
  match a.unsignedBounds, b.unsignedBounds, a.signedBounds, b.signedBounds with
  | some (ul, uh), some (vl, vh), some (sl, sh), some (tl, th) =>
    match pred with
    | .eq => !(a.intersect b).isEmpty
    | .ne => !sameSingleton a b
    | .ult => ul < vh
    | .ule => ul ≤ vh
    | .ugt => uh > vl
    | .uge => uh ≥ vl
    | .slt => sl < th
    | .sle => sl ≤ th
    | .sgt => sh > tl
    | .sge => sh ≥ tl
  | _, _, _, _ => false

/-- Whether the ranges settle the comparison. -/
def compare (pred : IntPred) (a b : Range) : Truth :=
  if a.isEmpty || b.isEmpty then .either
  else
    match possible pred a b, possible pred.inverse a b with
    | true, false => .always
    | false, true => .never
    | _, _ => .either

/-! ## What the questions are about -/

/-- Whether two bit patterns of a width satisfy a comparison. -/
def IntPred.Holds (pred : IntPred) (width x y : ℕ) : Prop :=
  match pred with
  | .eq => x = y
  | .ne => x ≠ y
  | .ult => x < y
  | .ule => x ≤ y
  | .ugt => y < x
  | .uge => y ≤ x
  | .slt => signedValue width x < signedValue width y
  | .sle => signedValue width x ≤ signedValue width y
  | .sgt => signedValue width y < signedValue width x
  | .sge => signedValue width y ≤ signedValue width x

theorem IntPred.holds_inverse (pred : IntPred) {y : ℕ} : pred.inverse.Holds width x y ↔ ¬ pred.Holds width x y := by
  cases pred <;> simp only [IntPred.inverse, IntPred.Holds] <;> omega

/-- The exact result of a checked operation. -/
def CheckedOp.exact (op : CheckedOp) (x y : ℤ) : ℤ :=
  match op with
  | .add => x + y
  | .sub => x - y
  | .mul => x * y

/-- Whether the exact result for two bit patterns does not fit the width. -/
def CheckedOp.Overflows (op : CheckedOp) (signed : Bool) (width x y : ℕ) : Prop :=
  if signed then ¬ Fits width (op.exact (signedValue width x) (signedValue width y))
  else ¬ (0 ≤ op.exact x y ∧ op.exact x y < 2^width)

/-- Whether an undone operation has a second operand. -/
def Undo.IsBinary (undo : Undo) : Prop :=
  match undo with
  | .addLeft | .subRight | .subLeft | .xor => True
  | _ => False

/-- An operation with a result of this width: what an extension extends is no wider. -/
def Undo.Makes (undo : Undo) (width : ℕ) : Prop :=
  match undo with
  | .zext source => 1 ≤ source ∧ source ≤ width
  | .sext source => 1 ≤ source ∧ source ≤ width
  | _ => True

/-- The width an undone operation's operand has, which is the result's but for the extensions. -/
def Undo.operandWidth (undo : Undo) (width : ℕ) : ℕ :=
  match undo with
  | .zext source => source
  | .sext source => source
  | _ => width

/-- What an operation makes of an operand, with another where it has two. -/
def Undo.forward (undo : Undo) (width x y : ℕ) : ℕ :=
  match undo with
  | .addLeft => pattern width (x + y)
  | .subRight => pattern width (y - x)
  | .subLeft => pattern width (x - y)
  | .neg => pattern width (-x)
  | .not => 2^width - 1 - x
  | .xor => x ^^^ y
  | .zext _ => x
  | .sext source => pattern width (signedValue source x)
  | .uDiv divisor => x / divisor

/-! ## Comparisons -/

section Pair

variable {a b : Range} (ha : a.WellFormed) (hb : b.WellFormed) {x y : ℕ}

include ha hb in
/-- The bounds of two ranges around a value of each. -/
theorem bounds_around (hx : x ∈ a) (hy : y ∈ b) :
    ∃ ul uh vl vh sl sh tl th, a.unsignedBounds = some (ul, uh) ∧ b.unsignedBounds = some (vl, vh) ∧
      a.signedBounds = some (sl, sh) ∧ b.signedBounds = some (tl, th) ∧
      (ul ≤ x ∧ x ≤ uh) ∧ (vl ≤ y ∧ y ≤ vh) ∧
      (sl ≤ signedValue a.width x ∧ signedValue a.width x ≤ sh) ∧
      tl ≤ signedValue b.width y ∧ signedValue b.width y ≤ th := by
  obtain ⟨ul, uh, hu, hul, huh, -⟩ := unsignedBounds_spec ha hx
  obtain ⟨vl, vh, hv, hvl, hvh, -⟩ := unsignedBounds_spec hb hy
  obtain ⟨sl, sh, hs, hsl, hsh, -⟩ := signedBounds_spec ha hx
  obtain ⟨tl, th, ht, htl, hth, -⟩ := signedBounds_spec hb hy
  exact ⟨ul, uh, vl, vh, sl, sh, tl, th, hu, hv, hs, ht, ⟨hul, huh⟩, ⟨hvl, hvh⟩, ⟨hsl, hsh⟩, htl, hth⟩

/-- A range of one value holds no other. -/
theorem eq_of_singleton {value : ℕ} (hr : a.WellFormed) (h : a.singleton = some value) (hx : x ∈ a) : x = value := by
  have hcov := (hr.mem.mp hx).2
  unfold Range.singleton at h
  split at h
  · rename_i lo hi hpairs
    split_ifs at h with heq
    rw [hpairs] at hcov
    simp only [Intervals.covers_cons, Intervals.not_covers_nil, or_false] at hcov
    have := Option.some.inj h
    omega
  · cases h

include ha hb in
/-- A comparison that some pair of values satisfies is possible. -/
theorem possible_of_holds (hab : a.width = b.width) {pred : IntPred} (hx : x ∈ a) (hy : y ∈ b)
    (h : pred.Holds a.width x y) : possible pred a b = true := by
  obtain ⟨ul, uh, vl, vh, sl, sh, tl, th, hu, hv, hs, ht, hxu, hyv, hxs, hyt⟩ := bounds_around ha hb hx hy
  rw [← hab] at hyt
  unfold possible
  rw [hu, hv, hs, ht]
  cases pred with
  | eq =>
    dsimp only [IntPred.Holds] at h ⊢
    subst h
    have hmem := (intersect_spec ha hb).2.2 x hx hy
    rw [Bool.not_eq_true', ← Bool.not_eq_true]
    exact fun hempty => not_mem_of_isEmpty (intersect_spec ha hb).1 hempty x hmem
  | ne =>
    dsimp only [IntPred.Holds] at h ⊢
    rw [Bool.not_eq_true', ← Bool.not_eq_true]
    unfold sameSingleton
    split
    · rename_i u v hau hbv
      rw [beq_iff_eq]
      rintro rfl
      exact h ((eq_of_singleton ha hau hx).trans (eq_of_singleton hb hbv hy).symm)
    · decide
  | _ =>
    dsimp only [IntPred.Holds] at h ⊢
    rw [decide_eq_true_iff]
    omega

include ha hb in
/-- A comparison is settled only one way for every pair of values. -/
theorem compare_sound (hab : a.width = b.width) (pred : IntPred) (hx : x ∈ a) (hy : y ∈ b) :
    (compare pred a b = .always → pred.Holds a.width x y) ∧
      (compare pred a b = .never → ¬ pred.Holds a.width x y) := by
  have hpossible := @possible_of_holds a b ha hb x y hab
  unfold compare
  split_ifs
  · exact ⟨fun h => (by cases h), fun h => (by cases h)⟩
  · constructor
    · intro h
      by_contra hnot
      rw [hpossible hx hy (pred.holds_inverse.mpr hnot)] at h
      cases hp : possible pred a b <;> rw [hp] at h <;> cases h
    · intro h hholds
      rw [hpossible hx hy hholds] at h
      cases hp : possible pred.inverse a b <;> rw [hp] at h <;> cases h

end Pair

/-! ## Overflow checks -/

theorem settled_eq_never : settled never always = .never ↔ never = true := by
  cases never <;> cases always <;> decide

theorem settled_eq_always : settled never always = .always ↔ never = false ∧ always = true := by
  cases never <;> cases always <;> decide

/-- A window bounds the exact results on numbers between the bounds. -/
theorem signedWindow_spec {op : CheckedOp} {a b window : ℤ × ℤ} {x y : ℤ} (h : signedWindow op a b = some window)
    (hx : a.1 ≤ x ∧ x ≤ a.2) (hy : b.1 ≤ y ∧ y ≤ b.2) :
    window.1 ≤ op.exact x y ∧ op.exact x y ≤ window.2 := by
  have hpair {l r : ℤ} (h : (do some (← checked 128 l, ← checked 128 r)) = some window) : window = (l, r) := by
    simp only [Option.bind_eq_bind, Option.bind_eq_some_iff, checked_eq_some] at h
    obtain ⟨_, ⟨-, rfl⟩, _, ⟨-, rfl⟩, h⟩ := h
    exact (Option.some.inj h).symm
  cases op with
  | add =>
    rw [hpair h]
    dsimp only [CheckedOp.exact]
    omega
  | sub =>
    rw [hpair h]
    dsimp only [CheckedOp.exact]
    omega
  | mul =>
    simp only [signedWindow, List.foldlM_cons, List.foldlM_nil, Option.bind_eq_bind, Option.bind_eq_some_iff,
      Option.map_eq_some_iff, checked_eq_some] at h
    obtain ⟨_, ⟨_, ⟨-, rfl⟩, rfl⟩, _, ⟨_, ⟨-, rfl⟩, rfl⟩, _, ⟨_, ⟨-, rfl⟩, rfl⟩, _, ⟨_, ⟨-, rfl⟩, rfl⟩, h⟩ := h
    obtain rfl := Option.some.inj h
    dsimp only [CheckedOp.exact]
    constructor
    · simpa only [min_le_iff, or_assoc] using Or.inr (exists_corner_le hx hy)
    · simpa only [le_max_iff, or_assoc] using Or.inr (exists_le_corner hx hy)

section Pair

variable {a b : Range} (ha : a.WellFormed) (hb : b.WellFormed) (hab : a.width = b.width) {x y : ℕ}

include ha hb hab in
/-- An overflow check is settled only one way for every pair of values. -/
theorem overflows_sound (op : CheckedOp) (signed : Bool) (hx : x ∈ a) (hy : y ∈ b) :
    (overflows op signed a b = .always → op.Overflows signed a.width x y) ∧
      (overflows op signed a b = .never → ¬ op.Overflows signed a.width x y) := by
  obtain ⟨ul, uh, vl, vh, sl, sh, tl, th, hu, hv, hs, ht, hxu, hyv, hxs, hyt⟩ := bounds_around ha hb hx hy
  rw [← hab] at hyt
  unfold overflows CheckedOp.Overflows
  cases signed with
  | true =>
    rw [if_pos rfl, if_pos rfl, hs, ht, signedLimits_eq ha.width_le]
    dsimp only
    cases hwindow : signedWindow op (sl, sh) (tl, th) with
    | none => exact ⟨fun h => (by cases h), fun h => (by cases h)⟩
    | some window =>
      have hbetween := signedWindow_spec hwindow hxs hyt
      dsimp only
      rw [settled_eq_never, settled_eq_always]
      unfold Fits
      simp only [ge_iff_le, gt_iff_lt, Bool.and_eq_true, Bool.or_eq_true, decide_eq_true_eq]
      constructor
      · rintro ⟨-, h⟩
        omega
      · intro h
        omega
  | false =>
    rw [if_neg (by decide), if_neg (by decide), hu, hv]
    dsimp only
    rw [settled_eq_never, settled_eq_always]
    have hmask := mask_eq ha.width_le
    have hpow : (2^a.width : ℤ) = ((2^a.width : ℕ) : ℤ) := by push_cast; rfl
    have hpos : 0 < 2^a.width := by positivity
    have hmax : mask a.width ≤ MAX := mask_le _
    have hlow : ul * vl ≤ x * y := Nat.mul_le_mul hxu.1 hyv.1
    have hhigh : x * y ≤ uh * vh := Nat.mul_le_mul hxu.2 hyv.2
    cases op with
    | add =>
      simp only [unsignedTests, checkedAdd, CheckedOp.exact]
      constructor
      · rintro ⟨-, h⟩
        split_ifs at h with hfit
        · simp only [Option.all_some, gt_iff_lt, decide_eq_true_eq] at h
          omega
        · omega
      · intro h
        split_ifs at h with hfit
        · simp only [Option.any_some, decide_eq_true_eq] at h
          omega
        · cases h
    | sub =>
      simp only [unsignedTests, CheckedOp.exact, ge_iff_le, decide_eq_true_eq]
      have hxlt := lt_of_mem hx
      exact ⟨fun h => by omega, fun h => by omega⟩
    | mul =>
      have hcast : (x : ℤ) * y = ((x * y : ℕ) : ℤ) := by push_cast; rfl
      simp only [unsignedTests, checkedMul, CheckedOp.exact]
      rw [hcast]
      constructor
      · rintro ⟨-, h⟩
        split_ifs at h with hfit
        · simp only [Option.all_some, gt_iff_lt, decide_eq_true_eq] at h
          omega
        · omega
      · intro h
        split_ifs at h with hfit
        · simp only [Option.any_some, decide_eq_true_eq] at h
          omega
        · cases h

end Pair

/-! ## What a comparison leaves of its left operand -/

section Pair

variable {a b : Range} (ha : a.WellFormed) (hb : b.WellFormed) (hab : a.width = b.width) {x y : ℕ}

include ha hb hab in
/-- A value that compares so with some value of the right operand is one the comparison allows. -/
theorem mem_allowed {pred : IntPred} {ul uh : ℕ} {sl sh : ℤ} {r : Range} (hx : x < 2^a.width) (hy : y ∈ b)
    (hyu : ul ≤ y ∧ y ≤ uh) (hytop : uh ≤ mask a.width)
    (hys : sl ≤ signedValue a.width y ∧ signedValue a.width y ≤ sh) (hholds : pred.Holds a.width x y)
    (h : allowed pred b ul uh sl sh a.width = some r) : x ∈ r := by
  have h₁ := ha.one_le_width
  have hw := ha.width_le
  have hclamp := clamp_of_bounds h₁ hw
  have hxmask := (le_mask_iff hw).mpr hx
  have hbounds := signedValue_bounds h₁ hx
  have hylt := lt_of_mem hy
  rw [← hab] at hylt
  have hybounds := signedValue_bounds h₁ hylt
  have hbetween {lo hi : ℕ} (hlo : lo ≤ x) (hhi : x ≤ hi) (hin : hi ≤ mask a.width) :
      x ∈ between lo hi a.width := mem_between hlo hhi (by rwa [hclamp])
  have hsigned {lo hi : ℤ} (hlo : lo ≤ signedValue a.width x) (hhi : signedValue a.width x ≤ hi) :
      x ∈ signedBetween lo hi a.width := mem_signedBetween h₁ hw hx hlo hhi
  have hfits : Fits 128 (signedValue a.width x) := Fits.mono hbounds hw
  cases pred <;> dsimp only [IntPred.Holds] at hholds <;>
    simp only [allowed, signedLimits_eq hw, Option.some.injEq, Option.map_eq_some_iff] at h
  case eq =>
    rw [← h, hholds]
    exact hy
  case ne =>
    obtain ⟨value, hvalue, rfl⟩ := h
    have hyvalue := eq_of_singleton hb hvalue hy
    rw [hyvalue] at hylt hholds
    exact mem_otherThan (by rwa [hclamp]) (by rwa [hclamp]) hholds
  case ult =>
    rw [if_neg (by omega)] at h
    rw [← h]
    exact hbetween (Nat.zero_le x) (by omega) (by omega)
  case ule =>
    rw [← h]
    exact hbetween (Nat.zero_le x) (by omega) hytop
  case ugt =>
    rw [if_neg (by omega)] at h
    rw [← h]
    exact hbetween (by omega) hxmask le_rfl
  case uge =>
    rw [← h]
    exact hbetween (by omega) hxmask le_rfl
  case slt =>
    rw [← h]
    exact hsigned hbounds.1 (le_saturated (by omega) hfits)
  case sle =>
    rw [← h]
    exact hsigned hbounds.1 (by omega)
  case sgt =>
    rw [← h]
    exact hsigned (saturated_le (by omega) hfits) (by omega)
  case sge =>
    rw [← h]
    exact hsigned (by omega) (by omega)

include ha hb hab in
/-- No value is lost that compares so with some value of the right operand. -/
theorem narrowFor_sound (pred : IntPred) (hx : x ∈ a) (hy : y ∈ b) (hholds : pred.Holds a.width x y) :
    x ∈ narrowFor pred a b := by
  obtain ⟨ul, uh, hu, hul, huh, htop⟩ := unsignedBounds_spec hb hy
  obtain ⟨sl, sh, hs, hsl, hsh, -⟩ := signedBounds_spec hb hy
  rw [← hab] at htop hsl hsh
  unfold narrowFor
  rw [hu, hs]
  dsimp only
  rw [if_neg (fun hempty => not_mem_of_isEmpty ha hempty x hx)]
  cases hallowed : allowed pred b ul uh sl sh a.width with
  | none => exact hx
  | some r =>
    have hr := mem_allowed ha hb hab (lt_of_mem hx) hy ⟨hul, huh⟩ htop ⟨hsl, hsh⟩ hholds hallowed
    exact (intersect_spec ha (allowed_wellFormed hb hallowed)).2.2 x hx hr

end Pair

/-! ## What an operand must have been -/

theorem promised_none (width : ℕ) (s u : ℤ) : Promised Flags.NONE width s u :=
  ⟨fun h => (by cases h), fun h => (by cases h)⟩

/-- An operand that is the result with the operation undone, modulo the width, is its pattern. -/
theorem pattern_eq_of_modEq {z : ℤ} (hx : x < 2^width) (h : z ≡ x [ZMOD 2^width]) : pattern width z = x := by
  rw [pattern_congr h, pattern_natCast, Nat.mod_eq_of_lt hx]

theorem pattern_modEq (width : ℕ) (z : ℤ) : (pattern width z : ℤ) ≡ z [ZMOD 2^width] := by
  rw [pattern_cast]
  exact Int.mod_modEq _ _

/-- The dividends of an interval of quotients are those the division takes into it. -/
theorem mem_dividends {divisor top : ℕ} (hpos : 0 < divisor) (hx : x ≤ top)
    (htop : top ≤ MAX) (h : p.1 ≤ x / divisor ∧ x / divisor ≤ p.2) :
    (dividends divisor top p).1 ≤ x ∧ x ≤ (dividends divisor top p).2 := by
  have hlow : p.1 * divisor ≤ x := (Nat.le_div_iff_mul_le hpos).mp h.1
  have hhigh : x < (p.2 + 1) * divisor := (Nat.div_lt_iff_lt_mul hpos).mp (by omega)
  rw [Nat.succ_mul] at hhigh
  unfold dividends saturatingAdd
  dsimp only
  omega

/-- An interval inside the width loses nothing, whatever the others are. -/
theorem mem_fromPairs_of_mem {pairs : List (ℕ × ℕ)} {v : ℕ} (hp : p ∈ pairs)
    (hv : p.1 ≤ v ∧ v ≤ p.2) (htop : p.2 ≤ mask (clamp width)) : v ∈ fromPairs pairs width := by
  have hw := (clamp_bounds width).2
  apply (fromPairs_spec pairs width).2
  refine ⟨p, List.mem_filter.mpr ⟨List.mem_map.mpr ⟨p, hp, ?_⟩, ?_⟩, hv⟩
  · rw [and_mask_of_le hw htop, and_mask_of_le hw (show p.1 ≤ mask (clamp width) by omega)]
  · rw [decide_eq_true_iff]
    omega

section Undo

variable {a b : Range} (ha : a.WellFormed) {x : ℕ}

include ha in
/-- The operand of an extension is one the result cut back to its width holds. -/
theorem mem_trunc_intersect {extended : Range} {source v : ℕ} (hext : extended.WellFormed)
    (hsource : 1 ≤ source ∧ source ≤ a.width) (hva : v ∈ a) (hv : v ∈ extended) (hx : v % 2^source = x) :
    x ∈ trunc (a.intersect extended) source := by
  have hmem := (trunc_sound (intersect_spec ha hext).1 source).2.2 v ((intersect_spec ha hext).2.2 v hva hv)
  rwa [clamp_of_bounds hsource.1 (hsource.2.trans ha.width_le), hx] at hmem

include ha in
/-- Every operand an unsigned division takes into the result. -/
theorem mem_backward_uDiv {divisor : ℕ} (hx : x < 2^a.width) (h : x / divisor ∈ a) :
    x ∈ backward (.uDiv divisor) a b := by
  have hw := ha.width_le
  have hclamp := clamp_of_bounds ha.one_le_width hw
  have hxmask := (le_mask_iff hw).mpr hx
  unfold backward
  dsimp only
  split_ifs with hzero
  · exact mem_full (by rwa [hclamp])
  · have hpos : 0 < divisor := Nat.pos_of_ne_zero hzero
    have hquotient : x / divisor ∈ between 0 (mask a.width / divisor) a.width :=
      mem_between (Nat.zero_le _) (Nat.div_le_div_right hxmask) (by rw [hclamp]; exact Nat.div_le_self _ _)
    obtain ⟨hform, hwidth, hmem⟩ := intersect_spec ha (between_wellFormed 0 (mask a.width / divisor) a.width)
    obtain ⟨p, hp, hpx⟩ := (hform.mem.mp (hmem _ h hquotient)).2
    have hbounds := mem_dividends hpos hxmask (mask_le _) hpx
    exact mem_fromPairs_of_mem (List.mem_map_of_mem hp) hbounds (by rw [hclamp]; exact Nat.min_le_right _ _)

include ha in
/-- Every operand that some value of the other takes to a value of the result. -/
theorem backward_sound (hb : b.WellFormed) (hab : a.width = b.width) {undo : Undo} (hmakes : undo.Makes a.width)
    (hx : x < 2^undo.operandWidth a.width) {y : ℕ} (hy : undo.IsBinary → y ∈ b)
    (h : undo.forward a.width x y ∈ a) : x ∈ backward undo a b := by
  have h₁ := ha.one_le_width
  have hw := ha.width_le
  cases undo with
  | addLeft =>
    dsimp only [Undo.forward, Undo.operandWidth] at h hx
    have hback := (pattern_modEq a.width (x + y)).sub_right y
    rw [add_sub_cancel_right] at hback
    have hmem := (sub_sound a b Flags.NONE ha hb hab).2.2 _ h y (hy trivial) (promised_none _ _ _)
    dsimp only at hmem
    rwa [pattern_eq_of_modEq hx hback] at hmem
  | subRight =>
    dsimp only [Undo.forward, Undo.operandWidth] at h hx
    have hback := (pattern_modEq a.width (y - x)).sub_left y
    rw [sub_sub_cancel] at hback
    have hmem := (sub_sound b a Flags.NONE hb ha hab.symm).2.2 y (hy trivial) _ h (promised_none _ _ _)
    dsimp only at hmem
    rwa [← hab, pattern_eq_of_modEq hx hback] at hmem
  | subLeft =>
    dsimp only [Undo.forward, Undo.operandWidth] at h hx
    have hback := (pattern_modEq a.width (x - y)).add_right y
    rw [sub_add_cancel] at hback
    have hmem := (add_sound a b Flags.NONE ha hb hab).2.2 _ h y (hy trivial) (promised_none _ _ _)
    dsimp only at hmem
    rwa [pattern_eq_of_modEq hx hback] at hmem
  | neg =>
    dsimp only [Undo.forward, Undo.operandWidth] at h hx
    have hback := (pattern_modEq a.width (-x)).neg
    rw [neg_neg] at hback
    have hmem := (neg_sound ha Flags.NONE).2.2 _ h (promised_none _ _ _)
    rwa [pattern_eq_of_modEq hx hback] at hmem
  | not =>
    dsimp only [Undo.forward, Undo.operandWidth] at h hx
    have hmem := (not_sound ha).2.2 _ h
    rwa [show 2^a.width - 1 - (2^a.width - 1 - x) = x by omega] at hmem
  | xor =>
    have hmem := (xor_sound ha hb hab).2.2 _ h y (hy trivial)
    dsimp only [Undo.forward] at hmem
    rwa [Nat.xor_assoc, Nat.xor_self, Nat.xor_zero] at hmem
  | zext source =>
    dsimp only [Undo.forward, Undo.operandWidth] at h hx
    have hclamp := clamp_of_bounds hmakes.1 (hmakes.2.trans hw)
    obtain ⟨hext, -, hmem⟩ := zext_sound (full_wellFormed source) a.width
    have hextended := hmem x (mem_full (by rwa [hclamp]))
    rw [clamp_of_bounds h₁ hw, Nat.mod_eq_of_lt (lt_of_mem h)] at hextended
    exact mem_trunc_intersect ha hext hmakes h hextended (Nat.mod_eq_of_lt hx)
  | sext source =>
    dsimp only [Undo.forward, Undo.operandWidth] at h hx
    have hclamp := clamp_of_bounds hmakes.1 (hmakes.2.trans hw)
    obtain ⟨hext, -, hmem⟩ := sext_sound (full_wellFormed source) a.width
    have hextended := hmem x (mem_full (by rwa [hclamp]))
    rw [clamp_of_bounds h₁ hw, full_width, hclamp] at hextended
    apply mem_trunc_intersect ha hext hmakes h hextended
    -- The low bits of the signed reading are the operand.
    rw [← pattern_natCast]
    apply pattern_eq_of_modEq hx
    have hlow := (pattern_modEq a.width (signedValue source x)).of_dvd (pow_dvd_pow 2 hmakes.2)
    exact hlow.trans (signedValue_modEq hx)
  | uDiv divisor => exact mem_backward_uDiv ha hx h

end Undo

end Rucc.Opt.Ops
