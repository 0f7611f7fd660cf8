import Rucc.Opt.RangeOps
import Rucc.Opt.RangeSigned

/-!
# What the arithmetic does to ranges is sound

Each transfer returns a well-formed range of the right width that holds the result of the operation
on every two values of its operands. The result is stated in the integers: `pattern` is the bit
pattern of an integer, and a promise of the flags is that an exact result fits the width.

The four transfers that can overflow go one pairing of intervals at a time, so the step is a lemma
about one pairing (`mem_clamped`) and the run is the union over all of them (`perPair_spec`).
-/

namespace Rucc.Opt

open KnownBits Intervals U128 Checked Range

variable {width : ℕ}

/-! ## Patterns of integers -/

/-- The bit pattern of an integer at a width. -/
def pattern (width : ℕ) (z : ℤ) : ℕ := (z % 2^width).toNat

theorem pattern_cast (width : ℕ) (z : ℤ) : (pattern width z : ℤ) = z % 2^width :=
  Int.toNat_of_nonneg (Int.emod_nonneg _ (by positivity))

theorem pattern_lt (width : ℕ) (z : ℤ) : pattern width z < 2^width := by
  have h := Int.emod_lt_of_pos z (show (0 : ℤ) < 2^width by positivity)
  rw [← pattern_cast] at h
  exact_mod_cast h

theorem pattern_natCast (width n : ℕ) : pattern width n = n % 2^width := by
  have h := pattern_cast width n
  exact_mod_cast h

/-- The pattern of a signed number that fits reads as that number. -/
theorem signedValue_pattern {width : ℕ} (h : 1 ≤ width) {z : ℤ} (hz : Fits width z) :
    signedValue width (pattern width z) = z := by
  have hcast : (2^width : ℤ) = 2 * 2^(width - 1) := by exact_mod_cast two_pow_pred h
  have hpat := pattern_cast width z
  have hhalf : ((2^(width - 1) : ℕ) : ℤ) = 2^(width - 1) := by push_cast; rfl
  unfold Fits at hz
  unfold signedValue
  by_cases hneg : 0 ≤ z
  · rw [Int.emod_eq_of_lt hneg (by omega)] at hpat
    rw [if_pos (by omega)]
    exact hpat
  · rw [← Int.add_emod_right, Int.emod_eq_of_lt (by omega) (by omega)] at hpat
    rw [if_neg (by omega)]
    omega

/-- A number and its signed reading leave the same pattern, and so do what is made of them. -/
theorem signedValue_modEq {v : ℕ} (hv : v < 2^width) : signedValue width v ≡ v [ZMOD 2^width] := by
  unfold Int.ModEq
  rw [signedValue_emod hv]
  exact (Int.emod_eq_of_lt (by positivity) (by exact_mod_cast hv)).symm

theorem pattern_congr {z u : ℤ} (h : z ≡ u [ZMOD 2^width]) : pattern width z = pattern width u := by
  unfold pattern
  rw [h]

namespace Ops

variable {a b : Range} {width v : ℕ} {flags : Flags} {s u x y : ℤ}

/-! ## One pairing of intervals -/

/-- A run of `n + 1` patterns that starts at `lo` holds what is no further along than that. -/
theorem mem_wrapping {lo d a b : ℕ} (h : 1 ≤ width) (hw : width ≤ 128) (hd : d ≤ a + b) :
    (lo + d) % 2^width ∈ wrapping lo (span a b width) width := by
  have hclamp := clamp_of_bounds h hw
  have hpos : 0 < 2^width := by positivity
  have hmask := mask_eq hw
  cases hspan : span a b width with
  | none =>
    apply mem_full
    rw [hclamp]
    exact Nat.mod_lt _ hpos
  | some s =>
    have hs : s = a + b ∧ s < mask width := by
      unfold span checkedAdd at hspan
      split_ifs at hspan with hfit
      · simp only at hspan
        split_ifs at hspan with hlt
        cases hspan
        exact ⟨rfl, hlt⟩
    obtain ⟨hs, hlt⟩ := hs
    simp only [wrapping]
    rw [and_mask hw, and_mask hw, Nat.add_mod lo d]
    have hwrap : wrappingAdd (lo % 2^width) s % 2^width = (lo % 2^width + s) % 2^width := by
      unfold wrappingAdd
      exact Nat.mod_mod_of_dvd _ (Nat.pow_dvd_pow 2 hw)
    rw [hwrap]
    have hlo := Nat.mod_lt lo hpos
    generalize lo % 2^width = l at *
    rw [Nat.mod_eq_of_lt (show d < 2^width by omega)]
    -- Both ends are less than a turn past the start.
    have hend : (l + s) % 2^width = if l + s < 2^width then l + s else l + s - 2^width := by
      split_ifs with hc
      · exact Nat.mod_eq_of_lt hc
      · rw [Nat.mod_eq_sub_mod (by omega), Nat.mod_eq_of_lt (by omega)]
    have hmid : (l + d) % 2^width = if l + d < 2^width then l + d else l + d - 2^width := by
      split_ifs with hc
      · exact Nat.mod_eq_of_lt hc
      · rw [Nat.mod_eq_sub_mod (by omega), Nat.mod_eq_of_lt (by omega)]
    rw [hend, hmid]
    by_cases hc : l + s < 2^width
    · rw [if_pos hc, if_pos (by omega)]
      apply mem_between (by omega) (by omega)
      rw [hclamp]
      omega
    · rw [if_neg hc]
      have hlmask : l ≤ mask (clamp width) := by
        rw [hclamp]
        omega
      apply mem_between_wrapped hlmask (by omega)
      rw [hclamp]
      split_ifs <;> omega

theorem wrapping_wellFormed (lo : ℕ) (span : Option ℕ) (width : ℕ) : (wrapping lo span width).WellFormed := by
  cases span with
  | none => exact full_wellFormed width
  | some s => exact between_wellFormed _ _ _

@[simp]
theorem wrapping_width (lo : ℕ) (span : Option ℕ) (width : ℕ) : (wrapping lo span width).width = clamp width := by
  cases span with
  | none => rfl
  | some s => exact between_width _ _ _

/-- The signed ends of an interval bound the reading of every pattern in it. -/
theorem asSigned_spec {p : ℕ × ℕ} (h : 1 ≤ width) (hw : width ≤ 128)
    (hp : p.1 ≤ v ∧ v ≤ p.2) (htop : p.2 ≤ mask width) :
    (asSigned p width).1 ≤ signedValue width v ∧ signedValue width v ≤ (asSigned p width).2 ∧
      -2^(width - 1) ≤ (asSigned p width).1 ∧ (asSigned p width).2 < 2^(width - 1) := by
  have hclamp := clamp_of_bounds h hw
  have hmem : v ∈ between p.1 p.2 width := mem_between hp.1 hp.2 (by rw [hclamp]; exact htop)
  obtain ⟨lo, hi, hsome, hbounds⟩ := signedBounds_spec (between_wellFormed p.1 p.2 width) hmem
  rw [between_width, hclamp] at hbounds
  unfold asSigned
  rw [hsome]
  exact hbounds

/-- The unions of a list of ranges. -/
theorem foldl_union {α : Type} (f : α → Range) (l : List α) (out : Range)
    (hout : out.WellFormed ∧ out.width = width)
    (hf : ∀ x ∈ l, (f x).WellFormed ∧ (f x).width = width) :
    (l.foldl (fun out x => out.union (f x)) out).WellFormed ∧
      (l.foldl (fun out x => out.union (f x)) out).width = width ∧
      ∀ v, (v ∈ out ∨ ∃ x ∈ l, v ∈ f x) → v ∈ l.foldl (fun out x => out.union (f x)) out := by
  induction l generalizing out with
  | nil => exact ⟨hout.1, hout.2, fun v hv => by simpa using hv⟩
  | cons x l ih =>
    obtain ⟨hform, hwidth⟩ := hf x (by simp)
    obtain ⟨h₁, h₂, h₃⟩ := union_spec hout.1 hform (hout.2.trans hwidth.symm)
    obtain ⟨h₄, h₅, h₆⟩ := ih (out.union (f x)) ⟨h₁, h₂.trans hout.2⟩
      (fun y hy => hf y (List.mem_cons_of_mem _ hy))
    refine ⟨h₄, h₅, fun v hv => h₆ v ?_⟩
    rcases hv with hv | ⟨y, hy, hv⟩
    · exact Or.inl (h₃ v (Or.inl hv))
    · rcases List.mem_cons.mp hy with rfl | hy
      · exact Or.inl (h₃ v (Or.inr hv))
      · exact Or.inr ⟨y, hy, hv⟩

/-- What one pairing of intervals holds, the union over all pairings holds. -/
theorem perPair_spec (ha : a.WellFormed) (each : ℕ × ℕ → ℕ × ℕ → Range) (heach : ∀ p ∈ a.pairs, ∀ q ∈ b.pairs,
      (each p q).WellFormed ∧ (each p q).width = a.width) :
    (perPair a b each).WellFormed ∧ (perPair a b each).width = a.width ∧
      ∀ v, ∀ p ∈ a.pairs, ∀ q ∈ b.pairs, v ∈ each p q → v ∈ perPair a b each := by
  have hclamp := clamp_of_bounds ha.one_le_width ha.width_le
  unfold perPair
  split_ifs with hempty
  · refine ⟨empty_wellFormed _, hclamp, fun v p hp q hq => ?_⟩
    rw [Bool.or_eq_true, isEmpty, isEmpty, List.isEmpty_iff, List.isEmpty_iff] at hempty
    rcases hempty with h | h
    · rw [h] at hp
      cases hp
    · rw [h] at hq
      cases hq
  · -- The outer walk unions, for each left interval, what the inner walk unions.
    have hwalk (l : List (ℕ × ℕ)) (hl : ∀ p ∈ l, p ∈ a.pairs) (out : Range)
        (hout : out.WellFormed ∧ out.width = a.width) :
        (l.foldl (fun out left =>
          b.pairs.foldl (fun out right => out.union (each left right)) out) out).WellFormed ∧
        (l.foldl (fun out left =>
          b.pairs.foldl (fun out right => out.union (each left right)) out) out).width = a.width ∧
        ∀ v, (v ∈ out ∨ ∃ p ∈ l, ∃ q ∈ b.pairs, v ∈ each p q) → v ∈ l.foldl (fun out left =>
          b.pairs.foldl (fun out right => out.union (each left right)) out) out := by
      induction l generalizing out with
      | nil => exact ⟨hout.1, hout.2, fun v hv => by simpa using hv⟩
      | cons p l ih =>
        obtain ⟨h₁, h₂, h₃⟩ := foldl_union (each p) b.pairs out hout (heach p (hl p (by simp)))
        obtain ⟨h₄, h₅, h₆⟩ := ih (fun q hq => hl q (List.mem_cons_of_mem _ hq)) _ ⟨h₁, h₂⟩
        refine ⟨h₄, h₅, fun v hv => h₆ v ?_⟩
        rcases hv with hv | ⟨p', hp', q, hq, hv⟩
        · exact Or.inl (h₃ v (Or.inl hv))
        · rcases List.mem_cons.mp hp' with rfl | hp'
          · exact Or.inl (h₃ v (Or.inr ⟨q, hq, hv⟩))
          · exact Or.inr ⟨p', hp', q, hq, hv⟩
    obtain ⟨h₁, h₂, h₃⟩ := hwalk a.pairs (fun p hp => hp) (empty a.width)
      ⟨empty_wellFormed _, hclamp⟩
    exact ⟨h₁, h₂, fun v p hp q hq hv => h₃ v (Or.inr ⟨p, hp, q, hq, hv⟩)⟩

section Clamped

variable {wrapped : Range} {p q : ℕ × ℕ} {flags : Flags} {width : ℕ}
  {signedWindow : ℤ × ℤ → ℤ × ℤ → ℤ × ℤ} {unsignedWindow : ℕ × ℕ → ℕ × ℕ → Option (ℕ × ℕ)}

/-- The value reads inside the signed window, when there is a signed promise. -/
def InSigned (flags : Flags) (window : ℤ × ℤ) (width v : ℕ) : Prop :=
  flags.nsw = true → window.1 ≤ signedValue width v ∧ signedValue width v ≤ window.2

/-- The value is inside the unsigned window, when there is an unsigned promise. -/
def InUnsigned (flags : Flags) (window : Option (ℕ × ℕ)) (v : ℕ) : Prop :=
  flags.nuw = true → ∃ lo hi, window = some (lo, hi) ∧ lo ≤ v ∧ v ≤ hi

theorem clampedSigned_spec (hform : wrapped.WellFormed) (hwidth : wrapped.width = width) :
    (clampedSigned wrapped p q flags width signedWindow).WellFormed ∧
      (clampedSigned wrapped p q flags width signedWindow).width = width ∧
      ∀ v ∈ wrapped, InSigned flags (signedWindow (asSigned p width) (asSigned q width)) width v →
        v ∈ clampedSigned wrapped p q flags width signedWindow := by
  subst hwidth
  unfold clampedSigned
  dsimp only
  generalize signedWindow (asSigned p wrapped.width) (asSigned q wrapped.width) = window
  split_ifs with hnsw
  · obtain ⟨h₁, h₂, h₃⟩ := intersect_spec hform
      (signedBetween_wellFormed window.1 window.2 wrapped.width)
    refine ⟨h₁, h₂, fun v hv hin => h₃ v hv ?_⟩
    obtain ⟨hlo, hhi⟩ := hin hnsw
    exact mem_signedBetween hform.one_le_width hform.width_le (lt_of_mem hv) hlo hhi
  · exact ⟨hform, rfl, fun v hv _ => hv⟩

theorem clampedUnsigned_spec (hform : wrapped.WellFormed) (hwidth : wrapped.width = width) :
    (clampedUnsigned wrapped p q flags width unsignedWindow).WellFormed ∧
      (clampedUnsigned wrapped p q flags width unsignedWindow).width = width ∧
      ∀ v ∈ wrapped, InUnsigned flags (unsignedWindow p q) v →
        v ∈ clampedUnsigned wrapped p q flags width unsignedWindow := by
  subst hwidth
  have hclamp := clamp_of_bounds hform.one_le_width hform.width_le
  unfold clampedUnsigned
  by_cases hnuw : flags.nuw = true
  · rw [if_pos hnuw]
    cases hwindow : unsignedWindow p q with
    | none =>
      refine ⟨empty_wellFormed _, hclamp, fun v _ hin => ?_⟩
      obtain ⟨lo, hi, hsome, -⟩ := hin hnuw
      cases hsome
    | some bounds =>
      obtain ⟨lo, hi⟩ := bounds
      simp only
      split_ifs with hlo
      · obtain ⟨h₁, h₂, h₃⟩ := intersect_spec hform
          (between_wellFormed lo (min hi (mask wrapped.width)) wrapped.width)
        refine ⟨h₁, h₂, fun v hv hin => h₃ v hv ?_⟩
        obtain ⟨lo', hi', hsome, hlo', hhi'⟩ := hin hnuw
        cases hsome
        have hmask := (le_mask_iff hform.width_le).mpr (lt_of_mem hv)
        apply mem_between hlo' (by omega)
        rw [hclamp]
        omega
      · -- The window starts past the width, and no value of the width is in it.
        refine ⟨empty_wellFormed _, hclamp, fun v hv hin => ?_⟩
        obtain ⟨lo', hi', hsome, hlo', -⟩ := hin hnuw
        cases hsome
        have hmask := (le_mask_iff hform.width_le).mpr (lt_of_mem hv)
        omega
  · rw [if_neg hnuw]
    exact ⟨hform, rfl, fun v hv _ => hv⟩

/-- The clamp keeps the form, and every value inside the windows of the promises made. -/
theorem clamped_spec (hform : wrapped.WellFormed) (hwidth : wrapped.width = width) :
    (clamped wrapped p q flags width signedWindow unsignedWindow).WellFormed ∧
      (clamped wrapped p q flags width signedWindow unsignedWindow).width = width ∧
      ∀ v ∈ wrapped, InSigned flags (signedWindow (asSigned p width) (asSigned q width)) width v →
        InUnsigned flags (unsignedWindow p q) v →
        v ∈ clamped wrapped p q flags width signedWindow unsignedWindow := by
  obtain ⟨h₁, h₂, h₃⟩ := @clampedSigned_spec wrapped p q flags width signedWindow hform hwidth
  obtain ⟨h₄, h₅, h₆⟩ := @clampedUnsigned_spec _ p q flags width unsignedWindow h₁ h₂
  exact ⟨h₄, h₅, fun v hv hs hu => h₆ v (h₃ v hv hs) hu⟩

end Clamped

/-- The pairings of two ranges, each clamped: what one of them answers and its windows hold. -/
theorem perPair_clamped_spec {a b : Range} (ha : a.WellFormed) {flags : Flags}
    {wrapped : ℕ × ℕ → ℕ × ℕ → Range} {signedWindow : ℤ × ℤ → ℤ × ℤ → ℤ × ℤ}
    {unsignedWindow : ℕ × ℕ → ℕ × ℕ → Option (ℕ × ℕ)}
    (hwrapped : ∀ p q, (wrapped p q).WellFormed ∧ (wrapped p q).width = a.width) :
    (perPair a b fun p q =>
        clamped (wrapped p q) p q flags a.width signedWindow unsignedWindow).WellFormed ∧
      (perPair a b fun p q =>
        clamped (wrapped p q) p q flags a.width signedWindow unsignedWindow).width = a.width ∧
      ∀ v, ∀ p ∈ a.pairs, ∀ q ∈ b.pairs, v ∈ wrapped p q →
        InSigned flags (signedWindow (asSigned p a.width) (asSigned q a.width)) a.width v →
        InUnsigned flags (unsignedWindow p q) v →
        v ∈ perPair a b fun p q =>
          clamped (wrapped p q) p q flags a.width signedWindow unsignedWindow := by
  obtain ⟨h₁, h₂, h₃⟩ := perPair_spec ha
    (fun p q => clamped (wrapped p q) p q flags a.width signedWindow unsignedWindow)
    (fun p _ q _ => by
      obtain ⟨h₁, h₂, -⟩ := @clamped_spec _ p q flags _ signedWindow unsignedWindow
        (hwrapped p q).1 (hwrapped p q).2
      exact ⟨h₁, h₂⟩)
  refine ⟨h₁, h₂, fun v p hp q hq hv hs hu => h₃ v p hp q hq ?_⟩
  exact (clamped_spec (hwrapped p q).1 (hwrapped p q).2).2.2 v hv hs hu

/-! ## Addition and subtraction -/

/-- The exact results fit the width wherever the flags promise that they do. -/
def Promised (flags : Flags) (width : ℕ) (signedResult unsignedResult : ℤ) : Prop :=
  (flags.nsw = true → Fits width signedResult) ∧
    (flags.nuw = true → 0 ≤ unsignedResult ∧ unsignedResult < 2^width)

/-- The transfer keeps the form and the width, and holds the pattern of the exact result on every
two values that keep the promises. -/
def Sound (transfer : Range → Range → Flags → Range) (exact : ℤ → ℤ → ℤ) : Prop :=
  ∀ a b flags, a.WellFormed → b.WellFormed → a.width = b.width →
    (transfer a b flags).WellFormed ∧ (transfer a b flags).width = a.width ∧
    ∀ x ∈ a, ∀ y ∈ b,
      Promised flags a.width (exact (signedValue a.width x) (signedValue a.width y)) (exact x y) →
      pattern a.width (exact x y) ∈ transfer a b flags

/-- The signed result of a promise that is kept is the reading of the pattern. -/
theorem Promised.signedValue_eq (h : 1 ≤ width)
    (hp : Promised flags width s u) (hsu : s ≡ u [ZMOD 2^width]) (hnsw : flags.nsw = true) :
    signedValue width (pattern width u) = s := by
  rw [← pattern_congr hsu]
  exact signedValue_pattern h (hp.1 hnsw)

/-- The unsigned result of a promise that is kept is the pattern. -/
theorem Promised.pattern_eq (hp : Promised flags width s u)
    (hnuw : flags.nuw = true) : (pattern width u : ℤ) = u := by
  rw [pattern_cast]
  exact Int.emod_eq_of_lt (hp.2 hnuw).1 (hp.2 hnuw).2

theorem Promised.fits (hp : Promised flags width s u)
    (hw : width ≤ 128) (hnsw : flags.nsw = true) : Fits 128 s := (hp.1 hnsw).mono hw

/-- Where in its range a value is: in one interval, with its signed ends around its reading. -/
theorem located {r : Range} (hr : r.WellFormed) (hv : v ∈ r) :
    ∃ p ∈ r.pairs, p.1 ≤ v ∧ v ≤ p.2 ∧ p.2 ≤ mask r.width ∧
      (asSigned p r.width).1 ≤ signedValue r.width v ∧
      signedValue r.width v ≤ (asSigned p r.width).2 := by
  obtain ⟨p, hp, hpv⟩ := (hr.mem.mp hv).2
  have htop := (hr.inside p hp).2
  obtain ⟨hlo, hhi, -⟩ := asSigned_spec hr.one_le_width hr.width_le hpv htop
  exact ⟨p, hp, hpv.1, hpv.2, htop, hlo, hhi⟩

/-- Addition of ranges is sound. -/
theorem add_sound : Sound add (fun x y => x + y) := by
  intro a b flags ha hb hab
  have h₁ := ha.one_le_width
  have hw := ha.width_le
  have hclamp := clamp_of_bounds h₁ hw
  obtain ⟨hform, hwidth, hmem⟩ := perPair_clamped_spec (b := b) ha
    (fun p q => ⟨wrapping_wellFormed _ _ _, (wrapping_width _ _ _).trans hclamp⟩)
  refine ⟨hform, hwidth, fun x hx y hy hpromised => ?_⟩
  dsimp only at hpromised ⊢
  obtain ⟨p, hp, hpx, hxp, hptop, hpl, hph⟩ := located ha hx
  obtain ⟨q, hq, hqy, hyq, hqtop, hql, hqh⟩ := located hb hy
  rw [← hab] at hqtop hql hqh
  have hxlt := lt_of_mem hx
  have hylt := lt_of_mem hy
  rw [← hab] at hylt
  refine hmem _ p hp q hq ?_ ?_ ?_
  · -- The sum is as far along as the two values are along their intervals.
    have hsum : pattern a.width (x + y) =
        (wrappingAdd p.1 q.1 + ((x - p.1) + (y - q.1))) % 2^a.width := by
      have hadd : (wrappingAdd p.1 q.1 + ((x - p.1) + (y - q.1))) % 2^a.width =
          (p.1 + q.1 + ((x - p.1) + (y - q.1))) % 2^a.width := by
        unfold wrappingAdd
        rw [Nat.add_mod, Nat.mod_mod_of_dvd _ (Nat.pow_dvd_pow 2 hw), ← Nat.add_mod]
      rw [hadd, show p.1 + q.1 + ((x - p.1) + (y - q.1)) = x + y by omega, ← pattern_natCast]
      push_cast
      rfl
    rw [hsum]
    exact mem_wrapping h₁ hw (by omega)
  · intro hnsw
    have hmod := Int.ModEq.add (signedValue_modEq hxlt) (signedValue_modEq hylt)
    rw [hpromised.signedValue_eq h₁ hmod hnsw]
    have hfits := hpromised.fits hw hnsw
    exact ⟨saturated_le (by omega) hfits, le_saturated (by omega) hfits⟩
  · intro hnuw
    have hpat := hpromised.pattern_eq hnuw
    have hfit := hpromised.2 hnuw
    have hmask := mask_lt a.width
    have hmask' := mask_eq hw
    have hpow : (2^a.width : ℤ) = ((2^a.width : ℕ) : ℤ) := by push_cast; rfl
    have hle : p.1 + q.1 ≤ mask a.width := by omega
    refine ⟨p.1 + q.1, saturatingAdd p.2 q.2, ?_, by omega, ?_⟩
    · unfold checkedAdd MAX
      rw [if_pos (by omega)]
      simp only [if_pos hle]
    · unfold saturatingAdd MAX
      omega

/-- Subtraction of ranges is sound. -/
theorem sub_sound : Sound sub (fun x y => x - y) := by
  intro a b flags ha hb hab
  have h₁ := ha.one_le_width
  have hw := ha.width_le
  have hclamp := clamp_of_bounds h₁ hw
  obtain ⟨hform, hwidth, hmem⟩ := perPair_clamped_spec (b := b) ha
    (fun p q => ⟨wrapping_wellFormed _ _ _, (wrapping_width _ _ _).trans hclamp⟩)
  refine ⟨hform, hwidth, fun x hx y hy hpromised => ?_⟩
  dsimp only at hpromised ⊢
  obtain ⟨p, hp, hpx, hxp, hptop, hpl, hph⟩ := located ha hx
  obtain ⟨q, hq, hqy, hyq, hqtop, hql, hqh⟩ := located hb hy
  rw [← hab] at hqtop hql hqh
  have hxlt := lt_of_mem hx
  have hylt := lt_of_mem hy
  rw [← hab] at hylt
  have hmask := mask_lt a.width
  refine hmem _ p hp q hq ?_ ?_ ?_
  · -- The run starts at the least of the left interval less the greatest of the right.
    have hdiff : pattern a.width (x - y) =
        (wrappingSub p.1 q.2 + ((x - p.1) + (q.2 - y))) % 2^a.width := by
      have hsub : (wrappingSub p.1 q.2 + ((x - p.1) + (q.2 - y))) % 2^a.width =
          (p.1 + (2^128 - q.2) + ((x - p.1) + (q.2 - y))) % 2^a.width := by
        unfold wrappingSub
        rw [Nat.add_mod, Nat.mod_mod_of_dvd _ (Nat.pow_dvd_pow 2 hw), ← Nat.add_mod]
      rw [hsub, show p.1 + (2^128 - q.2) + ((x - p.1) + (q.2 - y)) = x + (2^128 - y) by omega,
        ← pattern_natCast]
      apply pattern_congr
      have hturn : ((x + (2^128 - y) : ℕ) : ℤ) = (x - y) + 2^128 := by omega
      rw [hturn]
      apply Int.ModEq.symm
      apply Int.modEq_of_dvd
      rw [show (x : ℤ) - y - (x - y + 2^128) = -2^128 by ring]
      exact (pow_dvd_pow 2 hw).neg_right
    rw [hdiff]
    exact mem_wrapping h₁ hw (by omega)
  · intro hnsw
    have hmod := Int.ModEq.sub (signedValue_modEq hxlt) (signedValue_modEq hylt)
    rw [hpromised.signedValue_eq h₁ hmod hnsw]
    have hfits := hpromised.fits hw hnsw
    exact ⟨saturated_le (by omega) hfits, le_saturated (by omega) hfits⟩
  · intro hnuw
    have hpat := hpromised.pattern_eq hnuw
    have hfit := hpromised.2 hnuw
    refine ⟨p.1 - q.2, p.2 - q.1, ?_, by omega, by omega⟩
    rw [checkedSub_of_le (by omega)]

/-- The range of one value. -/
theorem mem_exactly_iff {u : ℕ} (h : 1 ≤ width) (hw : width ≤ 128) (hu : u < 2^width) :
    v ∈ exactly u width ↔ v = u := by
  have hclamp := clamp_of_bounds h hw
  have hself : u &&& mask width = u := and_mask_of_le hw ((le_mask_iff hw).mpr hu)
  constructor
  · intro hv
    have hcov := ((exactly_wellFormed u width).mem.mp hv).2
    simp only [exactly, hclamp, hself, covers_cons, not_covers_nil, or_false] at hcov
    omega
  · rintro rfl
    have hmem := mem_exactly v width
    rwa [hclamp, hself] at hmem

/-- Negation of a range is sound: it is the subtraction from zero. -/
theorem neg_sound (ha : a.WellFormed) (flags : Flags) : (neg a flags).WellFormed ∧ (neg a flags).width = a.width ∧
      ∀ x ∈ a, Promised flags a.width (0 - signedValue a.width x) (0 - x) →
        pattern a.width (-x) ∈ neg a flags := by
  have h₁ := ha.one_le_width
  have hw := ha.width_le
  have hclamp := clamp_of_bounds h₁ hw
  have hzero : (exactly 0 a.width).width = a.width := hclamp
  obtain ⟨hform, hwidth, hmem⟩ := sub_sound (exactly 0 a.width) a flags
    (exactly_wellFormed 0 a.width) ha hzero
  refine ⟨hform, hwidth.trans hzero, fun x hx hpromised => ?_⟩
  have h0 : signedValue a.width 0 = 0 := by
    unfold signedValue
    rw [if_pos (by positivity)]
    rfl
  have hmem0 := hmem 0 ((mem_exactly_iff h₁ hw (by positivity)).mpr rfl) x hx
  rw [hzero, h0] at hmem0
  simp only [Nat.cast_zero, zero_sub] at hmem0 hpromised
  exact hmem0 hpromised

/-! ## Multiplication -/

/-- A product of numbers between bounds is no less than some product of the bounds. -/
theorem exists_corner_le {al ah bl bh x y : ℤ} (hx : al ≤ x ∧ x ≤ ah) (hy : bl ≤ y ∧ y ≤ bh) :
    al * bl ≤ x * y ∨ al * bh ≤ x * y ∨ ah * bl ≤ x * y ∨ ah * bh ≤ x * y := by
  rcases le_total 0 y with hy0 | hy0
  · -- The smaller left factor gives the smaller product.
    have hleft : al * y ≤ x * y := mul_le_mul_of_nonneg_right hx.1 hy0
    rcases le_total 0 al with ha0 | ha0
    · exact Or.inl ((mul_le_mul_of_nonneg_left hy.1 ha0).trans hleft)
    · exact Or.inr (Or.inl ((mul_le_mul_of_nonpos_left hy.2 ha0).trans hleft))
  · have hright : ah * y ≤ x * y := mul_le_mul_of_nonpos_right hx.2 hy0
    rcases le_total 0 ah with ha0 | ha0
    · exact Or.inr (Or.inr (Or.inl ((mul_le_mul_of_nonneg_left hy.1 ha0).trans hright)))
    · exact Or.inr (Or.inr (Or.inr ((mul_le_mul_of_nonpos_left hy.2 ha0).trans hright)))

/-- A product of numbers between bounds is no greater than some product of the bounds. -/
theorem exists_le_corner {al ah bl bh : ℤ} (hx : al ≤ x ∧ x ≤ ah) (hy : bl ≤ y ∧ y ≤ bh) :
    x * y ≤ al * bl ∨ x * y ≤ al * bh ∨ x * y ≤ ah * bl ∨ x * y ≤ ah * bh := by
  -- A greatest corner is a least one with the left factor's sign turned.
  have hneg := @exists_corner_le (-ah) (-al) bl bh (-x) y ⟨by omega, by omega⟩ hy
  simp only [neg_mul, neg_le_neg_iff] at hneg
  rcases hneg with h | h | h | h
  · exact Or.inr (Or.inr (Or.inl h))
  · exact Or.inr (Or.inr (Or.inr h))
  · exact Or.inl h
  · exact Or.inr (Or.inl h)

/-- The saturated corners bound a product that fits. -/
theorem corners_spec {a b : ℤ × ℤ} (hx : a.1 ≤ x ∧ x ≤ a.2) (hy : b.1 ≤ y ∧ y ≤ b.2)
    (hfits : Fits 128 (x * y)) : (corners a b).1 ≤ x * y ∧ x * y ≤ (corners a b).2 := by
  constructor
  · have hsome : saturated 128 (a.1 * b.1) ≤ x * y ∨ saturated 128 (a.1 * b.2) ≤ x * y ∨
        saturated 128 (a.2 * b.1) ≤ x * y ∨ saturated 128 (a.2 * b.2) ≤ x * y := by
      rcases exists_corner_le hx hy with h | h | h | h
      · exact Or.inl (saturated_le h hfits)
      · exact Or.inr (Or.inl (saturated_le h hfits))
      · exact Or.inr (Or.inr (Or.inl (saturated_le h hfits)))
      · exact Or.inr (Or.inr (Or.inr (saturated_le h hfits)))
    simpa only [corners, min_le_iff, or_assoc] using hsome
  · have hsome : x * y ≤ saturated 128 (a.1 * b.1) ∨ x * y ≤ saturated 128 (a.1 * b.2) ∨
        x * y ≤ saturated 128 (a.2 * b.1) ∨ x * y ≤ saturated 128 (a.2 * b.2) := by
      rcases exists_le_corner hx hy with h | h | h | h
      · exact Or.inl (le_saturated h hfits)
      · exact Or.inr (Or.inl (le_saturated h hfits))
      · exact Or.inr (Or.inr (Or.inl (le_saturated h hfits)))
      · exact Or.inr (Or.inr (Or.inr (le_saturated h hfits)))
    simpa only [corners, le_max_iff, or_assoc] using hsome

theorem pattern_mul (width x y : ℕ) : pattern width (x * y) = x * y % 2^width := by
  rw [← pattern_natCast]
  push_cast
  rfl

theorem checkedProduct_spec (p q : ℕ × ℕ) (h : 1 ≤ width) (hw : width ≤ 128) :
    (checkedProduct p q width).WellFormed ∧ (checkedProduct p q width).width = width ∧
      ∀ x y : ℕ, p.1 ≤ x ∧ x ≤ p.2 → q.1 ≤ y ∧ y ≤ q.2 →
        pattern width (x * y) ∈ checkedProduct p q width := by
  have hclamp := clamp_of_bounds h hw
  by_cases hfits : p.2 * q.2 ≤ mask width ∧ p.1 * q.1 ≤ MAX
  · have hmax := le_trans hfits.1 (mask_le width)
    have heq : checkedProduct p q width = between (p.1 * q.1) (p.2 * q.2) width := by
      simp only [checkedProduct, checkedMul, if_pos hfits.2, if_pos hmax, if_pos hfits.1]
    rw [heq]
    refine ⟨between_wellFormed _ _ _, (between_width _ _ _).trans hclamp, ?_⟩
    intro x y hx hy
    have hle : p.1 * q.1 ≤ x * y := Nat.mul_le_mul hx.1 hy.1
    have hge : x * y ≤ p.2 * q.2 := Nat.mul_le_mul hx.2 hy.2
    have hlt := (le_mask_iff hw).mp (le_trans hge hfits.1)
    rw [pattern_mul, Nat.mod_eq_of_lt hlt]
    exact mem_between hle hge (by rw [hclamp]; exact hfits.1)
  · -- Either end overflowing leaves everything.
    have heq : checkedProduct p q width = full width := by
      unfold checkedProduct checkedMul
      split_ifs with hlow hhigh
      · dsimp only
        rw [if_neg (fun h => hfits ⟨h, hlow⟩)]
      all_goals rfl
    rw [heq]
    refine ⟨full_wellFormed _, hclamp, fun x y _ _ => mem_full ?_⟩
    rw [hclamp]
    exact pattern_lt _ _

theorem wrappedProduct_spec (p q : ℕ × ℕ) (h : 1 ≤ width) (hw : width ≤ 128) :
    (wrappedProduct p q width).WellFormed ∧ (wrappedProduct p q width).width = width ∧
      ∀ x y : ℕ, p.1 ≤ x ∧ x ≤ p.2 → q.1 ≤ y ∧ y ≤ q.2 →
        pattern width (x * y) ∈ wrappedProduct p q width := by
  have hclamp := clamp_of_bounds h hw
  unfold wrappedProduct
  split_ifs with hone
  · refine ⟨exactly_wellFormed _ _, hclamp, fun x y hx hy => ?_⟩
    obtain rfl : x = p.1 := by omega
    obtain rfl : y = q.1 := by omega
    have hmem := mem_exactly (wrappingMul p.1 q.1) width
    have hmod : wrappingMul p.1 q.1 &&& mask width = pattern width (p.1 * q.1) := by
      rw [pattern_mul, and_mask hw]
      unfold wrappingMul
      exact Nat.mod_mod_of_dvd _ (Nat.pow_dvd_pow 2 hw)
    rwa [hclamp, hmod] at hmem
  · exact checkedProduct_spec p q h hw

/-- Bits that know a number to be a multiple allow every pattern of a multiple. -/
theorem low_allows {k n : ℕ} (hw : width ≤ 128) (hdvd : 2^k ∣ n) :
    (Bits.fromParts 0 (shiftLeft (mask width) k) width).allows (n % 2^width) = true := by
  apply Bits.fromParts_allows hw (Nat.mod_lt _ (by positivity))
  intro i hi hclear
  have hlt : i < k := by
    by_contra hge
    have hset : (shiftLeft (mask width) k).testBit i = true := by
      unfold shiftLeft
      rw [Nat.testBit_mod_two_pow, Nat.testBit_shiftLeft, mask_eq hw, Nat.testBit_two_pow_sub_one]
      simp only [Bool.and_eq_true, decide_eq_true_eq]
      omega
    rw [hset] at hclear
    cases hclear
  rw [Nat.zero_testBit, Nat.testBit_mod_two_pow, testBit_of_dvd hdvd hlt, Bool.and_false]

/-- The low bits two numbers are known to have clear are clear in their product. -/
theorem lowOfProduct_allows (ha : a.WellFormed) (hb : b.WellFormed) {x y : ℕ}
    (hx : x ∈ a) (hy : y ∈ b) : (lowOfProduct a b).allows (pattern a.width (x * y)) = true := by
  have hw := ha.width_le
  have hdvd : 2^(a.bits.lowZeros + b.bits.lowZeros) ∣ x * y := by
    rw [pow_add]
    exact Nat.mul_dvd_mul (Bits.dvd_lowZeros (ha.lt_word hx) (ha.mem.mp hx).1)
      (Bits.dvd_lowZeros (hb.lt_word hy) (hb.mem.mp hy).1)
  have hdvd' : 2^min (a.bits.lowZeros + b.bits.lowZeros) a.width ∣ x * y :=
    dvd_trans (Nat.pow_dvd_pow 2 (Nat.min_le_left _ _)) hdvd
  unfold lowOfProduct
  dsimp only
  rw [pattern_mul]
  split_ifs with hall
  · -- So many zeros that nothing is left.
    have hzero : x * y % 2^a.width = 0 :=
      Nat.mod_eq_zero_of_dvd (dvd_trans (Nat.pow_dvd_pow 2 hall) hdvd')
    rw [hzero]
    have hexact := Bits.exactly_allows 0 a.width
    rwa [Nat.zero_and] at hexact
  · exact low_allows hw hdvd'

theorem productWindow_spec {p q : ℕ × ℕ} {x y : ℕ}
    (hw : width ≤ 128) (hx : p.1 ≤ x ∧ x ≤ p.2) (hy : q.1 ≤ y ∧ y ≤ q.2)
    (hpromised : Promised flags width s (x * y)) :
    InUnsigned flags (productWindow width p q) (pattern width (x * y)) := by
  intro hnuw
  have hpat := hpromised.pattern_eq hnuw
  have hlt : x * y < 2^width := by exact_mod_cast (hpromised.2 hnuw).2
  have hmask := (le_mask_iff hw).mpr hlt
  have hmax := mask_le width
  have hle : p.1 * q.1 ≤ x * y := Nat.mul_le_mul hx.1 hy.1
  have hge : x * y ≤ p.2 * q.2 := Nat.mul_le_mul hx.2 hy.2
  have heq : pattern width (x * y) = x * y := by exact_mod_cast hpat
  rw [heq]
  refine ⟨p.1 * q.1, saturatingMul p.2 q.2, ?_, hle, ?_⟩
  · unfold productWindow checkedMul
    rw [if_pos (by omega)]
    simp only [if_pos (show p.1 * q.1 ≤ mask width by omega)]
  · unfold saturatingMul
    omega

/-- The product of two ranges holds the product of two values whenever the signed window of their
pairing does. -/
theorem mul_spec (ha : a.WellFormed) (hb : b.WellFormed) (flags : Flags) :
    (mul a b flags).WellFormed ∧ (mul a b flags).width = a.width ∧
      ∀ x ∈ a, ∀ y ∈ b, ∀ p ∈ a.pairs, ∀ q ∈ b.pairs, p.1 ≤ x ∧ x ≤ p.2 → q.1 ≤ y ∧ y ≤ q.2 →
        InSigned flags (corners (asSigned p a.width) (asSigned q a.width)) a.width
          (pattern a.width (x * y)) →
        InUnsigned flags (productWindow a.width p q) (pattern a.width (x * y)) →
        pattern a.width (x * y) ∈ mul a b flags := by
  have h₁ := ha.one_le_width
  have hw := ha.width_le
  have hclamp := clamp_of_bounds h₁ hw
  have hpair := @perPair_clamped_spec a b ha flags _ corners (productWindow a.width)
    (fun p q => ⟨(wrappedProduct_spec p q h₁ hw).1, (wrappedProduct_spec p q h₁ hw).2.1⟩)
  unfold mul
  obtain ⟨hform, hwidth, hmem⟩ := hpair
  split_ifs with hempty
  · refine ⟨empty_wellFormed _, hclamp, fun x hx y hy => ?_⟩
    rw [Bool.or_eq_true] at hempty
    rcases hempty with h | h
    · exact absurd hx (not_mem_of_isEmpty ha h x)
    · exact absurd hy (not_mem_of_isEmpty hb h y)
  · obtain ⟨h₂, h₃, h₄⟩ := narrow_spec hform (lowOfProduct a b)
    refine ⟨h₂, h₃.trans hwidth, fun x hx y hy p hp q hq hpx hqy hs hu => h₄ _ ?_ ?_⟩
    · exact hmem _ p hp q hq ((wrappedProduct_spec p q h₁ hw).2.2 x y hpx hqy) hs hu
    · exact lowOfProduct_allows ha hb hx hy

/-- Multiplication of ranges is sound. -/
theorem mul_sound : Sound mul (fun x y => x * y) := by
  intro a b flags ha hb hab
  have h₁ := ha.one_le_width
  have hw := ha.width_le
  obtain ⟨hform, hwidth, hmem⟩ := mul_spec ha hb flags
  refine ⟨hform, hwidth, fun x hx y hy hpromised => ?_⟩
  dsimp only at hpromised ⊢
  obtain ⟨p, hp, hpx, hxp, hptop, hpl, hph⟩ := located ha hx
  obtain ⟨q, hq, hqy, hyq, hqtop, hql, hqh⟩ := located hb hy
  rw [← hab] at hql hqh
  have hylt := lt_of_mem hy
  rw [← hab] at hylt
  refine hmem x hx y hy p hp q hq ⟨hpx, hxp⟩ ⟨hqy, hyq⟩ ?_
    (productWindow_spec hw ⟨hpx, hxp⟩ ⟨hqy, hyq⟩ hpromised)
  intro hnsw
  have hmod := Int.ModEq.mul (signedValue_modEq (lt_of_mem hx)) (signedValue_modEq hylt)
  rw [hpromised.signedValue_eq h₁ hmod hnsw]
  exact corners_spec ⟨hpl, hph⟩ ⟨hql, hqh⟩ (hpromised.fits hw hnsw)

end Ops

end Rucc.Opt
