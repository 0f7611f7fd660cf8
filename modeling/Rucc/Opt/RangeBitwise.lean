import Rucc.Opt.RangeTransfers

/-!
# What the bitwise operations and the casts do to ranges is sound

A bit of a result is known where the operands settle it, so each of these is an argument about one
place at a time, beside one bound on the size of the result. The casts move intervals whole, split
where they wrap or cross the sign boundary.
-/

namespace Rucc.Opt

open KnownBits Intervals U128 Checked Range

namespace Ops

variable {a : Range} {x i width : ℕ}

/-! ## Bitwise operations -/

/-- A bit known to be one is one. -/
theorem testBit_of_ones (ha : a.WellFormed) (hx : x ∈ a) (h : (ones a).testBit i = true) : x.testBit i = true := by
  have hagree := (a.bits.allows_iff (ha.lt_word hx)).mp (ha.mem.mp hx).1
  have hknown : a.bits.unknown.testBit i = false := by
    have hcanonical := a.bits.canonical
    rw [Nat.and_comm] at hcanonical
    exact testBit_of_and_eq_zero hcanonical h
  rw [hagree i hknown]
  exact h

/-- A bit known to be zero is not known to be one. -/
theorem ones_of_zeros (h : (zeros a width).testBit i = true) : (ones a).testBit i = false := by
  rw [zeros, Nat.testBit_and, Nat.testBit_and, testBit_complement a.bits.value_lt] at h
  simp only [Bool.and_eq_true, Bool.not_eq_true'] at h
  exact h.1.1.2

/-- A bit known to be zero is zero. -/
theorem testBit_of_zeros (ha : a.WellFormed) (hx : x ∈ a)
    (h : (zeros a width).testBit i = true) : x.testBit i = false := by
  have hagree := (a.bits.allows_iff (ha.lt_word hx)).mp (ha.mem.mp hx).1
  rw [zeros, Nat.testBit_and, Nat.testBit_and, testBit_complement a.bits.value_lt,
    testBit_complement a.bits.unknown_lt] at h
  simp only [Bool.and_eq_true, Bool.not_eq_true'] at h
  rw [hagree i h.1.2.2]
  exact h.1.1.2

/-- A place that is not left unknown is known to be one or known to be zero. -/
theorem testBit_known {ones zeros : ℕ} (hw : width ≤ 128) (hi : i < width)
    (hones : ones < 2^128) (hzeros : zeros < 2^128)
    (h : (mask width &&& complement ones &&& complement zeros).testBit i = false) :
    ones.testBit i = true ∨ zeros.testBit i = true := by
  rw [Nat.testBit_and, Nat.testBit_and, testBit_complement hones, testBit_complement hzeros,
    mask_eq hw, Nat.testBit_two_pow_sub_one] at h
  have hi' : i < 128 := by omega
  cases hone : ones.testBit i
  · cases hzero : zeros.testBit i
    · simp [hi, hi', hone, hzero] at h
    · exact Or.inr rfl
  · exact Or.inl rfl

theorem zeros_lt (a : Range) (width : ℕ) : zeros a width < 2^128 :=
  Nat.and_lt_two_pow _ (mask_lt width)

section Bitwise

variable {a b : Range} (ha : a.WellFormed) (hb : b.WellFormed)
include ha hb

theorem and_sound : (and a b).WellFormed ∧ (and a b).width = a.width ∧ ∀ x ∈ a, ∀ y ∈ b, x &&& y ∈ and a b := by
  have hw := ha.width_le
  have hclamp := clamp_of_bounds ha.one_le_width hw
  unfold and
  split
  · rename_i al ah bl bh hsome hsome'
    dsimp only
    obtain ⟨h₁, h₂, h₃⟩ := narrow_spec (between_wellFormed 0 (min ah bh) a.width)
      (Bits.fromParts (ones a &&& ones b) (mask a.width &&& complement (ones a &&& ones b) &&&
        complement (zeros a a.width ||| zeros b a.width)) a.width)
    refine ⟨h₁, h₂.trans ((between_width _ _ _).trans hclamp), fun x hx y hy => h₃ _ ?_ ?_⟩
    · -- The result is no larger than either operand.
      obtain ⟨lo, hi, hs, -, hxhi, htop⟩ := unsignedBounds_spec ha hx
      obtain ⟨lo', hi', hs', -, hyhi, -⟩ := unsignedBounds_spec hb hy
      rw [hsome] at hs
      rw [hsome'] at hs'
      cases hs
      cases hs'
      have hleft : x &&& y ≤ x := Nat.and_le_left
      have hright : x &&& y ≤ y := Nat.and_le_right
      apply mem_between (Nat.zero_le _) (by omega)
      rw [hclamp]
      omega
    · apply Bits.fromParts_allows hw (lt_of_le_of_lt Nat.and_le_left (lt_of_mem hx))
      intro i hi hknown
      have hones : ones a &&& ones b < 2^128 := Nat.and_lt_two_pow _ b.bits.value_lt
      have hzeros := Nat.or_lt_two_pow (zeros_lt a a.width) (zeros_lt b a.width)
      rcases testBit_known hw hi hones hzeros hknown with h | h
      · rw [h]
        rw [Nat.testBit_and, Bool.and_eq_true] at h ⊢
        exact ⟨testBit_of_ones ha hx h.1, testBit_of_ones hb hy h.2⟩
      · rw [Nat.testBit_or, Bool.or_eq_true] at h
        rw [Nat.testBit_and, Nat.testBit_and]
        rcases h with h | h
        · rw [testBit_of_zeros ha hx h, ones_of_zeros h, Bool.false_and, Bool.false_and]
        · rw [testBit_of_zeros hb hy h, ones_of_zeros h, Bool.and_false, Bool.and_false]
  · rename_i hnone
    refine ⟨empty_wellFormed _, hclamp, fun x hx y hy => ?_⟩
    obtain ⟨lo, hi, hs, -⟩ := unsignedBounds_spec ha hx
    obtain ⟨lo', hi', hs', -⟩ := unsignedBounds_spec hb hy
    exact absurd hs' (hnone lo hi lo' hi' hs)

theorem or_sound (hab : a.width = b.width) :
    (or a b).WellFormed ∧ (or a b).width = a.width ∧ ∀ x ∈ a, ∀ y ∈ b, x ||| y ∈ or a b := by
  have hw := ha.width_le
  have hclamp := clamp_of_bounds ha.one_le_width hw
  unfold or
  split
  · rename_i al ah bl bh hsome hsome'
    dsimp only
    obtain ⟨h₁, h₂, h₃⟩ := narrow_spec (between_wellFormed (max al bl) (mask a.width) a.width)
      (Bits.fromParts (ones a ||| ones b) (mask a.width &&& complement (ones a ||| ones b) &&&
        complement (zeros a a.width &&& zeros b a.width)) a.width)
    refine ⟨h₁, h₂.trans ((between_width _ _ _).trans hclamp), fun x hx y hy => ?_⟩
    have hylt := lt_of_mem hy
    rw [← hab] at hylt
    have hlt : x ||| y < 2^a.width := Nat.or_lt_two_pow (lt_of_mem hx) hylt
    refine h₃ _ ?_ ?_
    · -- The result is no smaller than either operand.
      obtain ⟨lo, hi, hs, hlox, -⟩ := unsignedBounds_spec ha hx
      obtain ⟨lo', hi', hs', hloy, -⟩ := unsignedBounds_spec hb hy
      rw [hsome] at hs
      rw [hsome'] at hs'
      cases hs
      cases hs'
      have hleft : x ≤ x ||| y := Nat.left_le_or
      have hright : y ≤ x ||| y := Nat.right_le_or
      apply mem_between (by omega) ((le_mask_iff hw).mpr hlt)
      rw [hclamp]
    · apply Bits.fromParts_allows hw hlt
      intro i hi hknown
      have hones : ones a ||| ones b < 2^128 := Nat.or_lt_two_pow a.bits.value_lt b.bits.value_lt
      have hzeros : zeros a a.width &&& zeros b a.width < 2^128 :=
        Nat.and_lt_two_pow _ (zeros_lt b a.width)
      rcases testBit_known hw hi hones hzeros hknown with h | h
      · rw [h]
        rw [Nat.testBit_or, Bool.or_eq_true] at h ⊢
        exact h.imp (testBit_of_ones ha hx) (testBit_of_ones hb hy)
      · rw [Nat.testBit_and, Bool.and_eq_true] at h
        rw [Nat.testBit_or, Nat.testBit_or, testBit_of_zeros ha hx h.1, testBit_of_zeros hb hy h.2,
          ones_of_zeros h.1, ones_of_zeros h.2]
  · rename_i hnone
    refine ⟨empty_wellFormed _, hclamp, fun x hx y hy => ?_⟩
    obtain ⟨lo, hi, hs, -⟩ := unsignedBounds_spec ha hx
    obtain ⟨lo', hi', hs', -⟩ := unsignedBounds_spec hb hy
    exact absurd hs' (hnone lo hi lo' hi' hs)

theorem xor_sound (hab : a.width = b.width) :
    (xor a b).WellFormed ∧ (xor a b).width = a.width ∧ ∀ x ∈ a, ∀ y ∈ b, x ^^^ y ∈ xor a b := by
  have hw := ha.width_le
  have hclamp := clamp_of_bounds ha.one_le_width hw
  unfold xor
  split_ifs with hempty
  · refine ⟨empty_wellFormed _, hclamp, fun x hx y hy => ?_⟩
    rw [Bool.or_eq_true] at hempty
    rcases hempty with h | h
    · exact absurd hx (not_mem_of_isEmpty ha h x)
    · exact absurd hy (not_mem_of_isEmpty hb h y)
  · dsimp only
    generalize hparts : Bits.fromParts _ _ a.width = bits
    obtain ⟨h₁, h₂, h₃⟩ := narrow_spec (full_wellFormed a.width) bits
    refine ⟨h₁, h₂.trans hclamp, fun x hx y hy => ?_⟩
    have hylt := lt_of_mem hy
    rw [← hab] at hylt
    have hlt : x ^^^ y < 2^a.width := Nat.xor_lt_two_pow (lt_of_mem hx) hylt
    refine h₃ _ (mem_full (by rwa [hclamp])) ?_
    rw [← hparts]
    apply Bits.fromParts_allows hw hlt
    intro i hi hknown
    have hi' : i < 128 := by omega
    have hlt' : complement a.bits.unknown &&& complement b.bits.unknown < 2^128 :=
      Nat.and_lt_two_pow _ (complement_lt _)
    -- The place is known in both operands, and each has there what its bits say.
    simp only [Nat.testBit_and, testBit_complement hlt', testBit_complement a.bits.unknown_lt,
      testBit_complement b.bits.unknown_lt, mask_eq hw, Nat.testBit_two_pow_sub_one, hi, hi',
      decide_true, Bool.true_and, Bool.not_eq_false', Bool.and_eq_true, Bool.not_eq_true'] at hknown
    have hagree := (a.bits.allows_iff (ha.lt_word hx)).mp (ha.mem.mp hx).1 i hknown.1
    have hagree' := (b.bits.allows_iff (hb.lt_word hy)).mp (hb.mem.mp hy).1 i hknown.2
    simp [Nat.testBit_and, Nat.testBit_xor, testBit_complement a.bits.unknown_lt,
      testBit_complement b.bits.unknown_lt, hagree, hagree', hknown, hi']

end Bitwise

/-- The complement reverses every interval. -/
theorem not_sound (ha : a.WellFormed) :
    (not a).WellFormed ∧ (not a).width = a.width ∧ ∀ x ∈ a, 2^a.width - 1 - x ∈ not a := by
  have hw := ha.width_le
  have hclamp := clamp_of_bounds ha.one_le_width hw
  refine ⟨fromPairs_wellFormed _ _, (fromPairs_width _ _).trans hclamp, fun x hx => ?_⟩
  have hmask := mask_eq hw
  apply mem_fromPairs
  · rw [hclamp]
    intro p hp
    obtain ⟨q, hq, rfl⟩ := List.mem_map.mp hp
    have hin := ha.inside q hq
    simp only
    omega
  · obtain ⟨p, hp, hpx⟩ := (ha.mem.mp hx).2
    have hin := ha.inside p hp
    refine ⟨_, List.mem_map_of_mem hp, ?_⟩
    simp only
    omega

/-! ## Casts -/

/-- A value less than a turn past another, at a narrower width. -/
theorem mod_of_le {lo x m : ℕ} (hlo : lo ≤ x) (hlt : x - lo < m) :
    x % m = if lo % m + (x - lo) < m then lo % m + (x - lo) else lo % m + (x - lo) - m := by
  have hpos : 0 < m := by omega
  have hmod := Nat.mod_lt lo hpos
  have hsplit : x % m = (lo % m + (x - lo)) % m := by
    rw [Nat.mod_add_mod]
    congr 1
    omega
  rw [hsplit]
  split_ifs with hc
  · exact Nat.mod_eq_of_lt hc
  · rw [Nat.mod_eq_sub_mod (by omega), Nat.mod_eq_of_lt (by omega)]

/-- A run shorter than a turn is one interval or two at the narrower width. -/
theorem covers_cut {target : ℕ} {p : ℕ × ℕ} (hw : target ≤ 128)
    (hshort : p.2 - p.1 < mask target) (hx : p.1 ≤ x ∧ x ≤ p.2) :
    Covers (cut target p) (x % 2^target) := by
  have hmask := mask_eq hw
  have hhi := @mod_of_le p.1 p.2 (2^target) (by omega) (by omega)
  have hmid := @mod_of_le p.1 x (2^target) hx.1 (by omega)
  have hlo := Nat.mod_lt p.1 (show 0 < 2^target by positivity)
  unfold cut
  dsimp only
  rw [and_mask hw, and_mask hw]
  by_cases hc : p.1 % 2^target ≤ p.2 % 2^target
  · rw [if_pos hc]
    simp only [covers_cons, not_covers_nil, or_false]
    split_ifs at hhi hmid <;> omega
  · rw [if_neg hc]
    simp only [covers_cons, not_covers_nil, or_false]
    split_ifs at hhi hmid <;> omega

theorem cut_inside (target : ℕ) (p : ℕ × ℕ) : Inside (mask target) (cut target p) := by
  intro q hq
  unfold cut at hq
  dsimp only at hq
  have hlo := and_mask_le p.1 target
  have hhi := and_mask_le p.2 target
  split_ifs at hq with hc
  · rw [List.mem_singleton] at hq
    rw [hq]
    exact ⟨hc, hhi⟩
  · simp only [List.mem_cons, List.not_mem_nil, or_false] at hq
    rcases hq with rfl | rfl <;> simp only <;> omega

/-- Truncation is sound, at any target width. -/
theorem trunc_sound (ha : a.WellFormed) (target : ℕ) :
    (trunc a target).WellFormed ∧ (trunc a target).width = clamp target ∧
      ∀ x ∈ a, x % 2^clamp target ∈ trunc a target := by
  have hw := (clamp_bounds target).2
  unfold trunc
  dsimp only
  split_ifs with hlong
  · refine ⟨full_wellFormed _, clamp_clamp _, fun x _ => mem_full ?_⟩
    rw [clamp_clamp]
    exact Nat.mod_lt _ (by positivity)
  · refine ⟨fromPairs_wellFormed _ _, (fromPairs_width _ _).trans (clamp_clamp _), fun x hx => ?_⟩
    obtain ⟨p, hp, hpx⟩ := (ha.mem.mp hx).2
    apply mem_fromPairs
    · rw [clamp_clamp]
      intro q hq
      obtain ⟨p, -, hq⟩ := List.mem_flatMap.mp hq
      exact cut_inside _ p q hq
    · have hshort : p.2 - p.1 < mask (clamp target) := by
        by_contra hge
        exact hlong (List.any_eq_true.mpr ⟨p, hp, by simpa using hge⟩)
      exact (covers_cut hw hshort hpx).mono fun q hq => List.mem_flatMap.mpr ⟨p, hp, hq⟩

/-- The value with zeroes on top is the value. -/
theorem zext_sound (ha : a.WellFormed) (target : ℕ) :
    (zext a target).WellFormed ∧ (zext a target).width = clamp target ∧
      ∀ x ∈ a, x % 2^clamp target ∈ zext a target := by
  have hw := (clamp_bounds target).2
  unfold zext
  dsimp only
  split_ifs with hnarrow
  · have htrunc := trunc_sound ha (clamp target)
    rwa [clamp_clamp] at htrunc
  · obtain ⟨h₁, h₂, h₃⟩ := narrow_spec (fromPairs_wellFormed a.pairs (clamp target))
      (Bits.fromParts 0 (mask a.width) (clamp target))
    refine ⟨h₁, h₂.trans ((fromPairs_width _ _).trans (clamp_clamp _)), fun x hx => ?_⟩
    have hpow : 2^a.width ≤ 2^clamp target := Nat.pow_le_pow_right (by norm_num) (by omega)
    have hlt := lt_of_mem hx
    have hlt' : x < 2^clamp target := by omega
    rw [Nat.mod_eq_of_lt hlt']
    refine h₃ x (mem_fromPairs ?_ (ha.mem.mp hx).2) ?_
    · rw [clamp_clamp]
      intro p hp
      have hin := ha.inside p hp
      have hmask := mask_eq ha.width_le
      have hmask' := mask_eq hw
      omega
    · apply Bits.fromParts_allows hw hlt'
      intro i hi hclear
      rw [mask_eq ha.width_le, Nat.testBit_two_pow_sub_one, decide_eq_false_iff_not] at hclear
      rw [testBit_of_lt hlt (Nat.le_of_not_lt hclear), Nat.zero_testBit]

/-- The value with the sign bit on top is the pattern of its signed reading. -/
theorem sext_sound (ha : a.WellFormed) (target : ℕ) :
    (sext a target).WellFormed ∧ (sext a target).width = clamp target ∧
      ∀ x ∈ a, pattern (clamp target) (signedValue a.width x) ∈ sext a target := by
  have hw := (clamp_bounds target).2
  unfold sext
  dsimp only
  split_ifs with hnarrow
  · obtain ⟨h₁, h₂, h₃⟩ := trunc_sound ha (clamp target)
    rw [clamp_clamp] at h₂ h₃
    refine ⟨h₁, h₂, fun x hx => ?_⟩
    have hmod := (signedValue_modEq (lt_of_mem hx)).of_dvd (pow_dvd_pow 2 hnarrow)
    rw [pattern_congr hmod, pattern_natCast]
    exact h₃ x hx
  · have hmask := mask_eq ha.width_le
    have hmask' := mask_eq hw
    have hpow : 2^a.width < 2^clamp target := Nat.pow_lt_pow_right (by norm_num) (by omega)
    have htwo := two_pow_pred ha.one_le_width
    have hpos : 0 < 2^(a.width - 1) := by positivity
    refine ⟨fromPairs_wellFormed _ _, (fromPairs_width _ _).trans (clamp_clamp _), fun x hx => ?_⟩
    have hlt := lt_of_mem hx
    apply mem_fromPairs
    · rw [clamp_clamp]
      intro q hq
      obtain ⟨p, hp, hq⟩ := List.mem_flatMap.mp hq
      have hin := ha.inside p hp
      simp only [lifted, signBit_eq, List.mem_append] at hq
      rcases hq with hq | hq
      · split_ifs at hq with hside
        · rw [List.mem_singleton] at hq
          rw [hq]
          simp only
          omega
        · cases hq
      · split_ifs at hq with hside
        · rw [List.mem_singleton] at hq
          rw [hq]
          simp only
          omega
        · cases hq
    · obtain ⟨p, hp, hpx⟩ := (ha.mem.mp hx).2
      have hin := ha.inside p hp
      by_cases hside : x < 2^(a.width - 1)
      · -- Below the boundary the value stays where it is.
        have hpat : pattern (clamp target) (signedValue a.width x) = x := by
          unfold signedValue
          rw [if_pos hside, pattern_natCast, Nat.mod_eq_of_lt (by omega)]
        rw [hpat]
        refine ⟨(p.1, min p.2 (2^(a.width - 1) - 1)),
          List.mem_flatMap.mpr ⟨p, hp, ?_⟩, by simp only; omega⟩
        simp [lifted, signBit_eq, show p.1 < 2^(a.width - 1) by omega]
      · -- At and above it the value moves up by the difference of the widths.
        have hpat : pattern (clamp target) (signedValue a.width x) =
            x + (mask (clamp target) - mask a.width) := by
          have hcast := pattern_cast (clamp target) (signedValue a.width x)
          unfold signedValue at hcast ⊢
          rw [if_neg hside] at hcast ⊢
          have hpow' : (2^a.width : ℤ) = ((2^a.width : ℕ) : ℤ) := by push_cast; rfl
          have hpow'' : (2^clamp target : ℤ) = ((2^clamp target : ℕ) : ℤ) := by push_cast; rfl
          rw [← Int.add_emod_right, Int.emod_eq_of_lt (by omega) (by omega)] at hcast
          omega
        rw [hpat]
        refine ⟨(max p.1 (2^(a.width - 1)) + (mask (clamp target) - mask a.width),
          p.2 + (mask (clamp target) - mask a.width)),
          List.mem_flatMap.mpr ⟨p, hp, ?_⟩, by simp only; omega⟩
        simp [lifted, signBit_eq, show 2^(a.width - 1) ≤ p.2 by omega]

end Ops

end Rucc.Opt
