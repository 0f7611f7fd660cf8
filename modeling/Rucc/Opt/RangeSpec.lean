import Rucc.Opt.Range

/-!
# The constructors of a range keep its form and lose no value

Every constructor returns a well-formed range, and everything it was asked to hold is in it. The
bits come first: what two facts about the bits allow, their meet and their join allow.
-/

namespace Rucc.Opt

open KnownBits Intervals U128

/-! ## Known bits -/

namespace Bits

variable {v lo hi width : ℕ} {b other : Bits}

theorem allows_iff (b : Bits) (hv : v < 2^128) : b.allows v = true ↔ Agrees b.value b.unknown v := by
  have hb := testBit_complement b.unknown_lt
  rw [allows, beq_iff_eq]
  constructor
  · intro h i hi
    have hbit : (v &&& complement b.unknown).testBit i = b.value.testBit i := by rw [h]
    rw [Nat.testBit_and, hb, hi] at hbit
    by_cases hlt : i < 128
    · simpa [hlt] using hbit
    · rw [← hbit, testBit_of_lt hv (Nat.le_of_not_lt hlt), Bool.false_and]
  · intro h
    apply Nat.eq_of_testBit_eq
    intro i
    rw [Nat.testBit_and, hb]
    cases hi : b.unknown.testBit i with
    | true => simp [testBit_of_and_eq_zero b.canonical hi]
    | false =>
      rw [h i hi]
      by_cases hlt : i < 128
      · simp [hlt]
      · simp [testBit_of_lt b.value_lt (Nat.le_of_not_lt hlt)]

theorem testBit_known (b : Bits) (i : ℕ) :
    (b.known MAX_BITS).testBit i = (decide (i < 128) && !b.unknown.testBit i) := by
  have hmask : mask MAX_BITS = 2^128 - 1 := mask_eq le_rfl
  rw [known, Nat.testBit_and, testBit_complement b.unknown_lt, hmask, Nat.testBit_two_pow_sub_one]
  cases decide (i < 128) <;> simp

theorem min_le (hv : v < 2^128) (h : b.allows v = true) : b.min ≤ v :=
  ((b.allows_iff hv).mp h).value_le b.canonical

theorem le_max (hv : v < 2^128) (h : b.allows v = true) : v ≤ b.max :=
  ((b.allows_iff hv).mp h).le_or

/-- When every bit is known there is one value they allow. -/
theorem eq_value (hv : v < 2^128) (h : b.allows v = true) (h0 : b.unknown = 0) : v = b.value := by
  apply Nat.eq_of_testBit_eq
  intro i
  exact (b.allows_iff hv).mp h i (by rw [h0, Nat.zero_testBit])

theorem dvd_lowZeros (hv : v < 2^128) (h : b.allows v = true) : 2^b.lowZeros ∣ v :=
  ((b.allows_iff hv).mp h).dvd fun _ hi => testBit_of_lt_trailingZeros hi

/-- A bit known in both is the same in both when some value is allowed by both. -/
theorem meet_some (hv : v < 2^128) (hb : b.allows v = true)
    (ho : other.allows v = true) : ∃ m, b.meet other = some m ∧ m.allows v = true := by
  rw [allows_iff _ hv] at hb ho
  have hboth : b.value &&& (b.known MAX_BITS &&& other.known MAX_BITS) =
      other.value &&& (b.known MAX_BITS &&& other.known MAX_BITS) := by
    apply Nat.eq_of_testBit_eq
    intro i
    simp only [Nat.testBit_and, testBit_known]
    cases hu : b.unknown.testBit i <;> cases hw : other.unknown.testBit i <;> simp
    rw [← hb i hu, ← ho i hw]
  refine ⟨_, if_neg (by simpa using hboth), ?_⟩
  rw [allows_iff _ hv]
  intro i hi
  have hlt : b.unknown &&& other.unknown < 2^128 := Nat.and_lt_two_pow _ other.unknown_lt
  simp only at hi ⊢
  rw [Nat.testBit_and, Nat.testBit_or, testBit_complement hlt, hi]
  rw [Nat.testBit_and] at hi
  by_cases hlt' : i < 128
  · cases hu : b.unknown.testBit i with
    | true =>
      -- Unknown in the first, so the second knows it and the first has it clear.
      have hw : other.unknown.testBit i = false := by simpa [hu] using hi
      rw [testBit_of_and_eq_zero b.canonical hu, ho i hw]
      simp [hlt']
    | false =>
      cases hw : other.unknown.testBit i with
      | true =>
        rw [testBit_of_and_eq_zero other.canonical hw, hb i hu]
        simp [hlt']
      | false =>
        rw [← hb i hu, ← ho i hw]
        simp [hlt']
  · rw [testBit_of_lt hv (Nat.le_of_not_lt hlt')]
    simp [hlt']

theorem join_allows (hv : v < 2^128)
    (h : b.allows v = true ∨ other.allows v = true) : (b.join other).allows v = true := by
  rw [allows_iff _ hv] at h ⊢
  rw [allows_iff _ hv] at h
  intro i hi
  have hlt := testBit_complement (b.joinUnknown_lt other) i
  simp only [join] at hi ⊢
  rw [Nat.testBit_and, hlt, hi]
  simp only [joinUnknown, Nat.testBit_or, Nat.testBit_xor, Bool.or_eq_false_iff] at hi
  have hsame : b.value.testBit i = other.value.testBit i := by simpa using hi.2
  by_cases hlt' : i < 128
  · rcases h with h | h
    · simp [hlt', h i hi.1.1]
    · simp [hlt', hsame, h i hi.1.2]
  · rw [testBit_of_lt hv (Nat.le_of_not_lt hlt')]
    simp [hlt']

theorem ofInterval_allows (hw : width ≤ 128) (hlo : lo ≤ v) (hhi : v ≤ hi)
    (hin : hi ≤ mask width) : (ofInterval lo hi width).allows v = true := by
  have hhi' : hi < 2^width := (le_mask_iff hw).mp hin
  have hpow : 2^width ≤ 2^128 := Nat.pow_le_pow_right (by norm_num) hw
  have hv : v < 2^width := by omega
  have hlo' : lo < 2^width := by omega
  rw [allows_iff _ (by omega)]
  have hagree := agrees_of_between hlo hhi
  -- The mask of the source is the one of the library.
  have hbelow : below lo hi = 2^(lo ^^^ hi).size - 1 := by
    unfold below leadingZeros MAX
    split_ifs with h0
    · simp [h0]
    · have hsize : (lo ^^^ hi).size ≤ 128 :=
        Nat.size_le.mpr (Nat.xor_lt_two_pow (by omega) (by omega))
      apply Nat.eq_of_testBit_eq
      intro i
      rw [Nat.testBit_shiftRight, Nat.testBit_two_pow_sub_one, Nat.testBit_two_pow_sub_one]
      congr 1
      exact propext ⟨fun _ => by omega, fun _ => by omega⟩
  intro i hi'
  simp only [ofInterval] at hi' ⊢
  have hlt : below lo hi &&& mask width < 2^128 := Nat.and_lt_two_pow _ (mask_lt width)
  rw [Nat.testBit_and, testBit_complement hlt, hi']
  by_cases hi128 : i < width
  · rw [Nat.testBit_and, hbelow, mask_eq hw, Nat.testBit_two_pow_sub_one width] at hi'
    have hclear : (2^(lo ^^^ hi).size - 1).testBit i = false := by simpa [hi128] using hi'
    rw [hagree i hclear]
    simp [show i < 128 by omega]
  · rw [testBit_of_lt hv (Nat.le_of_not_lt hi128), testBit_of_lt hlo' (Nat.le_of_not_lt hi128),
      Bool.false_and]

theorem nothing_allows (hw : width ≤ 128) (hv : v < 2^width) : (nothing width).allows v = true := by
  have hpow : 2^width ≤ 2^128 := Nat.pow_le_pow_right (by norm_num) hw
  rw [allows_iff _ (by omega)]
  simp only [nothing]
  rw [mask_eq hw]
  exact agrees_of_lt (by positivity) hv

theorem exactly_allows (v width : ℕ) : (exactly v width).allows (v &&& mask width) = true := by
  rw [allows_iff _ (Nat.and_lt_two_pow _ (mask_lt width))]
  intro i _
  rfl

/-- Bits worked out place by place allow a value that has them at every known place. -/
theorem fromParts_allows {value unknown : ℕ} (hw : width ≤ 128) (hv : v < 2^width)
    (h : ∀ i < width, unknown.testBit i = false → v.testBit i = value.testBit i) :
    (fromParts value unknown width).allows v = true := by
  have hpow : 2^width ≤ 2^128 := Nat.pow_le_pow_right (by norm_num) hw
  rw [allows_iff _ (by omega)]
  intro i hi
  have hlt : unknown &&& mask width < 2^128 := Nat.and_lt_two_pow _ (mask_lt width)
  simp only [fromParts] at hi ⊢
  rw [Nat.testBit_and, testBit_complement hlt, hi, Nat.testBit_and, mask_eq hw,
    Nat.testBit_two_pow_sub_one]
  by_cases hlt' : i < width
  · rw [Nat.testBit_and, mask_eq hw, Nat.testBit_two_pow_sub_one] at hi
    have hclear : unknown.testBit i = false := by simpa [hlt'] using hi
    rw [h i hlt' hclear]
    simp [hlt', show i < 128 by omega]
  · rw [testBit_of_lt hv (Nat.le_of_not_lt hlt')]
    simp [hlt']

/-! ### Staying inside the width -/

theorem nothing_inside (hw : width ≤ 128) : (nothing width).Inside width := by
  refine ⟨by simp [nothing], ?_⟩
  exact (le_mask_iff hw).mp le_rfl

theorem exactly_inside (hw : width ≤ 128) : (exactly v width).Inside width :=
  ⟨(le_mask_iff hw).mp (and_mask_le v width), by simp [exactly]⟩

theorem join_inside (hb : b.Inside width) (ho : other.Inside width) : (b.join other).Inside width := by
  have hunknown : b.joinUnknown other < 2^width :=
    Nat.or_lt_two_pow (Nat.or_lt_two_pow hb.2 ho.2) (Nat.xor_lt_two_pow hb.1 ho.1)
  exact ⟨lt_of_le_of_lt Nat.and_le_left hb.1, hunknown⟩

theorem ofInterval_inside (hw : width ≤ 128) (hlo : lo ≤ mask width) : (ofInterval lo hi width).Inside width :=
  ⟨lt_of_le_of_lt Nat.and_le_left ((le_mask_iff hw).mp hlo),
    (le_mask_iff hw).mp (and_mask_le _ width)⟩

/-- The meet with any bits stays inside the width of one side. -/
theorem meet_inside {m : Bits} (hb : b.Inside width) (h : b.meet other = some m) : m.Inside width := by
  unfold meet at h
  by_cases hboth : b.value &&& (b.known MAX_BITS &&& other.known MAX_BITS) ≠
      other.value &&& (b.known MAX_BITS &&& other.known MAX_BITS)
  · simp [hboth] at h
  · simp only [hboth, if_false, Option.some.injEq] at h
    subst h
    refine ⟨?_, lt_of_le_of_lt Nat.and_le_left hb.2⟩
    apply Nat.lt_pow_two_of_testBit
    intro i hi
    have hlt : b.unknown &&& other.unknown < 2^128 := Nat.and_lt_two_pow _ other.unknown_lt
    rw [Nat.testBit_and, Nat.testBit_or, testBit_of_lt hb.1 hi, Bool.false_or]
    -- Past the width the first knows every bit to be clear, so the second cannot have it set.
    by_cases hi128 : i < 128
    · rw [ne_eq, not_not] at hboth
      have hbit := congrArg (fun x => x.testBit i) hboth
      simp only [Nat.testBit_and, testBit_known, testBit_of_lt hb.1 hi, testBit_of_lt hb.2 hi,
        hi128] at hbit
      cases hu : other.unknown.testBit i with
      | true => rw [testBit_of_and_eq_zero other.canonical hu, Bool.false_and]
      | false =>
        have hclear : other.value.testBit i = false := by simpa [hu] using hbit
        rw [hclear, Bool.false_and]
    · rw [testBit_of_lt other.value_lt (Nat.le_of_not_lt hi128), Bool.false_and]

end Bits

namespace Range

variable {r a b : Range} {v top width lo hi k : ℕ} {pairs : List (ℕ × ℕ)} {bits : Bits}

/-! ## Membership -/

theorem mem_iff (hw : r.width ≤ 128) : v ∈ r ↔ v < 2^r.width ∧ r.bits.allows v = true ∧ Covers r.pairs v := by
  have hcontains (hv : v < 2^r.width) :
      r.contains v = true ↔ r.bits.allows v = true ∧ Covers r.pairs v := by
    rw [contains, and_mask hw, Nat.mod_eq_of_lt hv]
    simp [Covers]
  constructor
  · rintro ⟨hv, h⟩
    exact ⟨hv, (hcontains hv).mp h⟩
  · rintro ⟨hv, h⟩
    exact ⟨hv, (hcontains hv).mpr h⟩

theorem WellFormed.mem (hr : r.WellFormed) : v ∈ r ↔ r.bits.allows v = true ∧ Covers r.pairs v := by
  rw [mem_iff hr.width_le]
  constructor
  · exact fun h => h.2
  · intro h
    exact ⟨(le_mask_iff hr.width_le).mp (h.2.le hr.inside), h⟩

theorem lt_of_mem (h : v ∈ r) : v < 2^r.width := h.1

theorem WellFormed.lt_word (hr : r.WellFormed) (h : v ∈ r) : v < 2^128 :=
  lt_of_lt_of_le h.1 (Nat.pow_le_pow_right (by norm_num) hr.width_le)

/-! ## Merging intervals in order -/

/-- One step of the merge keeps the form, and keeps what was covered. -/
theorem push_spec {next : ℕ × ℕ} (htop : top ≤ MAX)
    (hlen : pairs.length ≤ PAIRS) (hsep : Separated pairs) (hin : Inside top pairs)
    (hnext : next.1 ≤ next.2 ∧ next.2 ≤ top) (hlow : ∀ p ∈ pairs, p.1 ≤ next.1) :
    (push pairs next).length ≤ PAIRS ∧ Separated (push pairs next) ∧
      Inside top (push pairs next) ∧ (∀ p ∈ push pairs next, p.1 ≤ next.1) ∧
      ∀ v, Covers pairs v ∨ (next.1 ≤ v ∧ v ≤ next.2) → Covers (push pairs next) v := by
  rcases List.eq_nil_or_concat pairs with rfl | ⟨init, last, rfl⟩
  · refine ⟨by simp [push, PAIRS], by simp [push, Separated], ?_, by simp [push], ?_⟩
    · intro p hp
      simp only [push, List.getLast?_nil, List.mem_singleton] at hp
      rw [hp]
      exact hnext
    · intro v hv
      simpa [push] using hv
  rw [List.concat_eq_append] at *
  have hlast := hin last (by simp)
  have hlastlow := hlow last (by simp)
  have hpush : push (init ++ [last]) next =
      if next.1 ≤ saturatingAdd last.2 1 ∨ (init ++ [last]).length = PAIRS then
        init ++ [(last.1, max last.2 next.2)]
      else init ++ [last] ++ [next] := by
    simp [push]
  rw [hpush]
  split_ifs with hmerge
  · -- The last interval is stretched, over the next one and over any gap before it.
    refine ⟨?_, hsep.extend _, ?_, ?_, ?_⟩
    · simpa using hlen
    · have hinit : Inside top init := fun p hp => hin p (by simp [hp])
      exact hinit.append ⟨by omega, by omega⟩
    · intro p hp
      rcases List.mem_append.mp hp with hp | hp
      · exact hlow p (by simp [hp])
      · rw [List.mem_singleton] at hp
        rw [hp]
        exact hlastlow
    · intro v hv
      simp only [covers_append, covers_cons, not_covers_nil, or_false] at hv ⊢
      rcases hv with (hv | hv) | hv
      · exact Or.inl hv
      · exact Or.inr ⟨hv.1, le_trans hv.2 (Nat.le_max_left _ _)⟩
      · exact Or.inr ⟨le_trans hlastlow hv.1, le_trans hv.2 (Nat.le_max_right _ _)⟩
  · rw [not_or] at hmerge
    have hclear : last.2 + 1 < next.1 := by
      have := hmerge.1
      unfold saturatingAdd at this
      omega
    refine ⟨?_, hsep.push hin hclear, hin.append hnext, ?_, ?_⟩
    · have := hmerge.2
      simp only [List.length_append, List.length_cons, List.length_nil] at this hlen ⊢
      omega
    · intro p hp
      rcases List.mem_append.mp hp with hp | hp
      · exact hlow p hp
      · rw [List.mem_singleton] at hp
        rw [hp]
    · intro v hv
      simpa [or_assoc] using hv

/-- Merging every interval of an ascending list keeps the form and what was covered. -/
theorem foldl_push (htop : top ≤ MAX) (sorted : List (ℕ × ℕ)) (pairs : List (ℕ × ℕ))
    (hasc : Ascending sorted) (hin : Inside top sorted) (hlen : pairs.length ≤ PAIRS)
    (hsep : Separated pairs) (hpairs : Inside top pairs)
    (hlow : ∀ p ∈ pairs, ∀ q ∈ sorted, p.1 ≤ q.1) :
    (sorted.foldl push pairs).length ≤ PAIRS ∧ Separated (sorted.foldl push pairs) ∧
      Inside top (sorted.foldl push pairs) ∧
      ∀ v, Covers pairs v ∨ Covers sorted v → Covers (sorted.foldl push pairs) v := by
  induction sorted generalizing pairs with
  | nil => exact ⟨hlen, hsep, hpairs, fun v hv => by simpa using hv⟩
  | cons next rest ih =>
    obtain ⟨hfirst, hrest⟩ := List.pairwise_cons.mp hasc
    obtain ⟨hlen', hsep', hin', hlow', hcov⟩ := push_spec htop hlen hsep hpairs
      (hin next (by simp)) (fun p hp => hlow p hp next (by simp))
    obtain ⟨h₁, h₂, h₃, h₄⟩ := ih (push pairs next) hrest
      (fun p hp => hin p (List.mem_cons_of_mem _ hp)) hlen' hsep' hin'
      (fun p hp q hq => le_trans (hlow' p hp) (hfirst q hq))
    refine ⟨h₁, h₂, h₃, ?_⟩
    intro v hv
    apply h₄ v
    rw [covers_cons] at hv
    rcases hv with hv | hv | hv
    · exact Or.inl (hcov v (Or.inl hv))
    · exact Or.inl (hcov v (Or.inr hv))
    · exact Or.inr hv

/-! ## The bits of the intervals -/

theorem foldl_join_allows (hw : width ≤ 128) (hv : v < 2^width) :
    ∀ (rest : List (ℕ × ℕ)) (had : Bits), Inside (mask width) rest →
      had.allows v = true ∨ Covers rest v →
      (rest.foldl (fun had p => had.join (Bits.ofInterval p.1 p.2 width)) had).allows v = true := by
  have hv128 : v < 2^128 := lt_of_lt_of_le hv (Nat.pow_le_pow_right (by norm_num) hw)
  intro rest
  induction rest with
  | nil => exact fun had _ h => by simpa using h
  | cons p rest ih =>
    intro had hin h
    apply ih _ (fun q hq => hin q (List.mem_cons_of_mem _ hq))
    rw [covers_cons] at h
    rcases h with h | h | h
    · exact Or.inl (Bits.join_allows hv128 (Or.inl h))
    · have hp := Bits.ofInterval_allows hw h.1 h.2 (hin p (by simp)).2
      exact Or.inl (Bits.join_allows hv128 (Or.inr hp))
    · exact Or.inr h

theorem bitsOfPairs_allows (hw : width ≤ 128) (hin : Inside (mask width) pairs) (hv : Covers pairs v) :
    (bitsOfPairs pairs width).allows v = true := by
  have hlt : v < 2^width := (le_mask_iff hw).mp (hv.le hin)
  cases pairs with
  | nil => exact absurd hv not_covers_nil
  | cons p rest =>
    apply foldl_join_allows hw hlt rest _ (fun q hq => hin q (List.mem_cons_of_mem _ hq))
    rw [covers_cons] at hv
    exact hv.imp_left fun h => Bits.ofInterval_allows hw h.1 h.2 (hin p (by simp)).2

theorem bitsOfPairs_inside (hw : width ≤ 128)
    (hin : Inside (mask width) pairs) : (bitsOfPairs pairs width).Inside width := by
  cases pairs with
  | nil => exact ⟨by simp [bitsOfPairs], by simp [bitsOfPairs]⟩
  | cons p rest =>
    have hlow (q : ℕ × ℕ) (hq : q ∈ p :: rest) : q.1 ≤ mask width := by
      have := hin q hq
      omega
    have hfold (rest : List (ℕ × ℕ)) (had : Bits) (hhad : had.Inside width)
        (hrest : ∀ q ∈ rest, q.1 ≤ mask width) :
        (rest.foldl (fun had p => had.join (Bits.ofInterval p.1 p.2 width)) had).Inside width := by
      induction rest generalizing had with
      | nil => exact hhad
      | cons q rest ih =>
        apply ih _ _ (fun q hq => hrest q (List.mem_cons_of_mem _ hq))
        exact Bits.join_inside hhad (Bits.ofInterval_inside hw (hrest q (by simp)))
    exact hfold rest _ (Bits.ofInterval_inside hw (hlow p (by simp)))
      (fun q hq => hlow q (List.mem_cons_of_mem _ hq))

/-! ## The constructors -/

instance : Std.Total Before := ⟨fun p q => by unfold Before; omega⟩

instance : IsTrans (ℕ × ℕ) Before := ⟨fun p q r => by unfold Before; omega⟩

theorem ascending_of_before (h : pairs.Pairwise Before) : Ascending pairs := by
  apply h.imp
  intro p q hpq
  unfold Before at hpq
  omega

theorem merged_spec {sorted : List (ℕ × ℕ)} (h₁ : 1 ≤ width) (hw : width ≤ 128)
    (hasc : Ascending sorted) (hin : Inside (mask width) sorted) :
    (merged sorted width).WellFormed ∧ ∀ v, Covers sorted v → v ∈ merged sorted width := by
  obtain ⟨hlen, hsep, hinside, hcov⟩ := foldl_push (mask_le width) sorted [] hasc hin
    (by simp) List.Pairwise.nil (by simp [Inside]) (by simp)
  have hform : (merged sorted width).WellFormed :=
    ⟨h₁, hw, hlen, hsep, hinside, bitsOfPairs_inside hw hinside⟩
  refine ⟨hform, fun v hv => ?_⟩
  have hv' := hcov v (Or.inr hv)
  exact hform.mem.mpr ⟨bitsOfPairs_allows hw hinside hv', hv'⟩

theorem inBounds_inside (pairs : List (ℕ × ℕ)) (width : ℕ) : Inside (mask width) (inBounds pairs width) := by
  intro p hp
  obtain ⟨hmem, hle⟩ := List.mem_filter.mp hp
  obtain ⟨q, -, rfl⟩ := List.mem_map.mp hmem
  exact ⟨by simpa using hle, and_mask_le _ _⟩

/-- Whichever way the intervals are put in order, the range holds what they cover. -/
theorem fromPairs_spec (pairs : List (ℕ × ℕ)) (width : ℕ) : (fromPairs pairs width).WellFormed ∧
      ∀ v, Covers (inBounds pairs (clamp width)) v → v ∈ fromPairs pairs width := by
  obtain ⟨h₁, hw⟩ := clamp_bounds width
  have hin := inBounds_inside pairs (clamp width)
  unfold fromPairs
  dsimp only
  generalize inBounds pairs (clamp width) = masked at hin ⊢
  split_ifs with hsorted
  · exact merged_spec h₁ hw (ascending_of_before (List.isChain_iff_pairwise.mp hsorted)) hin
  · have hmem (p : ℕ × ℕ) : p ∈ masked.insertionSort Before ↔ p ∈ masked :=
      List.mem_insertionSort Before
    obtain ⟨hform, hcov⟩ := merged_spec h₁ hw
      (ascending_of_before (List.pairwise_insertionSort Before masked))
      (fun p hp => hin p ((hmem p).mp hp))
    exact ⟨hform, fun v hv => hcov v (hv.mono fun p hp => (hmem p).mpr hp)⟩

theorem fromPairs_wellFormed (pairs : List (ℕ × ℕ)) (width : ℕ) :
    (fromPairs pairs width).WellFormed := (fromPairs_spec pairs width).1

@[simp]
theorem fromPairs_width (pairs : List (ℕ × ℕ)) (width : ℕ) : (fromPairs pairs width).width = clamp width := by
  unfold fromPairs
  dsimp only
  split_ifs <;> rfl

/-- Intervals inside the width lose nothing to the masking. -/
theorem mem_fromPairs (hin : Inside (mask (clamp width)) pairs) (hv : Covers pairs v) :
    v ∈ fromPairs pairs width := by
  have hw := (clamp_bounds width).2
  apply (fromPairs_spec pairs width).2
  obtain ⟨p, hp, hpv⟩ := hv
  obtain ⟨hle, htop⟩ := hin p hp
  refine ⟨p, ?_, hpv⟩
  apply List.mem_filter.mpr
  refine ⟨List.mem_map.mpr ⟨p, hp, ?_⟩, by simpa using hle⟩
  rw [and_mask_of_le hw htop, and_mask_of_le hw (le_trans hle htop)]

theorem empty_wellFormed (width : ℕ) : (empty width).WellFormed :=
  ⟨(clamp_bounds width).1, (clamp_bounds width).2, by simp [empty], List.Pairwise.nil,
    by simp [empty, Intervals.Inside], by simp [empty, Bits.Inside]⟩

theorem full_wellFormed (width : ℕ) : (full width).WellFormed :=
  ⟨(clamp_bounds width).1, (clamp_bounds width).2, by simp [full, PAIRS],
    List.pairwise_singleton _ _, by simp [full, Intervals.Inside],
    Bits.nothing_inside (clamp_bounds width).2⟩

theorem exactly_wellFormed (value width : ℕ) : (exactly value width).WellFormed :=
  ⟨(clamp_bounds width).1, (clamp_bounds width).2, by simp [exactly, PAIRS],
    List.pairwise_singleton _ _, by simp [exactly, Intervals.Inside, and_mask_le],
    Bits.exactly_inside (clamp_bounds width).2⟩

@[simp] theorem empty_width (width : ℕ) : (empty width).width = clamp width := rfl
@[simp] theorem full_width (width : ℕ) : (full width).width = clamp width := rfl
@[simp] theorem exactly_width (value width : ℕ) : (exactly value width).width = clamp width := rfl

theorem mem_full (hv : v < 2^clamp width) : v ∈ full width := by
  have hw := (clamp_bounds width).2
  apply (full_wellFormed width).mem.mpr
  refine ⟨Bits.nothing_allows hw hv, ?_⟩
  simp only [full, covers_cons, not_covers_nil, or_false]
  exact ⟨Nat.zero_le v, (le_mask_iff hw).mpr hv⟩

theorem mem_exactly (v width : ℕ) : v &&& mask (clamp width) ∈ exactly v width := by
  apply (exactly_wellFormed v width).mem.mpr
  refine ⟨?_, by simp [exactly]⟩
  have hallows := Bits.exactly_allows (v &&& mask (clamp width)) (clamp width)
  have hself : v &&& mask (clamp width) &&& mask (clamp width) = v &&& mask (clamp width) :=
    and_mask_of_le (clamp_bounds width).2 (and_mask_le v _)
  rwa [hself] at hallows

@[simp]
theorem between_width (lo hi width : ℕ) : (between lo hi width).width = clamp width := by
  unfold between
  dsimp only
  split_ifs <;> simp

theorem between_wellFormed (lo hi width : ℕ) : (between lo hi width).WellFormed := by
  unfold between
  dsimp only
  split_ifs <;> exact fromPairs_wellFormed _ _

/-- Between two bounds of the width in order. -/
theorem mem_between (hlo : lo ≤ v) (hhi : v ≤ hi) (hin : hi ≤ mask (clamp width)) : v ∈ between lo hi width := by
  have hw := (clamp_bounds width).2
  unfold between
  dsimp only
  rw [and_mask_of_le hw hin, and_mask_of_le hw (show lo ≤ mask (clamp width) by omega),
    if_pos (show lo ≤ hi by omega)]
  apply mem_fromPairs
  · rw [clamp_clamp]
    simp only [Intervals.Inside, List.mem_singleton, forall_eq]
    omega
  · simp only [covers_cons, not_covers_nil, or_false]
    omega

/-- Between two bounds of the width out of order, which wraps. -/
theorem mem_between_wrapped (hlo : lo ≤ mask (clamp width)) (hlt : hi < lo)
    (hv : v ≤ hi ∨ (lo ≤ v ∧ v ≤ mask (clamp width))) : v ∈ between lo hi width := by
  have hw := (clamp_bounds width).2
  unfold between
  dsimp only
  rw [and_mask_of_le hw hlo, and_mask_of_le hw (show hi ≤ mask (clamp width) by omega),
    if_neg (show ¬ lo ≤ hi by omega)]
  apply mem_fromPairs
  · rw [clamp_clamp]
    intro p hp
    simp only [List.mem_cons, List.not_mem_nil, or_false] at hp
    rcases hp with rfl | rfl <;> simp only <;> omega
  · simp only [covers_cons, not_covers_nil, or_false]
    omega

theorem otherThan_wellFormed (value width : ℕ) : (otherThan value width).WellFormed :=
  fromPairs_wellFormed _ _

theorem mem_otherThan {value : ℕ} (hvalue : value < 2^clamp width) (hv : v < 2^clamp width)
    (hne : v ≠ value) : v ∈ otherThan value width := by
  have hw := (clamp_bounds width).2
  have hvalue' := (le_mask_iff hw).mpr hvalue
  have hv' := (le_mask_iff hw).mpr hv
  unfold otherThan
  dsimp only
  rw [and_mask_of_le hw hvalue']
  apply mem_fromPairs
  · rw [clamp_clamp]
    intro p hp
    split_ifs at hp <;> simp at hp
    · rcases hp with rfl | rfl <;> simp only <;> omega
    · rw [hp]; simp only; omega
    · rw [hp]; simp only; omega
  · rcases Nat.lt_or_gt_of_ne hne with h | h
    · simp only [covers_append, if_pos (show value > 0 by omega), covers_cons]
      exact Or.inl (Or.inl ⟨Nat.zero_le v, by omega⟩)
    · simp only [covers_append, if_pos (show value < mask (clamp width) by omega), covers_cons]
      exact Or.inr (Or.inl ⟨by omega, hv'⟩)

/-! ## Narrowing by bits -/

theorem and_complement_low {a : ℕ} (ha : a < 2^128) (hk : k ≤ 128) :
    a &&& complement (2^k - 1) = a / 2^k * 2^k := by
  have hlt : 2^k - 1 < 2^128 := by
    have : 2^k ≤ 2^128 := Nat.pow_le_pow_right (by norm_num) hk
    omega
  rw [← Nat.shiftRight_eq_div_pow, ← Nat.shiftLeft_eq]
  apply Nat.eq_of_testBit_eq
  intro i
  rw [Nat.testBit_and, testBit_complement hlt, Nat.testBit_two_pow_sub_one, Nat.testBit_shiftLeft,
    Nat.testBit_shiftRight]
  by_cases hi : i < k
  · simp [hi]
  · rw [show k + (i - k) = i by omega]
    by_cases hi' : i < 128
    · simp [hi, hi', Nat.le_of_not_lt hi]
    · rw [testBit_of_lt ha (Nat.le_of_not_lt hi')]
      simp

/-- The step is a power of two that every value the bits allow is a multiple of. -/
theorem step_eq (bits : Bits) (hw : width ≤ 128) :
    ∃ k < 128, step bits width = 2^k ∧ ∀ v < 2^128, bits.allows v = true → 2^k ∣ v := by
  unfold step
  split_ifs with h
  · exact ⟨0, by norm_num, rfl, fun v _ _ => one_dvd v⟩
  · exact ⟨bits.lowZeros, by omega, Nat.one_shiftLeft _, fun v hv hb => Bits.dvd_lowZeros hv hb⟩

/-- Rounding the ends inwards to multiples keeps every multiple. -/
theorem roundTo_spec {p : ℕ × ℕ} (hk : k < 128) (hv : v < 2^128) (hdvd : 2^k ∣ v)
    (hp : p.1 ≤ v ∧ v ≤ p.2) (htop : p.2 < 2^128) :
    ∃ q, roundTo (2^k) p = some q ∧ q.1 ≤ v ∧ v ≤ q.2 := by
  obtain ⟨m, rfl⟩ := hdvd
  have hpos : 0 < 2^k := by positivity
  have hsplit : 2^k * 2^(128 - k) = 2^128 := by rw [← pow_add, show k + (128 - k) = 128 by omega]
  -- The multiple is at least a step below the top, so rounding up to it does not overflow.
  have hm : m + 1 ≤ 2^(128 - k) := by
    rw [← hsplit] at hv
    exact Nat.lt_of_mul_lt_mul_left hv
  have hroom : 2^k * (m + 1) ≤ 2^128 := by
    rw [← hsplit]
    exact Nat.mul_le_mul_left _ hm
  have hsucc : 2^k * (m + 1) = 2^k * m + 2^k := by ring
  have hfit : p.1 + (2^k - 1) ≤ MAX := by
    unfold MAX
    omega
  have hlt : p.1 + (2^k - 1) < 2^128 := by
    unfold MAX at hfit
    omega
  refine ⟨((p.1 + (2^k - 1)) &&& complement (2^k - 1), p.2 &&& complement (2^k - 1)),
    by simp only [roundTo, checkedAdd, if_pos hfit]; rfl, ?_, ?_⟩
  · rw [and_complement_low hlt (by omega), Nat.mul_comm]
    apply Nat.mul_le_mul_left
    have : (p.1 + (2^k - 1)) / 2^k < m + 1 := by
      rw [Nat.div_lt_iff_lt_mul hpos, Nat.mul_comm]
      omega
    omega
  · rw [and_complement_low htop (by omega), Nat.mul_comm (p.2 / 2^k)]
    apply Nat.mul_le_mul_left
    rw [Nat.le_div_iff_mul_le hpos, Nat.mul_comm]
    exact hp.2

theorem mem_pulledIn {q : ℕ × ℕ} (h : q ∈ pulledIn bits width pairs) : q.1 ≤ q.2 ∧ ∃ p ∈ pairs, q.2 ≤ p.2 := by
  obtain ⟨hmem, hle⟩ := List.mem_filter.mp h
  refine ⟨by simpa using hle, ?_⟩
  obtain ⟨c, hc, hround⟩ := List.mem_filterMap.mp hmem
  obtain ⟨hc', -⟩ := List.mem_filter.mp hc
  obtain ⟨p, hp, rfl⟩ := List.mem_map.mp hc'
  refine ⟨p, hp, ?_⟩
  unfold roundTo checkedAdd at hround
  by_cases hfit : (clip bits p).1 + (step bits width - 1) ≤ MAX
  · rw [if_pos hfit] at hround
    have heq := Option.some.inj hround
    rw [← heq]
    exact le_trans Nat.and_le_left (Nat.min_le_left _ _)
  · rw [if_neg hfit] at hround
    cases hround

theorem covers_pulledIn (hw : width ≤ 128)
    (hin : Inside (mask width) pairs) (hallows : bits.allows v = true) (hv : Covers pairs v) :
    Covers (pulledIn bits width pairs) v := by
  obtain ⟨k, hk, hstep, hdvd⟩ := step_eq bits hw
  obtain ⟨p, hp, hpv⟩ := hv
  have htop := (hin p hp).2
  have hmask := mask_lt width
  have hlt : v < 2^128 := by omega
  have hclip : (clip bits p).1 ≤ v ∧ v ≤ (clip bits p).2 := by
    have := Bits.min_le hlt hallows
    have := Bits.le_max hlt hallows
    simp only [clip]
    omega
  have hclip' : (clip bits p).2 < 2^128 := by
    simp only [clip]
    omega
  obtain ⟨q, hround, hq⟩ := roundTo_spec hk hlt (hdvd v hlt hallows) hclip hclip'
  refine ⟨q, ?_, hq⟩
  apply List.mem_filter.mpr
  refine ⟨List.mem_filterMap.mpr ⟨clip bits p, ?_, by rw [hstep]; exact hround⟩, ?_⟩
  · apply List.mem_filter.mpr
    exact ⟨List.mem_map_of_mem hp, by simp only [decide_eq_true_eq]; omega⟩
  · simp only [decide_eq_true_eq]
    omega

/-- Walking the intervals keeps every value the bits allow. -/
theorem walked_spec (hr : r.WellFormed) (bits : Bits) :
    (r.walked bits).WellFormed ∧ (r.walked bits).width = r.width ∧
      ∀ v ∈ r, bits.allows v = true → v ∈ r.walked bits := by
  have hclamp := clamp_of_bounds hr.one_le_width hr.width_le
  have hform := fromPairs_wellFormed (pulledIn bits r.width r.pairs) r.width
  have hwidth : (fromPairs (pulledIn bits r.width r.pairs) r.width).width = r.width := by
    rw [fromPairs_width, hclamp]
  have hkeep (v : ℕ) (hv : v ∈ r) (hb : bits.allows v = true) :
      v ∈ fromPairs (pulledIn bits r.width r.pairs) r.width := by
    apply mem_fromPairs
    · rw [hclamp]
      intro q hq
      obtain ⟨hle, p, hp, hqp⟩ := mem_pulledIn hq
      exact ⟨hle, le_trans hqp (hr.inside p hp).2⟩
    · exact covers_pulledIn hr.width_le hr.inside hb (hr.mem.mp hv).2
  have hmeet (v : ℕ) (hv : v ∈ r) (hb : bits.allows v = true) :=
    Bits.meet_some (hr.lt_word hv) (hform.mem.mp (hkeep v hv hb)).1 hb
  unfold walked
  dsimp only
  generalize fromPairs (pulledIn bits r.width r.pairs) r.width = range at *
  cases hm : range.bits.meet bits with
  | none =>
    refine ⟨empty_wellFormed _, hclamp, fun v hv hb => ?_⟩
    obtain ⟨m, hm', -⟩ := hmeet v hv hb
    rw [hm'] at hm
    cases hm
  | some m =>
    have hform' : ({ range with bits := m } : Range).WellFormed :=
      ⟨hform.one_le_width, hform.width_le, hform.length_le, hform.separated, hform.inside,
        Bits.meet_inside hform.bits_inside hm⟩
    refine ⟨hform', hwidth, fun v hv hb => ?_⟩
    obtain ⟨m', hm', hallows⟩ := hmeet v hv hb
    rw [hm'] at hm
    cases hm
    exact hform'.mem.mpr ⟨hallows, (hform.mem.mp (hkeep v hv hb)).2⟩

/-- Narrowing keeps the form and the width, and every value the bits allow. -/
theorem narrow_spec (hr : r.WellFormed) (bits : Bits) :
    (r.narrow bits).WellFormed ∧ (r.narrow bits).width = r.width ∧
      ∀ v ∈ r, bits.allows v = true → v ∈ r.narrow bits := by
  have hclamp := clamp_of_bounds hr.one_le_width hr.width_le
  have hmeet (v : ℕ) (hv : v ∈ r) (hb : bits.allows v = true) :=
    Bits.meet_some (hr.lt_word hv) (hr.mem.mp hv).1 hb
  unfold narrow
  cases hm : r.bits.meet bits with
  | none =>
    refine ⟨empty_wellFormed _, hclamp, fun v hv hb => ?_⟩
    obtain ⟨m, hm', -⟩ := hmeet v hv hb
    rw [hm'] at hm
    cases hm
  | some m =>
    have hboth (v : ℕ) (hv : v ∈ r) (hb : bits.allows v = true) : m.allows v = true := by
      obtain ⟨m', hm', hallows⟩ := hmeet v hv hb
      rw [hm'] at hm
      cases hm
      exact hallows
    simp only
    split_ifs with hempty hknown hany hfull
    · exact ⟨hr, rfl, fun v hv _ => hv⟩
    · -- Every bit is known, so the value is the one the bits spell.
      refine ⟨exactly_wellFormed _ _, hclamp, fun v hv hb => ?_⟩
      rw [← Bits.eq_value (hr.lt_word hv) (hboth v hv hb) hknown]
      have hself := mem_exactly v r.width
      rwa [hclamp, and_mask_of_le hr.width_le ((le_mask_iff hr.width_le).mpr hv.1)] at hself
    · refine ⟨empty_wellFormed _, hclamp, fun v hv hb => ?_⟩
      have heq := Bits.eq_value (hr.lt_word hv) (hboth v hv hb) hknown
      obtain ⟨p, hp, hpv⟩ := (hr.mem.mp hv).2
      exact absurd (List.any_eq_true.mpr ⟨p, hp, by simp [← heq, hpv]⟩) hany
    · exact ⟨hr, rfl, fun v hv _ => hv⟩
    · obtain ⟨hform, hwidth, hmem⟩ := walked_spec hr m
      exact ⟨hform, hwidth, fun v hv hb => hmem v hv (hboth v hv hb)⟩

theorem narrow_wellFormed (hr : r.WellFormed) (bits : Bits) : (r.narrow bits).WellFormed := (narrow_spec hr bits).1

/-! ## Union, intersection and complement -/

theorem not_mem_of_isEmpty (hr : r.WellFormed) (h : r.isEmpty = true) (v : ℕ) : v ∉ r := by
  intro hv
  have hcov := (hr.mem.mp hv).2
  rw [List.isEmpty_iff.mp h] at hcov
  exact not_covers_nil hcov

/-- The union keeps the form, and every value of either side. -/
theorem union_spec (ha : a.WellFormed) (hb : b.WellFormed) (hw : a.width = b.width) :
    (a.union b).WellFormed ∧ (a.union b).width = a.width ∧
      ∀ v, v ∈ a ∨ v ∈ b → v ∈ a.union b := by
  have hclamp := clamp_of_bounds ha.one_le_width ha.width_le
  unfold union
  split_ifs with hae hbe
  · exact ⟨hb, hw.symm, fun v hv => hv.resolve_left (not_mem_of_isEmpty ha hae v)⟩
  · exact ⟨ha, rfl, fun v hv => hv.resolve_right (not_mem_of_isEmpty hb hbe v)⟩
  · have hform := fromPairs_wellFormed (a.pairs ++ b.pairs) a.width
    obtain ⟨h₁, h₂, h₃⟩ := narrow_spec hform (a.bits.join b.bits)
    refine ⟨h₁, by rw [h₂, fromPairs_width, hclamp], fun v hv => h₃ v ?_ ?_⟩
    · apply mem_fromPairs
      · rw [hclamp]
        intro p hp
        rcases List.mem_append.mp hp with hp | hp
        · exact ha.inside p hp
        · rw [hw]
          exact hb.inside p hp
      · rw [covers_append]
        exact hv.imp (fun h => (ha.mem.mp h).2) (fun h => (hb.mem.mp h).2)
    · have hlt : v < 2^128 := hv.elim ha.lt_word hb.lt_word
      exact Bits.join_allows hlt (hv.imp (fun h => (ha.mem.mp h).1) (fun h => (hb.mem.mp h).1))

theorem mem_overlaps {others : List (ℕ × ℕ)} {o : ℕ × ℕ} : o ∈ overlaps pairs others ↔ ∃ p ∈ pairs, ∃ q ∈ others,
      o = (max p.1 q.1, min p.2 q.2) ∧ o.1 ≤ o.2 := by
  simp only [overlaps, List.mem_flatMap, List.mem_filter, List.mem_map, decide_eq_true_eq]
  constructor
  · rintro ⟨p, hp, ⟨q, hq, rfl⟩, hle⟩
    exact ⟨p, hp, q, hq, rfl, hle⟩
  · rintro ⟨p, hp, q, hq, rfl, hle⟩
    exact ⟨p, hp, ⟨q, hq, rfl⟩, hle⟩

/-- The intersection keeps the form, and every value of both sides. -/
theorem intersect_spec (ha : a.WellFormed) (hb : b.WellFormed) :
    (a.intersect b).WellFormed ∧ (a.intersect b).width = a.width ∧
      ∀ v, v ∈ a → v ∈ b → v ∈ a.intersect b := by
  have hclamp := clamp_of_bounds ha.one_le_width ha.width_le
  have hform := fromPairs_wellFormed (overlaps a.pairs b.pairs) a.width
  obtain ⟨h₁, h₂, h₃⟩ := narrow_spec hform a.bits
  obtain ⟨h₄, h₅, h₆⟩ := narrow_spec h₁ b.bits
  refine ⟨h₄, ?_, fun v hva hvb => ?_⟩
  · unfold intersect
    rw [h₅, h₂, fromPairs_width, hclamp]
  · obtain ⟨hbits, p, hp, hpv⟩ := ha.mem.mp hva
    obtain ⟨hbits', q, hq, hqv⟩ := hb.mem.mp hvb
    refine h₆ v (h₃ v (mem_fromPairs ?_ ?_) hbits) hbits'
    · rw [hclamp]
      intro o ho
      obtain ⟨p, hp, q, -, rfl, hle⟩ := mem_overlaps.mp ho
      exact ⟨hle, le_trans (Nat.min_le_left _ _) (ha.inside p hp).2⟩
    · refine ⟨_, mem_overlaps.mpr ⟨p, hp, q, hq, rfl, ?_⟩, ?_⟩ <;> simp only <;> omega

theorem invert_wellFormed (r : Range) : r.invert.WellFormed := fromPairs_wellFormed _ _

/-! ## Bounds -/

theorem WellFormed.pairs_ne_nil (hr : r.WellFormed) (hv : v ∈ r) : r.pairs ≠ [] := by
  intro h
  have hcov := (hr.mem.mp hv).2
  rw [h] at hcov
  exact not_covers_nil hcov

/-- The unsigned bounds are there for a range with a value, and bound it. -/
theorem unsignedBounds_spec (hr : r.WellFormed) (hv : v ∈ r) :
    ∃ lo hi, r.unsignedBounds = some (lo, hi) ∧ lo ≤ v ∧ v ≤ hi ∧ hi ≤ mask r.width := by
  have hcov := (hr.mem.mp hv).2
  have hne := hr.pairs_ne_nil hv
  have hhead := List.head?_eq_some_head hne
  have hlast := List.getLast?_eq_some_getLast hne
  refine ⟨(r.pairs.head hne).1, (r.pairs.getLast hne).2, ?_, ?_, ?_, ?_⟩
  · simp [unsignedBounds, hhead, hlast]
  · exact hr.separated.head_le hr.inside hhead hcov
  · exact hr.separated.le_getLast hr.inside hlast hcov
  · exact (hr.inside _ (List.getLast_mem hne)).2

end Range

end Rucc.Opt
