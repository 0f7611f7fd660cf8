import Rucc.Lib.Canonical
import Rucc.Object.HuffmanTree

/-!
# The code lengths

The depths that are past the limit are brought back to it, which makes the codes too many, and the repair takes
the surplus off one by one. What comes out uses up all of the code space, no length is past the limit, and every
symbol that appears has a length.
-/

namespace Rucc.Object

open Checked

variable {freq count : List ℕ} {sym limit len n total : ℕ} {s : Finset ℕ}

/-! ## The symbols -/

theorem countP_eq_length (freq : List ℕ) :
    ((List.range freq.length).filter fun sym => 0 < freq.getD sym 0).length = freq.countP fun count => 0 < count := by
  rw [← List.countP_eq_length_filter]
  have hmap : freq = (List.range freq.length).map fun sym => freq.getD sym 0 := by
    refine List.ext_getElem (by simp) fun i hi _ => ?_
    rw [List.getElem_map, List.getElem_range, List.getD_eq_getElem?_getD, List.getElem?_eq_getElem hi, Option.getD_some]
  conv_rhs => rw [hmap, List.countP_map]
  rfl

theorem length_seed (freq : List ℕ) (sym : ℕ) : (seed freq sym).length = freq.length := by
  unfold seed
  split
  · rfl
  · split
    · exact List.length_set
    · rfl

/-- No count is lost. -/
theorem seed_keeps {other : ℕ} (h : freq.getD other 0 ≠ 0) : (seed freq sym).getD other 0 ≠ 0 := by
  unfold seed
  split
  · exact h
  · split
    · rename_i hzero
      have hne : sym ≠ other := by
        rintro rfl
        exact h hzero
      rwa [List.getD_eq_getElem?_getD, List.getElem?_set_ne hne, ← List.getD_eq_getElem?_getD]
    · exact h

/-- There are two counts now, or the symbol has one. -/
theorem seed_gives (hsym : sym < freq.length) :
    (2 ≤ (seed freq sym).countP fun count => 0 < count) ∨ (seed freq sym).getD sym 0 ≠ 0 := by
  unfold seed
  split
  · exact Or.inl ‹_›
  · split
    · rw [List.getD_eq_getElem?_getD, List.getElem?_set_self hsym]
      exact Or.inr one_ne_zero
    · exact Or.inr ‹_›

theorem seed_many (sym : ℕ) (h : 2 ≤ freq.countP fun count => 0 < count) :
    2 ≤ (seed freq sym).countP fun count => 0 < count := by
  unfold seed
  rwa [if_pos h]

theorem foldl_seed (syms : List ℕ) (freq : List ℕ) (hsyms : ∀ sym ∈ syms, sym < freq.length) :
    (syms.foldl seed freq).length = freq.length ∧
      (∀ sym, freq.getD sym 0 ≠ 0 → (syms.foldl seed freq).getD sym 0 ≠ 0) ∧
      ((2 ≤ freq.countP fun count => 0 < count) → 2 ≤ (syms.foldl seed freq).countP fun count => 0 < count) ∧
      ((2 ≤ (syms.foldl seed freq).countP fun count => 0 < count) ∨
        ∀ sym ∈ syms, (syms.foldl seed freq).getD sym 0 ≠ 0) := by
  induction syms generalizing freq with
  | nil => exact ⟨rfl, fun _ h => h, fun h => h, Or.inr fun _ h => absurd h List.not_mem_nil⟩
  | cons sym syms ih =>
    rw [List.foldl_cons]
    obtain ⟨hlen, hkeep, hmany, hall⟩ := ih (seed freq sym) fun other hother => by
      rw [length_seed]
      exact hsyms other (List.mem_cons_of_mem _ hother)
    refine ⟨hlen.trans (length_seed freq sym), fun other h => hkeep other (seed_keeps h),
      fun h => hmany (seed_many sym h), ?_⟩
    obtain hmany' | hgives := seed_gives (hsyms sym List.mem_cons_self)
    · exact Or.inl (hmany hmany')
    · refine hall.imp_right fun hall other hother => ?_
      rcases List.mem_cons.1 hother with rfl | hother
      · exact hkeep _ hgives
      · exact hall other hother

/-- A table of two symbols at least gets two counts at least, and none is lost. -/
theorem seeded_spec (freq : List ℕ) (htwo : 2 ≤ freq.length) :
    (seeded freq).length = freq.length ∧ (∀ sym, freq.getD sym 0 ≠ 0 → (seeded freq).getD sym 0 ≠ 0) ∧
      2 ≤ (seeded freq).countP fun count => 0 < count := by
  obtain ⟨hlen, hkeep, -, hmany | hall⟩ := foldl_seed (List.range freq.length) freq fun _ h => List.mem_range.1 h
  · exact ⟨hlen, hkeep, hmany⟩
  · refine ⟨hlen, hkeep, ?_⟩
    rw [← countP_eq_length, List.filter_eq_self.2, List.length_range]
    · exact htwo.trans_eq hlen.symm
    · intro sym hsym
      change sym ∈ List.range ((List.range freq.length).foldl seed freq).length at hsym
      rw [hlen] at hsym
      exact decide_eq_true (Nat.pos_of_ne_zero (hall sym hsym))

theorem mem_appearing {freq : List ℕ} {sym : ℕ} :
    sym ∈ appearing freq ↔ sym < freq.length ∧ 0 < freq.getD sym 0 := by
  unfold appearing
  rw [List.mem_mergeSort, List.mem_filter, List.mem_range, decide_eq_true_eq]

theorem nodup_appearing (freq : List ℕ) : (appearing freq).Nodup := by
  unfold appearing
  exact (List.mergeSort_perm _ _).nodup_iff.2 (List.nodup_range.filter _)

theorem length_appearing (freq : List ℕ) : (appearing freq).length = freq.countP fun count => 0 < count := by
  unfold appearing
  rw [List.length_mergeSort, countP_eq_length]

/-! ## Counts of lengths -/

/-- Changing one of the counts changes a weighted sum of them by what it changes there. -/
theorem sum_set {i : ℕ} (hi : i < count.length) (v : ℕ) (his : i ∈ s) (weight : ℕ → ℕ) :
    ∑ l ∈ s, (count.set i v).getD l 0 * weight l + count.getD i 0 * weight i =
      ∑ l ∈ s, count.getD l 0 * weight l + v * weight i := by
  have hrest : ∑ l ∈ s.erase i, (count.set i v).getD l 0 * weight l = ∑ l ∈ s.erase i, count.getD l 0 * weight l := by
    refine Finset.sum_congr rfl fun l hl => ?_
    rw [List.getD_eq_getElem?_getD, List.getElem?_set_ne (Finset.ne_of_mem_erase hl).symm, ← List.getD_eq_getElem?_getD]
  have hself : (count.set i v).getD i 0 = v := by
    rw [List.getD_eq_getElem?_getD, List.getElem?_set_self hi, Option.getD_some]
  rw [← Finset.add_sum_erase s _ his, ← Finset.add_sum_erase s (fun l => count.getD l 0 * weight l) his, hrest, hself]
  ring

theorem getD_zeros (n i : ℕ) : (List.replicate n 0).getD i 0 = 0 := by
  rw [List.getD_eq_getElem?_getD, List.getElem?_replicate]
  split
  · rfl
  · rfl

/-- The counts of depths that were brought back to the limit, in a sum over the lengths. -/
theorem tally_spec (hlimit : 0 < limit) (depth : List ℕ) (hdepth : ∀ d ∈ depth, 0 < d) :
    Yields (depth.foldlM (tally limit) (List.replicate (limit + 1) 0)) fun count => count.length = limit + 1 ∧
      ∀ weight : ℕ → ℕ, ∑ l ∈ Finset.Icc 1 limit, count.getD l 0 * weight l =
        (depth.map fun d => weight (min d limit)).sum := by
  refine Yields.foldlM (I := fun (done count : List ℕ) => count.length = limit + 1 ∧
    ∀ weight : ℕ → ℕ, ∑ l ∈ Finset.Icc 1 limit, count.getD l 0 * weight l =
      (done.map fun d => weight (min d limit)).sum) ⟨List.length_replicate, fun weight => ?_⟩ ?_
  · rw [List.map_nil, List.sum_nil]
    refine Finset.sum_eq_zero fun l hl => ?_
    rw [getD_zeros, zero_mul]
  · rintro done d rest count hsplit ⟨hlen, hsum⟩
    have hpos := hdepth d (by rw [hsplit]; exact List.mem_append_right _ List.mem_cons_self)
    have hlt : min d limit < count.length := by omega
    refine (Yields.get hlt).bind fun many hmany => ?_
    refine (Yields.set hlt _).mono fun count' hcount' => ?_
    refine ⟨by rw [hcount', List.length_set, hlen], fun weight => ?_⟩
    have hmem : min d limit ∈ Finset.Icc 1 limit := Finset.mem_Icc.2 ⟨by omega, min_le_right _ _⟩
    have hset := sum_set hlt (many + 1) hmem weight
    have hold : count.getD (min d limit) 0 = many := by
      rw [hmany, List.getD_eq_getElem?_getD, List.getElem?_eq_getElem hlt, Option.getD_some]
    rw [hsum, hold] at hset
    rw [hcount', List.map_append, List.sum_append, List.map_singleton, List.sum_singleton]
    linarith

/-- The counts on the way: what is shorter than the limit fits, and the total is what the counts use up. -/
structure Counted (limit n total : ℕ) (count : List ℕ) : Prop where
  length : count.length = limit + 1
  codes : ∑ l ∈ Finset.Icc 1 limit, count.getD l 0 = n
  sum : kraft count limit = total
  short : total ≤ 2^limit + count.getD limit 0

/-- A code is split in two that are one longer. -/
theorem split_spec (hlen : len + 1 < count.length) (hsome : 0 < count.getD len 0)
    (hmem : len ∈ s) (hmem' : len + 1 ∈ s) : Yields (split count len) fun count' =>
      count'.length = count.length ∧ (∀ weight : ℕ → ℕ, ∑ l ∈ s, count'.getD l 0 * weight l + weight len =
        ∑ l ∈ s, count.getD l 0 * weight l + 2 * weight (len + 1)) ∧
      ∀ l, l ≠ len → l ≠ len + 1 → count'.getD l 0 = count.getD l 0 := by
  unfold split
  refine (Yields.set (by omega) _).bind fun count₁ hcount₁ => ?_
  have hlen₁ : count₁.length = count.length := by rw [hcount₁, List.length_set]
  refine (Yields.get (by omega : len + 1 < count₁.length)).bind fun many hmany => ?_
  refine (Yields.set (by omega) _).mono fun count₂ hcount₂ => ?_
  have hmany' : count₁.getD (len + 1) 0 = many := by
    rw [hmany, List.getD_eq_getElem?_getD, List.getElem?_eq_getElem (by omega), Option.getD_some]
  refine ⟨by rw [hcount₂, List.length_set, hlen₁], fun weight => ?_, fun l hl hl' => ?_⟩
  · have hless := sum_set (by omega : len < count.length) (count.getD len 0 - 1) hmem weight
    have hmore := sum_set (by omega : len + 1 < count₁.length) (many + 2) hmem' weight
    rw [← hcount₁] at hless
    rw [← hcount₂, hmany'] at hmore
    obtain ⟨k, hk⟩ : ∃ k, count.getD len 0 = k + 1 := ⟨_, (Nat.succ_pred_eq_of_pos hsome).symm⟩
    rw [hk, Nat.add_sub_cancel] at hless
    linarith
  · rw [hcount₂, List.getD_eq_getElem?_getD, List.getElem?_set_ne hl'.symm, hcount₁, List.getElem?_set_ne hl.symm,
      ← List.getD_eq_getElem?_getD]

/-- Where the longest codes alone would fit, some shorter length has a code. -/
theorem shorter_spec (h : shorter limit count = none) :
    ∀ l ∈ Finset.Icc 1 limit, l ≠ limit → count.getD l 0 = 0 := by
  intro l hl hne
  rw [Finset.mem_Icc] at hl
  have hnone := List.find?_eq_none.1 h l (by rw [List.mem_reverse, List.mem_range'_1]; omega)
  rw [decide_eq_true_eq] at hnone
  omega

theorem shorter_some (h : shorter limit count = some len) : 1 ≤ len ∧ len < limit ∧ 0 < count.getD len 0 := by
  unfold shorter at h
  have hin := List.mem_of_find?_eq_some h
  rw [List.mem_reverse, List.mem_range'_1] at hin
  have hsome := List.find?_some h
  rw [decide_eq_true_eq] at hsome
  exact ⟨hin.1, by omega, hsome⟩

theorem pushDown_spec (h : Counted limit n total count) (hlimit : 0 < limit)
    (hn : n ≤ 2^limit) (hover : 2^limit < total) : Yields (pushDown limit count) (Counted limit n (total - 1)) := by
  have hlen := h.length
  have hcodes := h.codes
  have htotal := h.sum
  have hshort := h.short
  have hmem : limit ∈ Finset.Icc 1 limit := Finset.mem_Icc.2 ⟨hlimit, le_rfl⟩
  unfold kraft at htotal
  unfold pushDown
  refine (Yields.get (by omega : limit < count.length)).bind fun many hmany => ?_
  have hmany' : count.getD limit 0 = many := by
    rw [hmany, List.getD_eq_getElem?_getD, List.getElem?_eq_getElem (by omega), Option.getD_some]
  rw [hmany'] at hshort
  rw [checkedSub_of_le (by omega)]
  refine (Yields.some_iff.2 rfl : Yields (some (many - 1)) fun few => few = many - 1).bind fun few hfew => ?_
  refine (Yields.set (by omega) _).bind fun count₁ hcount₁ => ?_
  have hlen₁ : count₁.length = limit + 1 := by rw [hcount₁, List.length_set, hlen]
  have hless (weight : ℕ → ℕ) := sum_set (by omega : limit < count.length) few hmem weight
  rw [← hcount₁] at hless
  have hsame {l : ℕ} (hl : l ≠ limit) : count₁.getD l 0 = count.getD l 0 := by
    rw [hcount₁, List.getD_eq_getElem?_getD, List.getElem?_set_ne hl.symm, ← List.getD_eq_getElem?_getD]
  have hlast : count₁.getD limit 0 = few := by
    rw [hcount₁, List.getD_eq_getElem?_getD, List.getElem?_set_self (by omega), Option.getD_some]
  have hone := hless fun _ => 1
  have hfull := hless fun l => 2^(limit - l)
  simp only [mul_one] at hone
  rw [Nat.sub_self, pow_zero, mul_one, mul_one] at hfull
  cases hfind : shorter limit count₁ with
  | none =>
    exfalso
    -- the codes are all of the longest length, and there are not as many
    have hzero := shorter_spec hfind
    rw [Finset.sum_eq_single_of_mem limit hmem hzero] at hone
    rw [Finset.sum_eq_single_of_mem limit hmem fun l hl hne => by rw [hzero l hl hne, zero_mul], Nat.sub_self,
      pow_zero, mul_one] at hfull
    omega
  | some len =>
    obtain ⟨hpos, hlt, hsome⟩ := shorter_some hfind
    refine (split_spec (by omega) hsome (Finset.mem_Icc.2 ⟨hpos, hlt.le⟩)
      (Finset.mem_Icc.2 ⟨by omega, hlt⟩)).mono fun count₂ hcount₂ => ?_
    obtain ⟨hlen₂, hweight, hother⟩ := hcount₂
    have htwo := hweight fun _ => 1
    have hfull' := hweight fun l => 2^(limit - l)
    simp only [mul_one] at htwo
    have hpow : (2 : ℕ)^(limit - len) = 2 * 2^(limit - (len + 1)) := by
      rw [← pow_succ']
      congr 1
      omega
    rw [hpow] at hfull'
    refine ⟨hlen₂.trans hlen₁, by omega, ?_, ?_⟩
    · unfold kraft
      omega
    · by_cases heq : len + 1 = limit
      · -- one code of the longest length more than there was
        have hsplit : count₂.getD limit 0 = few + 2 := by
          have hweight' := hweight fun l => if l = limit then 1 else 0
          simp only [mul_ite, mul_one, mul_zero, Finset.sum_ite_eq', if_pos hmem, if_pos heq, if_neg hlt.ne] at hweight'
          omega
        omega
      · rw [hother limit (by omega) (by omega), hlast]
        omega

theorem repair_spec (hlimit : 0 < limit) (hn : n ≤ 2^limit) (rounds : ℕ)
    (h : Counted limit n total count) (hrounds : total = 2^limit + rounds) :
    Yields (repair limit rounds count total) (Counted limit n (2^limit)) := by
  induction rounds generalizing total count with
  | zero =>
    rw [repair, if_neg (by omega)]
    rw [hrounds] at h
    exact Yields.some_iff.2 h
  | succ rounds ih =>
    rw [repair, if_pos (by omega)]
    refine (pushDown_spec h hlimit hn (by omega)).bind fun count' hcount' => ?_
    exact ih hcount' (by omega)

/-! ## The lengths of the symbols -/

theorem mem_inOrder (h : len ∈ inOrder count) : 1 ≤ len ∧ len < count.length := by
  unfold inOrder at h
  obtain ⟨l, hl, hmem⟩ := List.mem_flatMap.1 h
  obtain rfl := List.eq_of_mem_replicate hmem
  rw [List.mem_range'_1] at hl
  omega

/-- A length comes as often as it is counted. -/
theorem count_inOrder (hpos : 1 ≤ len) (hlt : len < count.length) :
    (inOrder count).count len = count.getD len 0 := by
  unfold inOrder
  rw [List.count_flatMap]
  have hmap : (List.range' 1 (count.length - 1)).map (List.count len ∘ fun l => List.replicate (count.getD l 0) l) =
      (List.range' 1 (count.length - 1)).map fun l => if l = len then count.getD len 0 else 0 := by
    refine List.map_congr_left fun l _ => ?_
    rw [Function.comp_apply, List.count_replicate]
    by_cases heq : l = len
    · rw [if_pos heq, if_pos (by rw [heq]; exact beq_self_eq_true len), heq]
    · rw [if_neg heq, if_neg (by simpa using heq)]
  have hset : len ∈ (List.range' 1 (count.length - 1)).toFinset := by
    rw [List.mem_toFinset, List.mem_range'_1]
    omega
  rw [hmap, ← List.sum_toFinset _ List.nodup_range', Finset.sum_ite_eq', if_pos hset]

theorem length_inOrder (hlen : count.length = limit + 1) :
    (inOrder count).length = ∑ l ∈ Finset.Icc 1 limit, count.getD l 0 := by
  unfold inOrder
  rw [List.length_flatMap, hlen, Nat.add_sub_cancel]
  have hset : Finset.Icc 1 limit = (List.range' 1 limit).toFinset := by
    ext l
    rw [Finset.mem_Icc, List.mem_toFinset, List.mem_range'_1]
    omega
  rw [hset, List.sum_toFinset _ List.nodup_range']
  congr 1
  exact List.map_congr_left fun l _ => List.length_replicate

/-- As many lengths as there are symbols are given out, each to a symbol of its own. -/
theorem give_spec (given : List ℕ) {next lens : List ℕ} (hlength : next.length = given.length) (hnodup : next.Nodup)
    (hnext : ∀ sym ∈ next, sym < lens.length ∧ lens.getD sym 0 = 0) (hgiven : ∀ len ∈ given, len ≠ 0) :
    Yields (given.foldlM give (next, lens)) fun r => r.2.length = lens.length ∧
      (∀ len, len ≠ 0 → r.2.count len = lens.count len + given.count len) ∧ (∀ sym ∈ next, r.2.getD sym 0 ≠ 0) ∧
      (∀ sym, lens.getD sym 0 ≠ 0 → r.2.getD sym 0 ≠ 0) ∧ ∀ len ∈ r.2, len ∈ lens ∨ len ∈ given := by
  induction given generalizing next lens with
  | nil =>
    obtain rfl := List.eq_nil_of_length_eq_zero hlength
    exact Yields.some_iff.2 ⟨rfl, fun _ _ => rfl, fun _ h => absurd h List.not_mem_nil, fun _ h => h, fun _ h => Or.inl h⟩
  | cons len given ih =>
    cases next with
    | nil => exact absurd hlength (by simp)
    | cons sym next =>
      obtain ⟨hsym, hzero⟩ := hnext sym List.mem_cons_self
      have hlen := hgiven len List.mem_cons_self
      rw [List.foldlM_cons, give, put_of_lt hsym]
      have hkeep (other : ℕ) (hother : lens.getD other 0 ≠ 0 ∨ other = sym) : (lens.set sym len).getD other 0 ≠ 0 := by
        rw [List.getD_eq_getElem?_getD, List.getElem?_set]
        split
        · exact hlen
        · rw [← List.getD_eq_getElem?_getD]
          exact hother.resolve_right (Ne.symm ‹_›)
      have hcount (l : ℕ) (hl : l ≠ 0) : (lens.set sym len).count l = lens.count l + if l = len then 1 else 0 := by
        have hold : lens[sym] = 0 := by
          rwa [List.getD_eq_getElem?_getD, List.getElem?_eq_getElem hsym, Option.getD_some] at hzero
        rw [List.count_set hsym, hold, if_neg (by simpa using hl.symm), Nat.sub_zero]
        by_cases heq : l = len
        · rw [if_pos heq, if_pos (by rw [heq]; exact beq_self_eq_true len)]
        · rw [if_neg heq, if_neg (by simpa using Ne.symm heq)]
      obtain ⟨r, hr, hrlen, hrcount, hrnext, hrkeep, hrmem⟩ := @ih next (lens.set sym len) (Nat.succ_inj.1 hlength)
        (List.nodup_cons.1 hnodup).2 (fun other hother => by
          have hne : sym ≠ other := by
            rintro rfl
            exact (List.nodup_cons.1 hnodup).1 hother
          obtain ⟨hlt, hother'⟩ := hnext other (List.mem_cons_of_mem _ hother)
          refine ⟨by rwa [List.length_set], ?_⟩
          rwa [List.getD_eq_getElem?_getD, List.getElem?_set_ne hne, ← List.getD_eq_getElem?_getD])
        (fun l hl => hgiven l (List.mem_cons_of_mem _ hl))
      refine ⟨r, hr, by rw [hrlen, List.length_set], fun l hl => ?_, fun other hother => ?_,
        fun other hother => hrkeep other (hkeep other (Or.inl hother)), fun l hl => ?_⟩
      · rw [hrcount l hl, hcount l hl, List.count_cons]
        by_cases heq : l = len
        · rw [if_pos heq, if_pos (by rw [heq]; exact beq_self_eq_true len)]
          omega
        · rw [if_neg heq, if_neg (by simpa using Ne.symm heq)]
          omega
      · rcases List.mem_cons.1 hother with rfl | hother
        · exact hrkeep _ (hkeep _ (Or.inr rfl))
        · exact hrnext other hother
      · obtain hl | hl := hrmem l hl
        · obtain hl | hl := List.mem_or_eq_of_mem_set hl
          · exact Or.inl hl
          · exact Or.inr (by rw [hl]; exact List.mem_cons_self)
        · exact Or.inr (List.mem_cons_of_mem _ hl)

/-- Code lengths for counts: one for every symbol that is counted, none past the limit, and all of the code space
used up. -/
structure Lens (freq : List ℕ) (limit : ℕ) (lens : List ℕ) : Prop where
  length : lens.length = freq.length
  le : ∀ len ∈ lens, len ≤ limit
  some : ∀ sym, freq.getD sym 0 ≠ 0 → lens.getD sym 0 ≠ 0
  full : ∑ l ∈ Finset.Icc 1 limit, lens.count l * 2^(limit - l) = 2^limit

theorem join_all (hn : 2 ≤ n) {weight : List ℕ} (hweight : weight.length = n) :
    Yields ((List.range (n - 1)).foldlM (fun (f : Forest) _ => f.join n) ⟨weight, List.replicate (2 * n) none, 0, n⟩)
      (Forest.Joined n (n - 1)) := by
  have hloop := @Yields.foldlM _ _ (fun (f : Forest) (_ : ℕ) => f.join n) (fun done f => f.Joined n done.length)
    (List.range (n - 1)) ⟨weight, List.replicate (2 * n) none, 0, n⟩
  rw [List.length_range] at hloop
  refine hloop ?_ fun done a rest f hsplit hf => ?_
  · have hgone : (⟨weight, List.replicate (2 * n) none, 0, n⟩ : Forest).gone n = ∅ := by
      unfold Forest.gone
      rw [Finset.range_zero, Finset.Ico_self, Finset.union_empty]
    refine ⟨⟨Nat.zero_le _, le_rfl, hweight.ge⟩, hweight, List.length_replicate, by simp, fun h => absurd h (lt_irrefl _),
      fun i hi => ?_, fun g => ?_⟩
    · rw [hgone] at hi
      exact absurd hi (Finset.notMem_empty i)
    · rw [hgone, Finset.sum_empty, List.length_nil, Finset.sum_range_zero]
  · have hlen := congrArg List.length hsplit
    rw [List.length_range, List.length_append, List.length_cons] at hlen
    rw [List.length_append, List.length_singleton]
    exact Forest.join_spec hf (by omega)

/-- Depths that are brought back to a limit use up all of the code space at least, and those below it all of it
at most. -/
theorem clipped_sum {limit n : ℕ} {depth : List ℕ} (hlen : depth.length = n)
    (hsum : ∑ i ∈ Finset.range n, (1 / 2 : ℚ)^depth.getD i 0 = 1) :
    2^limit ≤ (depth.map fun d => 2^(limit - min d limit)).sum ∧
      (depth.map fun d => if min d limit = limit then 0 else 2^(limit - min d limit)).sum ≤ 2^limit := by
  have hlist : (depth.map fun d => (1 / 2 : ℚ)^d).sum = 1 := by
    have heach : (depth.map fun d => (1 / 2 : ℚ)^d) = (List.range n).map fun i => (1 / 2 : ℚ)^depth.getD i 0 := by
      refine List.ext_getElem (by simp [hlen]) fun i hi _ => ?_
      rw [List.length_map] at hi
      rw [List.getElem_map, List.getElem_map, List.getElem_range, List.getD_eq_getElem?_getD,
        List.getElem?_eq_getElem hi, Option.getD_some]
    rw [heach, ← List.sum_toFinset _ List.nodup_range, List.toFinset_range, hsum]
  have hpow {d : ℕ} (hd : d ≤ limit) : ((2^(limit - d) : ℕ) : ℚ) = 2^limit * (1 / 2)^d := by
    rw [Nat.cast_pow, Nat.cast_ofNat, one_div, inv_pow, ← div_eq_mul_inv, pow_sub₀ _ two_ne_zero hd, div_eq_mul_inv]
  have hscale : (depth.map fun d => (2 : ℚ)^limit * (1 / 2)^d).sum = 2^limit := by
    rw [List.sum_map_mul_left, hlist, mul_one]
  constructor
  · have hle : (depth.map fun d => (2 : ℚ)^limit * (1 / 2)^d).sum ≤
        (depth.map fun d => ((2^(limit - min d limit) : ℕ) : ℚ)).sum := by
      refine List.sum_le_sum fun d _ => ?_
      rw [hpow (min_le_right _ _)]
      have hhalf : ((1 : ℚ) / 2)^d ≤ (1 / 2)^min d limit :=
        pow_le_pow_of_le_one (by norm_num) (by norm_num) (min_le_left _ _)
      gcongr
    rw [hscale] at hle
    have hcast : ((depth.map fun d => ((2^(limit - min d limit) : ℕ) : ℚ)).sum) =
        (((depth.map fun d => 2^(limit - min d limit)).sum : ℕ) : ℚ) := by
      rw [Nat.cast_list_sum, List.map_map]
      rfl
    rw [hcast] at hle
    exact_mod_cast hle
  · have hle : (depth.map fun d => (((if min d limit = limit then 0 else 2^(limit - min d limit)) : ℕ) : ℚ)).sum ≤
        (depth.map fun d => (2 : ℚ)^limit * (1 / 2)^d).sum := by
      refine List.sum_le_sum fun d _ => ?_
      split
      · rw [Nat.cast_zero]
        positivity
      · rename_i hne
        have hd : min d limit = d := by omega
        rw [hd, hpow (by omega)]
    rw [hscale] at hle
    have hcast : ((depth.map fun d => (((if min d limit = limit then 0 else 2^(limit - min d limit)) : ℕ) : ℚ)).sum) =
        (((depth.map fun d => if min d limit = limit then 0 else 2^(limit - min d limit)).sum : ℕ) : ℚ) := by
      rw [Nat.cast_list_sum, List.map_map]
      rfl
    rw [hcast] at hle
    exact_mod_cast hle

theorem lengths_spec (freq : List ℕ) (htwo : 2 ≤ freq.length) (hlimit : 0 < limit)
    (hfew : freq.length ≤ 2^limit) : Yields (lengths freq limit) (Lens freq limit) := by
  obtain ⟨hflen, hkeep, hmany⟩ := seeded_spec freq htwo
  unfold lengths
  dsimp only
  generalize seeded freq = seeds at hflen hkeep hmany ⊢
  have hn : 2 ≤ (appearing seeds).length := by rwa [length_appearing]
  have hle : (appearing seeds).length ≤ 2^limit := by
    rw [length_appearing]
    exact (List.countP_le_length.trans hflen.le).trans hfew
  have hnodup := nodup_appearing seeds
  have hmem (sym : ℕ) := @mem_appearing seeds sym
  generalize appearing seeds = syms at hn hle hnodup hmem ⊢
  rw [checkedSub_of_le (by omega)]
  refine (Yields.some_iff.2 rfl : Yields (some (syms.length - 1)) fun joins => joins = syms.length - 1).bind
    fun joins hjoins => ?_
  subst hjoins
  refine (join_all hn (List.length_map _)).bind fun forest hforest => ?_
  -- every node but the root has one above it
  have hroot : 2 * (syms.length - 1) + 1 = syms.length + (syms.length - 1) := by omega
  have hparent : ∀ i < 2 * (syms.length - 1), ∃ p, forest.parent[i]? = some (some p) ∧ i < p ∧
      p ≤ 2 * (syms.length - 1) := by
    intro i hi
    have hgone : i ∈ forest.gone syms.length := by
      rw [hforest.gone_eq (by omega) (by omega), Finset.mem_range]
      exact hi
    obtain ⟨p, hp, hip, -, hlt⟩ := hforest.under i hgone
    exact ⟨p, hp, hip, by omega⟩
  refine (Forest.depths_spec (hforest.weight.trans hroot.symm) hparent).bind fun depth hdepth => ?_
  obtain ⟨hdlen, hdroot, hdnext⟩ := hdepth
  have hsum := Forest.leaves_sum hforest (by omega) (by omega) hdroot hdnext
  have hleaf (i : ℕ) (hi : i < syms.length) : (depth.take syms.length).getD i 0 = depth.getD i 0 := by
    rw [List.getD_eq_getElem?_getD, List.getElem?_take_of_lt hi, ← List.getD_eq_getElem?_getD]
  have htake : (depth.take syms.length).length = syms.length := List.length_take_of_le (by omega)
  have hpositive : ∀ d ∈ depth.take syms.length, 0 < d := by
    intro d hd
    obtain ⟨i, hi, rfl⟩ := List.getElem_of_mem hd
    rw [htake] at hi
    have hnext := hdnext i (by omega)
    rw [← hleaf i hi, List.getD_eq_getElem?_getD, List.getElem?_eq_getElem (by omega), Option.getD_some] at hnext
    omega
  obtain ⟨hfull, hshort⟩ := @clipped_sum limit syms.length (depth.take syms.length) htake
    ((Finset.sum_congr rfl fun i hi => by rw [hleaf i (Finset.mem_range.1 hi)]).trans hsum)
  refine (tally_spec hlimit _ hpositive).bind fun count hcount => ?_
  obtain ⟨hclen, hcsum⟩ := hcount
  have htotal : kraft count limit = ((depth.take syms.length).map fun d => 2^(limit - min d limit)).sum := hcsum _
  have hcounted : Counted limit syms.length (kraft count limit) count := by
    refine ⟨hclen, ?_, rfl, ?_⟩
    · have hone := hcsum fun _ => 1
      simp only [mul_one, List.map_const', List.sum_replicate, smul_eq_mul, htake] at hone
      exact hone
    · -- what is at the limit is counted by its number
      have hrest := hcsum fun l => if l = limit then 0 else 2^(limit - l)
      have hmemlimit : limit ∈ Finset.Icc 1 limit := Finset.mem_Icc.2 ⟨hlimit, le_rfl⟩
      have hkraft : kraft count limit = count.getD limit 0 +
          ∑ l ∈ Finset.Icc 1 limit, count.getD l 0 * if l = limit then 0 else 2^(limit - l) := by
        unfold kraft
        rw [← Finset.add_sum_erase _ _ hmemlimit, Nat.sub_self, pow_zero, mul_one,
          ← Finset.add_sum_erase _ (fun l => count.getD l 0 * if l = limit then 0 else 2^(limit - l)) hmemlimit,
          if_pos rfl, mul_zero, zero_add]
        congr 1
        exact Finset.sum_congr rfl fun l hl => by rw [if_neg (Finset.ne_of_mem_erase hl)]
      omega
  refine (repair_spec hlimit hle _ hcounted (by omega)).bind fun count' hcount' => ?_
  have hclen' := hcount'.length
  refine (give_spec (inOrder count') ?_ (List.nodup_reverse.2 hnodup) ?_ ?_).bind fun r hr => ?_
  · rw [List.length_reverse, length_inOrder hclen', hcount'.codes]
  · intro sym hsym
    rw [List.mem_reverse, hmem] at hsym
    rw [List.length_replicate]
    exact ⟨hsym.1, getD_zeros _ _⟩
  · intro len hlen
    exact Nat.one_le_iff_ne_zero.1 (mem_inOrder hlen).1
  · obtain ⟨next, lens⟩ := r
    obtain ⟨hlen, hrcount, hgiven, -, hrmem⟩ := hr
    dsimp only at hlen hrcount hgiven hrmem
    rw [List.length_replicate, hflen] at hlen
    refine Yields.pure_iff.2 ⟨hlen, fun len h => ?_, fun sym hsym => ?_, ?_⟩
    · obtain h | h := hrmem len h
      · rw [List.eq_of_mem_replicate h]
        exact Nat.zero_le _
      · have := (mem_inOrder h).2
        omega
    · refine hgiven sym ?_
      rw [List.mem_reverse, hmem]
      have hseed := hkeep sym hsym
      refine ⟨?_, Nat.pos_of_ne_zero hseed⟩
      by_contra hge
      rw [List.getD_eq_getElem?_getD, List.getElem?_eq_none (by omega)] at hseed
      exact hseed rfl
    · rw [← hcount'.sum]
      unfold kraft
      refine Finset.sum_congr rfl fun l hl => ?_
      rw [Finset.mem_Icc] at hl
      have hzero : (List.replicate seeds.length 0).count l = 0 := by
        rw [List.count_replicate, if_neg (by simp; omega)]
      rw [hrcount l (by omega), hzero, Nat.zero_add, count_inOrder hl.1 (by omega)]

/-- The codes of the lengths are numbers of as many bits as they are long. -/
theorem Lens.fits {lens : List ℕ} (h : Lens freq limit lens) : Canonical.Fits lens limit :=
  Canonical.fits_iff_kraft.2 h.full.le

end Rucc.Object
