import Rucc.Opt.RangeCompare

/-!
# What inverting a range leaves

`Range::invert` of `rucc-opt`'s `range.rs` takes the gaps between the intervals and never looks at the bits, so a
value the bits keep out of an interval is in neither the range nor its inverse (`mem_invert`). Nothing else is
lost: the inverse is everything outside the range just when the bits allow all the intervals cover, but for an
interval that `push` covers again when there is one gap too many.
-/

namespace Rucc.Opt

open Intervals U128 Checked Range Ops

namespace Range

variable {top next width v : ℕ} {pairs : List (ℕ × ℕ)} {r : Range}

/-! ## The gaps -/

/-- The gaps are what is not covered, from `next` up. -/
theorem covers_gaps {top : ℕ} (htop : top ≤ MAX) {pairs : List (ℕ × ℕ)} {next v : ℕ} (hsep : Separated pairs)
    (hin : Inside top pairs) (hnext : ∀ p ∈ pairs, next ≤ p.1) :
    Covers (gaps top pairs next) v ↔ next ≤ v ∧ v ≤ top ∧ ¬ Covers pairs v := by
  induction pairs generalizing next with
  | nil =>
    unfold gaps
    split_ifs with h <;> simp only [covers_cons, not_covers_nil, or_false, not_false_eq_true, and_true, false_iff]
    omega
  | cons p rest ih =>
    obtain ⟨lo, hi⟩ := p
    obtain ⟨hfirst, hrest⟩ := List.pairwise_cons.mp hsep
    have hp := hin (lo, hi) (by simp)
    have hlo := hnext (lo, hi) (by simp)
    have hinrest : Inside top rest := fun q hq => hin q (List.mem_cons_of_mem _ hq)
    dsimp only at hp hlo hfirst
    -- What the rest covers is past this interval.
    have habove (hv : Covers rest v) : hi + 1 < v := by
      obtain ⟨q, hq, hqv⟩ := hv
      have := hfirst q hq
      omega
    have hhead : Covers (if lo > next then [(next, lo - 1)] else []) v ↔ next ≤ v ∧ v < lo := by
      split_ifs with h <;> simp only [covers_cons, not_covers_nil, or_false, false_iff] <;> omega
    unfold gaps
    rw [covers_append, hhead, covers_cons]
    unfold checkedAdd
    split_ifs with hmax
    · dsimp only
      rw [ih hrest hinrest (fun q hq => (hfirst q hq).le)]
      by_cases hv : Covers rest v
      · have := habove hv
        simp only [hv, not_true_eq_false, and_false, or_false, or_true, iff_false]
        omega
      · simp only [hv, not_false_eq_true, and_true, or_false]
        omega
    · have hnone : ¬ Covers rest v := fun hv => by
        have := hv.le hinrest
        have := habove hv
        omega
      simp only [not_covers_nil, hnone, or_false]
      omega

/-- Gaps in order from `next` up, inside the width and apart from each other. -/
def Gapped (top next : ℕ) (pairs : List (ℕ × ℕ)) : Prop :=
  Separated pairs ∧ Inside top pairs ∧ ∀ p ∈ pairs, next ≤ p.1

theorem gapped_nil (top next : ℕ) : Gapped top next [] := ⟨List.Pairwise.nil, by simp [Inside], by simp⟩

/-- The gap under an interval, if there is one, before the gaps over it. -/
theorem Gapped.under {lo hi : ℕ} {above : List (ℕ × ℕ)} (h : Gapped top (hi + 1) above) (hlo : next ≤ lo)
    (hle : lo ≤ hi) (htop : hi ≤ top) : Gapped top next ((if lo > next then [(next, lo - 1)] else []) ++ above) := by
  obtain ⟨hsep, hin, hfirst⟩ := h
  have hnext (p : ℕ × ℕ) (hp : p ∈ above) : next ≤ p.1 := by
    have := hfirst p hp
    omega
  split_ifs with hgap
  · refine ⟨List.pairwise_cons.mpr ⟨fun p hp => ?_, hsep⟩, List.forall_mem_cons.mpr ⟨?_, hin⟩,
      List.forall_mem_cons.mpr ⟨le_rfl, hnext⟩⟩
    · have := hfirst p hp
      dsimp only
      omega
    · dsimp only
      omega
  · exact ⟨hsep, hin, hnext⟩

theorem gapped_gaps (hsep : Separated pairs) (hin : Inside top pairs)
    (hnext : ∀ p ∈ pairs, next ≤ p.1) : Gapped top next (gaps top pairs next) := by
  induction pairs generalizing next with
  | nil =>
    unfold gaps
    split_ifs with h
    · exact ⟨List.pairwise_singleton _ _, by simpa [Inside] using h, by simp⟩
    · exact gapped_nil _ _
  | cons p rest ih =>
    obtain ⟨lo, hi⟩ := p
    obtain ⟨hfirst, hrest⟩ := List.pairwise_cons.mp hsep
    have hp := hin (lo, hi) (by simp)
    unfold gaps checkedAdd
    apply Gapped.under _ (hnext (lo, hi) (by simp)) hp.1 hp.2
    split_ifs
    · exact ih hrest (fun q hq => hin q (List.mem_cons_of_mem _ hq)) fun q hq => (hfirst q hq).le
    · exact gapped_nil _ _

/-- An interval makes one gap at most, under it. -/
theorem length_gaps_cons_le {top next most : ℕ} (p : ℕ × ℕ) {rest : List (ℕ × ℕ)}
    (h : ∀ after, p.2 < after → (gaps top rest after).length ≤ most) :
    (gaps top (p :: rest) next).length ≤ (if 0 < p.1 then 1 else 0) + most := by
  obtain ⟨lo, hi⟩ := p
  have hunder : (if lo > next then [(next, lo - 1)] else []).length ≤ if 0 < lo then 1 else 0 := by
    split_ifs
    · exact le_rfl
    · omega
    · exact Nat.zero_le _
    · exact le_rfl
  unfold gaps
  rw [List.length_append]
  apply Nat.add_le_add hunder
  unfold checkedAdd
  split
  · exact Nat.zero_le _
  · rename_i after hafter
    split_ifs at hafter
    exact h after (by have := Option.some.inj hafter; dsimp only; omega)

theorem length_gaps_le (top : ℕ) (pairs : List (ℕ × ℕ)) (next : ℕ) :
    (gaps top pairs next).length ≤ pairs.length + 1 := by
  induction pairs generalizing next with
  | nil =>
    unfold gaps
    split_ifs <;> simp
  | cons p rest ih =>
    have hstep := @length_gaps_cons_le top next _ p rest fun after _ => ih after
    rw [List.length_cons]
    split_ifs at hstep <;> omega

/-! ## Merging intervals that are apart -/

/-- An interval clear of the last one is put after it while there is room. -/
theorem push_clear {next : ℕ × ℕ} (hlen : pairs.length < PAIRS)
    (hclear : ∀ p ∈ pairs, saturatingAdd p.2 1 < next.1) : push pairs next = pairs ++ [next] := by
  unfold push
  cases hlast : pairs.getLast? with
  | none => rw [List.getLast?_eq_none_iff.mp hlast, List.nil_append]
  | some last =>
    dsimp only
    rw [if_neg]
    have := hclear last (List.mem_of_getLast? hlast)
    omega

/-- With no room left the last interval is stretched over the next. -/
theorem push_full {pairs : List (ℕ × ℕ)} {last next : ℕ × ℕ} (hlen : (pairs ++ [last]).length = PAIRS) :
    push (pairs ++ [last]) next = pairs ++ [(last.1, max last.2 next.2)] := by
  unfold push
  rw [List.getLast?_append_of_ne_nil _ (List.cons_ne_nil _ _), List.getLast?_singleton]
  dsimp only
  rw [if_pos (Or.inr hlen), List.dropLast_concat]

/-- Merging intervals that are apart changes nothing while there is room for them. -/
theorem foldl_push_apart {top : ℕ} (rest pairs : List (ℕ × ℕ)) (hsep : Separated (pairs ++ rest))
    (hin : Inside top (pairs ++ rest)) (hlen : (pairs ++ rest).length ≤ PAIRS) :
    rest.foldl push pairs = pairs ++ rest := by
  induction rest generalizing pairs with
  | nil => rw [List.foldl_nil, List.append_nil]
  | cons next rest ih =>
    have hstep : push pairs next = pairs ++ [next] := by
      apply push_clear
      · rw [List.length_append, List.length_cons] at hlen
        omega
      · intro p hp
        have hapart := (List.pairwise_append.mp hsep).2.2 p hp next (by simp)
        unfold saturatingAdd
        omega
    rw [List.append_cons] at hsep hin hlen
    rw [List.foldl_cons, hstep, ih _ hsep hin hlen, ← List.append_cons]

/-- Intervals that are in order, apart and inside the width are merged as they are. -/
theorem fromPairs_eq_merged (h : 1 ≤ width) (hw : width ≤ 128)
    (hsep : Separated pairs) (hin : Inside (mask width) pairs) : fromPairs pairs width = merged pairs width := by
  have hbounds : inBounds pairs width = pairs := by
    unfold inBounds
    rw [List.map_congr_left (g := id), List.map_id, List.filter_eq_self.mpr]
    · exact fun p hp => decide_eq_true (hin p hp).1
    · intro p hp
      have := hin p hp
      rw [and_mask_of_le hw this.2, and_mask_of_le hw (this.1.trans this.2)]
      rfl
  have hchain : pairs.IsChain Before := by
    apply List.Pairwise.isChain
    apply hsep.imp_of_mem
    intro p q hp _ hpq
    have := hin p hp
    exact Or.inl (by omega)
  unfold fromPairs
  dsimp only
  rw [clamp_of_bounds h hw, hbounds, if_pos hchain]

/-! ## What the inverse holds -/

/-- The value is in the third of three intervals with gaps all round, which makes one gap too many: the last two
gaps are put together, over that interval. -/
def Swallows (r : Range) (v : ℕ) : Prop :=
  match r.pairs with
  | [p, _, q] => 0 < p.1 ∧ q.2 < mask r.width ∧ q.1 ≤ v ∧ v ≤ q.2
  | _ => False

/-- The values of a range merged from gaps are those its intervals cover. -/
theorem mem_merged {sorted : List (ℕ × ℕ)} (h : 1 ≤ width) (hw : width ≤ 128)
    (hsep : Separated sorted) (hin : Inside (mask width) sorted) :
    v ∈ merged sorted width ↔ Covers (sorted.foldl push []) v := by
  have hasc : Ascending sorted := hsep.imp_of_mem fun hp _ hpq => by
    have := hin _ hp
    omega
  obtain ⟨hform, -⟩ := merged_spec h hw hasc hin
  rw [hform.mem]
  constructor
  · exact fun hv => hv.2
  · exact fun hv => ⟨bitsOfPairs_allows hw hform.inside hv, hv⟩

/-- Three intervals with gaps all round, and the four gaps. -/
theorem gaps_three (htop : top ≤ MAX) {p q r : ℕ × ℕ} (hsep : Separated [p, q, r])
    (hin : Inside top [p, q, r]) (hfirst : 0 < p.1) (hlast : r.2 < top) :
    gaps top [p, q, r] 0 = [(0, p.1 - 1), (p.2 + 1, q.1 - 1), (q.2 + 1, r.1 - 1), (r.2 + 1, top)] := by
  simp only [Separated, List.pairwise_cons, List.mem_cons, List.not_mem_nil, or_false, forall_eq_or_imp,
    forall_eq] at hsep
  simp only [Inside, List.mem_cons, List.not_mem_nil, or_false, forall_eq_or_imp, forall_eq] at hin
  obtain ⟨⟨hpq, hpr⟩, hqr, -⟩ := hsep
  have hafter {hi : ℕ} (h : hi < top) : checkedAdd hi 1 = some (hi + 1) := if_pos (by omega)
  simp only [gaps, hafter hlast, hafter (show q.2 < top by omega), hafter (show p.2 < top by omega)]
  rw [if_pos hfirst, if_pos (by omega), if_pos (by omega), if_pos (by omega)]
  rfl

/-- With a gap missing under the first of three or over the last there is room for the others. -/
theorem length_gaps_three {p q r : ℕ × ℕ} (h : ¬ (0 < p.1 ∧ r.2 < top)) :
    (gaps top [p, q, r] 0).length ≤ PAIRS := by
  unfold PAIRS
  by_cases hfirst : 0 < p.1
  · have hlast (after : ℕ) (hafter : r.2 < after) : (gaps top [] after).length ≤ 0 := by
      unfold gaps
      rw [if_neg (by omega), List.length_nil]
    have hthird (after : ℕ) (_ : q.2 < after) := @length_gaps_cons_le top after 0 r [] hlast
    have hsecond (after : ℕ) (_ : p.2 < after) := @length_gaps_cons_le top after _ q [r] hthird
    have hwhole := @length_gaps_cons_le top 0 _ p [q, r] hsecond
    split_ifs at hwhole <;> omega
  · have hwhole := @length_gaps_cons_le top 0 3 p [q, r] fun after _ => length_gaps_le top [q, r] after
    rwa [if_neg hfirst, Nat.zero_add] at hwhole

/-- With room for all the gaps the inverse is what the intervals do not cover. -/
theorem mem_invert_of_length {r : Range} (hr : r.WellFormed) {v : ℕ} (hv : v < 2^r.width)
    (hlen : (gaps (mask r.width) r.pairs 0).length ≤ PAIRS) : v ∈ r.invert ↔ ¬ Covers r.pairs v := by
  have htop := mask_le r.width
  have hzero : ∀ p ∈ r.pairs, 0 ≤ p.1 := fun p _ => Nat.zero_le _
  obtain ⟨hsep, hin, -⟩ := gapped_gaps hr.separated hr.inside hzero
  unfold invert
  rw [fromPairs_eq_merged hr.one_le_width hr.width_le hsep hin, mem_merged hr.one_le_width hr.width_le hsep hin,
    foldl_push_apart _ [] hsep hin hlen, List.nil_append, covers_gaps htop hr.separated hr.inside hzero]
  have := (le_mask_iff hr.width_le).mpr hv
  exact ⟨fun h => h.2.2, fun h => ⟨Nat.zero_le v, this, h⟩⟩

/-- With four gaps the last two are put together, over the third interval. -/
theorem mem_invert_of_four (hr : r.WellFormed) (hv : v < 2^r.width) {p q s : ℕ × ℕ}
    (hpairs : r.pairs = [p, q, s]) (hall : 0 < p.1 ∧ s.2 < mask r.width) :
    v ∈ r.invert ↔ ¬ Covers r.pairs v ∨ (s.1 ≤ v ∧ v ≤ s.2) := by
  have htop := mask_le r.width
  have hzero : ∀ p ∈ r.pairs, 0 ≤ p.1 := fun p _ => Nat.zero_le _
  have hvmask := (le_mask_iff hr.width_le).mpr hv
  obtain ⟨hsep, hin, -⟩ := gapped_gaps hr.separated hr.inside hzero
  have hcovers := @covers_gaps _ htop _ 0 v hr.separated hr.inside hzero
  have hgaps := gaps_three htop (hpairs ▸ hr.separated) (hpairs ▸ hr.inside) hall.1 hall.2
  have hs := hr.inside s (by rw [hpairs]; simp)
  have hp := hr.inside p (by rw [hpairs]; simp)
  have hapart := hpairs ▸ hr.separated
  simp only [Separated, List.pairwise_cons, List.mem_cons, List.not_mem_nil, or_false, forall_eq_or_imp,
    forall_eq] at hapart
  unfold invert
  rw [fromPairs_eq_merged hr.one_le_width hr.width_le hsep hin, mem_merged hr.one_le_width hr.width_le hsep hin]
  rw [hpairs, hgaps] at hsep hin hcovers ⊢
  -- The first three gaps are merged as they are, and the last one stretches the third.
  have hthree : [(0, p.1 - 1), (p.2 + 1, q.1 - 1), (q.2 + 1, s.1 - 1)].foldl push [] =
      [(0, p.1 - 1), (p.2 + 1, q.1 - 1), (q.2 + 1, s.1 - 1)] := by
    apply @foldl_push_apart (mask r.width) _ []
    · exact hsep.sublist (List.prefix_append _ [(s.2 + 1, mask r.width)]).sublist
    · exact fun g hg => hin g ((List.prefix_append _ [(s.2 + 1, mask r.width)]).subset hg)
    · exact le_rfl
  have hpush : [(0, p.1 - 1), (p.2 + 1, q.1 - 1), (q.2 + 1, s.1 - 1), (s.2 + 1, mask r.width)].foldl push [] =
      [(0, p.1 - 1), (p.2 + 1, q.1 - 1), (q.2 + 1, max (s.1 - 1) (mask r.width))] := by
    rw [show [(0, p.1 - 1), (p.2 + 1, q.1 - 1), (q.2 + 1, s.1 - 1), (s.2 + 1, mask r.width)] =
      [(0, p.1 - 1), (p.2 + 1, q.1 - 1), (q.2 + 1, s.1 - 1)] ++ [(s.2 + 1, mask r.width)] from rfl,
      List.foldl_append, hthree]
    exact @push_full [(0, p.1 - 1), (p.2 + 1, q.1 - 1)] (q.2 + 1, s.1 - 1) (s.2 + 1, mask r.width) rfl
  rw [hpush]
  simp only [covers_cons, not_covers_nil, or_false] at hcovers ⊢
  omega

/-- What the inverse holds: all that the intervals do not cover, and an interval that is swallowed. -/
theorem mem_invert (hr : r.WellFormed) (hv : v < 2^r.width) : v ∈ r.invert ↔ ¬ Covers r.pairs v ∨ r.Swallows v := by
  have hlen := hr.length_le
  have hsep := hr.separated
  have hin := hr.inside
  have hmem := @mem_invert_of_length r hr v hv
  unfold Swallows
  split
  · rename_i p q s hpairs
    by_cases hall : 0 < p.1 ∧ s.2 < mask r.width
    · rw [mem_invert_of_four hr hv hpairs hall]
      tauto
    · rw [hmem (by rw [hpairs]; exact length_gaps_three hall)]
      tauto
  · rename_i hpairs
    rw [or_false]
    apply hmem
    have := length_gaps_le (mask r.width) r.pairs 0
    by_contra hlong
    unfold PAIRS at *
    obtain ⟨p, q, s, heq⟩ := List.length_eq_three.mp (show r.pairs.length = 3 by omega)
    exact hpairs p q s heq

/-- The bits allow every value the intervals cover, but for an interval that is swallowed. -/
def Filled (r : Range) : Prop := ∀ v, Covers r.pairs v → ¬ r.Swallows v → r.bits.allows v = true

/-- Nothing is missing from a range and its inverse just when the range is filled. -/
theorem mem_invert_iff_filled (hr : r.WellFormed) : (∀ v < 2^r.width, v ∉ r → v ∈ r.invert) ↔ r.Filled := by
  constructor
  · intro h v hcov hswallows
    by_contra hbits
    have hv : v < 2^r.width := (le_mask_iff hr.width_le).mp (hcov.le hr.inside)
    have hmem := (mem_invert hr hv).mp (h v hv fun hmem => hbits (hr.mem.mp hmem).1)
    exact hmem.elim (fun hnot => hnot hcov) hswallows
  · intro h v hv hnot
    rw [mem_invert hr hv]
    by_contra hno
    obtain ⟨hcov, hswallows⟩ := not_or.mp hno
    have hcov := not_not.mp hcov
    exact hnot (hr.mem.mpr ⟨h v hcov hswallows, hcov⟩)

end Range

/-! ## What is asked of the questions -/

/-- What is asked of the inverse of a range, and of the questions about it and another. -/
structure Answers (a b : Range) : Prop where
  invert : ∀ v < 2^a.width, v ∉ a → v ∈ a.invert
  narrowFor : ∀ pred : IntPred, ∀ x ∈ a, ∀ y ∈ b, pred.Holds a.width x y → x ∈ Ops.narrowFor pred a b
  backward : ∀ undo : Undo, undo.Makes a.width → ∀ x < 2^undo.operandWidth a.width,
    ∀ y, (undo.IsBinary → y ∈ b) → undo.forward a.width x y ∈ a → x ∈ Ops.backward undo a b
  compare : ∀ pred : IntPred, ∀ x ∈ a, ∀ y ∈ b,
    (Ops.compare pred a b = .always → pred.Holds a.width x y) ∧
      (Ops.compare pred a b = .never → ¬ pred.Holds a.width x y)
  overflows : ∀ (op : CheckedOp) (signed : Bool), ∀ x ∈ a, ∀ y ∈ b,
    (Ops.overflows op signed a b = .always → op.Overflows signed a.width x y) ∧
      (Ops.overflows op signed a b = .never → ¬ op.Overflows signed a.width x y)

/-- Every answer about two ranges the module builds is right, but for the inverse of a range that is not filled. -/
theorem Built.answers_iff {a b : Range} (ha : Built a) (hb : Built b) (hab : a.width = b.width) :
    Answers a b ↔ a.Filled := by
  have ha' := ha.wellFormed
  have hb' := hb.wellFormed
  rw [← mem_invert_iff_filled ha']
  constructor
  · exact fun h => h.invert
  · exact fun h => {
      invert := h
      narrowFor := fun pred x hx y hy => narrowFor_sound ha' hb' hab pred hx hy
      backward := fun undo hmakes x hx y hy => backward_sound ha' hb' hab hmakes hx hy
      compare := fun pred x hx y hy => compare_sound ha' hb' hab pred hx hy
      overflows := fun op signed x hx y hy => overflows_sound ha' hb' hab op signed hx hy }

/-- One value is an interval its bits allow. -/
theorem answers_five_three : Answers (exactly 5 8) (exactly 3 8) := by
  apply (Built.answers_iff (.exactly 5 8) (.exactly 3 8) rfl).mpr
  rintro v ⟨p, hp, hlo, hhi⟩ -
  obtain rfl := List.mem_singleton.mp hp
  obtain rfl : v = 5 := by
    have : (5, 5).1 ≤ v ∧ v ≤ (5, 5).2 := ⟨hlo, hhi⟩
    omega
  decide

/-- One is not even, and is not in the inverse of the even values either. -/
theorem not_answers_even : Built ((full 8).narrow (Bits.fromParts 0 0xfe 8)) ∧
    ¬ Answers ((full 8).narrow (Bits.fromParts 0 0xfe 8)) ((full 8).narrow (Bits.fromParts 0 0xfe 8)) := by
  refine ⟨.narrow (.full 8) _, fun h => ?_⟩
  exact absurd (h.invert 1 (by decide) (by decide)) (by decide)

end Rucc.Opt
