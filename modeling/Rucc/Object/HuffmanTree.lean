import Rucc.Object.Huffman

/-!
# The Huffman tree

Whatever the weights are, the joins make a tree: every node but the last one is joined exactly once, and every
join is of two nodes. So the codes that the depths of the leaves stand for use up all of the code space, which is
counted here by going over the children of the joined nodes once.
-/

namespace Rucc.Object

open Checked

namespace Forest

variable {n : ℕ}

variable {f : Forest} {j : ℕ}

/-- The nodes that have been joined to others. -/
def gone (n : ℕ) (f : Forest) : Finset ℕ := Finset.range f.leaf ∪ Finset.Ico n f.node

/-- The node that a node was joined under. -/
def above (f : Forest) (i : ℕ) : ℕ := (f.parent.getD i none).getD 0

/-- The queues are where they can be. -/
structure Queued (n : ℕ) (f : Forest) : Prop where
  leaf : f.leaf ≤ n
  node : n ≤ f.node
  fits : f.node ≤ f.weight.length

theorem mem_gone {i : ℕ} : i ∈ f.gone n ↔ i < f.leaf ∨ (n ≤ i ∧ i < f.node) := by
  unfold gone
  rw [Finset.mem_union, Finset.mem_range, Finset.mem_Ico]

/-- What is taken off the queues was left in them. -/
theorem take_spec (h : f.Queued n) (hleft : f.leaf + f.node < n + f.weight.length) :
    (f.take n).1 ∉ f.gone n ∧ (f.take n).1 < f.weight.length ∧ (f.take n).2.Queued n ∧
      (f.take n).2.gone n = insert (f.take n).1 (f.gone n) ∧ (f.take n).2.leaf + (f.take n).2.node = f.leaf + f.node + 1 ∧
      (f.take n).2.weight = f.weight ∧ (f.take n).2.parent = f.parent := by
  obtain ⟨hleaf, hnode, hfits⟩ := h
  unfold take
  split
  · rename_i htake
    refine ⟨?_, by dsimp only; omega, ⟨htake.1, hnode, hfits⟩, ?_, by dsimp only; omega, rfl, rfl⟩
    · rw [mem_gone]
      dsimp only
      omega
    · ext i
      rw [Finset.mem_insert, mem_gone, mem_gone]
      dsimp only
      omega
  · rename_i htake
    -- a leaf is taken wherever there is no node left
    have hlt : f.node < f.weight.length := by
      by_contra hge
      exact htake ⟨by omega, Or.inl (by omega)⟩
    refine ⟨?_, hlt, ⟨hleaf, by dsimp only; omega, hlt⟩, ?_, by dsimp only; omega, rfl, rfl⟩
    · rw [mem_gone]
      dsimp only
      omega
    · ext i
      rw [Finset.mem_insert, mem_gone, mem_gone]
      dsimp only
      omega

/-- After as many joins: every node that is gone is under a later one, and every joined node has two under it. -/
structure Joined (n j : ℕ) (f : Forest) : Prop extends f.Queued n where
  weight : f.weight.length = n + j
  parents : f.parent.length = 2 * n
  taken : f.leaf + f.node = n + 2 * j
  root : 0 < j → f.node < n + j
  under : ∀ i ∈ f.gone n, ∃ p, f.parent[i]? = some (some p) ∧ i < p ∧ n ≤ p ∧ p < n + j
  twice : ∀ g : ℕ → ℚ, ∑ i ∈ f.gone n, g (f.above i) = ∑ k ∈ Finset.range j, 2 * g (n + k)

theorem join_spec (h : f.Joined n j) (hj : j + 1 < n) : Yields (f.join n) (Joined n (j + 1)) := by
  have hweight := h.weight
  have htaken := h.taken
  have hroom := h.parents
  obtain ⟨ha, halt, hqueued, hgone, hcount, hsame, hparent⟩ := take_spec h.toQueued (by omega)
  unfold join
  generalize f.take n = r at ha halt hqueued hgone hcount hsame hparent ⊢
  obtain ⟨a, f₁⟩ := r
  dsimp only at ha halt hqueued hgone hcount hsame hparent ⊢
  obtain ⟨hb, hblt, hqueued', hgone', hcount', hsame', hparent'⟩ :=
    take_spec hqueued (by rw [hsame]; omega)
  generalize f₁.take n = r at hb hblt hqueued' hgone' hcount' hsame' hparent' ⊢
  obtain ⟨b, f₂⟩ := r
  dsimp only at hb hblt hqueued' hgone' hcount' hsame' hparent' ⊢
  rw [hgone, Finset.mem_insert, not_or] at hb
  rw [hsame] at hblt hsame'
  rw [hparent] at hparent'
  refine (Yields.get (by rw [hsame']; exact halt)).bind fun x _ => ?_
  refine (Yields.get (by rw [hsame']; exact hblt)).bind fun y _ => ?_
  refine (Yields.set (by rw [hparent', hroom]; omega) _).bind fun parent hparent₁ => ?_
  refine (Yields.set (by rw [hparent₁, List.length_set, hparent', hroom]; omega) _).bind fun parent' hparent₂ => ?_
  refine Yields.pure_iff.2 ?_
  rw [hsame', hparent'] at hparent₁
  rw [hsame', hparent₁] at hparent₂
  have hset (i : ℕ) : parent'[i]? = if b = i then some (some f.weight.length) else
      if a = i then some (some f.weight.length) else f.parent[i]? := by
    rw [hparent₂, List.getElem?_set, List.getElem?_set, List.length_set]
    by_cases hbi : b = i
    · rw [if_pos hbi, if_pos hbi, if_pos (by omega)]
    · rw [if_neg hbi, if_neg hbi]
      by_cases hai : a = i
      · rw [if_pos hai, if_pos hai, if_pos (by omega)]
      · rw [if_neg hai, if_neg hai]
  have hold {i : ℕ} (hi : i ∈ f.gone n) : parent'[i]? = f.parent[i]? := by
    have hbi : b ≠ i := by
      rintro rfl
      exact hb.2 hi
    have hai : a ≠ i := by
      rintro rfl
      exact ha hi
    rw [hset, if_neg hbi, if_neg hai]
  have hgone₂ : f₂.gone n = insert b (insert a (f.gone n)) := by rw [hgone', hgone]
  refine ⟨⟨hqueued'.leaf, hqueued'.node, ?_⟩, ?_, ?_, by dsimp only; omega, fun _ => ?_, ?_, ?_⟩
  · have := hqueued'.fits
    rw [List.length_append]
    dsimp only
    omega
  · dsimp only
    rw [List.length_append, List.length_singleton, hsame']
    omega
  · dsimp only
    rw [hparent₂, List.length_set, List.length_set, hroom]
  · have := hqueued'.fits
    rw [hsame'] at this
    dsimp only
    omega
  · intro i hi
    change i ∈ f₂.gone n at hi
    rw [hgone₂, Finset.mem_insert, Finset.mem_insert] at hi
    dsimp only
    rw [hset]
    rcases hi with rfl | rfl | hi
    · exact ⟨_, if_pos rfl, hblt, by omega, by omega⟩
    · refine ⟨_, ?_, halt, by omega, by omega⟩
      rw [if_neg hb.1, if_pos rfl]
    · obtain ⟨p, hp, hip, hnp, hlt⟩ := h.under i hi
      refine ⟨p, ?_, hip, hnp, by omega⟩
      rw [← hset, hold hi, hp]
  · intro g
    change ∑ i ∈ f₂.gone n, g ((parent'.getD i none).getD 0) = _
    have habove (i : ℕ) (hi : i ∈ f.gone n) : g ((parent'.getD i none).getD 0) = g (f.above i) := by
      unfold above
      rw [List.getD_eq_getElem?_getD, hold hi, ← List.getD_eq_getElem?_getD]
    have hjoined {i : ℕ} (hi : i = b ∨ i = a) : g ((parent'.getD i none).getD 0) = g (n + j) := by
      rw [List.getD_eq_getElem?_getD, hset, ← hweight]
      rcases hi with rfl | rfl
      · rw [if_pos rfl]
        rfl
      · rw [if_neg hb.1, if_pos rfl]
        rfl
    rw [hgone₂, Finset.sum_insert (by rw [Finset.mem_insert]; exact not_or.2 hb), Finset.sum_insert ha,
      Finset.sum_congr rfl habove, h.twice g, Finset.sum_range_succ, hjoined (Or.inl rfl), hjoined (Or.inr rfl)]
    ring

/-- The last join leaves the root only. -/
theorem Joined.gone_eq (h : f.Joined n j) (hj : 0 < j) (hn : n = j + 1) : f.gone n = Finset.range (2 * j) := by
  have hleaf := h.leaf
  have hnode := h.node
  have htaken := h.taken
  have hroot := h.root hj
  ext i
  rw [mem_gone, Finset.mem_range]
  omega

/-- Every node but the root is one further from it than the node above it. -/
theorem depths_spec {root : ℕ} (hlen : f.weight.length = root + 1)
    (hparent : ∀ i < root, ∃ p, f.parent[i]? = some (some p) ∧ i < p ∧ p ≤ root) :
    Yields f.depths fun depth => depth.length = root + 1 ∧ depth.getD root 0 = 0 ∧
      ∀ i < root, depth.getD i 0 = depth.getD (f.above i) 0 + 1 := by
  unfold depths
  rw [hlen, checkedSub_of_le (by omega)]
  refine (Yields.some_iff.2 rfl : Yields (some (root + 1 - 1)) fun r => r = root).bind fun r hr => ?_
  subst hr
  refine (Yields.foldlM (I := fun done depth => depth.length = r + 1 ∧ depth.getD r 0 = 0 ∧
    ∀ i ∈ done, depth.getD i 0 = depth.getD (f.above i) 0 + 1) ?_ ?_).mono ?_
  · refine ⟨List.length_replicate, ?_, fun i hi => absurd hi List.not_mem_nil⟩
    rw [List.getD_eq_getElem?_getD, List.getElem?_replicate, if_pos (by omega)]
    rfl
  · intro done at_ rest depth hsplit hdepth
    obtain ⟨hdlen, hroot, hdone⟩ := hdepth
    -- the places come one after the other from the root down
    have hdown : (done ++ at_ :: rest).Pairwise (· > ·) := by
      rw [← hsplit, List.pairwise_reverse]
      exact List.pairwise_lt_range
    have hafter (i : ℕ) (hi : i ∈ done) : at_ < i := (List.pairwise_append.1 hdown).2.2 i hi at_ List.mem_cons_self
    have hin (i : ℕ) (hi : i ∈ done ++ [at_]) : i < r := by
      rw [← List.mem_range, ← List.mem_reverse, hsplit]
      rcases List.mem_append.1 hi with hi | hi
      · exact List.mem_append_left _ hi
      · rw [List.mem_singleton.1 hi]
        exact List.mem_append_right _ List.mem_cons_self
    have hlt : at_ < r := hin at_ (List.mem_append_right _ (List.mem_singleton.2 rfl))
    obtain ⟨p, hp, hatp, hpr⟩ := hparent at_ hlt
    have habove {i q : ℕ} (hi : f.parent[i]? = some (some q)) : f.above i = q := by
      unfold above
      rw [List.getD_eq_getElem?_getD, hi]
      rfl
    rw [hp]
    refine (Yields.get (by omega : p < depth.length)).bind fun up hup => ?_
    refine (Yields.set (by omega : at_ < depth.length) _).mono fun depth' hdepth' => ?_
    have hother {i : ℕ} (hi : at_ ≠ i) : depth'.getD i 0 = depth.getD i 0 := by
      rw [hdepth', List.getD_eq_getElem?_getD, List.getElem?_set_ne hi, List.getD_eq_getElem?_getD]
    refine ⟨by rw [hdepth', List.length_set, hdlen], by rw [hother hlt.ne, hroot], fun i hi => ?_⟩
    obtain ⟨q, hq, hiq, -⟩ := hparent i (hin i hi)
    rcases List.mem_append.1 hi with hi | hi
    · have hat := hafter i hi
      rw [hother hat.ne, hdone i hi, habove hq, hother (by omega)]
    · obtain rfl := List.mem_singleton.1 hi
      rw [habove hp, hother hatp.ne, hdepth', List.getD_eq_getElem?_getD, List.getElem?_set_self (by omega),
        Option.getD_some, hup, List.getD_eq_getElem?_getD, List.getElem?_eq_getElem (by omega), Option.getD_some]
  · rintro depth ⟨hdlen, hroot, hdone⟩
    exact ⟨hdlen, hroot, fun i hi => hdone i (List.mem_reverse.2 (List.mem_range.2 hi))⟩

/-- The leaves use up all of the code space. -/
theorem leaves_sum (h : f.Joined n j) (hj : 0 < j) (hn : n = j + 1) {depth : ℕ → ℕ}
    (hroot : depth (2 * j) = 0) (hdepth : ∀ i < 2 * j, depth i = depth (f.above i) + 1) :
    ∑ i ∈ Finset.range n, (1 / 2 : ℚ)^depth i = 1 := by
  have htwice := h.twice fun i => (1 / 2 : ℚ)^depth i
  rw [h.gone_eq hj hn] at htwice
  -- what is under the joined nodes is all but the root, and half of it is the joined nodes again
  have hhalf : ∑ i ∈ Finset.range (2 * j), (1 / 2 : ℚ)^depth i =
      ∑ i ∈ Finset.range (2 * j), 1 / 2 * (1 / 2 : ℚ)^depth (f.above i) := by
    refine Finset.sum_congr rfl fun i hi => ?_
    rw [hdepth i (Finset.mem_range.1 hi), pow_succ, mul_comm]
  have hsplit : ∑ i ∈ Finset.range (2 * j), (1 / 2 : ℚ)^depth i =
      ∑ i ∈ Finset.range n, (1 / 2 : ℚ)^depth i + ∑ k ∈ Finset.range (j - 1), (1 / 2 : ℚ)^depth (n + k) := by
    rw [show 2 * j = n + (j - 1) by omega, Finset.sum_range_add]
  have hlast : ∑ k ∈ Finset.range j, (1 / 2 : ℚ)^depth (n + k) =
      ∑ k ∈ Finset.range (j - 1), (1 / 2 : ℚ)^depth (n + k) + 1 := by
    obtain ⟨k, rfl⟩ : ∃ k, j = k + 1 := ⟨j - 1, by omega⟩
    rw [Finset.sum_range_succ, Nat.add_sub_cancel, show n + k = 2 * (k + 1) by omega, hroot, pow_zero]
  rw [← Finset.mul_sum, htwice, ← Finset.mul_sum] at hhalf
  linarith

end Forest

end Rucc.Object
