import Mathlib.Data.List.Destutter
import Rucc.Lib.Ascent
import Rucc.Opt.DomCorrect
import Rucc.Opt.Frontier

/-!
# The frontiers and the control dependences are the definitions

What a walk up the tree notes is what lies between a way into a join and the immediate dominator of the join, which is
what dominates the one and does not strictly dominate the other. A walk stops where another one has been, because that
one, or the one it stopped at, went on from there to the same end.
-/

namespace Rucc.Opt.Dom

open Relation Ascent

variable {height : ℕ → ℕ} {enough : ℕ}

/-! ## Up the tree -/

section

variable {step : ℕ → ℕ → Prop} {start a u v w : ℕ}

/-- What dominates a node and is not it dominates where control comes to it from. -/
theorem Dominates.to_pred (h : Dominates (some start) step a v) (hne : a ≠ v) (hstep : step u v)
    (hu : Reached (some start) step u) : Dominates (some start) step a u := by
  refine ⟨h.reached_above, hu, ?_⟩
  by_contra hnot
  obtain ⟨hstart, hway⟩ := not_passes_iff.1 hnot
  exact not_passes_iff.2 ⟨hstart, hway.tail ⟨hstep, hne.symm⟩⟩ h.passes

/-- A node that control comes to from one node only is dominated by that one, which is another one. -/
theorem dominates_of_only (hv : Reached (some start) step v) (hne : start ≠ v)
    (honly : ∀ u, Reached (some start) step u → step u v → u = w) : w ≠ v ∧ Dominates (some start) step w v := by
  have hway := reached_iff.1 hv
  constructor
  · rintro rfl
    -- a node that only leads to itself is not reached
    have hoff (x : ℕ) (hx : ReflTransGen step start x) : x ≠ w := by
      induction hx with
      | refl => exact hne
      | @tail u x hu hstep ih =>
        rintro rfl
        exact ih (honly u (reached_iff.2 hu) hstep)
    exact hoff w hway rfl
  · obtain ⟨u, hu, hstep⟩ := (ReflTransGen.cases_tail hway).resolve_left hne.symm
    have hu := reached_iff.2 hu
    refine ⟨honly u hu hstep ▸ hu, hv, ?_⟩
    by_contra hnot
    obtain ⟨hstart, haround⟩ := not_passes_iff.1 hnot
    obtain ⟨u, hu, hstep, -⟩ := (ReflTransGen.cases_tail haround).resolve_left hne.symm
    have heq := honly u (reached_iff.2 (ReflTransGen.mono (fun _ _ h => h.1) _ _ hu)) hstep
    rcases ReflTransGen.cases_tail hu with hrefl | ⟨t, -, -, hoff⟩
    · exact hstart (hrefl.symm.trans heq)
    · exact hoff heq

end

/-- The parents of the nodes of one kind lead to what dominates them of that kind. -/
structure Leads (up : ℕ → Option ℕ) (height : ℕ → ℕ) (start : ℕ) (step : ℕ → ℕ → Prop) (kind : ℕ → Prop) : Prop where
  rooted : Rooted up height
  parent : ∀ x y, up x = some y → kind y
  above : ∀ x y, Reached (some start) step x → kind x → kind y → (Dominates (some start) step y x ↔ Above up x y)

section

variable {up : ℕ → Option ℕ} {height : ℕ → ℕ} {start d w : ℕ} {step : ℕ → ℕ → Prop} {kind : ℕ → Prop}
  (h : Leads up height start step kind)

include h

/-- The parent of a node is on the way up from where control comes to it from. -/
theorem Leads.above_of_step (hd : Reached (some start) step d) (hkind : kind d) (hw : Reached (some start) step w)
    (hkind' : kind w) (hstep : step w d) {top : ℕ} (hup : up d = some top) : Above up w top := by
  have hne : top ≠ d := fun heq => absurd (h.rooted _ _ hup) (by rw [heq]; exact lt_irrefl _)
  have htop := h.parent _ _ hup
  exact (h.above w top hw hkind' htop).1 (((h.above d top hd hkind htop).2 (.single hup)).to_pred hne hstep hw)

/-- Nothing lies between a node and where control comes to it from when that is the only way. -/
theorem Leads.not_before (hd : Reached (some start) step d) (hkind : kind d) (hne : start ≠ d) (hkind' : kind w)
    (honly : ∀ u, Reached (some start) step u → step u d → u = w) (y : ℕ) : ¬ Before up (up d) w y := by
  obtain ⟨hneq, hdom⟩ := dominates_of_only hd hne honly
  have habove := (h.above d w hd hkind hkind').1 hdom
  rw [h.rooted.before_iff]
  rintro ⟨hwy, hnot⟩
  obtain ⟨top, hup, htop⟩ := h.rooted.strict.1 ⟨hneq, habove⟩
  exact hnot (h.rooted.strict.2 ⟨top, hup, htop.trans hwy⟩)

/-- What lies between is what the definition asks for. -/
theorem Leads.before_iff (hd : Reached (some start) step d) (hkind : kind d) (hw : Reached (some start) step w)
    (hkind' : kind w) {y : ℕ} (hy : kind y) : Before up (up d) w y ↔
      Dominates (some start) step y w ∧ ¬ (y ≠ d ∧ Dominates (some start) step y d) := by
  rw [h.rooted.before_iff, h.above w y hw hkind' hy, h.above d y hd hkind hy]

end

/-- The immediate dominators of a function lead up from each block. -/
theorem Dominators.leads {flow : Flow} {doms : Dominators} {entry : ℕ}
    (h : doms.tree.Climbs entry flow.Step height enough) :
    Leads (doms.immediateDominator (some entry)) height entry flow.Step fun _ => True := by
  have hup (x y : ℕ) : doms.immediateDominator (some entry) x = some y ↔ x ≠ entry ∧ doms.tree.idom x = some y := by
    rw [immediateDominator, Tree.reached]
    cases hidom : doms.tree.idom x with
    | none => simp
    | some parent => by_cases hx : x = entry <;> simp [hx]
  refine ⟨fun x y hxy => ?_, fun _ _ _ => trivial, fun x y hx _ _ => ?_⟩
  · obtain ⟨hne, hidom⟩ := (hup x y).1 hxy
    exact h.lower x y hne hidom
  · rw [h.chain x y hx, Above]
    simp only [hup]

/-- The immediate post-dominators of a function lead up from each block, but not to the exit. -/
theorem PostDominators.leads {step : ℕ → ℕ → Prop} {post : PostDominators}
    (h : post.tree.Climbs post.exit step height enough) :
    Leads post.immediatePostDominator height post.exit step fun x => x ≠ post.exit := by
  have hup (x y : ℕ) : post.immediatePostDominator x = some y ↔
      (x ≠ post.exit ∧ post.tree.idom x = some y) ∧ y ≠ post.exit := by
    rw [immediatePostDominator, Option.filter_eq_some_iff, decide_eq_true_eq]
    constructor
    · rintro ⟨hidom, hexit, hne⟩
      refine ⟨⟨?_, hidom⟩, hexit⟩
      rintro rfl
      exact hne (Option.some.inj (hidom.symm.trans h.rooted))
    · rintro ⟨⟨hne, hidom⟩, hexit⟩
      refine ⟨hidom, hexit, ?_⟩
      rintro rfl
      exact absurd (h.lower _ _ hne hidom) (lt_irrefl _)
  refine ⟨fun x y hxy => ?_, fun x y hxy => ((hup x y).1 hxy).2, fun x y hx hx' hy => ?_⟩
  · obtain ⟨⟨hne, hidom⟩, -⟩ := (hup x y).1 hxy
    exact h.lower x y hne hidom
  · rw [h.chain x y hx, Above]
    simp only [hup]
    clear hx hx'
    constructor
    · intro hway
      induction hway using ReflTransGen.head_induction_on with
      | refl => exact .refl
      | @head u v hstep hway ih =>
        -- the way does not end at the exit, so it does not come to it
        refine ih.head ⟨hstep, ?_⟩
        rintro rfl
        rcases ReflTransGen.cases_head hway with heq | ⟨t, ht, -⟩
        · exact hy heq.symm
        · exact ht.1 rfl
    · exact fun hway => ReflTransGen.mono (fun _ _ hstep => hstep.1) _ _ hway

/-! ## The walks of the frontiers -/

namespace Frontiers

variable {capacity : ℕ} {pairs : List (ℕ × ℕ)}

/-- What the walks for one block keep: a block that is marked with it has it in its list, and what is on the way up
from there is marked too, up to the end or to where the walk has come. -/
structure Along (up : ℕ → Option ℕ) (block : ℕ) (stop : Option ℕ) (goal : ℕ → Prop) (s : Walks) : Prop where
  nodup : s.pairs.Nodup
  noted : ∀ x d, s.last x = some d → (x, d) ∈ s.pairs
  marked : ∀ x, (x, block) ∈ s.pairs → s.last x = some block
  closed : ∀ x y, s.last x = some block → up x = some y → some y = stop ∨ s.last y = some block ∨ goal y

section

variable {up : ℕ → Option ℕ} {height : ℕ → ℕ} {block : ℕ} {stop : Option ℕ} {s : Walks}

/-- Everything before the end on the way up from a block that is marked is marked. -/
theorem Along.before {goal : ℕ → Prop} (h : Along up block stop goal s) (hgoal : ∀ y, goal y → s.last y = some block)
    {x y : ℕ} (hx : s.last x = some block) (hbefore : Before up stop x y) : s.last y = some block := by
  obtain ⟨habove, hnot⟩ := hbefore
  induction habove with
  | refl => exact hx
  | @tail u v _ hup ih =>
    have hu := ih fun top htop habove => hnot top htop (habove.tail hup)
    rcases h.closed u v hu hup with hstop | hv | hv
    · exact absurd .refl (hnot v hstop.symm)
    · exact hv
    · exact hgoal v hv

/-- One more block marked. -/
theorem Along.mark {runner : ℕ} (h : Along up block stop (· = runner) s) (hnew : s.last runner ≠ some block) :
    Along up block stop (fun y => up runner = some y)
      ⟨Function.update s.last runner (some block), s.pairs ++ [(runner, block)]⟩ := by
  have hlast (x : ℕ) : Function.update s.last runner (some block) x = some block ↔
      x = runner ∨ s.last x = some block := by
    by_cases hx : x = runner
    · simp [hx]
    · simp [hx]
  constructor
  case nodup =>
    refine List.nodup_append.2 ⟨h.nodup, List.nodup_singleton _, fun p hp q hq => ?_⟩
    rw [List.mem_singleton.1 hq]
    rintro rfl
    exact hnew (h.marked runner hp)
  case noted =>
    intro x d hx
    dsimp only at hx
    rw [List.mem_append, List.mem_singleton]
    by_cases heq : x = runner
    · subst heq
      rw [Function.update_self] at hx
      exact Or.inr (by rw [Option.some.inj hx])
    · rw [Function.update_of_ne heq] at hx
      exact Or.inl (h.noted x d hx)
  case marked =>
    intro x hx
    rw [hlast]
    rcases List.mem_append.1 hx with hx | hx
    · exact Or.inr (h.marked x hx)
    · exact Or.inl (Prod.mk.inj (List.mem_singleton.1 hx)).1
  case closed =>
    intro x y hx hup
    rw [hlast]
    rcases (hlast x).1 hx with rfl | hx
    · exact Or.inr (Or.inr hup)
    · rcases h.closed x y hx hup with hstop | hy | hy
      · exact Or.inl hstop
      · exact Or.inr (Or.inl (Or.inr hy))
      · exact Or.inr (Or.inl (Or.inl hy))

variable (hrooted : Rooted up height)

include hrooted

/-- A walk up notes what is before the end on its way. -/
theorem climb_spec (rounds : ℕ) : ∀ s runner, Along up block stop (· = runner) s → height runner < rounds →
    (∀ top, stop = some top → Above up runner top) → ∃ s', climb up block stop rounds s runner = some s' ∧
      Along up block stop (fun _ => False) s' ∧
      ∀ x d, (x, d) ∈ s'.pairs ↔ (x, d) ∈ s.pairs ∨ d = block ∧ Before up stop runner x := by
  induction rounds with
  | zero => exact fun _ _ _ hlt => absurd hlt (Nat.not_lt_zero _)
  | succ rounds ih =>
    intro s runner h hlt hstop
    rw [climb]
    by_cases hend : some runner = stop ∨ s.last runner = some block
    · rw [if_pos hend]
      refine ⟨s, rfl, ⟨h.nodup, h.noted, h.marked, fun x y hx hup => ?_⟩, fun x d => ?_⟩
      · rcases h.closed x y hx hup with hy | hy | rfl
        · exact Or.inl hy
        · exact Or.inr (Or.inl hy)
        · exact hend.imp_right Or.inl
      · refine ⟨Or.inl, fun hor => hor.elim id ?_⟩
        rintro ⟨rfl, hbefore⟩
        rcases hend with hend | hend
        · rw [← hend] at hbefore
          exact absurd hbefore not_before_self
        · refine h.noted x d (h.before ?_ hend hbefore)
          rintro y rfl
          exact hend
    rw [if_neg hend]
    push Not at hend
    have hmark := h.mark hend.2
    generalize hs : (⟨Function.update s.last runner (some block), s.pairs ++ [(runner, block)]⟩ : Walks) = s' at hmark
    have hpairs (x d : ℕ) : (x, d) ∈ s'.pairs ↔ (x, d) ∈ s.pairs ∨ d = block ∧ x = runner := by
      rw [← hs, List.mem_append, List.mem_singleton, Prod.mk.injEq, and_comm (a := x = runner)]
    cases hup : up runner with
    | none =>
      simp only [hup, reduceCtorEq] at hmark
      refine ⟨s', rfl, hmark, fun x d => ?_⟩
      rw [hpairs, before_none hup hend.1 hstop]
    | some next =>
      simp only [hup, Option.some.injEq, eq_comm (a := next)] at hmark
      have hnext (top : ℕ) (htop : stop = some top) : Above up next top := by
        refine ((above_some hup).1 (hstop top htop)).resolve_left ?_
        rintro rfl
        exact hend.1 htop.symm
      obtain ⟨s'', hrun, halong, hspec⟩ := ih s' next hmark (by have := hrooted _ _ hup; omega) hnext
      refine ⟨s'', hrun, halong, fun x d => ?_⟩
      rw [hspec, hpairs, hrooted.before_some hup hend.1 hstop]
      tauto

/-- The walks from the ways into a block. -/
theorem climbs_spec {rounds : ℕ} (hrounds : ∀ x, height x < rounds) (ways : List ℕ) : ∀ s,
    Along up block stop (fun _ => False) s → (∀ w ∈ ways, ∀ top, stop = some top → Above up w top) →
    ∃ s', ways.foldlM (climb up block stop rounds) s = some s' ∧ Along up block stop (fun _ => False) s' ∧
      ∀ x d, (x, d) ∈ s'.pairs ↔ (x, d) ∈ s.pairs ∨ d = block ∧ ∃ w ∈ ways, Before up stop w x := by
  induction ways with
  | nil => exact fun s h _ => ⟨s, rfl, h, fun x d => by simp⟩
  | cons w ways ih =>
    intro s h hways
    have hstart : Along up block stop (· = w) s := ⟨h.nodup, h.noted, h.marked, fun x y hx hup =>
      (h.closed x y hx hup).imp_right fun hy => hy.imp_right False.elim⟩
    obtain ⟨s', hrun, halong, hspec⟩ :=
      climb_spec hrooted rounds s w hstart (hrounds w) (hways w List.mem_cons_self)
    obtain ⟨s'', hfold, halong', hspec'⟩ := ih s' halong fun v hv => hways v (List.mem_cons_of_mem _ hv)
    refine ⟨s'', by rw [List.foldlM_cons, hrun]; exact hfold, halong', fun x d => ?_⟩
    rw [hspec', hspec]
    simp only [List.mem_cons, exists_eq_or_imp]
    tauto

end

/-! ## The lists end to end -/

/-- The counts summed are where the lists start. -/
theorem offsets_eq (hpairs : ∀ p ∈ pairs, p.1 < capacity) :
    ((List.range (capacity + 1)).foldl offset (counts pairs, 0)).1 = Buckets.starts capacity (pairs.map Prod.fst) := by
  have hcounts (i : ℕ) : counts pairs i = (pairs.map Prod.fst).countP fun key => decide (key = i) := by
    have hfold (table : ℕ → ℕ) : pairs.foldl (fun table pair => Buckets.bump table pair.1) table i =
        table i + (pairs.map Prod.fst).countP fun key => decide (key = i) := by
      clear hpairs
      induction pairs generalizing table with
      | nil => simp
      | cons p pairs ih =>
        rw [List.foldl_cons, ih, List.map_cons, List.countP_cons, Buckets.bump]
        by_cases h : p.1 = i
        · subst h
          simp
          omega
        · simp [h, Ne.symm h]
    rw [counts, hfold, Nat.zero_add]
  have hfold (n : ℕ) : (List.range n).foldl offset (counts pairs, 0) =
      (fun i => if i < n then Buckets.below (pairs.map Prod.fst) i else counts pairs i,
        Buckets.below (pairs.map Prod.fst) n) := by
    induction n with
    | zero => simp [Buckets.below]
    | succ n ih =>
      rw [List.range_succ, List.foldl_append, List.foldl_cons, List.foldl_nil, ih, offset, Buckets.below_succ,
        ← hcounts]
      dsimp only
      rw [if_neg (lt_irrefl n)]
      refine Prod.ext (funext fun i => ?_) rfl
      dsimp only
      by_cases h : i = n
      · subst h
        rw [Function.update_self, if_pos (Nat.lt_succ_self i)]
      · rw [Function.update_of_ne h]
        by_cases hlt : i < n
        · rw [if_pos hlt, if_pos (by omega)]
        · rw [if_neg hlt, if_neg (by omega)]
  funext i
  rw [hfold]
  dsimp only
  split_ifs with hlt
  · rw [Buckets.starts_eq _ _ (by omega)]
  · -- past the last list nothing was counted
    rw [Buckets.starts_past (by omega), hcounts, List.countP_eq_zero.2, List.countP_eq_zero.2]
    all_goals
      intro key hkey
      obtain ⟨p, hp, rfl⟩ := List.mem_map.1 hkey
      have := hpairs p hp
      simp only [decide_eq_true_eq]
      omega

theorem slice_sortSpan (all : ℕ → ℕ) (first last : ℕ) :
    Buckets.slice (sortSpan all first last) first last = (Buckets.slice all first last).insertionSort (· ≤ ·) := by
  have hlen : (Buckets.slice all first last).length = last - first := by simp [Buckets.slice]
  refine List.ext_getElem? fun i => ?_
  by_cases h : first + i < last
  · rw [Buckets.getElem_slice _ h, sortSpan, if_pos ⟨by omega, h⟩, Nat.add_sub_cancel_left,
      List.getD_eq_getElem?_getD, List.getElem?_eq_getElem, Option.getD_some]
    rw [List.length_insertionSort, hlen]
    omega
  · rw [List.getElem?_eq_none, List.getElem?_eq_none]
    · rw [List.length_insertionSort, hlen]
      omega
    · simp only [Buckets.slice, List.length_map, List.length_range']
      omega

theorem slice_sortSpan_of {first last first' last' : ℕ} (all : ℕ → ℕ) (h : last ≤ first' ∨ last' ≤ first) :
    Buckets.slice (sortSpan all first last) first' last' = Buckets.slice all first' last' := by
  unfold Buckets.slice
  apply List.map_congr_left
  intro i hi
  rw [List.mem_range'_1] at hi
  rw [sortSpan, if_neg]
  omega

/-- Each list holds what the pairs of its block say, in order. -/
theorem of_gather (hpairs : ∀ p ∈ pairs, p.1 < capacity) (block : ℕ) : (gather capacity pairs).of block =
      ((pairs.filter fun p => decide (p.1 = block)).map Prod.snd).insertionSort (· ≤ ·) := by
  by_cases hlt : block < capacity
  · rw [gather, of, if_pos hlt]
    simp only [offsets_eq hpairs]
    generalize hstarts : Buckets.starts capacity (pairs.map Prod.fst) = starts
    have hmono {i j : ℕ} (hij : i ≤ j) (hj : j ≤ capacity) : starts i ≤ starts j := by
      rw [← hstarts, Buckets.starts_eq _ _ hj, Buckets.starts_eq _ _ (hij.trans hj)]
      exact Buckets.below_mono _ hij
    have hfold (all : ℕ → ℕ) (n : ℕ) (hn : n ≤ capacity) :
        Buckets.slice ((List.range n).foldl (fun all block => sortSpan all (starts block) (starts (block + 1))) all)
          (starts block) (starts (block + 1)) =
        if block < n then (Buckets.slice all (starts block) (starts (block + 1))).insertionSort (· ≤ ·)
        else Buckets.slice all (starts block) (starts (block + 1)) := by
      induction n with
      | zero => rfl
      | succ n ih =>
        have ih := ih (by omega)
        rw [List.range_succ, List.foldl_append, List.foldl_cons, List.foldl_nil]
        rcases lt_trichotomy block n with h | rfl | h
        · rw [slice_sortSpan_of _ (Or.inr (hmono h (by omega))), ih, if_pos h, if_pos (by omega)]
        · rw [slice_sortSpan, ih, if_neg (lt_irrefl _), if_pos (Nat.lt_succ_self _)]
        · rw [slice_sortSpan_of _ (Or.inl (hmono (by omega) (by omega))), ih, if_neg (by omega), if_neg (by omega)]
    rw [hfold _ capacity le_rfl, if_pos hlt]
    have hrow := Buckets.scatter_row Prod.fst (0, 0) (fun _ => rfl) hpairs hlt
    rw [hstarts] at hrow
    rw [← hrow, Buckets.slice, Buckets.slice, List.map_map]
    rfl
  · rw [of, show (gather capacity pairs).capacity = capacity from rfl, if_neg hlt, List.filter_eq_nil_iff.2]
    · rfl
    · intro p hp
      have := hpairs p hp
      simp only [decide_eq_true_eq]
      omega

/-- The lists of pairs that are all different are in order, each block once. -/
theorem gather_spec {capacity : ℕ} {pairs : List (ℕ × ℕ)} (hpairs : ∀ p ∈ pairs, p.1 < capacity)
    (hnodup : pairs.Nodup) (block : ℕ) : ((gather capacity pairs).of block).Pairwise (· < ·) ∧
      ∀ d, d ∈ (gather capacity pairs).of block ↔ (block, d) ∈ pairs := by
  rw [of_gather hpairs]
  constructor
  · have hlist : ((pairs.filter fun p => decide (p.1 = block)).map Prod.snd).Nodup := by
      refine List.Nodup.map_on (fun p hp q hq heq => ?_) (hnodup.filter _)
      have hp := of_decide_eq_true (List.mem_filter.1 hp).2
      have hq := of_decide_eq_true (List.mem_filter.1 hq).2
      exact Prod.ext (hp.trans hq.symm) heq
    have hsorted := List.pairwise_insertionSort (· ≤ ·) ((pairs.filter fun p => decide (p.1 = block)).map Prod.snd)
    exact (hsorted.and ((List.perm_insertionSort _ _).nodup_iff.2 hlist)).imp fun h => lt_of_le_of_ne h.1 h.2
  · intro d
    simp [List.mem_insertionSort]

/-! ## Every frontier -/

/-- A block is in the frontier of another one: control comes to it from a block that the other one dominates, and the
other one does not strictly dominate it. -/
def Holds (flow : Flow) (b d : ℕ) : Prop :=
  Reached flow.entry flow.Step d ∧ (∃ p, flow.Step p d ∧ Dominates flow.entry flow.Step b p) ∧
    ¬ (b ≠ d ∧ Dominates flow.entry flow.Step b d)

section

variable {flow : Flow} {entry : ℕ} {post : List ℕ} {doms : Dominators} {height : ℕ → ℕ} {enough rounds : ℕ}
  (hentry : flow.entry = some entry) (hpost : ∀ x, x ∈ post ↔ Reached (some entry) flow.Step x)
  (h : doms.tree.Climbs entry flow.Step height enough) (hrounds : enough ≤ rounds)

include hentry hpost h

/-- The definition, in what is between a way into a block and its immediate dominator. -/
theorem holds_iff {b d : ℕ} (hd : d ∈ post) : Holds flow b d ↔ ∃ w ∈ arriving flow post d,
      Before (doms.immediateDominator flow.entry) (doms.immediateDominator flow.entry d) w b := by
  have hleads := Dominators.leads h
  have hd' := (hpost d).1 hd
  rw [Holds, hentry, and_iff_right hd']
  constructor
  · rintro ⟨⟨p, hstep, hdom⟩, hnot⟩
    refine ⟨p, List.mem_filter.2 ⟨Cfg.mem_predecessors.2 hstep, decide_eq_true ((hpost p).2 hdom.reached)⟩, ?_⟩
    exact (hleads.before_iff hd' trivial hdom.reached trivial trivial).2 ⟨hdom, hnot⟩
  · rintro ⟨w, hw, hbefore⟩
    obtain ⟨hpred, hmem⟩ := List.mem_filter.1 hw
    have hmem := (hpost w).1 (of_decide_eq_true hmem)
    obtain ⟨hdom, hnot⟩ := (hleads.before_iff hd' trivial hmem trivial trivial).1 hbefore
    exact ⟨⟨w, Cfg.mem_predecessors.1 hpred, hdom⟩, hnot⟩

include hrounds

/-- The walks for one block put it in the frontiers it is in. -/
theorem visit_spec {s : Walks} {d : ℕ} (hd : d ∈ post) (hnodup : s.pairs.Nodup)
    (hnoted : ∀ x e, s.last x = some e → (x, e) ∈ s.pairs) (hnew : ∀ x, (x, d) ∉ s.pairs) :
    ∃ s', visit rounds flow post doms s d = some s' ∧ s'.pairs.Nodup ∧
      (∀ x e, s'.last x = some e → (x, e) ∈ s'.pairs) ∧
      ∀ x e, (x, e) ∈ s'.pairs ↔ (x, e) ∈ s.pairs ∨ e = d ∧ Holds flow x d := by
  have hleads := Dominators.leads h
  have hd' := (hpost d).1 hd
  have hways {w : ℕ} (hw : w ∈ arriving flow post d) : Reached (some entry) flow.Step w ∧ flow.Step w d := by
    obtain ⟨hpred, hmem⟩ := List.mem_filter.1 hw
    exact ⟨(hpost w).1 (of_decide_eq_true hmem), Cfg.mem_predecessors.1 hpred⟩
  rw [visit]
  by_cases hfew : (arriving flow post d).length + (if some d = flow.entry then 1 else 0) < 2
  · rw [if_pos hfew]
    refine ⟨s, rfl, hnodup, hnoted, fun x e => ⟨Or.inl, fun hor => hor.resolve_right ?_⟩⟩
    rintro ⟨rfl, hholds⟩
    -- with one way in there is nothing between it and the immediate dominator
    obtain ⟨w, hw, hbefore⟩ := (holds_iff hentry hpost h hd).1 hholds
    have hpos := List.length_pos_of_mem hw
    have hone : (arriving flow post e).length = 1 ∧ some e ≠ flow.entry := by
      split_ifs at hfew with hif <;> first | omega | exact ⟨by omega, hif⟩
    rw [hentry] at hbefore hone
    obtain ⟨v, hv⟩ := List.length_eq_one_iff.1 hone.1
    refine hleads.not_before hd' trivial (fun heq => hone.2 (by rw [heq])) trivial (fun u hu hstep => ?_) x hbefore
    have hmem : u ∈ arriving flow post e :=
      List.mem_filter.2 ⟨Cfg.mem_predecessors.2 hstep, decide_eq_true ((hpost u).2 hu)⟩
    rw [hv, List.mem_singleton] at hmem hw
    rw [hmem, hw]
  · rw [if_neg hfew]
    have hstart : Along (doms.immediateDominator flow.entry) d (doms.immediateDominator flow.entry d)
        (fun _ => False) s := ⟨hnodup, hnoted, fun x hx => absurd hx (hnew x), fun x y hx => absurd (hnoted x d hx) (hnew x)⟩
    have hrooted : Rooted (doms.immediateDominator flow.entry) height := hentry ▸ hleads.rooted
    obtain ⟨s', hfold, halong, hspec⟩ := climbs_spec hrooted (fun x => (h.bounded x).trans_le hrounds)
      (arriving flow post d) s hstart fun w hw top htop => by
        obtain ⟨hmem, hstep⟩ := hways hw
        rw [hentry] at htop ⊢
        exact hleads.above_of_step hd' trivial hmem trivial hstep htop
    refine ⟨s', hfold, halong.nodup, halong.noted, fun x e => ?_⟩
    rw [hspec, holds_iff hentry hpost h hd]

/-- The walks for the blocks of a list. -/
theorem visits_spec (blocks : List ℕ) (hblocks : ∀ b ∈ blocks, b ∈ post) : ∀ s : Walks, blocks.Nodup → s.pairs.Nodup →
    (∀ x e, s.last x = some e → (x, e) ∈ s.pairs) → (∀ x, ∀ e ∈ blocks, (x, e) ∉ s.pairs) →
    ∃ s', blocks.foldlM (visit rounds flow post doms) s = some s' ∧ s'.pairs.Nodup ∧
      ∀ x e, (x, e) ∈ s'.pairs ↔ (x, e) ∈ s.pairs ∨ e ∈ blocks ∧ Holds flow x e := by
  induction blocks with
  | nil => exact fun s _ hnodup _ _ => ⟨s, rfl, hnodup, fun x e => by simp⟩
  | cons d blocks ih =>
    intro s hblocks' hnodup hnoted hnew
    obtain ⟨hd, hrest⟩ := List.nodup_cons.1 hblocks'
    obtain ⟨s', hvisit, hnodup', hnoted', hspec⟩ := visit_spec hentry hpost h hrounds (hblocks d List.mem_cons_self)
      hnodup hnoted fun x => hnew x d List.mem_cons_self
    have hnew' (x e : ℕ) (he : e ∈ blocks) : (x, e) ∉ s'.pairs := by
      rw [hspec]
      rintro (hmem | ⟨rfl, -⟩)
      · exact hnew x e (List.mem_cons_of_mem _ he) hmem
      · exact hd he
    obtain ⟨s'', hfold, hnodup'', hspec'⟩ := ih (fun b hb => hblocks b (List.mem_cons_of_mem _ hb)) s' hrest hnodup'
      hnoted' hnew'
    refine ⟨s'', by rw [List.foldlM_cons, hvisit]; exact hfold, hnodup'', fun x e => ?_⟩
    rw [hspec', hspec, List.mem_cons]
    constructor
    · rintro ((hmem | ⟨rfl, hholds⟩) | ⟨hmem, hholds⟩)
      · exact Or.inl hmem
      · exact Or.inr ⟨Or.inl rfl, hholds⟩
      · exact Or.inr ⟨Or.inr hmem, hholds⟩
    · rintro (hmem | ⟨rfl | hmem, hholds⟩)
      · exact Or.inl (Or.inl hmem)
      · exact Or.inl (Or.inr ⟨rfl, hholds⟩)
      · exact Or.inr ⟨hmem, hholds⟩

end

/-- The frontiers of every function are found, and each holds the blocks of its definition, in order and once. -/
theorem new_spec (flow : Flow) : ∃ enough, ∀ rounds, enough ≤ rounds → ∃ doms frontiers,
    Dominators.new rounds flow = some doms ∧ Frontiers.new rounds flow doms = some frontiers ∧
    ∀ b, (frontiers.of b).Pairwise (· < ·) ∧ ∀ d, d ∈ frontiers.of b ↔ Holds flow b d := by
  obtain ⟨doms, height, enough, hclimbs, hspec⟩ := @Dominators.new_spec flow
  refine ⟨enough, fun rounds hle => ⟨doms, ?_⟩⟩
  cases hentry : flow.entry with
  | none =>
    refine ⟨gather flow.size [], (hspec rounds hle).1, ?_, fun b => ?_⟩
    · rw [new, Flow.postorder, hentry]
      rfl
    · obtain ⟨hsorted, hmem⟩ := @gather_spec flow.size [] (fun p hp => absurd hp List.not_mem_nil) List.nodup_nil b
      refine ⟨hsorted, fun d => (hmem d).trans (iff_of_false List.not_mem_nil fun hholds => ?_)⟩
      obtain ⟨path, hfirst, hlast, -⟩ := hholds.1
      rw [hentry] at hfirst
      rw [List.head?_eq_none_iff.1 hfirst] at hlast
      cases hlast
  | some entry =>
    obtain ⟨post, hpost, hordered⟩ := Flow.postorder_spec hentry
    have hreached (x : ℕ) : x ∈ post ↔ Reached (some entry) flow.Step x := by
      rw [reached_iff, ← List.mem_reverse, hordered.mem_iff]
      rfl
    obtain ⟨s, hfold, hnodup, hpairs⟩ := visits_spec hentry hreached (hclimbs entry hentry) hle post (fun b hb => hb)
      ⟨fun _ => none, []⟩ (List.nodup_reverse.1 hordered.nodup) List.nodup_nil (fun x e hx => by cases hx)
      (fun x e _ => List.not_mem_nil)
    have hlt (p : ℕ × ℕ) (hp : p ∈ s.pairs) : p.1 < flow.size := by
      obtain ⟨-, ⟨q, -, hdom⟩, -⟩ := ((hpairs p.1 p.2).1 hp).resolve_left List.not_mem_nil |>.2
      rw [hentry] at hdom
      exact hordered.lt _ (List.mem_reverse.2 ((hreached _).2 hdom.reached_above))
    refine ⟨gather flow.size s.pairs, (hspec rounds hle).1, ?_, fun b => ?_⟩
    · rw [new, hpost]
      dsimp only [Option.bind_eq_bind, Option.bind_some]
      rw [hfold]
      rfl
    · obtain ⟨hsorted, hmem⟩ := gather_spec hlt hnodup b
      refine ⟨hsorted, fun d => ?_⟩
      rw [hmem, hpairs, or_iff_right List.not_mem_nil]
      refine and_iff_right_of_imp fun hholds => (hreached d).2 ?_
      have hd := hholds.1
      rwa [hentry] at hd

end Frontiers

/-! ## Control dependence -/

/-- Every way from a block to the exit passes another one: in the graph turned around, where an edge to the exit is
invented for some blocks. -/
def PostDominates (flow : Flow) (fake : List ℕ) (a b : ℕ) : Prop :=
  Dominates (flow.entry.map fun _ => flow.size) (fun u v => Reached flow.entry flow.Step v ∧ flow.Leaves fake v u) a b

namespace ControlDependence

/-- A branch decides whether a block runs: the block post-dominates where the branch goes on one of its edges, and does
not strictly post-dominate the branch. -/
def Decides (flow : Flow) (fake : List ℕ) (b d : ℕ) : Prop :=
  Reached flow.entry flow.Step b ∧ d < flow.size ∧ (∃ s, flow.Step b s ∧ PostDominates flow fake d s) ∧
    ¬ (d ≠ b ∧ PostDominates flow fake d b)

section

variable {up : ℕ → Option ℕ} {height : ℕ → ℕ} {block : ℕ} {stop : Option ℕ} (hrooted : Rooted up height)

include hrooted

/-- A walk up notes the branch at what is before the end on its way. -/
theorem climb_spec (rounds : ℕ) : ∀ (on : ℕ → List ℕ) runner, height runner < rounds →
    (∀ top, stop = some top → Above up runner top) → ∃ on', climb up block stop rounds on runner = some on' ∧
      ∀ x b, b ∈ on' x ↔ b ∈ on x ∨ b = block ∧ Before up stop runner x := by
  induction rounds with
  | zero => exact fun _ _ hlt => absurd hlt (Nat.not_lt_zero _)
  | succ rounds ih =>
    intro on runner hlt hstop
    rw [climb]
    by_cases hend : some runner = stop
    · rw [if_pos hend]
      refine ⟨on, rfl, fun x b => ⟨Or.inl, fun hor => hor.resolve_right fun hb => ?_⟩⟩
      rw [← hend] at hb
      exact not_before_self hb.2
    rw [if_neg hend]
    generalize hon : Function.update on runner (on runner ++ [block]) = on'
    have hmem (x b : ℕ) : b ∈ on' x ↔ b ∈ on x ∨ b = block ∧ x = runner := by
      rw [← hon]
      by_cases hx : x = runner
      · simp [hx]
      · simp [hx]
    cases hup : up runner with
    | none => exact ⟨on', rfl, fun x b => by rw [hmem, before_none hup hend hstop]⟩
    | some next =>
      have hnext (top : ℕ) (htop : stop = some top) : Above up next top := by
        refine ((above_some hup).1 (hstop top htop)).resolve_left ?_
        rintro rfl
        exact hend htop.symm
      obtain ⟨on'', hrun, hspec⟩ := ih on' next (by have := hrooted _ _ hup; omega) hnext
      refine ⟨on'', hrun, fun x b => ?_⟩
      rw [hspec, hmem, hrooted.before_some hup hend hstop]
      tauto

/-- The walks from where a branch goes. -/
theorem climbs_spec {rounds : ℕ} (hrounds : ∀ x, height x < rounds) (ways : List ℕ) : ∀ on : ℕ → List ℕ,
    (∀ w ∈ ways, ∀ top, stop = some top → Above up w top) →
    ∃ on', ways.foldlM (climb up block stop rounds) on = some on' ∧
      ∀ x b, b ∈ on' x ↔ b ∈ on x ∨ b = block ∧ ∃ w ∈ ways, Before up stop w x := by
  induction ways with
  | nil => exact fun on _ => ⟨on, rfl, fun x b => by simp⟩
  | cons w ways ih =>
    intro on hways
    obtain ⟨on', hrun, hspec⟩ := climb_spec hrooted rounds on w (hrounds w) (hways w List.mem_cons_self)
    obtain ⟨on'', hfold, hspec'⟩ := ih on' fun v hv => hways v (List.mem_cons_of_mem _ hv)
    refine ⟨on'', by rw [List.foldlM_cons, hrun]; exact hfold, fun x b => ?_⟩
    rw [hspec', hspec]
    simp only [List.mem_cons, exists_eq_or_imp]
    tauto

end

section

variable {flow : Flow} {entry : ℕ} {post : PostDominators} {height : ℕ → ℕ} {enough rounds : ℕ}
  (hentry : flow.entry = some entry) (hexit : post.exit = flow.size)
  (h : post.tree.Climbs flow.size (fun u v => Reached flow.entry flow.Step v ∧ flow.Leaves post.fake v u) height enough)
  (hled : ∀ b, Reached flow.entry flow.Step b → ∃ path, IsPath (some b) (flow.Leaves post.fake) path flow.size)

variable {b : ℕ}

include hentry hled

/-- A block that control reaches is reached from the exit in the graph turned around. -/
theorem reached_back (hb : Reached flow.entry flow.Step b) :
    Reached (some flow.size) (fun u v => Reached flow.entry flow.Step v ∧ flow.Leaves post.fake v u) b := by
  have hway := reached_iff.1 (hled b hb)
  rw [reached_iff]
  clear hled
  rw [hentry] at hb ⊢
  have hclosed {u v : ℕ} (hu : Reached (some entry) flow.Step u) (hstep : flow.Step u v) :
      Reached (some entry) flow.Step v := reached_iff.2 ((reached_iff.1 hu).tail hstep)
  induction hway using ReflTransGen.head_induction_on with
  | refl => exact .refl
  | @head u v hleaves _ ih =>
    rcases hleaves with hstep | ⟨rfl, hends⟩
    · exact (ih (hclosed hb hstep)).tail ⟨hb, Or.inl hstep⟩
    · exact .single ⟨hb, Or.inr ⟨rfl, hends⟩⟩

omit hled in
theorem reached_step {s : ℕ} (hb : Reached flow.entry flow.Step b) (hstep : flow.Step b s) :
    Reached flow.entry flow.Step s := by
  rw [hentry] at hb ⊢
  exact reached_iff.2 ((reached_iff.1 hb).tail hstep)

omit hled in
theorem postDominates_iff {d : ℕ} : PostDominates flow post.fake d b ↔ Dominates (some flow.size)
    (fun u v => Reached flow.entry flow.Step v ∧ flow.Leaves post.fake v u) d b := by
  rw [PostDominates, hentry]
  rfl

/-- Control comes from a block to what post-dominates it. -/
theorem comes_to {d : ℕ} (hb : Reached flow.entry flow.Step b) (hd : d < flow.size)
    (h : PostDominates flow post.fake d b) : ReflTransGen flow.Step b d := by
  by_contra hnot
  refine not_passes_iff.2 ⟨hd.ne', ?_⟩ ((postDominates_iff hentry).1 h).passes
  have hway := reached_iff.1 (hled b hb)
  clear h
  induction hway using ReflTransGen.head_induction_on with
  | refl => exact .refl
  | @head u v hleaves _ ih =>
    have hne : u ≠ d := fun heq => hnot (heq ▸ .refl)
    rcases hleaves with hstep | ⟨rfl, hends⟩
    · exact (ih (reached_step hentry hb hstep) fun hv => hnot (hv.head hstep)).tail ⟨⟨hb, Or.inl hstep⟩, hne⟩
    · exact .single ⟨⟨hb, Or.inr ⟨rfl, hends⟩⟩, hne⟩

omit hentry hled in
include h hexit in
theorem leads : Leads post.immediatePostDominator height flow.size
    (fun u v => Reached flow.entry flow.Step v ∧ flow.Leaves post.fake v u) fun x => x ≠ flow.size := by
  have hleads := PostDominators.leads (hexit ▸ h : post.tree.Climbs post.exit _ height enough)
  rwa [hexit] at hleads

include h hexit

/-- The definition, in what is between where a branch goes and its immediate post-dominator. -/
theorem decides_iff {d : ℕ} (hb : Reached flow.entry flow.Step b) (hlt : b < flow.size) :
    Decides flow post.fake b d ↔ d < flow.size ∧
      ∃ w ∈ flow.successors b, Before post.immediatePostDominator (post.immediatePostDominator b) w d := by
  have hleads := leads hexit h
  have hb' := reached_back hentry hled hb
  rw [Decides, and_iff_right hb]
  refine and_congr_right fun hd => ?_
  rw [PostDominates, hentry, Option.map_some, ← exists_and_right]
  refine exists_congr fun w => ?_
  rw [and_assoc]
  refine and_congr_right fun hstep => ?_
  have hstep' : flow.Step b w := hstep
  have hw : Reached flow.entry flow.Step w := by
    rw [hentry] at hb ⊢
    exact reached_iff.2 ((reached_iff.1 hb).tail hstep')
  rw [hleads.before_iff hb' hlt.ne (reached_back hentry hled hw) (flow.step_lt hstep').ne hd.ne, PostDominates, hentry]
  rfl

/-- The walks for one block put it where it decides. -/
theorem visit_spec (hrounds : enough ≤ rounds) (hb : Reached flow.entry flow.Step b) (hlt : b < flow.size)
    (on : ℕ → List ℕ) : ∃ on', visit rounds flow post on b = some on' ∧
      ∀ d < flow.size, ∀ c, c ∈ on' d ↔ c ∈ on d ∨ c = b ∧ Decides flow post.fake b d := by
  have hleads := leads hexit h
  have hb' := reached_back hentry hled hb
  have hfew : (flow.successors b).length + (if b ∈ post.fake ∨ flow.successors b = [] then 1 else 0) < 2 →
      ∀ d, ¬ Decides flow post.fake b d := by
    intro hfew d hdecides
    obtain ⟨-, w, hw, hbefore⟩ := (decides_iff hentry hexit h hled hb hlt).1 hdecides
    have hpos := List.length_pos_of_mem hw
    have hone : (flow.successors b).length = 1 ∧ ¬ (b ∈ post.fake ∨ flow.successors b = []) := by
      split_ifs at hfew with hif <;> first | omega | exact ⟨by omega, hif⟩
    obtain ⟨v, hv⟩ := List.length_eq_one_iff.1 hone.1
    rw [hv, List.mem_singleton] at hw
    -- with one way out there is nothing between it and the immediate post-dominator
    refine hleads.not_before hb' hlt.ne hlt.ne' (flow.step_lt (hv ▸ List.mem_singleton.2 hw : w ∈ _)).ne
      (fun u _ hstep => ?_) d hbefore
    rcases hstep.2 with hstep | ⟨-, hends⟩
    · rw [Flow.Step, hv, List.mem_singleton] at hstep
      rw [hstep, hw]
    · exact absurd hends.symm hone.2
  rw [visit]
  by_cases hif : (flow.successors b).length + (if b ∈ post.fake ∨ flow.successors b = [] then 1 else 0) < 2
  · rw [if_pos hif]
    exact ⟨on, rfl, fun d _ c => ⟨Or.inl, fun hor => hor.resolve_right fun hc => hfew hif d hc.2⟩⟩
  · rw [if_neg hif]
    obtain ⟨on', hfold, hspec⟩ := climbs_spec hleads.rooted (fun x => (h.bounded x).trans_le hrounds)
      (flow.successors b) on fun w hw top htop => by
        have hstep : flow.Step b w := hw
        have hw' : Reached flow.entry flow.Step w := by
          rw [hentry] at hb ⊢
          exact reached_iff.2 ((reached_iff.1 hb).tail hstep)
        exact hleads.above_of_step hb' hlt.ne (reached_back hentry hled hw') (flow.step_lt hstep).ne
          ⟨hb, Or.inl hstep⟩ htop
    refine ⟨on', hfold, fun d hd c => ?_⟩
    rw [hspec, decides_iff hentry hexit h hled hb hlt, and_iff_right hd]

end

/-- The branches that decide whether each block runs are found, and they are the ones of the definition, in order and
once. -/
theorem new_spec (flow : Flow) : ∃ enough, ∀ rounds, enough ≤ rounds → ∃ post control,
    PostDominators.new rounds flow = some post ∧ ControlDependence.new rounds flow post = some control ∧
    ∀ d < flow.size, (control.on d).Pairwise (· < ·) ∧ ∀ b, b ∈ control.on d ↔ Decides flow post.fake b d := by
  obtain ⟨post, height, enough, hclimbs, hspec⟩ := @PostDominators.new_spec flow
  refine ⟨enough, fun rounds hle => ⟨post, ?_⟩⟩
  obtain ⟨hnew, hled, -⟩ := hspec rounds hle
  cases hentry : flow.entry with
  | none =>
    refine ⟨⟨fun _ => []⟩, hnew, ?_, fun d _ => ⟨List.Pairwise.nil, fun b =>
      iff_of_false List.not_mem_nil fun hb => ?_⟩⟩
    · rw [new, Flow.postorder, hentry]
      rfl
    · obtain ⟨path, hfirst, hlast, -⟩ := hb.1
      rw [hentry] at hfirst
      rw [List.head?_eq_none_iff.1 hfirst] at hlast
      cases hlast
  | some entry =>
    obtain ⟨order, horder, hordered⟩ := Flow.postorder_spec hentry
    have hreached (x : ℕ) : x ∈ order ↔ Reached flow.entry flow.Step x := by
      rw [hentry, reached_iff, ← List.mem_reverse, hordered.mem_iff]
      rfl
    obtain ⟨hexit, hclimbs⟩ := hclimbs entry hentry
    have hfold (blocks : List ℕ) (hblocks : ∀ b ∈ blocks, b ∈ order) : ∀ on : ℕ → List ℕ,
        ∃ on', blocks.foldlM (visit rounds flow post) on = some on' ∧
          ∀ d < flow.size, ∀ c, c ∈ on' d ↔ c ∈ on d ∨ c ∈ blocks ∧ Decides flow post.fake c d := by
      induction blocks with
      | nil => exact fun on => ⟨on, rfl, fun d _ c => by simp⟩
      | cons b blocks ih =>
        intro on
        have hb := hblocks b List.mem_cons_self
        obtain ⟨on', hvisit, hspec⟩ := visit_spec hentry hexit hclimbs hled hle ((hreached b).1 hb)
          (hordered.lt b (List.mem_reverse.2 hb)) on
        obtain ⟨on'', hfold, hspec'⟩ := ih (fun c hc => hblocks c (List.mem_cons_of_mem _ hc)) on'
        refine ⟨on'', by rw [List.foldlM_cons, hvisit]; exact hfold, fun d hd c => ?_⟩
        rw [hspec' d hd, hspec d hd, List.mem_cons]
        constructor
        · rintro ((hmem | ⟨rfl, hdecides⟩) | ⟨hmem, hdecides⟩)
          · exact Or.inl hmem
          · exact Or.inr ⟨Or.inl rfl, hdecides⟩
          · exact Or.inr ⟨Or.inr hmem, hdecides⟩
        · rintro (hmem | ⟨rfl | hmem, hdecides⟩)
          · exact Or.inl (Or.inl hmem)
          · exact Or.inl (Or.inr ⟨rfl, hdecides⟩)
          · exact Or.inr ⟨hmem, hdecides⟩
    obtain ⟨on, hon, hdecides⟩ := hfold order (fun b hb => hb) fun _ => []
    refine ⟨⟨fun block => ((on block).insertionSort (· ≤ ·)).destutter (· ≠ ·)⟩, hnew, ?_, fun d hd => ?_⟩
    · rw [new, horder]
      dsimp only [Option.bind_eq_bind, Option.bind_some]
      rw [hon]
      rfl
    · have hsorted := List.pairwise_insertionSort (· ≤ ·) (on d)
      dsimp only
      rw [hsorted.destutter_eq_dedup]
      constructor
      · exact ((hsorted.sublist (List.dedup_sublist _)).and (List.nodup_dedup _)).imp fun hle =>
          lt_of_le_of_ne hle.1 hle.2
      · intro b
        rw [List.mem_dedup, List.mem_insertionSort, hdecides d hd, or_iff_right List.not_mem_nil]
        exact and_iff_right_of_imp fun hb => (hreached b).2 hb.1

/-- A block that control reaches runs whatever any branch decides exactly when every way out of the function passes it
and none comes back to it. -/
theorem unconditional_iff (flow : Flow) : ∃ enough, ∀ rounds, enough ≤ rounds → ∃ post control,
    PostDominators.new rounds flow = some post ∧ new rounds flow post = some control ∧
    ∀ entry d, flow.entry = some entry → d < flow.size → Reached flow.entry flow.Step d →
      (control.unconditional d = true ↔ PostDominates flow post.fake d entry ∧ ¬TransGen flow.Step d d) := by
  obtain ⟨post, height, enough, -, hways⟩ := @PostDominators.new_spec flow
  obtain ⟨enough', hspec⟩ := new_spec flow
  refine ⟨max enough enough', fun rounds hle => ?_⟩
  obtain ⟨hpost, hled, -⟩ := hways rounds (by omega)
  obtain ⟨_, control, hpost', hcontrol, hon⟩ := hspec rounds (by omega)
  obtain rfl := Option.some.inj (hpost.symm.trans hpost')
  refine ⟨post, control, hpost, hcontrol, fun entry d hentry hd hreached => ?_⟩
  rw [unconditional, List.isEmpty_iff, List.eq_nil_iff_forall_not_mem]
  simp only [(hon d hd).2]
  have hway := hreached
  rw [hentry, reached_iff] at hway
  constructor
  · intro hnone
    have hback {b s : ℕ} (hb : Reached flow.entry flow.Step b) (hstep : flow.Step b s)
        (hs : PostDominates flow post.fake d s) : d ≠ b ∧ PostDominates flow post.fake d b := by
      by_contra hnot
      exact hnone b ⟨hb, hd, ⟨s, hstep, hs⟩, hnot⟩
    -- It post-dominates all that control comes to it from.
    have hall {x : ℕ} (hx : Reached flow.entry flow.Step x) (hway : ReflTransGen flow.Step x d) :
        PostDominates flow post.fake d x := by
      induction hway using ReflTransGen.head_induction_on with
      | refl =>
        have hself := reached_back hentry hled hreached
        exact (postDominates_iff hentry).2 ⟨hself, hself, fun path hpath => List.mem_of_mem_getLast? hpath.last⟩
      | head hstep _ ih => exact (hback hx hstep (ih (reached_step hentry hx hstep))).2
    refine ⟨hall (hentry ▸ reached_iff.2 .refl) hway, fun hloop => ?_⟩
    obtain ⟨s, hstep, hway⟩ := TransGen.head'_iff.1 hloop
    exact (hback hreached hstep (hall (reached_step hentry hreached hstep) hway)).1 rfl
  · rintro ⟨hout, hloop⟩ b ⟨hb, -, ⟨s, hstep, hs⟩, hnot⟩
    have haway : ¬ReflTransGen flow.Step d b := fun hway => hloop <|
      (TransGen.tail' hway hstep).trans_left (comes_to hentry hled (reached_step hentry hb hstep) hd hs)
    -- A way to the branch does not pass it, so it post-dominates all of that.
    have hall {x : ℕ} (hx : ReflTransGen flow.Step entry x) : ReflTransGen flow.Step x b →
        PostDominates flow post.fake d x := by
      induction hx with
      | refl => exact fun _ => hout
      | @tail u v hu hstep ih =>
        intro hv
        have hway := hv.head hstep
        have hu : Reached flow.entry flow.Step u := hentry ▸ reached_iff.2 hu
        exact (postDominates_iff hentry).2 (((postDominates_iff hentry).1 (ih hway)).to_pred
          (fun heq => haway (heq ▸ hway)) ⟨hu, Or.inl hstep⟩ (reached_back hentry hled (reached_step hentry hu hstep)))
    rw [hentry, reached_iff] at hb
    exact hnot ⟨fun heq => haway (heq ▸ .refl), hall hb .refl⟩

end ControlDependence

/-- Of every function, with whatever joins, loops and unreachable blocks, the dominance frontiers and the control
dependences are found, and they are the definitions: each list is in order and holds a block once. -/
theorem frontiers_exact (flow : Flow) : ∃ enough, ∀ rounds, enough ≤ rounds → ∃ doms frontiers post control,
    Dominators.new rounds flow = some doms ∧ Frontiers.new rounds flow doms = some frontiers ∧
    PostDominators.new rounds flow = some post ∧ ControlDependence.new rounds flow post = some control ∧
    (∀ b, (frontiers.of b).Pairwise (· < ·) ∧ ∀ d, d ∈ frontiers.of b ↔ Frontiers.Holds flow b d) ∧
    ∀ d < flow.size, (control.on d).Pairwise (· < ·) ∧
      ∀ b, b ∈ control.on d ↔ ControlDependence.Decides flow post.fake b d := by
  obtain ⟨enough, hfrontiers⟩ := Frontiers.new_spec flow
  obtain ⟨enough', hcontrol⟩ := ControlDependence.new_spec flow
  refine ⟨max enough enough', fun rounds hle => ?_⟩
  obtain ⟨doms, frontiers, hdoms, hnew, hholds⟩ := hfrontiers rounds (by omega)
  obtain ⟨post, control, hpost, hnew', hdecides⟩ := hcontrol rounds (by omega)
  exact ⟨doms, frontiers, post, control, hdoms, hnew, hpost, hnew', hholds, hdecides⟩

end Rucc.Opt.Dom
