import Rucc.Opt.MemSsa

/-!
# Where the memory parameters go

The frontier of a block is found by walks up the dominator tree, and the blocks that get a parameter are
the least ones with the frontiers of the blocks that define a version.
-/

namespace Rucc.Opt

open Relation

namespace Doms

variable {g : Cfg} {d : Doms}

/-- The way up from a block goes over its immediate dominator. -/
theorem above_cases {x y z : ℕ} (hdom : d.immediateDominator x = some y) (habove : d.Above x z) :
    x = z ∨ d.Above y z := by
  rcases ReflTransGen.cases_head habove with heq | ⟨w, hw, hrest⟩
  · exact Or.inl heq
  · rw [Option.some.inj (hdom.symm.trans hw)]
    exact Or.inr hrest

/-- Two blocks that dominate each other are one. -/
theorem Tree.above_antisymm (h : d.Tree g) {x y : ℕ} (hx : x ∈ d.rpo) (hxy : d.Above x y)
    (hyx : d.Above y x) : x = y := by
  have hle := h.above_le hx hxy
  have hge := h.above_le (h.above_mem hx hxy) hyx
  exact (List.idxOf_inj hx).mp (by omega)

end Doms

namespace MemSsa

/-- A block on the way up from one to another one, before that. -/
def Between (d : Doms) (p top x : ℕ) : Prop := d.Above p x ∧ d.Above x top ∧ x ≠ top

/-- The join is in the frontier of a block. -/
def Frontier (g : Cfg) (d : Doms) (x y : ℕ) : Prop :=
  y ∈ d.rpo ∧ 2 ≤ (g.predecessors y).length ∧ ∃ top, d.immediateDominator y = some top ∧
    ∃ p ∈ g.predecessors y, Between d p top x

section

variable {g : Cfg} {d : Doms} (h : d.Tree g)

variable {block : ℕ}

include h

/-- What a walk up notes. -/
theorem walkUp_spec {block top : ℕ} (rounds : ℕ) : ∀ runner frontier, runner ∈ d.rpo →
    d.Above runner top → d.rpo.idxOf runner ≤ rounds → ∃ frontier',
      walkUp d block top rounds runner frontier = some frontier' ∧
      ∀ x y, y ∈ frontier' x ↔ y ∈ frontier x ∨ y = block ∧ Between d runner top x := by
  -- at the top there is nothing to note
  have hnone : ∀ x, top ∈ d.rpo → ¬ Between d top top x := fun x htop hx =>
    hx.2.2 (h.above_antisymm htop hx.1 hx.2.1).symm
  induction rounds with
  | zero =>
    intro runner frontier hmem habove hle
    have hzero : runner = 0 := (List.idxOf_inj hmem).mp (by rw [h.idxOf_zero]; omega)
    have htop : top ∈ d.rpo := h.above_mem hmem habove
    have heq : top = runner := by
      have := h.above_le hmem habove
      exact (List.idxOf_inj htop).mp (by omega)
    refine ⟨frontier, by rw [walkUp, if_pos heq.symm], fun x y => ?_⟩
    rw [← heq]
    exact ⟨Or.inl, fun hor => hor.resolve_right fun hy => hnone x htop hy.2⟩
  | succ rounds ih =>
    intro runner frontier hmem habove hle
    rw [walkUp]
    by_cases heq : runner = top
    · refine ⟨frontier, by rw [if_pos heq], fun x y => ?_⟩
      rw [heq]
      exact ⟨Or.inl, fun hor => hor.resolve_right fun hy => hnone x (heq ▸ hmem) hy.2⟩
    rw [if_neg heq]
    obtain ⟨next, hnext, hrest⟩ := (ReflTransGen.cases_head habove).resolve_left heq
    have hlt := h.immediateDominator_lt hmem hnext
    have hnextmem := ((h.immediateDominator_iff hmem).mp hnext).1
    generalize hnoted : (if block ∈ frontier runner then frontier
      else Function.update frontier runner (frontier runner ++ [block])) = noted
    obtain ⟨frontier', hwalk, hspec⟩ := ih next noted hnextmem hrest (by omega)
    refine ⟨frontier', ?_, fun x y => ?_⟩
    · rw [hnext]
      exact hwalk
    rw [hspec]
    -- what is noted at the runner itself
    have hstep : y ∈ noted x ↔ y ∈ frontier x ∨ y = block ∧ x = runner := by
      rw [← hnoted]
      by_cases hx : x = runner
      · subst hx
        split
        · constructor
          · exact Or.inl
          · rintro (hy | ⟨rfl, -⟩)
            · exact hy
            · assumption
        · rw [Function.update_self, List.mem_append, List.mem_singleton]
          simp
      · split
        · simp [hx]
        · rw [Function.update_of_ne hx]
          simp [hx]
    have hbetween : Between d runner top x ↔ x = runner ∨ Between d next top x := by
      constructor
      · intro hx
        exact (Doms.above_cases hnext hx.1).imp Eq.symm fun hnx => ⟨hnx, hx.2⟩
      · rintro (rfl | hx)
        · exact ⟨ReflTransGen.refl, habove, heq⟩
        · exact ⟨ReflTransGen.head hnext hx.1, hx.2⟩
    rw [hstep, hbetween, and_or_left, or_assoc]

/-- The walks from where a join is come to from note it at the blocks between those and its immediate
dominator. -/
theorem walks_spec {top : ℕ} (ps : List ℕ) (hps : ∀ p ∈ ps, p ∈ d.rpo ∧ d.Above p top)
    (hsize : d.rpo.length ≤ g.size) : ∀ frontier, ∃ frontier',
      ps.foldlM (fun frontier pred => walkUp d block top g.size pred frontier) frontier = some frontier' ∧
      ∀ x y, y ∈ frontier' x ↔ y ∈ frontier x ∨ y = block ∧ ∃ p ∈ ps, Between d p top x := by
  induction ps with
  | nil => exact fun frontier => ⟨frontier, rfl, fun x y => by simp⟩
  | cons p ps ih =>
    intro frontier
    obtain ⟨hp, habove⟩ := hps p (List.mem_cons_self)
    have hlt := List.idxOf_lt_length_of_mem hp
    obtain ⟨noted, hwalk, hnoted⟩ := @walkUp_spec g d h block top g.size p frontier hp habove (by omega)
    obtain ⟨frontier', hfold, hspec⟩ := ih (fun q hq => hps q (List.mem_cons_of_mem _ hq)) noted
    refine ⟨frontier', ?_, fun x y => ?_⟩
    · rw [List.foldlM_cons, hwalk]
      exact hfold
    · rw [hspec, hnoted]
      simp only [List.mem_cons, exists_eq_or_imp]
      rw [and_or_left, or_assoc]

/-- What the walks for one block note. -/
theorem frontiersOf_spec (hall : ∀ b < g.size, b ∈ d.rpo) (hsize : d.rpo.length ≤ g.size)
    (hblock : block ∈ d.rpo) (frontier : ℕ → List ℕ) : ∃ frontier',
      frontiersOf g d frontier block = some frontier' ∧
      ∀ x y, y ∈ frontier' x ↔ y ∈ frontier x ∨ y = block ∧ Frontier g d x y := by
  rw [frontiersOf]
  by_cases hfew : (g.predecessors block).length < 2
  · refine ⟨frontier, by rw [if_pos hfew], fun x y => ⟨Or.inl, fun hor => hor.resolve_right ?_⟩⟩
    rintro ⟨rfl, hfrontier⟩
    have := hfrontier.2.1
    omega
  rw [if_neg hfew]
  cases hdom : d.immediateDominator block with
  | none =>
    refine ⟨frontier, rfl, fun x y => ⟨Or.inl, fun hor => hor.resolve_right ?_⟩⟩
    rintro ⟨rfl, -, -, top, htop, -⟩
    exact absurd (hdom.symm.trans htop) (by simp)
  | some top =>
    have htop : d.Above block top := ReflTransGen.single hdom
    have hne : top ≠ block := fun heq => by
      have := h.immediateDominator_lt hblock hdom
      rw [heq] at this
      omega
    have hps : ∀ p ∈ g.predecessors block, p ∈ d.rpo ∧ d.Above p top := by
      intro p hp
      have hmem : p ∈ d.rpo := hall p (List.mem_range.mp (List.mem_filter.mp hp).1)
      exact ⟨hmem, h.above_pred hblock htop hne hp hmem⟩
    obtain ⟨frontier', hfold, hspec⟩ := walks_spec h _ hps hsize frontier
    refine ⟨frontier', hfold, fun x y => ?_⟩
    rw [hspec]
    refine or_congr_right (and_congr_right ?_)
    rintro rfl
    constructor
    · exact fun hbetween => ⟨hblock, by omega, top, hdom, hbetween⟩
    · rintro ⟨-, -, top', htop', hbetween⟩
      rw [Option.some.inj (hdom.symm.trans htop')]
      exact hbetween

/-- The dominance frontier of every block is found. -/
theorem frontiers_spec (hall : ∀ b < g.size, b ∈ d.rpo) (hsize : d.rpo.length ≤ g.size) :
    ∃ frontier, frontiers g d = some frontier ∧ ∀ x y, y ∈ frontier x ↔ Frontier g d x y := by
  have hfold : ∀ l : List ℕ, (∀ b ∈ l, b ∈ d.rpo) → ∀ frontier, ∃ frontier',
      l.foldlM (frontiersOf g d) frontier = some frontier' ∧
      ∀ x y, y ∈ frontier' x ↔ y ∈ frontier x ∨ y ∈ l ∧ Frontier g d x y := by
    intro l hl
    induction l with
    | nil => exact fun frontier => ⟨frontier, rfl, fun x y => by simp⟩
    | cons block l ih =>
      intro frontier
      obtain ⟨noted, hnoted, hone⟩ := frontiersOf_spec h hall hsize (hl block (List.mem_cons_self)) frontier
      obtain ⟨frontier', hfold, hspec⟩ := ih (fun b hb => hl b (List.mem_cons_of_mem _ hb)) noted
      refine ⟨frontier', ?_, fun x y => ?_⟩
      · rw [List.foldlM_cons, hnoted]
        exact hfold
      · rw [hspec, hone, List.mem_cons, or_and_right, or_assoc]
  obtain ⟨frontier, hfrontier, hspec⟩ := hfold d.rpo (fun b hb => hb) fun _ => []
  refine ⟨frontier, hfrontier, fun x y => ?_⟩
  rw [hspec]
  simp only [List.not_mem_nil, false_or]
  exact ⟨And.right, fun hy => ⟨hy.1, hy⟩⟩

end

/-! ## The least blocks with the frontiers -/

section

variable {n : ℕ} {start : List ℕ} {frontier : ℕ → List ℕ}

/-- The blocks below a bound that have not been looked at. -/
def unseen (n : ℕ) (s : Placing) : ℕ := ((List.range n).filter fun b => b ∉ s.seen).length

/-- What a round keeps: a block is seen when it is one of the first ones or gets a parameter, and a block
gets one for the frontier of a block that is seen. -/
structure Placing.Good (n : ℕ) (start : List ℕ) (frontier : ℕ → List ℕ) (s : Placing) : Prop where
  seen : ∀ x, x ∈ s.seen ↔ x ∈ start ∨ x ∈ s.placed
  work : ∀ x ∈ s.work, x ∈ s.seen
  source : ∀ y ∈ s.placed, ∃ x ∈ s.seen, y ∈ frontier x

/-- A block is looked at once. -/
theorem unseen_place {s : Placing} {target : ℕ} (hlt : target < n) :
    unseen n (place s target) + (place s target).work.length ≤ unseen n s + s.work.length := by
  rw [place]
  split
  · exact le_rfl
  split
  · exact le_rfl
  rename_i hnew
  have hsplit : unseen n s = unseen n ⟨target :: s.work, target :: s.placed, target :: s.seen⟩ + 1 := by
    have hpart : ((List.range n).filter fun b => b ∉ s.seen).Perm
        (target :: (List.range n).filter fun b => b ∉ target :: s.seen) := by
      refine (List.perm_ext_iff_of_nodup (List.nodup_range.filter _) ?_).mpr fun b => ?_
      · refine List.nodup_cons.mpr ⟨fun hmem => ?_, List.nodup_range.filter _⟩
        exact of_decide_eq_true (List.mem_filter.mp hmem).2 (List.mem_cons_self)
      · simp only [List.mem_filter, List.mem_range, decide_eq_true_eq, List.mem_cons, not_or]
        constructor
        · rintro ⟨hb, hbnew⟩
          exact (em (b = target)).imp id fun hne => ⟨hb, hne, hbnew⟩
        · rintro (rfl | ⟨hb, -, hbnew⟩)
          · exact ⟨hlt, hnew⟩
          · exact ⟨hb, hbnew⟩
    rw [unseen, unseen, hpart.length_eq, List.length_cons]
  rw [hsplit, List.length_cons]
  omega

/-- One block of the frontier of a block that has been seen. -/
theorem Placing.Good.place {s : Placing} (h : s.Good n start frontier) {x target : ℕ} (hx : x ∈ s.seen)
    (htarget : target ∈ frontier x) : (place s target).Good n start frontier := by
  rw [MemSsa.place]
  split
  · exact h
  split
  case isTrue hseen =>
    constructor
    case seen =>
      intro y
      rw [List.mem_cons]
      constructor
      · exact fun hy => ((h.seen y).mp hy).imp_right Or.inr
      · rintro (hy | rfl | hy)
        · exact (h.seen y).mpr (Or.inl hy)
        · exact hseen
        · exact (h.seen y).mpr (Or.inr hy)
    case work => exact h.work
    case source =>
      intro y hy
      rcases List.mem_cons.mp hy with rfl | hy
      · exact ⟨x, hx, htarget⟩
      · exact h.source y hy
  case isFalse hseen =>
    constructor
    case seen =>
      intro y
      simp only [List.mem_cons, h.seen y]
      tauto
    case work => exact fun y hy => List.mem_cons.mpr ((List.mem_cons.mp hy).imp_right (h.work y))
    case source =>
      intro y hy
      rcases List.mem_cons.mp hy with rfl | hy
      · exact ⟨x, List.mem_cons_of_mem _ hx, htarget⟩
      · obtain ⟨z, hz, hyz⟩ := h.source y hy
        exact ⟨z, List.mem_cons_of_mem _ hz, hyz⟩

/-- A block of a frontier gets a parameter, and the ones that had one keep it. -/
theorem mem_place (s : Placing) (target : ℕ) : target ∈ (place s target).placed ∧
    (∀ y ∈ s.placed, y ∈ (place s target).placed) ∧ (∀ y ∈ s.seen, y ∈ (place s target).seen) ∧
    ∀ y ∈ (place s target).seen, y ∈ s.seen ∨ y ∈ (place s target).work := by
  rw [place]
  split
  · exact ⟨by assumption, fun y hy => hy, fun y hy => hy, fun y hy => Or.inl hy⟩
  split
  · exact ⟨List.mem_cons_self, fun y hy => List.mem_cons_of_mem _ hy, fun y hy => hy, fun y hy => Or.inl hy⟩
  · refine ⟨List.mem_cons_self, fun y hy => List.mem_cons_of_mem _ hy, fun y hy => List.mem_cons_of_mem _ hy, ?_⟩
    intro y hy
    rcases List.mem_cons.mp hy with rfl | hy
    · exact Or.inr (List.mem_cons_self)
    · exact Or.inl hy

theorem work_place (s : Placing) (target : ℕ) : ∀ y ∈ s.work, y ∈ (place s target).work := by
  rw [place]
  split
  · exact fun y hy => hy
  split
  · exact fun y hy => hy
  · exact fun y hy => List.mem_cons_of_mem _ hy

/-- The frontier of one block. -/
theorem places_spec {x : ℕ} (l : List ℕ) : ∀ s : Placing, s.Good n start frontier → x ∈ s.seen →
    (∀ y ∈ l, y ∈ frontier x ∧ y < n) →
    (l.foldl place s).Good n start frontier ∧ (∀ y ∈ l, y ∈ (l.foldl place s).placed) ∧
      (∀ y ∈ s.placed, y ∈ (l.foldl place s).placed) ∧ (∀ y ∈ s.work, y ∈ (l.foldl place s).work) ∧
      (∀ y ∈ (l.foldl place s).seen, y ∈ s.seen ∨ y ∈ (l.foldl place s).work) ∧
      unseen n (l.foldl place s) + (l.foldl place s).work.length ≤ unseen n s + s.work.length := by
  induction l with
  | nil =>
    intro s h _ _
    exact ⟨h, fun y hy => absurd hy (List.not_mem_nil), fun y hy => hy, fun y hy => hy,
      fun y hy => Or.inl hy, le_rfl⟩
  | cons target l ih =>
    intro s h hx hl
    obtain ⟨htarget, hlt⟩ := hl target (List.mem_cons_self)
    obtain ⟨hplaced, hkeep, hseen, hnew⟩ := mem_place s target
    obtain ⟨hgood, hmem, hplaced', hwork', hnew', hle⟩ := ih (place s target) (h.place hx htarget)
      (hseen x hx) fun y hy => hl y (List.mem_cons_of_mem _ hy)
    rw [List.foldl_cons]
    refine ⟨hgood, fun y hy => ?_, fun y hy => hplaced' y (hkeep y hy),
      fun y hy => hwork' y (work_place s target y hy), fun y hy => ?_, hle.trans (unseen_place hlt)⟩
    · rcases List.mem_cons.mp hy with rfl | hy
      · exact hplaced' y hplaced
      · exact hmem y hy
    · rcases hnew' y hy with hy | hy
      · exact (hnew y hy).imp_right (hwork' y)
      · exact Or.inr hy

/-- The rounds end, with the least blocks that have the frontiers of the first ones and of
themselves. -/
theorem iterate_spec (hlt : ∀ x, ∀ y ∈ frontier x, y < n) (rounds : ℕ) : ∀ s : Placing,
    s.Good n start frontier → (∀ x ∈ s.seen, x ∈ s.work ∨ ∀ y ∈ frontier x, y ∈ s.placed) →
    unseen n s + s.work.length ≤ rounds → ∃ placed, iterate frontier rounds s = some placed ∧
      (∀ x, x ∈ start ∨ x ∈ placed → ∀ y ∈ frontier x, y ∈ placed) ∧
      ∀ y ∈ placed, ∃ x, (x ∈ start ∨ x ∈ placed) ∧ y ∈ frontier x := by
  induction rounds with
  | zero =>
    intro s h hclosed hle
    have hwork : s.work = [] := List.eq_nil_of_length_eq_zero (by omega)
    refine ⟨s.placed, by rw [iterate, hwork], fun x hx => ?_, fun y hy => ?_⟩
    · have hx := (h.seen x).mpr hx
      exact (hclosed x hx).resolve_left (by rw [hwork]; exact List.not_mem_nil)
    · obtain ⟨x, hx, hyx⟩ := h.source y hy
      exact ⟨x, (h.seen x).mp hx, hyx⟩
  | succ rounds ih =>
    intro s h hclosed hle
    rw [iterate]
    cases hwork : s.work with
    | nil =>
      refine ⟨s.placed, rfl, fun x hx => ?_, fun y hy => ?_⟩
      · have hx := (h.seen x).mpr hx
        exact (hclosed x hx).resolve_left (by rw [hwork]; exact List.not_mem_nil)
      · obtain ⟨x, hx, hyx⟩ := h.source y hy
        exact ⟨x, (h.seen x).mp hx, hyx⟩
    | cons block work =>
      rw [hwork, List.length_cons] at hle
      have hgood : Placing.Good n start frontier { s with work := work } :=
        ⟨h.seen, fun x hx => h.work x (by rw [hwork]; exact List.mem_cons_of_mem _ hx), h.source⟩
      have hblock : block ∈ s.seen := h.work block (by rw [hwork]; exact List.mem_cons_self)
      obtain ⟨hgood', hmem, hplaced, hwork', hnew, hle'⟩ := places_spec (frontier block)
        { s with work := work } hgood hblock fun y hy => ⟨hy, hlt block y hy⟩
      refine ih _ hgood' (fun x hx => ?_) ?_
      · rcases hnew x hx with hx | hx
        · rcases hclosed x hx with hx | hx
          · rw [hwork] at hx
            rcases List.mem_cons.mp hx with rfl | hx
            · exact Or.inr hmem
            · exact Or.inl (hwork' x hx)
          · exact Or.inr fun y hy => hplaced y (hx y hy)
        · exact Or.inl hx
      · have : unseen n { s with work := work } = unseen n s := rfl
        dsimp only at hle'
        omega

end

/-- The blocks that need a memory parameter are found. -/
theorem iteratedFrontier_spec {g : Cfg} {d : Doms} (h : d.Tree g) (hall : ∀ b < g.size, b ∈ d.rpo)
    (start : List ℕ) : ∃ placed, iteratedFrontier g d start = some placed ∧
      (∀ x, x ∈ start ∨ x ∈ placed → ∀ y, Frontier g d x y → y ∈ placed) ∧
      ∀ y ∈ placed, ∃ x, (x ∈ start ∨ x ∈ placed) ∧ Frontier g d x y := by
  have hsize : d.rpo.length ≤ g.size := by
    have hsub : d.rpo ⊆ List.range g.size := fun b hb => List.mem_range.mpr (h.ordered.lt b hb)
    have := (h.ordered.nodup.subperm hsub).length_le
    rwa [List.length_range] at this
  obtain ⟨frontier, hfrontier, hspec⟩ := frontiers_spec h hall hsize
  have hlt : ∀ x, ∀ y ∈ frontier x, y < g.size := fun x y hy =>
    h.ordered.lt y ((hspec x y).mp hy).1
  have hgood : Placing.Good g.size start frontier ⟨start.reverse, [], start⟩ :=
    ⟨fun x => by simp, fun x hx => List.mem_reverse.mp hx, fun y hy => absurd hy (List.not_mem_nil)⟩
  obtain ⟨placed, hiterate, hclosed, hsource⟩ := iterate_spec hlt (g.size + start.length) _ hgood
    (fun x hx => Or.inl (List.mem_reverse.mpr hx)) (by
      have : unseen g.size ⟨start.reverse, [], start⟩ ≤ g.size := by
        have := List.length_filter_le (fun b => decide (b ∉ start)) (List.range g.size)
        rwa [List.length_range] at this
      rw [List.length_reverse]
      omega)
  refine ⟨placed, by rw [iteratedFrontier, hfrontier]; exact hiterate, fun x hx y hy => ?_, fun y hy => ?_⟩
  · exact hclosed x hx y ((hspec x y).mpr hy)
  · obtain ⟨x, hx, hyx⟩ := hsource y hy
    exact ⟨x, hx, (hspec x y).mp hyx⟩

end MemSsa

end Rucc.Opt
