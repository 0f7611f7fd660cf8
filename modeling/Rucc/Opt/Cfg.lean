import Mathlib.Data.List.Sublists
import Rucc.Lib.Dominators
import Rucc.Lib.Postorder

/-!
# The graph of a function's blocks and its dominator tree

The model of `cfg.rs` and `dom.rs`: who goes where, the blocks that the entry reaches in an order, and
the immediate dominator of each of them. Blocks are numbered in the order they are laid out in, so the
entry of a function that has blocks is block zero.
-/

namespace Rucc.Opt

open Relation

/-- Who goes where in a function: for each block, every edge that its terminator names. -/
structure Cfg where
  edges : List (List ℕ)
  deriving DecidableEq

namespace Cfg

/-- How many blocks the function has. -/
def size (g : Cfg) : ℕ := g.edges.length

/-- The blocks a block branches to, each named once however many edges go to it. -/
def successors (g : Cfg) (b : ℕ) : List ℕ := (g.edges.getD b []).eraseDups

/-- The blocks that branch to a block, each named once however many edges come from it. -/
def predecessors (g : Cfg) (b : ℕ) : List ℕ := (List.range g.size).filter fun p => b ∈ g.successors p

/-- Every block the entry reaches, children before parents. -/
def postorder (g : Cfg) : Option (List ℕ) :=
  if g.size = 0 then some [] else Postorder.postorder g.size g.successors 0

/-- A graph whose edges go to blocks, none of them to the entry. -/
structure Ok (g : Cfg) : Prop where
  nonempty : 0 < g.size
  target : ∀ b, ∀ t ∈ g.successors b, 0 < t ∧ t < g.size

end Cfg

/-- The dominator tree of a graph, by position in reverse postorder. -/
structure Doms where
  rpo : List ℕ
  idom : ℕ → Option ℕ

namespace Doms

/-- The predecessors that the entry reaches of the block at a position, by position. -/
def preds (g : Cfg) (rpo : List ℕ) (r : ℕ) : List ℕ :=
  ((g.predecessors (rpo.getD r 0)).map rpo.idxOf).filter (· < rpo.length)

/-- Builds the tree from the graph. -/
def new (g : Cfg) : Option Doms :=
  g.postorder.bind fun post =>
    (Dominators.idoms post.reverse.length (preds g post.reverse)).map fun idom => ⟨post.reverse, idom⟩

/-- The nearest block that dominates this one and is not it. -/
def immediateDominator (d : Doms) (b : ℕ) : Option ℕ :=
  if d.rpo.idxOf b = 0 then none
  else if d.rpo.idxOf b < d.rpo.length then (d.idom (d.rpo.idxOf b)).bind (d.rpo[·]?)
  else none

/-- The blocks whose immediate dominator is this one. -/
def children (d : Doms) (b : ℕ) : List ℕ := d.rpo.filter fun c => d.immediateDominator c = some b

/-- A block and the ones that dominate it, up the tree. -/
def Above (d : Doms) : ℕ → ℕ → Prop := ReflTransGen fun x y => d.immediateDominator x = some y

end Doms

theorem Cfg.mem_predecessors {g : Cfg} {p b : ℕ} : p ∈ g.predecessors b ↔ b ∈ g.successors p := by
  rw [predecessors, List.mem_filter, List.mem_range]
  constructor
  · exact fun h => of_decide_eq_true h.2
  · intro h
    refine ⟨?_, decide_eq_true h⟩
    -- a block that is not there branches nowhere
    by_contra hge
    rw [successors, List.getD_eq_getElem?_getD, List.getElem?_eq_none (by rw [size] at hge; omega)] at h
    exact absurd h (by simp)

namespace Doms

variable {g : Cfg} {d : Doms}

variable {x y a p : ℕ}

/-- What the blocks of a tree are: the ones the entry reaches, in reverse postorder, with the
dominators of the graph between their positions. -/
structure Tree (g : Cfg) (d : Doms) : Prop where
  ordered : Postorder.Ordered g.size g.successors 0 d.rpo
  rooted : Dominators.Rooted d.idom d.rpo.length
  exact : Dominators.Exact d.rpo.length (preds g d.rpo) d.idom

/-- Every graph has a tree. -/
theorem new_spec (hok : g.Ok) : ∃ d, new g = some d ∧ d.Tree g := by
  obtain ⟨post, hpost, hord⟩ := Postorder.postorder_spec hok.nonempty
    fun v _ w hw => (hok.target v w hw).2
  have hpostorder : g.postorder = some post := by
    rw [Cfg.postorder, if_neg (by have := hok.nonempty; omega)]
    exact hpost
  generalize hrpo : post.reverse = rpo at hord
  have hfirst : rpo[0]? = some 0 := by
    rw [← List.head?_eq_getElem?]
    exact hord.first
  have hlen : 0 < rpo.length := (List.getElem?_eq_some_iff.mp hfirst).1
  -- every position but the first has an edge from a smaller one
  have hparent : ∀ r, 0 < r → r < rpo.length → ∃ p ∈ preds g rpo r, p < r := by
    intro r hpos hr
    have hmem : rpo[r] ∈ rpo := List.getElem_mem hr
    have hidx : rpo.idxOf rpo[r] = r := hord.nodup.idxOf_getElem r hr
    rcases hord.parent _ hmem with hstart | ⟨u, hforward⟩
    · rw [hstart, hord.idxOf_start] at hidx
      omega
    · have hlt := Postorder.idxOf_lt hord.nodup hforward.2
      rw [hidx] at hlt
      refine ⟨rpo.idxOf u, ?_, hlt⟩
      rw [preds, List.mem_filter]
      refine ⟨List.mem_map_of_mem ?_, decide_eq_true (by omega)⟩
      rw [List.getD_eq_getElem?_getD, List.getElem?_eq_getElem hr]
      exact Cfg.mem_predecessors.mpr hforward.1
  obtain ⟨idom, hidoms, hrooted, hexact⟩ := Dominators.idoms_spec hlen hparent fun r _ p hp =>
    of_decide_eq_true (List.mem_filter.mp hp).2
  refine ⟨⟨rpo, idom⟩, ?_, hord, hrooted, hexact⟩
  rw [new, hpostorder, Option.bind_some, hrpo, hidoms]
  rfl

variable (h : d.Tree g)

include h

theorem Tree.idxOf_zero : d.rpo.idxOf 0 = 0 := h.ordered.idxOf_start

theorem Tree.zero_mem : 0 ∈ d.rpo := by
  have hfirst := h.ordered.first
  rw [List.head?_eq_getElem?] at hfirst
  exact List.mem_of_getElem? hfirst

theorem Tree.immediateDominator_zero : d.immediateDominator 0 = none := by
  rw [immediateDominator, if_pos h.idxOf_zero]

/-- A block's immediate dominator is the entry of its position. -/
theorem Tree.immediateDominator_iff (hx : x ∈ d.rpo) : d.immediateDominator x = some y ↔
    y ∈ d.rpo ∧ Dominators.Up d.idom (d.rpo.idxOf x) (d.rpo.idxOf y) := by
  have hlt := List.idxOf_lt_length_of_mem hx
  rw [immediateDominator]
  by_cases h0 : d.rpo.idxOf x = 0
  · rw [if_pos h0]
    refine iff_of_false (by simp) fun hup => ?_
    have := hup.2.1
    omega
  rw [if_neg h0, if_pos hlt]
  constructor
  · intro heq
    obtain ⟨p, hp, hget⟩ := Option.bind_eq_some_iff.mp heq
    obtain ⟨hy, hidx⟩ := h.ordered.idxOf_iff.mp hget
    exact ⟨hy, by omega, by rw [hidx]; exact hp⟩
  · rintro ⟨hy, hup⟩
    rw [hup.2, Option.bind_some]
    exact h.ordered.idxOf_iff.mpr ⟨hy, rfl⟩

/-- The way up the tree is the way to the start between the positions. -/
theorem Tree.above_iff (hx : x ∈ d.rpo) : d.Above x y ↔
    y ∈ d.rpo ∧ Dominators.Chain d.idom (d.rpo.idxOf x) (d.rpo.idxOf y) := by
  constructor
  · intro habove
    induction habove with
    | refl => exact ⟨hx, ReflTransGen.refl⟩
    | tail _ hstep ih =>
      obtain ⟨hz, hup⟩ := (h.immediateDominator_iff ih.1).mp hstep
      exact ⟨hz, ih.2.tail hup⟩
  · rintro ⟨hy, hchain⟩
    generalize hr : d.rpo.idxOf x = r at hchain
    induction hchain using ReflTransGen.head_induction_on generalizing x with
    | refl => rw [(List.idxOf_inj hx).mp hr]; exact ReflTransGen.refl
    | @head r s hup _ ih =>
      have hs : s < d.rpo.length := by
        have := h.rooted.up_lt hup
        have := List.idxOf_lt_length_of_mem hx
        omega
      have hget : d.rpo[s]? = some d.rpo[s] := List.getElem?_eq_getElem hs
      obtain ⟨hmem, hidx⟩ := h.ordered.idxOf_iff.mp hget
      refine ReflTransGen.head ((h.immediateDominator_iff hx).mpr ⟨hmem, ?_⟩) (ih hmem hidx)
      rw [hr, hidx]
      exact hup

theorem Tree.above_mem (hx : x ∈ d.rpo) (habove : d.Above x y) : y ∈ d.rpo :=
  ((h.above_iff hx).mp habove).1

theorem Tree.above_le (hx : x ∈ d.rpo) (habove : d.Above x y) : d.rpo.idxOf y ≤ d.rpo.idxOf x :=
  h.rooted.chain_le ((h.above_iff hx).mp habove).2

theorem Tree.immediateDominator_lt (hx : x ∈ d.rpo) (hdom : d.immediateDominator x = some y) :
    d.rpo.idxOf y < d.rpo.idxOf x :=
  h.rooted.up_lt ((h.immediateDominator_iff hx).mp hdom).2

/-- Every block but the entry has an immediate dominator. -/
theorem Tree.immediateDominator_pos (hx : x ∈ d.rpo) (hne : x ≠ 0) :
    ∃ y ∈ d.rpo, d.immediateDominator x = some y := by
  have hpos : 0 < d.rpo.idxOf x := by
    by_contra h0
    exact hne ((List.idxOf_inj hx).mp (by rw [h.idxOf_zero]; omega))
  obtain ⟨p, hp, hlt⟩ := h.rooted.below _ hpos (List.idxOf_lt_length_of_mem hx)
  have hplt : p < d.rpo.length := hlt.trans (List.idxOf_lt_length_of_mem hx)
  obtain ⟨hmem, hidx⟩ := h.ordered.idxOf_iff.mp (List.getElem?_eq_getElem hplt)
  exact ⟨d.rpo[p], hmem, (h.immediateDominator_iff hx).mpr ⟨hmem, hpos, by rw [hidx]; exact hp⟩⟩

/-- The predecessors of a position are those of its block. -/
theorem Tree.mem_preds (hx : x ∈ d.rpo) : d.rpo.idxOf p ∈ preds g d.rpo (d.rpo.idxOf x) ∧ p ∈ d.rpo ↔
    p ∈ g.predecessors x ∧ p ∈ d.rpo := by
  have hget : d.rpo.getD (d.rpo.idxOf x) 0 = x := by
    rw [List.getD_eq_getElem?_getD, h.ordered.idxOf_iff.mpr ⟨hx, rfl⟩]
    rfl
  rw [preds, hget, List.mem_filter, List.mem_map]
  constructor
  · rintro ⟨⟨⟨q, hq, heq⟩, -⟩, hp⟩
    rw [(List.idxOf_inj hp).mp heq.symm]
    exact ⟨hq, (List.idxOf_inj hp).mp heq.symm ▸ hp⟩
  · rintro ⟨hp, hmem⟩
    exact ⟨⟨⟨p, hp, rfl⟩, decide_eq_true (List.idxOf_lt_length_of_mem hmem)⟩, hmem⟩

/-- What dominates a block and is not it dominates where the block is come to from. -/
theorem Tree.above_pred (hx : x ∈ d.rpo) (ha : d.Above x a) (hne : a ≠ x)
    (hp : p ∈ g.predecessors x) (hpmem : p ∈ d.rpo) : d.Above p a := by
  obtain ⟨hamem, hchain⟩ := (h.above_iff hx).mp ha
  refine (h.above_iff hpmem).mpr ⟨hamem, ?_⟩
  have hdom := (h.exact _ (List.idxOf_lt_length_of_mem hx) _).mp hchain
  have hneidx : d.rpo.idxOf x ≠ d.rpo.idxOf a := fun heq => hne ((List.idxOf_inj hx).mp heq).symm
  exact (h.exact _ (List.idxOf_lt_length_of_mem hpmem) _).mpr
    (Dominators.dominates_pred hdom hneidx ((h.mem_preds hx).mpr ⟨hp, hpmem⟩).1)

/-- What dominates everywhere a block is come to from dominates the block. -/
theorem Tree.above_of_preds (hx : x ∈ d.rpo) (hamem : a ∈ d.rpo) (hne : x ≠ 0)
    (hall : ∀ p ∈ g.predecessors x, p ∈ d.rpo → d.Above p a) : d.Above x a := by
  refine (h.above_iff hx).mpr ⟨hamem, (h.exact _ (List.idxOf_lt_length_of_mem hx) _).mpr fun haround => ?_⟩
  obtain ⟨hstart, hway⟩ := haround
  rcases ReflTransGen.cases_tail hway with heq | ⟨r, hway, hedge⟩
  · rw [← h.idxOf_zero] at heq
    exact hne ((List.idxOf_inj hx).mp heq)
  · -- the last node before the block is one of its predecessors
    have hr : r < d.rpo.length := of_decide_eq_true (List.mem_filter.mp hedge.1).2
    obtain ⟨hmem, hidx⟩ := h.ordered.idxOf_iff.mp (List.getElem?_eq_getElem hr)
    have hp := ((h.mem_preds hx).mp ⟨by rw [hidx]; exact hedge.1, hmem⟩).1
    have hchain := ((h.above_iff hmem).mp (hall _ hp hmem)).2
    rw [hidx] at hchain
    exact (h.exact r hr _).mp hchain ⟨hstart, hway⟩

/-- A block other than the entry is come to from one before it. -/
theorem Tree.exists_pred (hx : x ∈ d.rpo) (hne : x ≠ 0) :
    ∃ p ∈ g.predecessors x, p ∈ d.rpo ∧ d.rpo.idxOf p < d.rpo.idxOf x := by
  obtain ⟨u, hforward⟩ := (h.ordered.parent x hx).resolve_left hne
  refine ⟨u, Cfg.mem_predecessors.mpr hforward.1, hforward.2.subset (List.mem_cons_self), ?_⟩
  exact Postorder.idxOf_lt h.ordered.nodup hforward.2

end Doms

end Rucc.Opt
