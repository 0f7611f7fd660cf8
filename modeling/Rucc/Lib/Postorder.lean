import Mathlib.Data.List.Basic
import Mathlib.Logic.Function.Basic
import Mathlib.Logic.Relation
import Rucc.Lib.Explore

/-!
# Reverse postorder

A depth first walk from a node with a stack of its own, which lists each node when all its edges have
been followed. In the reverse of that list every node but the first has an edge from a node before
it, and an edge that goes back goes to a node with a way forward to where the edge is from.
-/

namespace Rucc.Postorder

open Relation Explore

variable {succ : ℕ → List ℕ} {u v : ℕ}

/-- A walk under way: the nodes seen, the nodes it is at with how many edges of each it has followed
(the last one first), and the nodes it has left. -/
structure Walk where
  seen : ℕ → Bool
  stack : List (ℕ × ℕ)
  post : List ℕ

namespace Walk

/-- One edge of the node the walk is at, or its end. -/
def step (succ : ℕ → List ℕ) (s : Walk) (v i : ℕ) (rest : List (ℕ × ℕ)) : Walk :=
  match (succ v)[i]? with
  | some w =>
    if s.seen w then { s with stack := (v, i + 1) :: rest }
    else { s with seen := Function.update s.seen w true, stack := (w, 0) :: (v, i + 1) :: rest }
  | none => { s with post := s.post ++ [v], stack := rest }

/-- Steps until the walk is nowhere. -/
def run (succ : ℕ → List ℕ) : ℕ → Walk → Option Walk
  | 0, s => if s.stack = [] then some s else none
  | rounds + 1, s =>
    match s.stack with
    | [] => some s
    | (v, i) :: rest => run succ rounds (s.step succ v i rest)

/-- The walk before its first step. -/
def begin (start : ℕ) : Walk := ⟨Function.update (fun _ => false) start true, [(start, 0)], []⟩

end Walk

/-- The nodes that a node leads to, each after all its edges have been followed. -/
def postorder (n : ℕ) (succ : ℕ → List ℕ) (start : ℕ) : Option (List ℕ) :=
  ((Walk.begin start).run succ (rounds n succ)).map Walk.post

/-- An edge that goes forward in a list. -/
def Forward (succ : ℕ → List ℕ) (order : List ℕ) (u v : ℕ) : Prop := v ∈ succ u ∧ [u, v].Sublist order

theorem Forward.mono {succ : ℕ → List ℕ} {order order' : List ℕ} (hsub : order.Sublist order')
    {u v : ℕ} (h : Forward succ order u v) : Forward succ order' u v := ⟨h.1, h.2.trans hsub⟩

theorem forward_mono {order order' : List ℕ} (hsub : order.Sublist order')
    (h : ReflTransGen (Forward succ order) u v) : ReflTransGen (Forward succ order') u v :=
  ReflTransGen.mono (fun _ _ hab => hab.mono hsub) _ _ h

namespace Walk

variable {v i w : ℕ} {rest : List (ℕ × ℕ)}

/-- The nodes seen, in the order in which they will be listed in the end. -/
def seq (s : Walk) : List ℕ := (s.stack.map Prod.fst).reverse ++ s.post.reverse

/-- What holds between two steps. -/
structure Good (n : ℕ) (succ : ℕ → List ℕ) (start : ℕ) (s : Walk) : Prop where
  seen : ∀ v, s.seen v = true ↔ v ∈ s.seq
  nodup : s.seq.Nodup
  lt : ∀ v ∈ s.seq, v < n
  first : s.seq.head? = some start
  parent : ∀ v ∈ s.seq, v = start ∨ ∃ u, Forward succ s.seq u v
  /-- A node the walk is at leads forward to the ones it came to later. -/
  chain : (s.stack.map Prod.fst).Pairwise fun b a => ReflTransGen (Forward succ s.seq) a b
  /-- An edge that has been followed goes forward, or back to a node that leads forward to it. -/
  followed : ∀ v ∈ s.seq, ∀ w, Followed succ s.stack v w → w ∈ s.seq ∧
    ([v, w].Sublist s.seq ∨ ReflTransGen (Forward succ s.seq) w v)

variable {n : ℕ} {succ : ℕ → List ℕ} {start : ℕ} {s : Walk}

theorem Good.stack_nodup (h : s.Good n succ start) : (s.stack.map Prod.fst).Nodup :=
  List.nodup_reverse.mp (List.nodup_append.mp h.nodup).1

theorem good_begin (hstart : start < n) : (begin start).Good n succ start := by
  have hseq : (begin start).seq = [start] := rfl
  constructor
  case seen =>
    intro v
    rw [hseq, List.mem_singleton]
    by_cases heq : v = start
    · simp [begin, heq]
    · simp [begin, heq]
  case nodup => rw [hseq]; exact List.nodup_singleton start
  case lt =>
    intro v hv
    rw [hseq, List.mem_singleton] at hv
    rw [hv]
    exact hstart
  case first => rw [hseq]; rfl
  case parent =>
    intro v hv
    rw [hseq, List.mem_singleton] at hv
    exact Or.inl hv
  case chain => exact List.pairwise_singleton _ _
  case followed =>
    intro v hv w hf
    rw [hseq, List.mem_singleton] at hv
    have := hf.2 0 (by rw [hv]; exact List.mem_cons_self)
    rw [List.take_zero] at this
    exact absurd this (List.not_mem_nil)

/-- Leaving a node whose edges have all been followed. -/
theorem Good.leave (h : s.Good n succ start) {v i : ℕ} {rest : List (ℕ × ℕ)}
    (hstack : s.stack = (v, i) :: rest) (hend : (succ v)[i]? = none) :
    ({ s with post := s.post ++ [v], stack := rest } : Walk).Good n succ start := by
  have hseq : ({ s with post := s.post ++ [v], stack := rest } : Walk).seq = s.seq := by
    simp [seq, hstack]
  have hnodup := h.stack_nodup
  have hchain := h.chain
  rw [hstack] at hnodup hchain
  constructor
  case seen => rw [hseq]; exact h.seen
  case nodup => rw [hseq]; exact h.nodup
  case lt => rw [hseq]; exact h.lt
  case first => rw [hseq]; exact h.first
  case parent => rw [hseq]; exact h.parent
  case chain => rw [hseq]; exact (List.pairwise_cons.mp hchain).2
  case followed =>
    rw [hseq]
    intro x hx w hf
    refine h.followed x hx w ?_
    rw [hstack]
    exact followed_leave hend hnodup hf

/-- Following an edge to a node that has been seen. -/
theorem Good.follow (h : s.Good n succ start)
    (hstack : s.stack = (v, i) :: rest) (hedge : (succ v)[i]? = some w) (hseen : s.seen w = true) :
    ({ s with stack := (v, i + 1) :: rest } : Walk).Good n succ start := by
  have hseq : ({ s with stack := (v, i + 1) :: rest } : Walk).seq = s.seq := by
    simp [seq, hstack]
  have hnodup := h.stack_nodup
  have hchain := h.chain
  rw [hstack] at hnodup hchain
  have hw := (h.seen w).mp hseen
  constructor
  case seen => rw [hseq]; exact h.seen
  case nodup => rw [hseq]; exact h.nodup
  case lt => rw [hseq]; exact h.lt
  case first => rw [hseq]; exact h.first
  case parent => rw [hseq]; exact h.parent
  case chain => rw [hseq]; exact hchain
  case followed =>
    rw [hseq]
    intro x hx y hf
    rcases @followed_advance succ [] rest v i w hedge hnodup x y hf with hf | ⟨rfl, rfl⟩
    · rw [List.nil_append, ← hstack] at hf
      exact h.followed x hx y hf
    · refine ⟨hw, ?_⟩
      -- a node listed already comes after it, a node of the stack leads to it
      rw [seq, List.mem_append, List.mem_reverse, List.mem_reverse, hstack, List.map_cons,
        List.mem_cons] at hw
      rcases hw with (rfl | hw) | hw
      · exact Or.inr ReflTransGen.refl
      · exact Or.inr ((List.pairwise_cons.mp hchain).1 y hw)
      · refine Or.inl ?_
        have hfront : [x].Sublist (s.stack.map Prod.fst).reverse := by
          rw [List.singleton_sublist, hstack]
          simp
        have hback : [y].Sublist s.post.reverse := by
          rw [List.singleton_sublist, List.mem_reverse]
          exact hw
        exact hfront.append hback

/-- Following an edge to a node that has not been seen. -/
theorem Good.visit (h : s.Good n succ start)
    (hstack : s.stack = (v, i) :: rest) (hedge : (succ v)[i]? = some w) (hnew : s.seen w = false)
    (hw : w < n) :
    ({ s with seen := Function.update s.seen w true, stack := (w, 0) :: (v, i + 1) :: rest } : Walk).Good
      n succ start := by
  generalize hs' : ({ s with seen := Function.update s.seen w true,
                             stack := (w, 0) :: (v, i + 1) :: rest } : Walk) = s'
  have hfront : s.seq = ((rest.map Prod.fst).reverse ++ [v]) ++ s.post.reverse := by simp [seq, hstack]
  have hfront' : s'.seq = (((rest.map Prod.fst).reverse ++ [v]) ++ [w]) ++ s.post.reverse := by
    rw [← hs']
    simp [seq]
  have hsub : s.seq.Sublist s'.seq := by
    rw [hfront, hfront']
    exact List.Sublist.append (List.sublist_append_left _ _) (List.Sublist.refl _)
  have hmem : ∀ x, x ∈ s'.seq ↔ x = w ∨ x ∈ s.seq := by
    intro x
    rw [hfront, hfront']
    simp only [List.mem_append, List.mem_singleton]
    tauto
  have hnot : w ∉ s.seq := fun hmem => by
    rw [(h.seen w).mpr hmem] at hnew
    exact absurd hnew (by simp)
  have hvw : Forward succ s'.seq v w := by
    refine ⟨List.mem_of_getElem? hedge, ?_⟩
    rw [hfront', List.append_assoc _ [v] [w], List.append_assoc]
    exact (List.sublist_append_left [v, w] _).trans (List.sublist_append_right _ _)
  have hnodup := h.stack_nodup
  have hchain := h.chain
  rw [hstack] at hnodup hchain
  have hchainv := List.pairwise_cons.mp hchain
  constructor
  case seen =>
    intro x
    rw [hmem, ← hs']
    by_cases heq : x = w
    · simp [heq]
    · simp [heq, h.seen]
  case nodup =>
    have hperm : s'.seq.Perm (w :: s.seq) := by
      rw [hfront, hfront', List.append_assoc _ [w]]
      exact List.perm_middle
    exact hperm.nodup_iff.mpr (List.nodup_cons.mpr ⟨hnot, h.nodup⟩)
  case lt =>
    intro x hx
    rcases (hmem x).mp hx with rfl | hx
    · exact hw
    · exact h.lt x hx
  case first =>
    have hfirst := h.first
    rw [hfront] at hfirst
    rw [hfront']
    cases hrest : (rest.map Prod.fst).reverse with
    | nil => rw [hrest] at hfirst; exact hfirst
    | cons a l => rw [hrest] at hfirst; exact hfirst
  case parent =>
    intro x hx
    rcases (hmem x).mp hx with rfl | hx
    · exact Or.inr ⟨v, hvw⟩
    · exact (h.parent x hx).imp_right fun ⟨u, hu⟩ => ⟨u, hu.mono hsub⟩
  case chain =>
    rw [← hs']
    refine List.pairwise_cons.mpr ⟨fun a ha => ?_, ?_⟩
    · rw [hs']
      refine ReflTransGen.tail ?_ hvw
      rcases List.mem_cons.mp ha with rfl | ha
      · exact ReflTransGen.refl
      · exact forward_mono hsub (hchainv.1 a ha)
    · rw [hs']
      exact hchain.imp fun {a b} hab => forward_mono hsub hab
  case followed =>
    intro x hx y hf
    rw [← hs'] at hf
    have hxw : x ≠ w := by
      intro heq
      have := hf.2 0 (by rw [heq]; exact List.mem_cons_self)
      rw [List.take_zero] at this
      exact List.not_mem_nil this
    have hx := ((hmem x).mp hx).resolve_left hxw
    have hf : Followed succ ((v, i + 1) :: rest) x y := ⟨hf.1, fun j hj => hf.2 j (List.mem_cons_of_mem _ hj)⟩
    rcases @followed_advance succ [] rest v i w hedge hnodup x y hf with hf | ⟨rfl, rfl⟩
    · rw [List.nil_append, ← hstack] at hf
      obtain ⟨hy, hback⟩ := h.followed x hx y hf
      exact ⟨hsub.subset hy, hback.imp (fun hlt => hlt.trans hsub) fun hreach => forward_mono hsub hreach⟩
    · exact ⟨(hmem y).mpr (Or.inl rfl), Or.inl hvw.2⟩

/-- What a walk has left to do. -/
def left (n : ℕ) (succ : ℕ → List ℕ) (s : Walk) : ℕ := todo n succ s.seen s.stack

/-- A step keeps what holds and leaves less to do. -/
theorem Good.step (h : s.Good n succ start) (hsucc : ∀ v < n, ∀ w ∈ succ v, w < n) {v i : ℕ}
    {rest : List (ℕ × ℕ)} (hstack : s.stack = (v, i) :: rest) :
    (s.step succ v i rest).Good n succ start ∧ (s.step succ v i rest).left n succ < s.left n succ := by
  have hv : v ∈ s.seq := by simp [seq, hstack]
  rw [Walk.step]
  cases hedge : (succ v)[i]? with
  | none =>
    refine ⟨h.leave hstack hedge, ?_⟩
    simp only [left]
    rw [hstack]
    exact todo_leave v i
  | some w =>
    have hlt : i < (succ v).length := (List.getElem?_eq_some_iff.mp hedge).1
    have hw : w < n := hsucc v (h.lt v hv) w (List.mem_of_getElem? hedge)
    cases hseen : s.seen w with
    | true =>
      dsimp only
      refine ⟨?_, ?_⟩
      · rw [if_pos hseen]
        exact h.follow hstack hedge hseen
      · rw [if_pos hseen]
        simp only [left]
        rw [hstack]
        exact todo_follow hlt
    | false =>
      dsimp only
      refine ⟨?_, ?_⟩
      · rw [if_neg (by simp [hseen])]
        exact h.visit hstack hedge hseen hw
      · rw [if_neg (by simp [hseen])]
        simp only [left]
        rw [hstack, todo_visit hw hseen]
        exact todo_follow hlt

/-- A walk that has time for what is left of it ends. -/
theorem Good.run (hsucc : ∀ v < n, ∀ w ∈ succ v, w < n) (rounds : ℕ) : ∀ s : Walk,
    s.Good n succ start → s.left n succ ≤ rounds →
    ∃ s', s.run succ rounds = some s' ∧ s'.Good n succ start ∧ s'.stack = [] := by
  induction rounds with
  | zero =>
    intro s h hleft
    have hstack : s.stack = [] := work_nil (Nat.le_zero.mp hleft)
    exact ⟨s, by rw [Walk.run, if_pos hstack], h, hstack⟩
  | succ rounds ih =>
    intro s h hleft
    rw [Walk.run]
    cases hstack : s.stack with
    | nil => exact ⟨s, rfl, h, hstack⟩
    | cons p rest =>
      obtain ⟨v, i⟩ := p
      obtain ⟨hgood, hless⟩ := h.step hsucc hstack
      exact ih _ hgood (by omega)

end Walk

/-- A list of the nodes that a node leads to in which every other one has an edge from one before it,
and an edge back goes to a node with a way forward to where the edge is from. -/
structure Ordered (n : ℕ) (succ : ℕ → List ℕ) (start : ℕ) (order : List ℕ) : Prop where
  nodup : order.Nodup
  lt : ∀ v ∈ order, v < n
  first : order.head? = some start
  closed : ∀ v ∈ order, ∀ w ∈ succ v, w ∈ order
  parent : ∀ v ∈ order, v = start ∨ ∃ u, Forward succ order u v
  back : ∀ v ∈ order, ∀ w ∈ succ v, [v, w].Sublist order ∨ ReflTransGen (Forward succ order) w v

/-- A node before another one in a list has the smaller position. -/
theorem idxOf_lt {l : List ℕ} (hnodup : l.Nodup) (hsub : [u, v].Sublist l) : l.idxOf u < l.idxOf v := by
  obtain ⟨front, back, rfl, hu, hv⟩ := List.cons_sublist_iff.mp hsub
  have hv := List.singleton_sublist.mp hv
  have hnot : v ∉ front := fun hmem => (List.nodup_append.mp hnodup).2.2 v hmem v hv rfl
  rw [List.idxOf_append_of_mem hu, List.idxOf_append_of_notMem hnot]
  have := List.idxOf_lt_length_of_mem hu
  omega

section

variable {n : ℕ} {succ : ℕ → List ℕ} {start : ℕ} {order : List ℕ} (hord : Ordered n succ start order)

variable {v : ℕ}

include hord

/-- A position and its node. -/
theorem Ordered.idxOf_iff {s u : ℕ} : order[s]? = some u ↔ u ∈ order ∧ order.idxOf u = s := by
  constructor
  · intro hs
    obtain ⟨hlt, rfl⟩ := List.getElem?_eq_some_iff.mp hs
    exact ⟨List.getElem_mem hlt, hord.nodup.idxOf_getElem s hlt⟩
  · rintro ⟨hu, rfl⟩
    have hlt := List.idxOf_lt_length_of_mem hu
    rw [List.getElem?_eq_getElem hlt, List.getElem_idxOf hlt]

theorem Ordered.idxOf_start : order.idxOf start = 0 := by
  have hfirst := hord.first
  rw [List.head?_eq_getElem?] at hfirst
  exact (hord.idxOf_iff.mp hfirst).2

theorem Ordered.start_mem : start ∈ order := List.mem_of_head? hord.first

/-- The first node leads forward to every one. -/
theorem Ordered.forward (hv : v ∈ order) : ReflTransGen (Forward succ order) start v := by
  generalize hk : order.idxOf v = k
  induction k using Nat.strong_induction_on generalizing v with
  | _ k ih =>
    rcases hord.parent v hv with rfl | ⟨u, hforward⟩
    · exact ReflTransGen.refl
    · have hu : u ∈ order := hforward.2.subset List.mem_cons_self
      have hlt := idxOf_lt hord.nodup hforward.2
      exact (ih _ (by omega) hu rfl).tail hforward

/-- The nodes of the list are the ones that the first one leads to. -/
theorem Ordered.mem_iff : v ∈ order ↔ ReflTransGen (fun u v => v ∈ succ u) start v := by
  refine ⟨fun hv => ReflTransGen.mono (fun _ _ hstep => hstep.1) _ _ (hord.forward hv), fun hreach => ?_⟩
  induction hreach with
  | refl => exact hord.start_mem
  | tail _ hstep ih => exact hord.closed _ ih _ hstep

end

/-- The walk ends, and what it lists is in such an order when it is reversed. -/
theorem postorder_spec {n : ℕ} {start : ℕ} (hstart : start < n) (hsucc : ∀ v < n, ∀ w ∈ succ v, w < n) :
    ∃ post, postorder n succ start = some post ∧ Ordered n succ start post.reverse := by
  have hleft : (Walk.begin start).left n succ ≤ rounds n succ := by
    have hvisit : (Walk.begin start).left n succ = todo n succ (fun _ => false) [] :=
      todo_visit hstart rfl
    rw [hvisit]
    exact todo_nil_le
  obtain ⟨s, hrun, h, hstack⟩ := Walk.Good.run hsucc _ _ (Walk.good_begin hstart) hleft
  have hseq : s.seq = s.post.reverse := by simp [Walk.seq, hstack]
  have hfollowed : ∀ v ∈ s.seq, ∀ w ∈ succ v, w ∈ s.seq ∧
      ([v, w].Sublist s.seq ∨ ReflTransGen (Forward succ s.seq) w v) := by
    intro v hv w hw
    refine h.followed v hv w ⟨hw, fun i hi => ?_⟩
    rw [hstack] at hi
    exact absurd hi (List.not_mem_nil)
  refine ⟨s.post, by rw [postorder, hrun]; rfl, ?_⟩
  rw [← hseq]
  exact ⟨h.nodup, h.lt, h.first, fun v hv w hw => (hfollowed v hv w hw).1, h.parent,
    fun v hv w hw => (hfollowed v hv w hw).2⟩

end Rucc.Postorder
