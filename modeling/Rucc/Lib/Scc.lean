import Mathlib.Data.List.Basic
import Mathlib.Logic.Function.Basic
import Mathlib.Logic.Relation
import Rucc.Lib.Explore

/-!
# Strongly connected components

Tarjan's method over a region of a graph, with the stack of calls kept explicitly as the nodes being
worked on and how many edges of each have been followed. What is proved of it is that the lists it
gives are the strongly connected components of the region.
-/

namespace Rucc.Scc

open Relation Explore

/-- Two members of a list are the same or stand in the relation of its pairs. -/
theorem pairwise_cases {α : Type*} {r : α → α → Prop} {l : List α} (h : l.Pairwise r) {a b : α}
    (ha : a ∈ l) (hb : b ∈ l) : a = b ∨ r a b ∨ r b a := by
  induction h with
  | nil => exact absurd ha (List.not_mem_nil)
  | cons hrel _ ih =>
    rcases List.mem_cons.mp ha with hax | ha
    · rcases List.mem_cons.mp hb with hbx | hb
      · exact Or.inl (hax.trans hbx.symm)
      · exact Or.inr (Or.inl (hax ▸ hrel b hb))
    · rcases List.mem_cons.mp hb with hbx | hb
      · exact Or.inr (Or.inr (hbx ▸ hrel a ha))
      · exact ih ha hb

/-- A walk under way: the number of each node seen, the least number each is known to lead back to,
the nodes seen and not yet in a component (the last one first), the components found, the next
number, and the nodes being worked on (the last one first). -/
structure Walk where
  index : ℕ → Option ℕ
  low : ℕ → ℕ
  onStack : ℕ → Bool
  stack : List ℕ
  out : List (List ℕ)
  next : ℕ
  work : List (ℕ × ℕ)

namespace Walk

/-- A node seen for the first time. -/
def visit (s : Walk) (v : ℕ) : Walk :=
  { s with index := Function.update s.index v (some s.next),
           low := Function.update s.low v s.next,
           onStack := Function.update s.onStack v true,
           stack := v :: s.stack,
           next := s.next + 1,
           work := (v, 0) :: s.work }

/-- A node known to lead back to a number. -/
def lower (s : Walk) (v n : ℕ) : Walk := { s with low := Function.update s.low v (min (s.low v) n) }

/-- The nodes down to one, which are taken off the stack, and those that stay. -/
def popTo (v : ℕ) : List ℕ → Option (List ℕ × List ℕ)
  | [] => none
  | w :: stack =>
    if w = v then some ([w], stack)
    else (popTo v stack).map fun r => (w :: r.1, r.2)

/-- A component taken off the stack. -/
def pop (s : Walk) (v : ℕ) : Option Walk :=
  (popTo v s.stack).map fun r =>
    { s with onStack := fun w => if w ∈ r.1 then false else s.onStack w,
             stack := r.2,
             out := s.out ++ [r.1] }

/-- A node all of whose edges have been followed. -/
def leave (s : Walk) (v : ℕ) (rest : List (ℕ × ℕ)) : Option Walk :=
  let s : Walk := { s with work := rest }
  let s : Walk := match rest with
    | (parent, _) :: _ => s.lower parent (s.low v)
    | [] => s
  if s.index v = some (s.low v) then s.pop v else some s

/-- One edge of the node being worked on, or its end. -/
def step (succ : ℕ → List ℕ) (region : ℕ → Bool) (s : Walk) (v i : ℕ) (rest : List (ℕ × ℕ)) :
    Option Walk :=
  match (succ v)[i]? with
  | some w =>
    let s := { s with work := (v, i + 1) :: rest }
    if region w = false then some s
    else match s.index w with
      | none => some (s.visit w)
      | some n => some (if s.onStack w then s.lower v n else s)
  | none => s.leave v rest

/-- Steps until nothing is worked on. -/
def run (succ : ℕ → List ℕ) (region : ℕ → Bool) : ℕ → Walk → Option Walk
  | 0, s => if s.work = [] then some s else none
  | rounds + 1, s =>
    match s.work with
    | [] => some s
    | (v, i) :: rest => (s.step succ region v i rest).bind (run succ region rounds)

end Walk

/-- One root of the walk. -/
def root (n : ℕ) (succ : ℕ → List ℕ) (region : ℕ → Bool) (s : Walk) (v : ℕ) : Option Walk :=
  if region v = true ∧ s.index v = none then (s.visit v).run succ region (rounds n succ) else some s

/-- The strongly connected components of the nodes below a bound that are in the region. -/
def components (n : ℕ) (succ : ℕ → List ℕ) (region : ℕ → Bool) : Option (List (List ℕ)) :=
  ((List.range n).foldlM (root n succ region)
    ⟨fun _ => none, fun _ => 0, fun _ => false, [], [], 0, []⟩).map Walk.out

/-! ## What holds between two steps -/

section

variable (n : ℕ) (succ : ℕ → List ℕ) (region : ℕ → Bool)

/-- An edge between two nodes of the region. -/
def Edge (u v : ℕ) : Prop := region u = true ∧ v ∈ succ u ∧ region v = true

/-- A way within the region. -/
def Reach : ℕ → ℕ → Prop := ReflTransGen (Edge succ region)

end

namespace Walk

/-- The number of a node. -/
def num (s : Walk) (v : ℕ) : ℕ := (s.index v).getD 0

/-- A node being worked on. -/
def Working (s : Walk) (v : ℕ) : Prop := v ∈ s.work.map Prod.fst

/-- A node in a component found. -/
def Done (s : Walk) (v : ℕ) : Prop := ∃ c ∈ s.out, v ∈ c

/-- What holds between two steps. -/
structure Good (n : ℕ) (succ : ℕ → List ℕ) (region : ℕ → Bool) (s : Walk) : Prop where
  seen : ∀ v, s.index v ≠ none ↔ v ∈ s.stack ∨ s.Done v
  inside : ∀ v, v ∈ s.stack ∨ s.Done v → v < n ∧ region v = true
  apart : ∀ v ∈ s.stack, ¬ s.Done v
  lt : ∀ v ∈ s.stack, s.num v < s.next
  sorted : s.stack.Pairwise (fun a b => s.num b < s.num a)
  onStack : ∀ v, s.onStack v = true ↔ v ∈ s.stack
  working : (s.work.map Prod.fst).Sublist s.stack
  /-- What is worked on leads to everything seen since. -/
  down : ∀ u, s.Working u → ∀ x ∈ s.stack, s.num u ≤ s.num x → Reach succ region u x
  /-- Everything on the stack leads back to something worked on. -/
  up : ∀ x ∈ s.stack, ∃ u, s.Working u ∧ s.num u ≤ s.num x ∧ Reach succ region x u
  /-- What an edge that has been followed leads to has been seen. -/
  followed : ∀ x ∈ s.stack, ∀ w, region w = true → Followed succ s.work x w → s.index w ≠ none
  /-- The least number of a node counts the edges of everything seen since, down to the next node
  worked on. -/
  low_le : ∀ x ∈ s.stack, ∀ w ∈ s.stack, Followed succ s.work x w → ∀ u, s.Working u →
    s.num u ≤ s.num x → (∀ u', s.Working u' → s.num u' ≤ s.num x → s.num u' ≤ s.num u) →
    s.low u ≤ s.num w
  low_reach : ∀ u, s.Working u → s.low u ≤ s.num u ∧
    ∃ y ∈ s.stack, s.num y = s.low u ∧ Reach succ region u y
  /-- Nothing leads out of the components found but into them. -/
  closed : ∀ v, s.Done v → ∀ w, Edge succ region v w → s.Done w
  connected : ∀ c ∈ s.out, ∀ u ∈ c, ∀ v ∈ c, Reach succ region u v
  whole : ∀ c ∈ s.out, ∀ u ∈ c, ∀ v, Reach succ region u v → Reach succ region v u → v ∈ c
  disjoint : s.out.Pairwise (fun c c' => ∀ v ∈ c, v ∉ c')
  nonempty : ∀ c ∈ s.out, c ≠ []
  nodup : ∀ c ∈ s.out, c.Nodup

section

variable {n : ℕ} {succ : ℕ → List ℕ} {region : ℕ → Bool} {s : Walk}

variable {x y v w u i : ℕ} {rest : List (ℕ × ℕ)}

theorem Good.num_inj (h : s.Good n succ region) (hx : x ∈ s.stack) (hy : y ∈ s.stack)
    (heq : s.num x = s.num y) : x = y := by
  rcases pairwise_cases h.sorted hx hy with hxy | hlt | hlt
  · exact hxy
  · omega
  · omega

/-- Nothing found leads out of what has been found. -/
theorem Good.done_reach (h : s.Good n succ region) (hv : s.Done v) (hreach : Reach succ region v w) : s.Done w := by
  induction hreach with
  | refl => exact hv
  | tail _ hedge ih => exact h.closed _ ih _ hedge

theorem Good.working_mem (h : s.Good n succ region) (hu : s.Working u) : u ∈ s.stack :=
  h.working.subset hu

theorem Good.work_nodup (h : s.Good n succ region) : (s.work.map Prod.fst).Nodup := by
  have hsorted := h.sorted.sublist h.working
  exact hsorted.imp fun {a b} hlt heq => by rw [heq] at hlt; omega

/-- The node worked on last has the greatest number. -/
theorem Good.num_le_top (h : s.Good n succ region)
    (hwork : s.work = (v, i) :: rest) (hu : s.Working u) : s.num u ≤ s.num v := by
  have hsorted := h.sorted.sublist h.working
  rw [hwork, List.map_cons, List.pairwise_cons] at hsorted
  rw [Working, hwork, List.map_cons, List.mem_cons] at hu
  rcases hu with rfl | hu
  · exact le_rfl
  · exact (hsorted.1 u hu).le

/-- What the number of a node is after another is seen for the first time. -/
theorem visit_num (w x : ℕ) (hne : x ≠ w) : (s.visit w).num x = s.num x := by
  simp [num, visit, Function.update_of_ne hne]

theorem visit_num_self (w : ℕ) : (s.visit w).num w = s.next := by
  simp [num, visit]

theorem visit_working (w u : ℕ) : (s.visit w).Working u ↔ u = w ∨ s.Working u := by
  simp [Working, visit]

theorem visit_followed (w x y : ℕ) (hfollowed : Followed succ (s.visit w).work x y) :
    x ≠ w ∧ Followed succ s.work x y := by
  obtain ⟨hmem, hwork⟩ := hfollowed
  have hne : x ≠ w := by
    intro heq
    have := hwork 0 (by rw [heq]; exact List.mem_cons_self)
    rw [List.take_zero] at this
    exact List.not_mem_nil this
  exact ⟨hne, hmem, fun i hi => hwork i (List.mem_cons_of_mem _ hi)⟩

/-- Seeing a node for the first time that everything worked on leads to. -/
theorem Good.visit (h : s.Good n succ region) (hw : w < n) (hregion : region w = true)
    (hnew : s.index w = none) (hreach : ∀ u, s.Working u → Reach succ region u w) :
    (s.visit w).Good n succ region := by
  have hnot : w ∉ s.stack := fun hmem => (h.seen w).mpr (Or.inl hmem) hnew
  have hnotdone : ¬ s.Done w := fun hdone => (h.seen w).mpr (Or.inr hdone) hnew
  have hdone : ∀ v, (s.visit w).Done v ↔ s.Done v := fun _ => Iff.rfl
  have hstack : ∀ v, v ∈ (s.visit w).stack ↔ v = w ∨ v ∈ s.stack := fun v => List.mem_cons
  have hne : ∀ x ∈ s.stack, x ≠ w := fun x hx heq => hnot (heq ▸ hx)
  have hnum : ∀ x ∈ s.stack, (s.visit w).num x = s.num x := fun x hx => visit_num w x (hne x hx)
  have hlt : ∀ u, s.Working u → s.num u < s.next := fun u hu => h.lt u (h.working_mem hu)
  constructor
  case seen =>
    intro v
    rw [hstack, hdone]
    by_cases heq : v = w
    · simp [Walk.visit, heq]
    · have := h.seen v
      simp [Walk.visit, heq, this]
  case inside =>
    intro v hv
    rw [hstack, hdone] at hv
    rcases hv with (rfl | hv) | hv
    · exact ⟨hw, hregion⟩
    · exact h.inside v (Or.inl hv)
    · exact h.inside v (Or.inr hv)
  case apart =>
    intro v hv
    rcases (hstack v).mp hv with rfl | hv
    · exact hnotdone
    · exact h.apart v hv
  case lt =>
    intro v hv
    rcases (hstack v).mp hv with rfl | hv
    · rw [visit_num_self]; exact Nat.lt_succ_self _
    · rw [hnum v hv]; exact Nat.lt_succ_of_lt (h.lt v hv)
  case sorted =>
    refine List.pairwise_cons.mpr ⟨fun b hb => ?_, h.sorted.imp_of_mem fun {a b} ha hb hab => ?_⟩
    · rw [hnum b hb, visit_num_self]
      exact h.lt b hb
    · rw [hnum a ha, hnum b hb]
      exact hab
  case onStack =>
    intro v
    rw [hstack]
    by_cases heq : v = w
    · simp [Walk.visit, heq]
    · have := h.onStack v
      simp [Walk.visit, heq, this]
  case working => exact h.working.cons_cons w
  case down =>
    intro u hu x hmem hle
    rcases (hstack x).mp hmem with rfl | hx
    · rcases (visit_working x u).mp hu with rfl | hu
      · exact ReflTransGen.refl
      · exact hreach u hu
    · rcases (visit_working w u).mp hu with heq | hu
      · rw [heq, visit_num_self, hnum x hx] at hle
        have := h.lt x hx
        omega
      · rw [hnum x hx, hnum u (h.working_mem hu)] at hle
        exact h.down u hu x hx hle
  case up =>
    intro x hx
    rcases (hstack x).mp hx with rfl | hx
    · exact ⟨x, (visit_working x x).mpr (Or.inl rfl), le_rfl, ReflTransGen.refl⟩
    · obtain ⟨u, hu, hle, hux⟩ := h.up x hx
      refine ⟨u, (visit_working w u).mpr (Or.inr hu), ?_, hux⟩
      rw [hnum x hx, hnum u (h.working_mem hu)]
      exact hle
  case followed =>
    intro x hmem y hy hf
    obtain ⟨hxw, hf⟩ := visit_followed w x y hf
    have hx := ((hstack x).mp hmem).resolve_left hxw
    have := h.followed x hx y hy hf
    by_cases heq : y = w
    · simp [Walk.visit, heq]
    · simpa [Walk.visit, Function.update_of_ne heq] using this
  case low_le =>
    intro x hmem y hy hf u hu hle hnear
    obtain ⟨hxw, hf⟩ := visit_followed w x y hf
    have hx := ((hstack x).mp hmem).resolve_left hxw
    -- the new node is not the end of an edge followed before
    have hyw : y ≠ w := by
      intro heq
      exact h.followed x hx y (heq ▸ hregion) hf (heq ▸ hnew)
    have hy := ((hstack y).mp hy).resolve_left hyw
    rw [hnum x hx] at hle hnear
    have hu : s.Working u := by
      rcases (visit_working w u).mp hu with heq | hu
      · rw [heq, visit_num_self] at hle
        have := h.lt x hx
        omega
      · exact hu
    have huw := hne u (h.working_mem hu)
    rw [visit_num w u huw] at hle hnear
    rw [hnum y hy]
    have hlow : (s.visit w).low u = s.low u := by simp [Walk.visit, Function.update_of_ne huw]
    rw [hlow]
    refine h.low_le x hx y hy hf u hu hle fun u' hu' hle' => ?_
    have hnum' := visit_num (s := s) w u' (hne u' (h.working_mem hu'))
    have := hnear u' ((visit_working w u').mpr (Or.inr hu'))
    rw [hnum'] at this
    exact this hle'
  case low_reach =>
    intro u hu
    rcases (visit_working w u).mp hu with rfl | hu
    · have hlow : (s.visit u).low u = s.next := by simp [Walk.visit]
      rw [visit_num_self, hlow]
      exact ⟨le_rfl, u, List.mem_cons_self, visit_num_self u, ReflTransGen.refl⟩
    · have huw := hne u (h.working_mem hu)
      have hlow : (s.visit w).low u = s.low u := by simp [Walk.visit, Function.update_of_ne huw]
      obtain ⟨hle, y, hy, hnumy, hreachy⟩ := h.low_reach u hu
      rw [hlow, visit_num w u huw]
      exact ⟨hle, y, List.mem_cons_of_mem _ hy, by rw [hnum y hy]; exact hnumy, hreachy⟩
  case closed => exact h.closed
  case connected => exact h.connected
  case whole => exact h.whole
  case disjoint => exact h.disjoint
  case nonempty => exact h.nonempty
  case nodup => exact h.nodup

/-- A node being worked on that is known to lead back to a node of the stack. -/
theorem Good.lower (h : s.Good n succ region) (hy : y ∈ s.stack)
    (hreach : Reach succ region v y) : (s.lower v (s.num y)).Good n succ region := by
  have hle : ∀ u, (s.lower v (s.num y)).low u ≤ s.low u := by
    intro u
    by_cases heq : u = v
    · simp [Walk.lower, heq]
    · simp [Walk.lower, Function.update_of_ne heq]
  refine { h with low_le := ?_, low_reach := ?_ }
  · intro x hx w hw hf u hu hux hnear
    exact (hle u).trans (h.low_le x hx w hw hf u hu hux hnear)
  · intro u hu
    obtain ⟨hlow, z, hz, hnumz, hreachz⟩ := h.low_reach u hu
    refine ⟨(hle u).trans hlow, ?_⟩
    by_cases heq : u = v
    · have hmin : (s.lower v (s.num y)).low u = min (s.low u) (s.num y) := by
        simp [Walk.lower, heq]
      rw [hmin]
      rcases Nat.le_total (s.low u) (s.num y) with hcase | hcase
      · exact ⟨z, hz, by rw [min_eq_left hcase]; exact hnumz, hreachz⟩
      · exact ⟨y, hy, (min_eq_right hcase).symm, heq ▸ hreach⟩
    · have hsame : (s.lower v (s.num y)).low u = s.low u := by
        simp [Walk.lower, Function.update_of_ne heq]
      exact ⟨z, hz, by rw [hsame]; exact hnumz, hreachz⟩

/-- Following one more edge of a node being worked on, to a node that is outside, or seen and, when
it is on the stack, counted. -/
theorem Good.advance (h : s.Good n succ region) {front rest : List (ℕ × ℕ)} {v i w : ℕ}
    (hwork : s.work = front ++ (v, i) :: rest) (hedge : (succ v)[i]? = some w)
    (hseen : region w = true → s.index w ≠ none) (hlow : w ∈ s.stack → s.low v ≤ s.num w) :
    ({ s with work := front ++ (v, i + 1) :: rest } : Walk).Good n succ region := by
  have hmap : (front ++ (v, i + 1) :: rest).map Prod.fst = s.work.map Prod.fst := by
    rw [hwork]; simp
  have hworking : ∀ u, ({ s with work := front ++ (v, i + 1) :: rest } : Walk).Working u ↔ s.Working u := by
    intro u
    simp only [Working]
    rw [hmap]
  have hv : s.Working v := by rw [Working, hwork]; simp
  have hnodup : ((front ++ (v, i) :: rest).map Prod.fst).Nodup := hwork ▸ h.work_nodup
  have hfollowed : ∀ x y, Followed succ (front ++ (v, i + 1) :: rest) x y →
      Followed succ s.work x y ∨ x = v ∧ y = w := by
    intro x y hf
    rw [hwork]
    exact followed_advance hedge hnodup hf
  refine { h with working := ?_, down := ?_, up := ?_, followed := ?_, low_le := ?_, low_reach := ?_ }
  · dsimp only
    rw [hmap]
    exact h.working
  · exact fun u hu => h.down u ((hworking u).mp hu)
  · intro x hx
    obtain ⟨u, hu, hux⟩ := h.up x hx
    exact ⟨u, (hworking u).mpr hu, hux⟩
  · intro x hx y hy hf
    rcases hfollowed x y hf with hf | ⟨_, rfl⟩
    · exact h.followed x hx y hy hf
    · exact hseen hy
  · intro x hx y hy hf u hu hle hnear
    replace hu := (hworking u).mp hu
    rcases hfollowed x y hf with hf | ⟨rfl, rfl⟩
    · exact h.low_le x hx y hy hf u hu hle fun u' hu' => hnear u' ((hworking u').mpr hu')
    · -- the node whose edge it is is the nearest one worked on
      have hge := hnear x ((hworking x).mpr hv) le_rfl
      have hux : u = x := h.num_inj (h.working_mem hu) hx (Nat.le_antisymm hle hge)
      rw [hux]
      exact hlow hy
  · exact fun u hu => h.low_reach u ((hworking u).mp hu)

/-- Taking a node off a stack that it is on. -/
theorem popTo_eq {stack : List ℕ} (hv : v ∈ stack) : ∃ front rest,
    popTo v stack = some (front ++ [v], rest) ∧ stack = front ++ v :: rest := by
  induction stack with
  | nil => exact absurd hv (List.not_mem_nil)
  | cons w stack ih =>
    by_cases heq : w = v
    · exact ⟨[], stack, by rw [popTo, if_pos heq, heq]; rfl, by rw [heq]; rfl⟩
    · have hmem : v ∈ stack := (List.mem_cons.mp hv).resolve_left fun hvw => heq hvw.symm
      obtain ⟨front, rest, hpop, hstack⟩ := ih hmem
      refine ⟨w :: front, rest, ?_, by rw [hstack]; rfl⟩
      rw [popTo, if_neg heq, hpop]
      rfl

/-- The edges of the node worked on last, when none is left, and of the nodes seen since are all
followed. -/
theorem followed_all (h : s.Good n succ region)
    (hwork : s.work = (v, i) :: rest) (hend : (succ v)[i]? = none) (hx : x ∈ s.stack)
    (hle : s.num v ≤ s.num x) (hw : w ∈ succ x) : Followed succ s.work x w := by
  by_cases heq : x = v
  · rw [hwork, heq]
    exact followed_end hend (hwork ▸ h.work_nodup) (heq ▸ hw)
  · refine ⟨hw, fun j hj => ?_⟩
    have hworking : s.Working x := List.mem_map_of_mem (f := Prod.fst) hj
    have hvs := h.working_mem (show s.Working v by simp [Working, hwork])
    exact absurd (h.num_inj hx hvs (Nat.le_antisymm (h.num_le_top hwork hworking) hle)) heq

/-- What has been followed once the node worked on last is left. -/
theorem followed_drop (h : s.Good n succ region) (hwork : s.work = (v, i) :: rest) (hend : (succ v)[i]? = none)
    (hf : Followed succ rest x w) : Followed succ s.work x w := by
  rw [hwork]
  exact followed_leave hend (hwork ▸ h.work_nodup) hf

/-- Leaving the node worked on last when it leads back to a node before it: everything seen since
leads back to what is worked on before. -/
theorem Good.drop (h : s.Good n succ region) {parent j : ℕ}
    (hwork : s.work = (v, i) :: (parent, j) :: rest) (hend : (succ v)[i]? = none)
    (hlow : s.low v < s.num v) (hparent : s.low parent ≤ s.low v) :
    ({ s with work := (parent, j) :: rest } : Walk).Good n succ region := by
  have hworking : ∀ u, s.Working u ↔
      u = v ∨ ({ s with work := (parent, j) :: rest } : Walk).Working u := by
    intro u
    simp only [Working]
    rw [hwork, List.map_cons, List.mem_cons]
  have hv : s.Working v := (hworking v).mpr (Or.inl rfl)
  have hsorted := h.sorted.sublist h.working
  rw [hwork, List.map_cons, List.map_cons, List.pairwise_cons, List.pairwise_cons] at hsorted
  have hbelow : ∀ u, ({ s with work := (parent, j) :: rest } : Walk).Working u → s.num u ≤ s.num parent := by
    intro u hu
    rw [Working, List.map_cons, List.mem_cons] at hu
    rcases hu with rfl | hu
    · exact le_rfl
    · exact (hsorted.2.1 u hu).le
  have hpv : s.num parent < s.num v := hsorted.1 parent (List.mem_cons_self)
  -- what the node leads back to, and what that leads back to
  obtain ⟨-, y, hy, hnumy, hvy⟩ := h.low_reach v hv
  obtain ⟨u₀, hu₀, hle₀, hyu₀⟩ := h.up y hy
  have hne₀ : u₀ ≠ v := by
    intro heq
    rw [heq] at hle₀
    omega
  refine { h with working := ?_, down := ?_, up := ?_, followed := ?_, low_le := ?_, low_reach := ?_ }
  · refine List.Sublist.trans ?_ h.working
    rw [hwork]
    exact List.sublist_cons_self _ _
  · exact fun u hu => h.down u ((hworking u).mpr (Or.inr hu))
  · intro x hx
    obtain ⟨u, hu, hle, hxu⟩ := h.up x hx
    rcases (hworking u).mp hu with heq | hu
    · subst heq
      exact ⟨u₀, ((hworking u₀).mp hu₀).resolve_left hne₀, (show s.num u₀ ≤ s.num x by omega),
        hxu.trans (hvy.trans hyu₀)⟩
    · exact ⟨u, hu, hle, hxu⟩
  · intro x hx w hw hf
    exact h.followed x hx w hw (followed_drop h hwork hend hf)
  · intro x hx w hw hf u hu hle hnear
    have hf := followed_drop h hwork hend hf
    by_cases hvx : s.num v ≤ s.num x
    · -- the nearest one was the node left, and is its parent now
      have hup : u = parent := by
        have hworkp : ({ s with work := (parent, j) :: rest } : Walk).Working parent := by simp [Working]
        have hge : s.num parent ≤ s.num u := hnear parent hworkp (show s.num parent ≤ s.num x by omega)
        exact h.num_inj (h.working_mem ((hworking u).mpr (Or.inr hu)))
          (h.working_mem ((hworking parent).mpr (Or.inr hworkp))) (Nat.le_antisymm (hbelow u hu) hge)
      have hlowv := h.low_le x hx w hw hf v hv hvx fun u' hu' _ => h.num_le_top hwork hu'
      rw [hup]
      exact hparent.trans hlowv
    · refine h.low_le x hx w hw hf u ((hworking u).mpr (Or.inr hu)) hle fun u' hu' hle' => ?_
      rcases (hworking u').mp hu' with heq | hu'
      · rw [heq] at hle'
        exact absurd hle' hvx
      · exact hnear u' hu' hle'
  · exact fun u hu => h.low_reach u ((hworking u).mpr (Or.inr hu))

end

/-- What the nodes from one on are when it leads back to nothing before it. -/
structure Segment (succ : ℕ → List ℕ) (region : ℕ → Bool) (s : Walk) (v : ℕ) (seg tail : List ℕ) :
    Prop where
  popped : popTo v s.stack = some (seg, tail)
  root : v ∈ seg
  mem : ∀ x, x ∈ s.stack ↔ x ∈ tail ∨ x ∈ seg
  above : ∀ x ∈ seg, s.num v ≤ s.num x
  below : ∀ x ∈ tail, s.num x < s.num v
  split : s.stack = seg ++ tail
  seg_nodup : seg.Nodup
  /-- Nothing leads out of it but into components found before. -/
  closed : ∀ x ∈ seg, ∀ w, Reach succ region x w → w ∈ seg ∨ s.Done w
  down : ∀ x ∈ seg, Reach succ region v x
  back : ∀ x ∈ seg, Reach succ region x v

section

variable {n : ℕ} {succ : ℕ → List ℕ} {region : ℕ → Bool} {s : Walk}

variable {v i : ℕ} {rest : List (ℕ × ℕ)} {seg tail : List ℕ}

theorem Good.segment (h : s.Good n succ region)
    (hwork : s.work = (v, i) :: rest) (hend : (succ v)[i]? = none) (hlow : s.low v = s.num v) :
    ∃ seg tail, s.Segment succ region v seg tail := by
  have hv : s.Working v := by simp [Working, hwork]
  have hvs := h.working_mem hv
  obtain ⟨front, tail, hpop, hstack⟩ := popTo_eq hvs
  have hsorted := h.sorted
  rw [hstack, List.pairwise_append, List.pairwise_cons] at hsorted
  obtain ⟨hsortedfront, ⟨hvtail, -⟩, hfront⟩ := hsorted
  have hmem : ∀ x, x ∈ s.stack ↔ x ∈ tail ∨ x ∈ front ++ [v] := by
    intro x
    rw [hstack]
    simp only [List.mem_append, List.mem_cons]
    tauto
  have habove : ∀ x ∈ front ++ [v], s.num v ≤ s.num x := by
    intro x hx
    rcases List.mem_append.mp hx with hx | hx
    · exact (hfront x hx v (List.mem_cons_self)).le
    · rw [List.mem_singleton.mp hx]
  have hseg : ∀ x ∈ s.stack, s.num v ≤ s.num x → x ∈ front ++ [v] := by
    intro x hx hle
    refine ((hmem x).mp hx).resolve_left fun hxt => ?_
    have := hvtail x hxt
    omega
  -- one edge out of the segment, then a way out of it
  have hout : ∀ x ∈ front ++ [v], ∀ w, Edge succ region x w → w ∈ front ++ [v] ∨ s.Done w := by
    intro x hx w hedge
    have hxs := (hmem x).mpr (Or.inr hx)
    have hle := habove x hx
    have hf := followed_all h hwork hend hxs hle hedge.2.1
    rcases (h.seen w).mp (h.followed x hxs w hedge.2.2 hf) with hws | hdone
    · have := h.low_le x hxs w hws hf v hv hle fun u' hu' _ => h.num_le_top hwork hu'
      exact Or.inl (hseg w hws (by omega))
    · exact Or.inr hdone
  have hclosed : ∀ x ∈ front ++ [v], ∀ w, Reach succ region x w → w ∈ front ++ [v] ∨ s.Done w := by
    intro x hx w hxw
    induction hxw with
    | refl => exact Or.inl hx
    | tail _ hedge ih =>
      rcases ih with hmid | hmid
      · exact hout _ hmid _ hedge
      · exact Or.inr (h.closed _ hmid _ hedge)
  have hback : ∀ x ∈ front ++ [v], Reach succ region x v := by
    intro x hx
    obtain ⟨u, hu, -, hxu⟩ := h.up x ((hmem x).mpr (Or.inr hx))
    rcases hclosed x hx u hxu with hmemu | hdone
    · have hle := h.num_le_top hwork hu
      rw [h.num_inj hvs ((hmem u).mpr (Or.inr hmemu)) (Nat.le_antisymm (habove u hmemu) hle)]
      exact hxu
    · exact absurd hdone (h.apart u (h.working_mem hu))
  have hnodup : (front ++ [v]).Nodup := by
    have hall : (front ++ [v]).Pairwise (fun a b => s.num b < s.num a) := by
      rw [List.pairwise_append]
      refine ⟨hsortedfront, List.pairwise_singleton _ _, fun a ha b hb => ?_⟩
      rw [List.mem_singleton.mp hb]
      exact hfront a ha v (List.mem_cons_self)
    exact hall.imp fun {a b} hlt heq => by rw [heq] at hlt; omega
  have hsplit : s.stack = (front ++ [v]) ++ tail := by rw [hstack, List.append_assoc]; rfl
  exact ⟨front ++ [v], tail, hpop, by simp, hmem, habove, hvtail, hsplit, hnodup, hclosed,
    fun x hx => h.down v hv x ((hmem x).mpr (Or.inr hx)) (habove x hx), hback⟩

/-- The walk after a segment has been taken off. -/
def cut (s : Walk) (seg tail : List ℕ) (rest : List (ℕ × ℕ)) : Walk :=
  { s with onStack := fun w => if w ∈ seg then false else s.onStack w,
           stack := tail,
           out := s.out ++ [seg],
           work := rest }

theorem cut_done {x : ℕ} : (s.cut seg tail rest).Done x ↔ s.Done x ∨ x ∈ seg := by
  simp only [Done, cut]
  constructor
  · rintro ⟨c, hc, hx⟩
    rcases List.mem_append.mp hc with hc | hc
    · exact Or.inl ⟨c, hc, hx⟩
    · exact Or.inr (List.mem_singleton.mp hc ▸ hx)
  · rintro (⟨c, hc, hx⟩ | hx)
    · exact ⟨c, List.mem_append_left _ hc, hx⟩
    · exact ⟨seg, List.mem_append_right _ (List.mem_singleton.mpr rfl), hx⟩

/-- Leaving the node worked on last when it leads back to nothing before it: what has been seen
since is a component. -/
theorem Good.cut (h : s.Good n succ region) (hwork : s.work = (v, i) :: rest) (hend : (succ v)[i]? = none)
    (hseg : s.Segment succ region v seg tail) : (s.cut seg tail rest).Good n succ region := by
  have hworking : ∀ u, (s.cut seg tail rest).Working u → s.Working u ∧ s.num u < s.num v := by
    intro u hu
    have hsorted := h.sorted.sublist h.working
    rw [hwork, List.map_cons, List.pairwise_cons] at hsorted
    refine ⟨?_, hsorted.1 u hu⟩
    rw [Working, hwork, List.map_cons]
    exact List.mem_cons_of_mem _ hu
  have hstill : ∀ u, s.Working u → s.num u < s.num v → (s.cut seg tail rest).Working u := by
    intro u hu hlt
    rw [Working, hwork, List.map_cons, List.mem_cons] at hu
    refine hu.resolve_left fun heq => ?_
    rw [heq] at hlt
    exact Nat.lt_irrefl _ hlt
  have hin : ∀ x ∈ tail, x ∈ s.stack := fun x hx => (hseg.mem x).mpr (Or.inl hx)
  have hleft : ∀ x ∈ s.stack, s.num x < s.num v → x ∈ tail := by
    intro x hx hlt
    refine ((hseg.mem x).mp hx).resolve_right fun hxs => ?_
    have := hseg.above x hxs
    omega
  have hfollowed : ∀ x w, Followed succ (s.cut seg tail rest).work x w → Followed succ s.work x w :=
    fun x w hf => followed_drop h hwork hend hf
  constructor
  case seen =>
    intro x
    rw [cut_done]
    have hmem := hseg.mem x
    have hseen := h.seen x
    simp only [Walk.cut]
    tauto
  case inside =>
    intro x hx
    rw [cut_done] at hx
    rcases hx with hx | hx | hx
    · exact h.inside x (Or.inl (hin x hx))
    · exact h.inside x (Or.inr hx)
    · exact h.inside x (Or.inl ((hseg.mem x).mpr (Or.inr hx)))
  case apart =>
    intro x hx
    rw [cut_done]
    rintro (hdone | hxs)
    · exact h.apart x (hin x hx) hdone
    · have hlt := hseg.below x hx
      have hle := hseg.above x hxs
      omega
  case lt => exact fun x hx => h.lt x (hin x hx)
  case sorted =>
    have hsorted := h.sorted
    rw [hseg.split] at hsorted
    exact (List.pairwise_append.mp hsorted).2.1
  case onStack =>
    intro x
    simp only [Walk.cut]
    by_cases hxs : x ∈ seg
    · have hnot : x ∉ tail := by
        intro hx
        have hlt := hseg.below x hx
        have hle := hseg.above x hxs
        omega
      simp [hxs, hnot]
    · rw [if_neg hxs, h.onStack, hseg.mem]
      tauto
  case working =>
    -- what is still worked on is below the segment
    have hsub := h.working
    rw [hwork, List.map_cons] at hsub
    have hrest := (List.sublist_cons_self v (rest.map Prod.fst)).trans hsub
    have hfilter := hrest.filter fun u => decide (s.num u < s.num v)
    have hseglt : seg.filter (fun u => decide (s.num u < s.num v)) = [] := by
      refine List.filter_eq_nil_iff.mpr fun u hu => ?_
      have := hseg.above u hu
      simpa using this
    rw [List.filter_eq_self.mpr fun u hu => by simpa using (hworking u hu).2, hseg.split,
      List.filter_append, hseglt, List.nil_append] at hfilter
    exact hfilter.trans List.filter_sublist
  case down =>
    intro u hu x hx hle
    exact h.down u (hworking u hu).1 x (hin x hx) hle
  case up =>
    intro x hx
    obtain ⟨u, hu, hle, hxu⟩ := h.up x (hin x hx)
    have hlt := hseg.below x hx
    exact ⟨u, hstill u hu (by omega), hle, hxu⟩
  case followed => exact fun x hx w hw hf => h.followed x (hin x hx) w hw (hfollowed x w hf)
  case low_le =>
    intro x hx w hw hf u hu hle hnear
    refine h.low_le x (hin x hx) w (hin w hw) (hfollowed x w hf) u (hworking u hu).1 hle
      fun u' hu' hle' => hnear u' (hstill u' hu' ?_) hle'
    have hlt := hseg.below x hx
    omega
  case low_reach =>
    intro u hu
    obtain ⟨hwu, hlt⟩ := hworking u hu
    obtain ⟨hle, y, hy, hnumy, hreach⟩ := h.low_reach u hwu
    exact ⟨hle, y, hleft y hy (by omega), hnumy, hreach⟩
  case closed =>
    intro x hx w hedge
    rw [cut_done] at hx ⊢
    rcases hx with hx | hx
    · exact Or.inl (h.closed x hx w hedge)
    · exact (hseg.closed x hx w (ReflTransGen.single hedge)).symm
  case connected =>
    intro c hc x hx y hy
    rcases List.mem_append.mp hc with hc | hc
    · exact h.connected c hc x hx y hy
    · rw [List.mem_singleton.mp hc] at hx hy
      exact (hseg.back x hx).trans (hseg.down y hy)
  case whole =>
    intro c hc x hx y hxy hyx
    rcases List.mem_append.mp hc with hc | hc
    · exact h.whole c hc x hx y hxy hyx
    · rw [List.mem_singleton.mp hc] at hx ⊢
      -- a node of an earlier component leads to earlier components only
      refine (hseg.closed x hx y hxy).resolve_right fun hdone => ?_
      exact h.apart x ((hseg.mem x).mpr (Or.inr hx)) (h.done_reach hdone hyx)
  case disjoint =>
    refine List.pairwise_append.mpr ⟨h.disjoint, List.pairwise_singleton _ _, fun c hc c' hc' x hx => ?_⟩
    rw [List.mem_singleton.mp hc']
    exact fun hxs => h.apart x ((hseg.mem x).mpr (Or.inr hxs)) ⟨c, hc, hx⟩
  case nonempty =>
    intro c hc
    rcases List.mem_append.mp hc with hc | hc
    · exact h.nonempty c hc
    · rw [List.mem_singleton.mp hc]
      exact List.ne_nil_of_mem hseg.root
  case nodup =>
    intro c hc
    rcases List.mem_append.mp hc with hc | hc
    · exact h.nodup c hc
    · rw [List.mem_singleton.mp hc]
      exact hseg.seg_nodup

/-- Lowering a node to a number that is no lower changes nothing. -/
theorem lower_eq {k : ℕ} (hle : s.low v ≤ k) : s.lower v k = s := by
  simp [Walk.lower, min_eq_left hle]

/-- Taking a segment off. -/
theorem pop_eq (hseg : s.Segment succ region v seg tail) :
    ({ s with work := rest } : Walk).pop v = some (s.cut seg tail rest) := by
  simp only [pop]
  rw [hseg.popped]
  rfl

/-- Leaving a node whose edges have all been followed. -/
theorem Good.leave (h : s.Good n succ region) {v i : ℕ} {rest : List (ℕ × ℕ)}
    (hwork : s.work = (v, i) :: rest) (hend : (succ v)[i]? = none) :
    ∃ s', s.leave v rest = some s' ∧ s'.Good n succ region ∧ s'.work = rest ∧ s'.index = s.index := by
  have hv : s.Working v := by simp [Working, hwork]
  have hvs := h.working_mem hv
  obtain ⟨hle, y, hy, hnumy, hvy⟩ := h.low_reach v hv
  have hindex : s.index v = some (s.num v) := by
    have hseen := (h.seen v).mpr (Or.inl hvs)
    rw [num]
    obtain ⟨k, hk⟩ := Option.ne_none_iff_exists'.mp hseen
    rw [hk]
    rfl
  cases rest with
  | nil =>
    -- nothing is worked on before it, so it leads back to nothing before it
    obtain ⟨u, hu, hleu, -⟩ := h.up y hy
    have huv : u = v := by
      rw [Working, hwork] at hu
      simpa using hu
    have hlow : s.low v = s.num v := by rw [huv] at hleu; omega
    obtain ⟨seg, tail, hseg⟩ := h.segment hwork hend hlow
    refine ⟨_, ?_, h.cut hwork hend hseg, rfl, rfl⟩
    simp only [Walk.leave]
    rw [if_pos (by rw [hindex, hlow])]
    exact pop_eq hseg
  | cons head rest =>
    obtain ⟨parent, j⟩ := head
    have hworkp : s.Working parent := by simp [Working, hwork]
    have hsorted := h.sorted.sublist h.working
    rw [hwork, List.map_cons, List.pairwise_cons] at hsorted
    have hpv : s.num parent < s.num v := hsorted.1 parent (List.mem_cons_self)
    have hne : v ≠ parent := fun heq => by rw [heq] at hpv; omega
    have hlowp := (h.low_reach parent hworkp).1
    have hlowv : (s.lower parent (s.low v)).low v = s.low v := by
      simp [Walk.lower, Function.update_of_ne hne]
    have hleave : s.leave v ((parent, j) :: rest) =
        if s.index v = some (s.low v) then
          ({ s.lower parent (s.low v) with work := (parent, j) :: rest } : Walk).pop v
        else some { s.lower parent (s.low v) with work := (parent, j) :: rest } := by
      simp only [Walk.leave]
      change (if s.index v = some ((s.lower parent (s.low v)).low v) then _ else _) = _
      rw [hlowv]
      rfl
    rw [hleave]
    rcases Nat.eq_or_lt_of_le hle with hlow | hlow
    · obtain ⟨seg, tail, hseg⟩ := h.segment hwork hend hlow
      refine ⟨_, ?_, h.cut hwork hend hseg, rfl, rfl⟩
      rw [if_pos (by rw [hindex, hlow]), lower_eq (by omega)]
      exact pop_eq hseg
    · rw [if_neg (by rw [hindex]; intro heq; have := Option.some.inj heq; omega)]
      refine ⟨_, rfl, ?_, rfl, rfl⟩
      have hreach : Reach succ region parent y :=
        (h.down parent hworkp v hvs hpv.le).trans hvy
      have hlowered := h.lower hy hreach
      rw [hnumy] at hlowered
      refine hlowered.drop hwork hend ?_ ?_
      · rw [hlowv]; exact hlow
      · rw [hlowv]
        simp [Walk.lower]

/-- What a walk has left to do. -/
def left (n : ℕ) (succ : ℕ → List ℕ) (s : Walk) : ℕ := todo n succ (fun v => (s.index v).isSome) s.work

theorem left_visit {w : ℕ} (hw : w < n) (hnew : s.index w = none) :
    (s.visit w).left n succ = s.left n succ := by
  have hseen : (fun v => ((s.visit w).index v).isSome) =
      Function.update (fun v => (s.index v).isSome) w true := by
    funext v
    by_cases heq : v = w
    · simp [Walk.visit, heq]
    · simp [Walk.visit, Function.update_of_ne heq]
  simp only [left]
  rw [hseen]
  exact todo_visit hw (by simp [hnew])

/-- A step keeps what holds and leaves less to do. -/
theorem Good.step (h : s.Good n succ region) (hsucc : ∀ v < n, ∀ w ∈ succ v, w < n) {v i : ℕ}
    {rest : List (ℕ × ℕ)} (hwork : s.work = (v, i) :: rest) :
    ∃ s', s.step succ region v i rest = some s' ∧ s'.Good n succ region ∧
      s'.left n succ < s.left n succ ∧ ∀ x, s.index x ≠ none → s'.index x ≠ none := by
  have hv : s.Working v := by simp [Working, hwork]
  have hvs := h.working_mem hv
  obtain ⟨hvn, hvr⟩ := h.inside v (Or.inl hvs)
  simp only [Walk.step]
  cases hedge : (succ v)[i]? with
  | none =>
    obtain ⟨s', hleave, hgood, hwork', hindex⟩ := h.leave hwork hedge
    refine ⟨s', hleave, hgood, ?_, fun x hx => by rw [hindex]; exact hx⟩
    simp only [left]
    rw [hindex, hwork', hwork]
    exact todo_leave v i
  | some w =>
    have hlt : i < (succ v).length := (List.getElem?_eq_some_iff.mp hedge).1
    have hmem : w ∈ succ v := List.mem_of_getElem? hedge
    have hwn := hsucc v hvn w hmem
    have hless : ({ s with work := (v, i + 1) :: rest } : Walk).left n succ < s.left n succ := by
      simp only [left]
      rw [hwork]
      exact todo_follow hlt
    dsimp only
    by_cases hregion : region w = false
    · rw [if_pos hregion]
      refine ⟨_, rfl, @Good.advance n succ region s h [] rest v i w hwork hedge ?_ ?_, hless, fun _ hx => hx⟩
      · intro hw; rw [hregion] at hw; exact absurd hw Bool.false_ne_true
      · intro hw
        have := (h.inside w (Or.inl hw)).2
        rw [hregion] at this
        exact absurd this Bool.false_ne_true
    · rw [if_neg hregion]
      have hregion : region w = true := by simpa using hregion
      have hvw : Reach succ region v w := ReflTransGen.single ⟨hvr, hmem, hregion⟩
      cases hindex : s.index w with
      | none =>
        refine ⟨_, rfl, ?_, ?_, ?_⟩
        · have hvisited := h.visit hwn hregion hindex fun u hu =>
            (h.down u hu v hvs (h.num_le_top hwork hu)).trans hvw
          refine @Good.advance n succ region (s.visit w) hvisited [(w, 0)] rest v i w ?_ hedge ?_ ?_
          · simp [Walk.visit, hwork]
          · intro _; simp [Walk.visit]
          · intro _
            have hne : v ≠ w := fun heq => by
              rw [← heq] at hindex
              exact (h.seen v).mpr (Or.inl hvs) hindex
            have hlow := (h.low_reach v hv).1
            have hltv := h.lt v hvs
            rw [visit_num_self]
            simp only [Walk.visit, Function.update_of_ne hne]
            omega
        · have hvisit := @left_visit n succ { s with work := (v, i + 1) :: rest } w hwn hindex
          rw [hvisit]
          exact hless
        · intro x hx
          by_cases heq : x = w
          · simp [Walk.visit, heq]
          · simpa [Walk.visit, Function.update_of_ne heq] using hx
      | some k =>
        have hnum : s.num w = k := by rw [num, hindex]; rfl
        have hseen : region w = true → s.index w ≠ none := fun _ => by rw [hindex]; exact Option.some_ne_none k
        dsimp only
        cases hon : s.onStack w with
        | true =>
          have hws := (h.onStack w).mp hon
          have hlowered := h.lower hws hvw
          rw [hnum] at hlowered
          refine ⟨_, rfl, ?_, hless, fun _ hx => hx⟩
          refine @Good.advance n succ region (s.lower v k) hlowered [] rest v i w hwork hedge hseen fun _ => ?_
          change (s.lower v k).low v ≤ s.num w
          rw [hnum]
          simp [Walk.lower]
        | false =>
          refine ⟨_, rfl, @Good.advance n succ region s h [] rest v i w hwork hedge hseen fun hws => ?_, hless, fun _ hx => hx⟩
          rw [(h.onStack w).mpr hws] at hon
          exact absurd hon (by simp)

/-- A walk that has time for what is left of it ends, with every node seen in a component. -/
theorem Good.run (hsucc : ∀ v < n, ∀ w ∈ succ v, w < n) (rounds : ℕ) : ∀ s : Walk,
    s.Good n succ region → s.left n succ ≤ rounds → ∃ s', s.run succ region rounds = some s' ∧
      s'.Good n succ region ∧ s'.work = [] ∧ ∀ x, s.index x ≠ none → s'.index x ≠ none := by
  induction rounds with
  | zero =>
    intro s h hleft
    have hwork : s.work = [] := work_nil (Nat.le_zero.mp hleft)
    exact ⟨s, by rw [Walk.run, if_pos hwork], h, hwork, fun _ hx => hx⟩
  | succ rounds ih =>
    intro s h hleft
    rw [Walk.run]
    cases hwork : s.work with
    | nil => exact ⟨s, rfl, h, hwork, fun _ hx => hx⟩
    | cons p rest =>
      obtain ⟨v, i⟩ := p
      obtain ⟨s₁, hstep, hgood, hless, hkeep⟩ := h.step hsucc hwork
      obtain ⟨s', hrun, hgood', hwork', hkeep'⟩ := ih s₁ hgood (by omega)
      refine ⟨s', ?_, hgood', hwork', fun x hx => hkeep' x (hkeep x hx)⟩
      dsimp only
      rw [hstep, Option.bind_some, hrun]

/-- When nothing is worked on, every node seen is in a component. -/
theorem Good.stack_nil (h : s.Good n succ region) (hwork : s.work = []) : s.stack = [] := by
  refine List.eq_nil_iff_forall_not_mem.mpr fun x hx => ?_
  obtain ⟨u, hu, -⟩ := h.up x hx
  rw [Working, hwork] at hu
  exact absurd hu (List.not_mem_nil)

theorem good_start : (⟨fun _ => none, fun _ => 0, fun _ => false, [], [], 0, []⟩ : Walk).Good n succ region := by
  constructor <;> simp [Done, Working]

theorem left_le (hwork : s.work = []) : s.left n succ ≤ rounds n succ := by
  simp only [left]
  rw [hwork]
  exact todo_nil_le

/-- One root keeps what holds and has been seen afterwards, when it is in the region. -/
theorem Good.root (hsucc : ∀ v < n, ∀ w ∈ succ v, w < n) (h : s.Good n succ region)
    (hwork : s.work = []) (hv : v < n) : ∃ s', Scc.root n succ region s v = some s' ∧
      s'.Good n succ region ∧ s'.work = [] ∧ (region v = true → s'.index v ≠ none) ∧
      ∀ x, s.index x ≠ none → s'.index x ≠ none := by
  rw [Scc.root]
  split_ifs with hroot
  · have hvisit := h.visit hv hroot.1 hroot.2 fun u hu => by
      rw [Working, hwork] at hu
      exact absurd hu (List.not_mem_nil)
    have hleft : (s.visit v).left n succ ≤ rounds n succ := by
      rw [left_visit hv hroot.2]
      exact left_le hwork
    obtain ⟨s', hrun, hgood, hwork', hkeep⟩ := Good.run hsucc _ _ hvisit hleft
    refine ⟨s', hrun, hgood, hwork', fun _ => hkeep v (by simp [Walk.visit]), fun x hx => hkeep x ?_⟩
    by_cases heq : x = v
    · simp [Walk.visit, heq]
    · simpa [Walk.visit, Function.update_of_ne heq] using hx
  · exact ⟨s, rfl, h, hwork, fun hregion hnone => hroot ⟨hregion, hnone⟩, fun _ hx => hx⟩

theorem Good.roots (hsucc : ∀ v < n, ∀ w ∈ succ v, w < n) (l : List ℕ) (hl : ∀ v ∈ l, v < n) :
    ∀ s : Walk, s.Good n succ region → s.work = [] → ∃ s', l.foldlM (Scc.root n succ region) s = some s' ∧
      s'.Good n succ region ∧ s'.work = [] ∧ (∀ v ∈ l, region v = true → s'.index v ≠ none) ∧
      ∀ x, s.index x ≠ none → s'.index x ≠ none := by
  induction l with
  | nil => exact fun s h hwork => ⟨s, rfl, h, hwork, fun v hv => absurd hv (List.not_mem_nil), fun _ hx => hx⟩
  | cons v l ih =>
    intro s h hwork
    obtain ⟨s₁, hroot, hgood, hwork₁, hv, hkeep⟩ := h.root hsucc hwork (hl v (List.mem_cons_self))
    obtain ⟨s', hroots, hgood', hwork', hvs, hkeep'⟩ :=
      ih (fun x hx => hl x (List.mem_cons_of_mem _ hx)) s₁ hgood hwork₁
    refine ⟨s', ?_, hgood', hwork', ?_, fun x hx => hkeep' x (hkeep x hx)⟩
    · rw [List.foldlM_cons, hroot]
      exact hroots
    · intro x hx hregion
      rcases List.mem_cons.mp hx with rfl | hx
      · exact hkeep' x (hv hregion)
      · exact hvs x hx hregion

end

end Walk

/-- The lists are the strongly connected components of the nodes below the bound in the region. -/
structure Components (n : ℕ) (succ : ℕ → List ℕ) (region : ℕ → Bool) (out : List (List ℕ)) : Prop where
  /-- Every node is in one, and only nodes of the region are. -/
  covers : ∀ v, (∃ c ∈ out, v ∈ c) ↔ v < n ∧ region v = true
  disjoint : out.Pairwise (fun c c' => ∀ v ∈ c, v ∉ c')
  nonempty : ∀ c ∈ out, c ≠ []
  nodup : ∀ c ∈ out, c.Nodup
  connected : ∀ c ∈ out, ∀ u ∈ c, ∀ v ∈ c, Reach succ region u v
  whole : ∀ c ∈ out, ∀ u ∈ c, ∀ v, Reach succ region u v → Reach succ region v u → v ∈ c

/-- A node is in one component. -/
theorem Components.unique {n : ℕ} {succ : ℕ → List ℕ} {region : ℕ → Bool} {out : List (List ℕ)}
    (h : Components n succ region out) {c c' : List ℕ} (hc : c ∈ out) (hc' : c' ∈ out) {v : ℕ}
    (hv : v ∈ c) (hv' : v ∈ c') : c = c' := by
  rcases pairwise_cases h.disjoint hc hc' with heq | hdisjoint | hdisjoint
  · exact heq
  · exact absurd hv' (hdisjoint v hv)
  · exact absurd hv (hdisjoint v hv')

/-- The walk ends, with the strongly connected components. -/
theorem components_spec {n : ℕ} {succ : ℕ → List ℕ} {region : ℕ → Bool}
    (hsucc : ∀ v < n, ∀ w ∈ succ v, w < n) :
    ∃ out, components n succ region = some out ∧ Components n succ region out := by
  obtain ⟨s, hroots, hgood, hwork, hseen, -⟩ := Walk.Good.roots hsucc (List.range n)
    (fun v hv => List.mem_range.mp hv) _ (@Walk.good_start n succ region) rfl
  refine ⟨s.out, ?_, ?_, hgood.disjoint, hgood.nonempty, hgood.nodup, hgood.connected, hgood.whole⟩
  · rw [components, hroots]
    rfl
  · intro v
    constructor
    · intro hdone
      exact hgood.inside v (Or.inr hdone)
    · rintro ⟨hv, hregion⟩
      have := (hgood.seen v).mp (hseen v (List.mem_range.mpr hv) hregion)
      rw [hgood.stack_nil hwork] at this
      exact this.resolve_left (List.not_mem_nil)

end Rucc.Scc
