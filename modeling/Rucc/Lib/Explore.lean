import Mathlib.Algebra.BigOperators.Group.Finset.Basic
import Mathlib.Algebra.Order.BigOperators.Group.Finset
import Mathlib.Tactic

/-!
# Searches with a stack of their own

A search of a graph that keeps the nodes it is at, and how many edges of each it has followed, in a
list. Each of its steps sees a node, follows an edge or leaves a node, and what is left to do bounds
how many steps there are.
-/

namespace Rucc.Explore

/-- What a search has left to do: the nodes it has not seen, with their edges, and the edges left of
the nodes it is at. -/
def todo (n : ℕ) (succ : ℕ → List ℕ) (seen : ℕ → Bool) (work : List (ℕ × ℕ)) : ℕ :=
  (∑ v ∈ Finset.range n, if seen v then 0 else (succ v).length + 1) +
    (work.map fun p => (succ p.1).length - p.2 + 1).sum

/-- How many steps a search of the nodes below a bound takes. -/
def rounds (n : ℕ) (succ : ℕ → List ℕ) : ℕ := ((List.range n).map fun v => (succ v).length + 1).sum

/-- An edge that has been followed. -/
def Followed (succ : ℕ → List ℕ) (work : List (ℕ × ℕ)) (v w : ℕ) : Prop :=
  w ∈ succ v ∧ ∀ i, (v, i) ∈ work → w ∈ (succ v).take i

section

variable {n : ℕ} {succ : ℕ → List ℕ} {seen : ℕ → Bool} {work : List (ℕ × ℕ)}

variable {w v i : ℕ} {rest : List (ℕ × ℕ)}

/-- Seeing a node moves what it has to do from one part to the other. -/
theorem todo_visit (hw : w < n) (hnew : seen w = false) :
    todo n succ (Function.update seen w true) ((w, 0) :: work) = todo n succ seen work := by
  have hmem : w ∈ Finset.range n := Finset.mem_range.mpr hw
  have hrest : ∑ v ∈ (Finset.range n).erase w,
      (if Function.update seen w true v then 0 else (succ v).length + 1) =
      ∑ v ∈ (Finset.range n).erase w, if seen v then 0 else (succ v).length + 1 := by
    refine Finset.sum_congr rfl fun v hv => ?_
    rw [Function.update_of_ne (Finset.mem_erase.mp hv).1]
  simp only [todo]
  rw [← Finset.add_sum_erase _ _ hmem, ← Finset.add_sum_erase _ (fun v => if seen v then _ else _) hmem,
    hrest]
  simp [hnew]
  omega

/-- Following an edge leaves less to do. -/
theorem todo_follow (hlt : i < (succ v).length) :
    todo n succ seen ((v, i + 1) :: work) < todo n succ seen ((v, i) :: work) := by
  simp only [todo, List.map_cons, List.sum_cons]
  omega

/-- Leaving a node leaves less to do. -/
theorem todo_leave (v i : ℕ) : todo n succ seen work < todo n succ seen ((v, i) :: work) := by
  simp only [todo, List.map_cons, List.sum_cons]
  omega

/-- A search that is nowhere has no more to do than one that has seen nothing. -/
theorem todo_nil_le : todo n succ seen [] ≤ rounds n succ := by
  simp only [todo, rounds]
  rw [List.map_nil, List.sum_nil, Nat.add_zero]
  have hsum : ((List.range n).map fun v => (succ v).length + 1).sum =
      ∑ v ∈ Finset.range n, ((succ v).length + 1) := rfl
  rw [hsum]
  refine Finset.sum_le_sum fun v _ => ?_
  split_ifs <;> omega

/-- A search with nothing to do is nowhere. -/
theorem work_nil (htodo : todo n succ seen work = 0) : work = [] := by
  cases work with
  | nil => rfl
  | cons p work =>
    simp only [todo, List.map_cons, List.sum_cons] at htodo
    omega

/-- A node is worked on at one place only. -/
theorem place_unique {front rest : List (ℕ × ℕ)} {v i j : ℕ}
    (hnodup : ((front ++ (v, i) :: rest).map Prod.fst).Nodup)
    (hj : (v, j) ∈ front ++ (v, i) :: rest) : j = i := by
  rw [List.map_append, List.map_cons] at hnodup
  have hdisjoint := List.nodup_append.mp hnodup
  rw [List.mem_append, List.mem_cons] at hj
  rcases hj with hj | hj | hj
  · exact absurd rfl (hdisjoint.2.2 v (List.mem_map_of_mem (f := Prod.fst) hj) v (List.mem_cons_self))
  · exact (Prod.mk.inj hj).2
  · exact absurd (List.mem_map_of_mem (f := Prod.fst) hj) (List.nodup_cons.mp hdisjoint.2.1).1

/-- What has been followed when one more edge of a node has. -/
theorem followed_advance {front rest : List (ℕ × ℕ)} {v i w : ℕ} (hedge : (succ v)[i]? = some w)
    (hnodup : ((front ++ (v, i) :: rest).map Prod.fst).Nodup) {x y : ℕ}
    (hf : Followed succ (front ++ (v, i + 1) :: rest) x y) :
    Followed succ (front ++ (v, i) :: rest) x y ∨ x = v ∧ y = w := by
  obtain ⟨hmem, hall⟩ := hf
  by_cases heq : x = v
  · have htake := hall (i + 1) (by rw [heq]; simp)
    rw [heq, List.take_add_one, hedge, Option.toList_some, List.mem_append, List.mem_singleton] at htake
    rcases htake with htake | htake
    · refine Or.inl ⟨hmem, fun j hj => ?_⟩
      rw [heq] at hj ⊢
      rw [place_unique hnodup hj]
      exact htake
    · exact Or.inr ⟨heq, htake⟩
  · refine Or.inl ⟨hmem, fun j hj => hall j ?_⟩
    rw [List.mem_append, List.mem_cons] at hj ⊢
    exact hj.imp_right fun hj => Or.inr (hj.resolve_left fun hv => heq (Prod.mk.inj hv).1)

/-- The edges of a node are all followed when it is left. -/
theorem followed_end (hend : (succ v)[i]? = none)
    (hnodup : (((v, i) :: rest).map Prod.fst).Nodup) (hw : w ∈ succ v) :
    Followed succ ((v, i) :: rest) v w := by
  refine ⟨hw, fun j hj => ?_⟩
  rw [@place_unique [] rest v i j hnodup hj, List.take_of_length_le (List.getElem?_eq_none_iff.mp hend)]
  exact hw

/-- What has been followed when a node whose edges all have been is left. -/
theorem followed_leave (hend : (succ v)[i]? = none)
    (hnodup : (((v, i) :: rest).map Prod.fst).Nodup) {x : ℕ} (hf : Followed succ rest x w) :
    Followed succ ((v, i) :: rest) x w := by
  by_cases heq : x = v
  · rw [heq]
    exact followed_end hend hnodup (heq ▸ hf.1)
  · refine ⟨hf.1, fun j hj => hf.2 j ?_⟩
    exact (List.mem_cons.mp hj).resolve_left fun hv => heq (Prod.mk.inj hv).1

end

end Rucc.Explore
