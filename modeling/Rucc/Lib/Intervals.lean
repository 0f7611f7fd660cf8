import Mathlib.Data.List.Basic
import Mathlib.Tactic

/-!
# Lists of closed intervals

A list of pairs stands for the union of the closed intervals between them. `Separated` is the
normal form: ascending, disjoint, and with at least one number between two neighbours.
-/

namespace Rucc.Intervals

variable {pairs : List (ℕ × ℕ)}

/-- The number is in one of the intervals. -/
def Covers (pairs : List (ℕ × ℕ)) (v : ℕ) : Prop := ∃ p ∈ pairs, p.1 ≤ v ∧ v ≤ p.2

/-- The intervals ascend, and neither meet nor touch. -/
def Separated (pairs : List (ℕ × ℕ)) : Prop := pairs.Pairwise (fun p q => p.2 + 1 < q.1)

/-- No interval is empty and none reaches past `top`. -/
def Inside (top : ℕ) (pairs : List (ℕ × ℕ)) : Prop := ∀ p ∈ pairs, p.1 ≤ p.2 ∧ p.2 ≤ top

/-- The intervals come in the order of their lower ends. -/
def Ascending (pairs : List (ℕ × ℕ)) : Prop := pairs.Pairwise (fun p q => p.1 ≤ q.1)

section Covers

variable {pairs others : List (ℕ × ℕ)} {v : ℕ}

@[simp]
theorem not_covers_nil : ¬ Covers [] v := by simp [Covers]

@[simp]
theorem covers_cons {p : ℕ × ℕ} : Covers (p :: pairs) v ↔ (p.1 ≤ v ∧ v ≤ p.2) ∨ Covers pairs v := by
  simp [Covers]

@[simp]
theorem covers_append : Covers (pairs ++ others) v ↔ Covers pairs v ∨ Covers others v := by
  simp [Covers, or_and_right, exists_or]

theorem Covers.mono (h : Covers pairs v) (hsub : ∀ p ∈ pairs, p ∈ others) : Covers others v := by
  obtain ⟨p, hp, hv⟩ := h
  exact ⟨p, hsub p hp, hv⟩

theorem Covers.le {top : ℕ} (h : Covers pairs v) (hin : Inside top pairs) : v ≤ top := by
  obtain ⟨p, hp, hv⟩ := h
  have := hin p hp
  omega

end Covers

/-! ## Building a separated list from left to right -/

theorem Inside.append {top : ℕ} {p : ℕ × ℕ} (h : Inside top pairs)
    (hp : p.1 ≤ p.2 ∧ p.2 ≤ top) : Inside top (pairs ++ [p]) := by
  intro q hq
  rcases List.mem_append.mp hq with hq | hq
  · exact h q hq
  · rw [List.mem_singleton] at hq
    rw [hq]
    exact hp

/-- An interval clear of the last one can be appended. -/
theorem Separated.push {pairs : List (ℕ × ℕ)} {last next : ℕ × ℕ} {top : ℕ}
    (h : Separated (pairs ++ [last])) (hin : Inside top (pairs ++ [last]))
    (hclear : last.2 + 1 < next.1) : Separated (pairs ++ [last] ++ [next]) := by
  unfold Separated
  rw [List.pairwise_append]
  refine ⟨h, List.pairwise_singleton _ _, ?_⟩
  intro p hp q hq
  rw [List.mem_singleton] at hq
  subst hq
  rcases List.mem_append.mp hp with hp' | hp'
  · -- The interval ends before the last one begins.
    have hlast := (List.pairwise_append.mp h).2.2 p hp' last (List.mem_singleton_self last)
    have := hin last (List.mem_append_right _ (List.mem_singleton_self last))
    omega
  · rw [List.mem_singleton] at hp'
    subst hp'
    exact hclear

/-- Nothing about the upper end of the last interval matters to the ones before it. -/
theorem Separated.extend {last : ℕ × ℕ} (hi : ℕ)
    (h : Separated (pairs ++ [last])) : Separated (pairs ++ [(last.1, hi)]) := by
  obtain ⟨hinit, -, hlast⟩ := List.pairwise_append.mp h
  unfold Separated
  rw [List.pairwise_append]
  refine ⟨hinit, List.pairwise_singleton _ _, ?_⟩
  intro p hp q hq
  rw [List.mem_singleton] at hq
  subst hq
  exact hlast p hp last (List.mem_singleton_self last)

/-! ## The ends of a separated list -/

section Ends

variable {pairs : List (ℕ × ℕ)} {p : ℕ × ℕ} {v top : ℕ}

variable {b : ℕ}

/-- The first interval that ends at or above a bound starts below everything covered from that bound
on. -/
theorem Separated.find_le (h : Separated pairs) (hin : Inside top pairs)
    (hfind : pairs.find? (fun p => decide (b ≤ p.2)) = some p) (hv : Covers pairs v) (hb : b ≤ v) :
    p.1 ≤ v := by
  obtain ⟨q, hq, hqv⟩ := hv
  obtain ⟨-, before, after, rfl, hbefore⟩ := List.find?_eq_some_iff_append.mp hfind
  rcases List.mem_append.mp hq with hq' | hq'
  · have hno := hbefore q hq'
    simp only [Bool.not_eq_true', decide_eq_false_iff_not] at hno
    omega
  rcases List.mem_cons.mp hq' with rfl | hq''
  · exact hqv.1
  -- The covering interval comes later, so it starts above the end of this one.
  have hpq := List.rel_of_pairwise_cons (List.pairwise_append.mp h).2.1 hq''
  have := hin p (by simp)
  omega

/-- The last interval that starts below a bound ends above everything covered below that bound. -/
theorem Separated.le_find_reverse (h : Separated pairs) (hin : Inside top pairs)
    (hfind : pairs.reverse.find? (fun p => decide (p.1 < b)) = some p) (hv : Covers pairs v)
    (hb : v < b) : v ≤ p.2 := by
  obtain ⟨q, hq, hqv⟩ := hv
  obtain ⟨-, before, after, hrev, hbefore⟩ := List.find?_eq_some_iff_append.mp hfind
  have hpairs : pairs.reverse.Pairwise (fun p q => q.2 + 1 < p.1) := List.pairwise_reverse.mpr h
  have hq' : q ∈ pairs.reverse := List.mem_reverse.mpr hq
  have hp : p ∈ pairs := by
    rw [← List.mem_reverse, hrev]
    simp
  rw [hrev] at hpairs hq'
  rcases List.mem_append.mp hq' with hq' | hq'
  · have hno := hbefore q hq'
    simp only [Bool.not_eq_true', decide_eq_false_iff_not] at hno
    omega
  rcases List.mem_cons.mp hq' with rfl | hq''
  · exact hqv.2
  have hpq := List.rel_of_pairwise_cons (List.pairwise_append.mp hpairs).2.1 hq''
  have := hin p hp
  omega

/-- The first interval starts below everything covered. -/
theorem Separated.head_le (h : Separated pairs) (hin : Inside top pairs)
    (hhead : pairs.head? = some p) (hv : Covers pairs v) : p.1 ≤ v := by
  apply h.find_le hin _ hv (Nat.zero_le v)
  obtain ⟨tail, rfl⟩ := List.head?_eq_some_iff.mp hhead
  simp

/-- The last interval ends above everything covered. -/
theorem Separated.le_getLast (h : Separated pairs) (hin : Inside top pairs)
    (hlast : pairs.getLast? = some p) (hv : Covers pairs v) : v ≤ p.2 := by
  obtain ⟨init, rfl⟩ := List.getLast?_eq_some_iff.mp hlast
  have hp := hin p (by simp)
  apply h.le_find_reverse (b := max v p.1 + 1) hin _ hv (by omega)
  simp

end Ends

end Rucc.Intervals
