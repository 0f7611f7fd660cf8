import Mathlib.Tactic

/-!
# Lists that grow at the end, and counts

What is at a place of a list that one element was added to, and how a count goes down.
-/

namespace Rucc

variable {α : Type*} {l : List α}

variable {x y : α} {i : ℕ}

/-- A place of a list with one more element is one of the list or the last one. -/
theorem getElem?_snoc (h : (l ++ [x])[i]? = some y) : (i < l.length ∧ l[i]? = some y) ∨ (i = l.length ∧ x = y) := by
  have hlt := (List.getElem?_eq_some_iff.mp h).1
  rw [List.length_append, List.length_singleton] at hlt
  by_cases hi : i < l.length
  · rw [List.getElem?_append_left hi] at h
    exact Or.inl ⟨hi, h⟩
  · obtain rfl : i = l.length := by omega
    rw [List.getElem?_append_right le_rfl, Nat.sub_self] at h
    exact Or.inr ⟨rfl, by simpa using h⟩

/-- What was at a place is there still. -/
theorem getElem?_append_singleton (h : l[i]? = some y) : (l ++ [x])[i]? = some y := by
  rw [List.getElem?_append_left (List.getElem?_eq_some_iff.1 h).1, h]

/-- Fewer of a list are counted when one of them no longer is. -/
theorem countP_lt_of_mem {p q : α → Bool} (hsub : ∀ x, p x = true → q x = true) {a : α} (ha : a ∈ l)
    (hq : q a = true) (hp : p a = false) : l.countP p < l.countP q := by
  obtain ⟨front, back, rfl⟩ := List.append_of_mem ha
  rw [List.countP_append, List.countP_append, List.countP_cons_of_pos hq, List.countP_cons_of_neg (by simp [hp])]
  have hfront : front.countP p ≤ front.countP q := List.countP_mono_left fun x _ => hsub x
  have hback : back.countP p ≤ back.countP q := List.countP_mono_left fun x _ => hsub x
  omega

end Rucc
