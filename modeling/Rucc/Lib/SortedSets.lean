import Mathlib.Data.Finset.Basic
import Mathlib.Tactic

/-!
# Finite sets as sorted lists

A finite set of a linear order has one list of its elements in order, without repetition. A binary search says whether
an element is in it and where it would go, and two such lists are merged into the one of the union or of the
intersection by walking them together.
-/

namespace Rucc.SortedSets

variable {α : Type*} [LinearOrder α] {l m : List α} {x : α}

/-- The elements come in order, each once. -/
abbrev Increasing (l : List α) : Prop := l.Pairwise (· < ·)

/-- Two lists in order of the same elements are the same. -/
theorem Increasing.ext (hl : Increasing l) (hm : Increasing m) (h : ∀ x, x ∈ l ↔ x ∈ m) : l = m := by
  have hnodup {l : List α} (hl : Increasing l) : l.Nodup := hl.imp fun h => h.ne
  have hperm : l.Perm m := (List.perm_ext_iff_of_nodup (hnodup hl) (hnodup hm)).2 h
  exact hperm.eq_of_pairwise (fun a b _ _ hab hba => absurd hba hab.asymm) hl hm

/-! ## Searching -/

/-- Where a binary search finds an element of a list in order, or where it would go to keep the order. -/
def binarySearch (l : List α) (x : α) : Except ℕ ℕ :=
  let index := (l.takeWhile (· < x)).length
  if l[index]? = some x then .ok index else .error index

omit [LinearOrder α] in
theorem drop_takeWhile (p : α → Bool) (l : List α) : l.drop (l.takeWhile p).length = l.dropWhile p := by
  induction l with
  | nil => rfl
  | cons y l ih =>
    by_cases hy : p y = true
    · rw [List.takeWhile_cons_of_pos hy, List.dropWhile_cons_of_pos hy]
      exact ih
    · rw [List.takeWhile_cons_of_neg hy, List.dropWhile_cons_of_neg hy]
      rfl

/-- What is past the elements below one starts with it, or is above it. -/
theorem Increasing.dropWhile (hl : Increasing l) (x : α) :
    ((l.dropWhile (· < x)).head? = some x ∧ x ∈ l) ∨
      ((l.dropWhile (· < x)).head? ≠ some x ∧ x ∉ l ∧ ∀ y ∈ l.dropWhile (· < x), x < y) := by
  induction l with
  | nil => exact Or.inr ⟨by simp, List.not_mem_nil, by simp⟩
  | cons y l ih =>
    obtain ⟨hy, hl⟩ := List.pairwise_cons.1 hl
    by_cases hlt : y < x
    · rw [List.dropWhile_cons_of_pos (by simpa using hlt)]
      refine (ih hl).imp (fun ⟨hhead, hin⟩ => ⟨hhead, List.mem_cons_of_mem _ hin⟩) fun ⟨hhead, hnot, habove⟩ => ?_
      exact ⟨hhead, List.not_mem_cons_of_ne_of_not_mem hlt.ne' hnot, habove⟩
    · rw [List.dropWhile_cons_of_neg (by simpa using hlt)]
      obtain heq | hgt := (not_lt.1 hlt).eq_or_lt
      · exact Or.inl ⟨by rw [heq]; rfl, heq ▸ List.mem_cons_self⟩
      · have habove : ∀ z ∈ y :: l, x < z := by
          intro z hz
          obtain rfl | hz := List.mem_cons.1 hz
          · exact hgt
          · exact hgt.trans (hy z hz)
        refine Or.inr ⟨fun heq => hgt.ne' (Option.some.inj heq), fun hin => (habove x hin).false, habove⟩

theorem binarySearch_spec (hl : Increasing l) (x : α) :
    (∃ index, binarySearch l x = .ok index ∧ x ∈ l) ∨ ∃ index, binarySearch l x = .error index ∧ x ∉ l ∧
      Increasing (l.take index ++ x :: l.drop index) ∧ ∀ y, y ∈ l.take index ++ x :: l.drop index ↔ y = x ∨ y ∈ l := by
  unfold binarySearch
  dsimp only
  rw [← List.head?_drop, drop_takeWhile]
  obtain ⟨hhead, hin⟩ | ⟨hhead, hnot, habove⟩ := hl.dropWhile x
  · exact Or.inl ⟨_, if_pos hhead, hin⟩
  · refine Or.inr ⟨_, if_neg hhead, hnot, ?_, fun y => ?_⟩
    · have htake : l.take (l.takeWhile (· < x)).length = l.takeWhile (· < x) :=
        (List.prefix_iff_eq_take.1 (List.takeWhile_prefix _)).symm
      rw [htake, drop_takeWhile]
      refine List.pairwise_append.2 ⟨hl.sublist (List.takeWhile_sublist _), ?_, ?_⟩
      · exact List.pairwise_cons.2 ⟨habove, hl.sublist (List.dropWhile_sublist _)⟩
      · intro a ha b hb
        have hax : a < x := by simpa using List.all_eq_true.1 List.all_takeWhile a ha
        obtain rfl | hb := List.mem_cons.1 hb
        · exact hax
        · exact hax.trans (habove b hb)
    · rw [List.mem_append, List.mem_cons, or_left_comm, ← List.mem_append, List.take_append_drop]

end Rucc.SortedSets
