import Mathlib.Logic.Relation
import Mathlib.Tactic

/-!
# Ways up a forest

A forest given by the parent of each node, if it has one, with a height that goes down on the way up: the nodes on the
way up from one, and the ones of them before a node where the way stops.
-/

namespace Rucc.Ascent

open Relation

variable {α : Type*} {up : α → Option α} {x y z : α}

/-- A node and the ones on the way up from it. -/
def Above (up : α → Option α) : α → α → Prop := ReflTransGen fun x y => up x = some y

/-- The parent of a node is less high. -/
def Rooted (up : α → Option α) (height : α → ℕ) : Prop := ∀ x y, up x = some y → height y < height x

/-- On the way up from a node, before the one where the way stops. -/
def Before (up : α → Option α) (stop : Option α) (x y : α) : Prop :=
  Above up x y ∧ ∀ top, stop = some top → ¬ Above up top y

theorem above_some (hup : up x = some y) : Above up x z ↔ x = z ∨ Above up y z := by
  constructor
  · intro habove
    rcases ReflTransGen.cases_head habove with heq | ⟨w, hw, hrest⟩
    · exact Or.inl heq
    · rw [Option.some.inj (hup.symm.trans hw)]
      exact Or.inr hrest
  · rintro (rfl | hrest)
    · exact .refl
    · exact hrest.head hup

theorem above_none (hup : up x = none) : Above up x z ↔ x = z := by
  constructor
  · intro habove
    rcases ReflTransGen.cases_head habove with heq | ⟨w, hw, -⟩
    · exact heq
    · rw [hup] at hw
      cases hw
  · rintro rfl
    exact .refl

/-- Nothing is before the start of a way. -/
theorem not_before_self : ¬ Before up (some x) x y := fun hbefore => hbefore.2 x rfl hbefore.1

section

variable {height : α → ℕ} (h : Rooted up height)

include h

theorem Rooted.le (habove : Above up x y) : height y ≤ height x := by
  induction habove with
  | refl => exact le_rfl
  | tail _ hup ih => exact (h _ _ hup).le.trans ih

theorem Rooted.antisymm (hxy : Above up x y) (hyx : Above up y x) : x = y := by
  rcases ReflTransGen.cases_head hxy with heq | ⟨w, hw, hrest⟩
  · exact heq
  · have hlt := h _ _ hw
    have hle := (h.le hrest).trans' (h.le hyx)
    omega

/-- Strictly above a node is what is on the way up from its parent. -/
theorem Rooted.strict : y ≠ x ∧ Above up x y ↔ ∃ top, up x = some top ∧ Above up top y := by
  constructor
  · rintro ⟨hne, habove⟩
    rcases ReflTransGen.cases_head habove with heq | hhead
    · exact absurd heq.symm hne
    · exact hhead
  · rintro ⟨top, hup, habove⟩
    refine ⟨?_, habove.head hup⟩
    rintro rfl
    have hlt := h _ _ hup
    have hle := h.le habove
    omega

/-- Before the parent of a node on a way up is what is not strictly above the node. -/
theorem Rooted.before_iff {w : α} : Before up (up x) w y ↔ Above up w y ∧ ¬ (y ≠ x ∧ Above up x y) := by
  rw [Before, h.strict]
  push Not
  rfl

/-- What is before the end of a way is its start, and then what is before the end from the parent of the start. -/
theorem Rooted.before_some {stop : Option α} (hup : up x = some z) (hne : some x ≠ stop)
    (hstop : ∀ top, stop = some top → Above up x top) : Before up stop x y ↔ y = x ∨ Before up stop z y := by
  rw [Before, Before, above_some hup]
  constructor
  · rintro ⟨rfl | habove, hnot⟩
    · exact Or.inl rfl
    · exact Or.inr ⟨habove, hnot⟩
  · rintro (rfl | ⟨habove, hnot⟩)
    · refine ⟨Or.inl rfl, fun top htop habove => hne ?_⟩
      rw [htop, h.antisymm (hstop top htop) habove]
    · exact ⟨Or.inr habove, hnot⟩

end

/-- The way up from a node that has no parent is that node. -/
theorem before_none (hup : up x = none) {stop : Option α} (hne : some x ≠ stop)
    (hstop : ∀ top, stop = some top → Above up x top) : Before up stop x y ↔ y = x := by
  rw [Before, above_none hup]
  constructor
  · exact fun hbefore => hbefore.1.symm
  · rintro rfl
    refine ⟨rfl, fun top htop _ => hne ?_⟩
    rw [htop, (above_none hup).1 (hstop top htop)]

end Rucc.Ascent
