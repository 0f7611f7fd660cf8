import Mathlib.Tactic

/-!
# Clocks along a causal order

Points in the runs of several threads, each with the clock its thread stood at, and a relation between
points that says which one another is handed to directly. Where every single link moves the clocks forward,
so does the causal order that the links generate. The clocks may stop at a largest one.
-/

namespace Rucc.Lamport

variable {ι τ : Type*} {thread : ι → τ} {time : ι → ℕ} {top : ℕ} {link : ι → ι → Prop}

/-- A later point of one thread is no further back, and a point that was handed another one is past it, or at
the largest clock. -/
def Follows (thread : ι → τ) (time : ι → ℕ) (top : ℕ) (i j : ι) : Prop :=
  thread i = thread j ∧ time i ≤ time j ∨ min (time i + 1) top ≤ time j

theorem Follows.trans {i j k : ι} (hij : Follows thread time top i j) (hjk : Follows thread time top j k) :
    Follows thread time top i k := by
  unfold Follows at hij hjk ⊢
  obtain ⟨hthread, hle⟩ | hlt := hij
  · obtain ⟨hthread', hle'⟩ | hlt' := hjk
    · exact Or.inl ⟨hthread.trans hthread', hle.trans hle'⟩
    · exact Or.inr (by omega)
  · obtain ⟨-, hle'⟩ | hlt' := hjk
    · exact Or.inr (hlt.trans hle')
    · exact Or.inr (by omega)

/-- The clocks move forward along the causal order that the links generate. -/
theorem follows_of_transGen (hlink : ∀ i j, link i j → Follows thread time top i j) {i j : ι}
    (h : Relation.TransGen link i j) : Follows thread time top i j := by
  induction h with
  | single h => exact hlink _ _ h
  | tail _ h ih => exact ih.trans (hlink _ _ h)

/-- What is not at the largest clock and not behind a point of another thread is not before it. -/
theorem not_before (hlink : ∀ i j, link i j → Follows thread time top i j) {i j : ι} {clock : ℕ}
    (hthread : thread i ≠ thread j) (hclock : clock ≤ time i) (htop : clock < top) (hle : time j ≤ clock) :
    ¬ Relation.TransGen link i j := by
  intro h
  obtain ⟨hsame, -⟩ | hlt := follows_of_transGen hlink h
  · exact hthread hsame
  · omega

end Rucc.Lamport
