import Mathlib.Tactic

/-!
# Recursion bounded by a counter of rounds

A recursion that is bounded by a counter gives nothing where the rounds run out. One computation is extended by another
one that gives what it gives, and a function of the rounds settles on a result where any number of rounds from some on
gives it. A function that more rounds extend settles on what it gives at all.
-/

namespace Rucc

variable {α β : Type*}

/-- What the first computation gives, the second one gives. -/
def Extends (x y : Option α) : Prop := ∀ a, x = some a → y = some a

namespace Extends

theorem refl (x : Option α) : Extends x x := fun _ h => h

theorem none_left (y : Option α) : Extends none y := fun _ h => nomatch h

theorem bind {x y : Option α} {f g : α → Option β} (h : Extends x y) (hfg : ∀ a, Extends (f a) (g a)) :
    Extends (x.bind f) (y.bind g) := by
  intro b hb
  obtain ⟨a, ha, hf⟩ := Option.bind_eq_some_iff.1 hb
  exact Option.bind_eq_some_iff.2 ⟨a, h a ha, hfg a b hf⟩

/-- A function that one more round extends is extended by any number of them. -/
theorem of_step {f : ℕ → Option α} (h : ∀ n, Extends (f n) (f (n + 1))) {m n : ℕ} (hmn : m ≤ n) :
    Extends (f m) (f n) := by
  induction n, hmn using Nat.le_induction with
  | base => exact refl _
  | succ n _ ih => exact fun a ha => h n a (ih a ha)

end Extends

/-- Any number of rounds from some on gives the result. -/
def Settles (f : ℕ → Option α) (a : α) : Prop := ∃ n, ∀ m ≥ n, f m = some a

namespace Settles

variable {f : ℕ → Option α} {a : α}

theorem const (a : α) : Settles (fun _ => some a) a := ⟨0, fun _ _ => rfl⟩

theorem bind {g : ℕ → α → Option β} {b : β} (hf : Settles f a) (hg : Settles (fun n => g n a) b) :
    Settles (fun n => (f n).bind (g n)) b := by
  obtain ⟨m, hm⟩ := hf
  obtain ⟨n, hn⟩ := hg
  refine ⟨max m n, fun k hk => ?_⟩
  show (f k).bind (g k) = some b
  rw [hm k (le_of_max_le_left hk), Option.bind_some]
  exact hn k (le_of_max_le_right hk)

/-- A function whose every round is a round of another one further. -/
theorem of_succ {g : ℕ → Option α} (h : ∀ n, f (n + 1) = g n) (hg : Settles g a) : Settles f a := by
  obtain ⟨n, hn⟩ := hg
  refine ⟨n + 1, fun m hm => ?_⟩
  obtain ⟨k, rfl⟩ := Nat.exists_eq_add_of_le' (Nat.one_le_of_lt hm)
  rw [h]
  exact hn k (Nat.le_of_succ_le_succ hm)

/-- What is given by a number of rounds is what the function settles on. -/
theorem eq_of_some (hf : Settles f a) (hstep : ∀ n, Extends (f n) (f (n + 1))) {n : ℕ} {b : α} (h : f n = some b) :
    b = a := by
  obtain ⟨m, hm⟩ := hf
  have hmax := Extends.of_step hstep (le_max_left n m) b h
  rw [hm _ (le_max_right n m)] at hmax
  exact (Option.some.inj hmax).symm

end Settles

end Rucc
