import Mathlib.Tactic

/-!
# Computations that do not stop

A computation that may stop is an option, which is nothing where it stops. `Yields x P` says that it does not
stop and that what it gives has a property. It composes along binds and loops. A vector is a list, whose
places are read and written by index, and a place that is not there stops the program.
-/

namespace Rucc

/-- The vector with a value put in a place. -/
def put {α : Type*} (l : List α) (i : ℕ) (x : α) : Option (List α) := if i < l.length then some (l.set i x) else none

theorem put_of_lt {α : Type*} {l : List α} {i : ℕ} (h : i < l.length) (x : α) : put l i x = some (l.set i x) := if_pos h

/-- The computation does not stop, and gives a value with the property. -/
def Yields {α : Type*} (x : Option α) (P : α → Prop) : Prop := ∃ a, x = some a ∧ P a

namespace Yields

universe u

variable {α β : Type u} {x : Option α} {P Q : α → Prop}

variable {a : α} {l : List α} {i : ℕ}

@[simp]
theorem some_iff : Yields (some a) P ↔ P a := by
  constructor
  · rintro ⟨b, hb, h⟩
    rwa [Option.some.inj hb]
  · exact fun h => ⟨a, rfl, h⟩

@[simp]
theorem pure_iff : Yields (pure a) P ↔ P a := some_iff

theorem mono (h : Yields x P) (hPQ : ∀ a, P a → Q a) : Yields x Q := by
  obtain ⟨a, ha, hP⟩ := h
  exact ⟨a, ha, hPQ a hP⟩

/-- A computation followed by another one. -/
theorem bind {f : α → Option β} {R : β → Prop} (h : Yields x P) (hf : ∀ a, P a → Yields (f a) R) :
    Yields (x >>= f) R := by
  obtain ⟨a, rfl, hP⟩ := h
  exact hf a hP

theorem ite {c : Prop} [Decidable c] {y : Option α} (h : c → Yields x P) (h' : ¬ c → Yields y P) :
    Yields (if c then x else y) P := by
  split
  · exact h ‹c›
  · exact h' ‹¬ c›

/-- A place that is there is read. -/
theorem get (h : i < l.length) : Yields l[i]? fun a => a = l[i] :=
  ⟨l[i], List.getElem?_eq_getElem h, rfl⟩

/-- A place that is there is written. -/
theorem set (h : i < l.length) (a : α) : Yields (put l i a) fun l' => l' = l.set i a :=
  ⟨_, put_of_lt h a, rfl⟩

/-- A loop over a list keeps an invariant of the elements it has been over. -/
theorem foldlM {γ : Type u} {f : β → γ → Option β} {I : List γ → β → Prop} {l : List γ} {b : β} (h : I [] b)
    (hstep : ∀ done a rest b, l = done ++ a :: rest → I done b → Yields (f b a) (I (done ++ [a]))) :
    Yields (l.foldlM f b) (I l) := by
  have hfrom : ∀ rest done b, l = done ++ rest → I done b → Yields (rest.foldlM f b) (I l) := by
    intro rest
    induction rest with
    | nil =>
      intro done b hl hI
      rw [List.append_nil] at hl
      rw [hl]
      exact some_iff.2 hI
    | cons a rest ih =>
      intro done b hl hI
      rw [List.foldlM_cons]
      refine (hstep done a rest b hl hI).bind fun b' hI' => ?_
      exact ih (done ++ [a]) b' (by rw [hl, List.append_assoc, List.singleton_append]) hI'
  exact hfrom l [] b rfl h

end Yields

end Rucc
