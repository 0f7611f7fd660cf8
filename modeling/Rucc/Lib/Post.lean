import Mathlib.Tactic

/-!
# What a computation that may fail gives

`Post bad x P` says that `x` gives a value with `P` or fails with an error that is not a `bad` one. It
composes along the binds of a computation, so that one rule for each function is enough for its callers.
-/

namespace Rucc

/-- The computation gives a value with the property, or fails, and not badly. -/
def Post {ε α : Type*} (bad : ε → Prop) (x : Except ε α) (P : α → Prop) : Prop :=
  match x with
  | .ok a => P a
  | .error e => ¬ bad e

namespace Post

universe u

variable {ε : Type*} {α β : Type u} {bad : ε → Prop} {x : Except ε α} {P Q : α → Prop}

variable {a : α} {e : ε} {R : β → Prop}

@[simp]
theorem error_iff : Post bad (.error e) P ↔ ¬ bad e := Iff.rfl

theorem mono (h : Post bad x P) (hPQ : ∀ a, P a → Q a) : Post bad x Q := by
  cases x with
  | ok a => exact hPQ a h
  | error e => exact h

/-- A computation followed by another one. -/
theorem bind {f : α → Except ε β} (h : Post bad x P) (hf : ∀ a, P a → Post bad (f a) R) : Post bad (x >>= f) R := by
  cases x with
  | ok a => exact hf a h
  | error e => exact h

theorem map {f : α → β} (h : Post bad x fun a => R (f a)) : Post bad (x.map f) R := by
  cases x with
  | ok a => exact h
  | error e => exact h

theorem ite {c : Prop} [Decidable c] {y : Except ε α} (h : c → Post bad x P) (h' : ¬ c → Post bad y P) :
    Post bad (if c then x else y) P := by
  split
  · exact h ‹c›
  · exact h' ‹¬ c›

/-- What is given has the property. -/
theorem of_ok (h : Post bad x P) (hx : x = .ok a) : P a := by
  rw [hx] at h
  exact h

/-- A failure is not a bad one. -/
theorem not_bad (h : Post bad x P) (hx : x = .error e) : ¬ bad e := by
  rw [hx] at h
  exact h

/-- A loop over a list keeps an invariant of the elements it has still to go over. -/
theorem foldlM {γ : Type*} {f : β → γ → Except ε β} {I : List γ → β → Prop} {l : List γ} {b : β} (h : I l b)
    (hstep : ∀ one rest b, I (one :: rest) b → Post bad (f b one) (I rest)) : Post bad (l.foldlM f b) (I []) := by
  induction l generalizing b with
  | nil => exact h
  | cons one rest ih =>
    rw [List.foldlM_cons]
    exact (hstep one rest b h).bind fun b' hb' => ih hb'

/-- A computation for each element of a list. -/
theorem mapM {γ : Type u} {f : γ → Except ε β} {l : List γ} {Q : β → Prop} (h : ∀ one ∈ l, Post bad (f one) Q) :
    Post bad (l.mapM f) fun out => ∀ b ∈ out, Q b := by
  induction l with
  | nil => exact fun b hb => absurd hb List.not_mem_nil
  | cons one rest ih =>
    rw [List.mapM_cons]
    refine (h one List.mem_cons_self).bind fun b hb => ?_
    refine (ih fun other hin => h other (List.mem_cons_of_mem _ hin)).bind fun out hout => ?_
    intro b' hb'
    obtain rfl | hb' := List.mem_cons.1 hb'
    · exact hb
    · exact hout b' hb'

end Post

end Rucc
