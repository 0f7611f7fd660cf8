import Mathlib.Dynamics.PeriodicPts.Lemmas
import Mathlib.Data.Set.Card
import Mathlib.Tactic

/-!
# Cycles of a function

A function from a type to itself takes each point to a next one. Its cycles are the orbits of more than one point
that come back to where they start. Changing the function at one point keeps the cycles that do not go through the
point, and where nothing goes on from the new value no cycle goes through it afterwards.
-/

namespace Rucc.Cycles

open Function

variable {α : Type*} {f g : α → α} {a b x y : α}

variable {s : Set α}

/-- Where a point goes, itself included. -/
def orbit (f : α → α) (x : α) : Set α := {y | ∃ n, f^[n] x = y}

/-- The orbits of more than one point that come back to where they start. -/
def cycles (f : α → α) : Set (Set α) := {c | ∃ x, f x ≠ x ∧ x ∈ periodicPts f ∧ c = orbit f x}

theorem mem_orbit_self (f : α → α) (x : α) : x ∈ orbit f x := ⟨0, rfl⟩

/-- From any point of a cycle one comes back to any other. -/
theorem orbit_back (hx : x ∈ periodicPts f) (hy : y ∈ orbit f x) : x ∈ orbit f y := by
  obtain ⟨n, rfl⟩ := hy
  obtain ⟨k, hk, hperiod⟩ := mem_periodicPts.1 hx
  -- a multiple of the period that is past `n`
  have hle : n ≤ n * k := Nat.le_mul_of_pos_right n hk
  refine ⟨n * k - n, ?_⟩
  rw [← iterate_add_apply, Nat.sub_add_cancel hle]
  exact hperiod.const_mul n

theorem orbit_subset (hy : y ∈ orbit f x) : orbit f y ⊆ orbit f x := by
  obtain ⟨n, rfl⟩ := hy
  rintro _ ⟨m, rfl⟩
  exact ⟨m + n, iterate_add_apply f m n x⟩

theorem orbit_eq (hx : x ∈ periodicPts f) (hy : y ∈ orbit f x) : orbit f y = orbit f x :=
  Set.Subset.antisymm (orbit_subset hy) (orbit_subset (orbit_back hx hy))

theorem mem_periodicPts_orbit (hx : x ∈ periodicPts f) (hy : y ∈ orbit f x) : y ∈ periodicPts f := by
  obtain ⟨n, rfl⟩ := hy
  obtain ⟨k, hk, hperiod⟩ := mem_periodicPts.1 hx
  exact mk_mem_periodicPts hk (hperiod.apply_iterate n)

/-- The points of a cycle all move. -/
theorem ne_of_mem_orbit (hx : x ∈ periodicPts f) (hne : f x ≠ x) (hy : y ∈ orbit f x) : f y ≠ y := by
  intro hfix
  obtain ⟨n, hn⟩ := orbit_back hx hy
  rw [iterate_fixed hfix] at hn
  rw [← hn] at hne
  exact hne hfix

theorem cycle_finite (hs : s.Finite) (hout : ∀ x, x ∉ s → f x = x) : (cycles f).Finite := by
  refine (hs.image (orbit f)).subset ?_
  rintro _ ⟨x, hne, -, rfl⟩
  exact ⟨x, by_contra fun hx => hne (hout x hx), rfl⟩

section Changed

variable (hsame : ∀ x, x ≠ a → g x = f x)
include hsame

theorem iterate_of_notMem (ha : a ∉ orbit f x) (n : ℕ) : g^[n] x = f^[n] x := by
  induction n with
  | zero => rfl
  | succ n ih =>
    rw [iterate_succ_apply', iterate_succ_apply', ih]
    exact hsame _ fun heq => ha ⟨n, heq⟩

/-- A cycle that does not go through the point is kept. -/
theorem cycle_of_notMem {c : Set α} (hc : c ∈ cycles f) (ha : a ∉ c) : c ∈ cycles g := by
  obtain ⟨x, hne, hx, rfl⟩ := hc
  have hsteps := iterate_of_notMem hsame ha
  obtain ⟨k, hk, hperiod⟩ := mem_periodicPts.1 hx
  refine ⟨x, ?_, mk_mem_periodicPts hk ((hsteps k).trans hperiod), ?_⟩
  · rw [hsame x fun heq => ha (heq ▸ mem_orbit_self f x)]
    exact hne
  · unfold orbit
    simp only [hsteps]

end Changed

/-- Where the new value goes nowhere, the cycles that are left are those that do not go through the point. -/
theorem cycles_changed (hsame : ∀ x, x ≠ a → g x = f x) (hvalue : g a = b) (hend : g b = b) :
    cycles g = {c ∈ cycles f | a ∉ c} := by
  ext c
  constructor
  · rintro ⟨x, hne, hx, rfl⟩
    have ha : a ∉ orbit g x := by
      intro ha
      -- the orbit ends in the new value, from which one does not come back
      have hb : b ∈ orbit g x := orbit_subset ha ⟨1, hvalue⟩
      exact ne_of_mem_orbit hx hne hb hend
    exact ⟨cycle_of_notMem (fun y hy => (hsame y hy).symm) ⟨x, hne, hx, rfl⟩ ha, ha⟩
  · rintro ⟨hc, ha⟩
    exact cycle_of_notMem hsame hc ha

/-- A point that nothing else goes to is on no cycle. -/
theorem notMem_cycle (hno : ∀ y, f y = a → y = a) {c : Set α} (hc : c ∈ cycles f) : a ∉ c := by
  obtain ⟨x, hne, hx, rfl⟩ := hc
  intro ha
  have hmoves := ne_of_mem_orbit hx hne ha
  obtain ⟨k, hk, hperiod⟩ := mem_periodicPts.1 (mem_periodicPts_orbit hx ha)
  obtain ⟨k, rfl⟩ := Nat.exists_eq_succ_of_ne_zero hk.ne'
  have hback : f (f^[k] a) = a := (iterate_succ_apply' f k a).symm.trans hperiod
  have hbefore := hno _ hback
  rw [hbefore] at hback
  exact hmoves hback

theorem cycles_unread (hsame : ∀ x, x ≠ a → g x = f x) (hvalue : g a = a) (hno : ∀ y, f y = a → y = a) :
    cycles g = cycles f := by
  rw [cycles_changed hsame hvalue hvalue]
  exact Set.sep_eq_self_iff_mem_true.2 fun c hc => notMem_cycle hno hc

/-- A cycle that is cut is one less. -/
theorem cycles_cut (hfinite : (cycles f).Finite) (hsame : ∀ x, x ≠ a → g x = f x) (hvalue : g a = b) (hend : g b = b)
    (hmoves : f a ≠ a) (ha : a ∈ periodicPts f) : (cycles g).ncard + 1 = (cycles f).ncard := by
  have hone : orbit f a ∈ cycles f := ⟨a, hmoves, ha, rfl⟩
  have hrest : cycles g = cycles f \ {orbit f a} := by
    rw [cycles_changed hsame hvalue hend]
    ext c
    refine and_congr_right fun hc => ?_
    obtain ⟨x, -, hx, rfl⟩ := hc
    rw [Set.mem_singleton_iff]
    exact ⟨fun hnot heq => hnot (heq ▸ mem_orbit_self f a), fun hne hin => hne (orbit_eq hx hin).symm⟩
  rw [hrest]
  exact Set.ncard_sdiff_singleton_add_one hone hfinite

/-- A function that takes a finite set into itself, no two points to the same one, goes round in it. -/
theorem mem_periodicPts_of_injOn (hs : s.Finite) (hmaps : Set.MapsTo f s s) (hinj : Set.InjOn f s)
    (hx : x ∈ s) : x ∈ periodicPts f := by
  have := hs.to_subtype
  have hround := (hmaps.restrict_inj.2 hinj).mem_periodicPts ⟨x, hx⟩
  have hval : Semiconj Subtype.val (hmaps.restrict f s s) f := fun _ => rfl
  exact hval.mapsTo_periodicPts hround

end Rucc.Cycles
