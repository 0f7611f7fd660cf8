import Mathlib.Data.Finset.Card
import Rucc.Opt.MemSsaWalk

/-!
# The walk comes to an end

A walk goes to each version of memory at most once, and every version it goes to is one that a path ends
with. So the rounds that `clobber` gives it are enough.
-/

namespace Rucc.Opt.MemSsa

variable {f : Func} {al : Alias} {d : Doms} {c : Chain} {reference : Access}

variable {w w' : Walk} {i : Inst}

/-- The versions that a function can have. -/
def allVersions (f : Func) : List Version :=
  .entry :: ((List.range f.blocks.length).map .param ++
    (List.range f.blocks.length).flatMap fun b => (List.range (f.insts b).length).map fun k => .result (b, k))

theorem length_allVersions (f : Func) : (allVersions f).length = versions f := by
  have hinsts : (List.range f.blocks.length).map (fun b => (f.insts b).length) =
      f.blocks.map fun data => data.insts.length := by
    refine List.ext_getElem? fun b => ?_
    rw [List.getElem?_map, List.getElem?_map]
    by_cases hb : b < f.blocks.length
    · rw [List.getElem?_range hb, List.getElem?_eq_getElem hb, Option.map_some, Option.map_some, Func.insts,
        List.getElem?_eq_getElem hb]
      rfl
    · rw [List.getElem?_eq_none (by simpa using hb), List.getElem?_eq_none (by omega)]
      rfl
  rw [allVersions, versions, List.length_cons, List.length_append, List.length_map, List.length_range,
    List.length_flatMap, ← hinsts]
  simp only [List.length_map, List.length_range]
  omega

/-- A version that some path ends with. -/
def Live (f : Func) (c : Chain) (v : Version) : Prop :=
  ∃ es e, f.Path (es ++ [e]) ∧ c.reach f (es ++ [e]) = v

/-- How many versions a walk has not been to. -/
def left (f : Func) (w : Walk) : ℕ := ((allVersions f).toFinset \ w.seen.toFinset).card

theorem left_mono (hsub : w.seen ⊆ w'.seen) : left f w' ≤ left f w := by
  refine Finset.card_le_card (Finset.sdiff_subset_sdiff le_rfl fun v hv => ?_)
  exact List.mem_toFinset.mpr (hsub (List.mem_toFinset.mp hv))

theorem left_lt {v : Version} (hv : v ∈ allVersions f) (hnew : v ∉ w.seen)
    (hseen : w'.seen = v :: w.seen) : left f w' < left f w := by
  refine Finset.card_lt_card (Finset.ssubset_iff_of_subset ?_ |>.mpr ⟨v, ?_, ?_⟩)
  · refine Finset.sdiff_subset_sdiff le_rfl fun u hu => ?_
    rw [List.mem_toFinset, hseen]
    exact List.mem_cons_of_mem _ (List.mem_toFinset.mp hu)
  · simp [hv, hnew]
  · simp [hseen]

theorem lt_of_inst {data : InstData} (h : f.inst i = some data) :
    i.1 < f.blocks.length ∧ i.2 < (f.insts i.1).length := by
  have hlt := (List.getElem?_eq_some_iff.mp h).1
  refine ⟨?_, hlt⟩
  by_contra hge
  rw [Func.insts, List.getElem?_eq_none (by omega)] at hlt
  exact absurd hlt (by simp)

theorem lt_of_writes (h : f.writes i) : i.1 < f.blocks.length ∧ i.2 < (f.insts i.1).length := by
  obtain ⟨data, hdata, -⟩ := (Option.any_eq_true _ _).mp h
  exact lt_of_inst hdata

section

variable (h : Built f d c)

variable {v : Version}

include h

theorem Live.mem (hlive : Live f c v) : v ∈ allVersions f := by
  obtain ⟨es, e, hpath, hreach⟩ := hlive
  rw [allVersions, List.mem_cons, List.mem_append, List.mem_map, List.mem_flatMap]
  rcases reach_made h.carries es e hpath hreach with ⟨hv, -⟩ | ⟨_, _, _, -, -, -, hmade⟩
  · exact Or.inl hv
  rcases hmade with ⟨b, hparam, -, rfl⟩ | ⟨i, hwrites, -, rfl⟩
  · obtain ⟨x, -, hb, -⟩ := h.source b hparam
    exact Or.inr (Or.inl ⟨b, List.mem_range.mpr (h.lt hb), rfl⟩)
  · obtain ⟨hb, hk⟩ := lt_of_writes hwrites
    exact Or.inr (Or.inr ⟨i.1, List.mem_range.mpr hb, List.mem_map.mpr ⟨i.2, List.mem_range.mpr hk, rfl⟩⟩)

/-- What comes to a parameter is what some path ends with. -/
theorem live_ways {b : ℕ} (hv : some v ∈ ways f c b) : Live f c v := by
  obtain ⟨p, hp, hv⟩ := List.mem_flatMap.mp hv
  obtain ⟨-, -, hends⟩ := List.mem_map.mp hv
  have hpmem := h.all p (size_cfg f ▸ List.mem_range.mp (List.mem_filter.mp hp).1)
  obtain ⟨es, e, hpath, hplace⟩ := h.exists_path hpmem
  refine ⟨es, e, hpath, ?_⟩
  have hreach := h.reach_end hpath hplace
  exact Option.some.inj (hreach.symm.trans hends)

/-- What an instruction takes is what some path ends with. -/
theorem live_memIn {i : Inst} (htouches : f.touches i) (hv : c.memIn i = some v) : Live f c v := by
  obtain ⟨data, hdata, -⟩ := (Option.any_eq_true _ _).mp htouches
  obtain ⟨hb, hk⟩ := lt_of_inst hdata
  have hbmem := h.all i.1 hb
  have henter : ∃ es, f.Path (es ++ [.enter i.1]) := by
    by_cases hzero : i.1 = 0
    · exact ⟨[], by rw [hzero]; exact Func.path_start⟩
    · obtain ⟨p, hp, hpmem, -⟩ := h.tree.exists_pred hbmem hzero
      obtain ⟨es, e, hpath, hplace⟩ := h.exists_path hpmem
      refine ⟨es ++ [e], ?_⟩
      rw [List.append_assoc]
      refine Func.path_snoc.mpr ⟨hpath, Or.inr ⟨by rw [hplace], i.1, ?_, rfl⟩⟩
      rw [hplace]
      exact mem_predecessors.mp hp
  obtain ⟨es, henter⟩ := henter
  obtain ⟨es', e, hpath, hplace⟩ := path_through henter i.2 hk.le
  refine ⟨es', e, hpath, ?_⟩
  have hexec : f.Path (es' ++ [e] ++ [.exec i]) := by
    rw [List.append_assoc]
    exact Func.path_snoc.mpr ⟨hpath, Or.inl ⟨by rw [hplace]; exact hk, by rw [hplace]⟩⟩
  have hmem := h.carries.memIn _ i hexec htouches
  exact Option.some.inj (hmem.symm.trans hv)

omit h in
theorem merge_some {walk : Version → Walk → Option (Option Clobber × Walk)} {n : ℕ}
    (hwalk : ∀ v w, Live f c v → left f w < n → ∃ r, walk v w = some r ∧ w.seen ⊆ r.2.seen)
    (l : List (Option Version)) (hl : ∀ v, some v ∈ l → Live f c v) : ∀ answer w, left f w < n →
      ∃ r, merge walk answer l w = some r ∧ w.seen ⊆ r.2.seen := by
  induction l with
  | nil => exact fun answer w _ => ⟨(answer, w), rfl, fun v hv => hv⟩
  | cons x l ih =>
    intro answer w hleft
    have ih := ih fun v hv => hl v (List.mem_cons_of_mem _ hv)
    cases x with
    | none => exact ih answer w hleft
    | some v =>
      obtain ⟨r, hr, hsub⟩ := hwalk v w (hl v (List.mem_cons_self)) hleft
      rw [merge, hr, Option.bind_some]
      dsimp only
      split
      · exact ⟨_, rfl, hsub⟩
      · obtain ⟨r', hr', hsub'⟩ := ih (combine answer r.1) r.2 ((left_mono hsub).trans_lt hleft)
        exact ⟨r', hr', fun u hu => hsub' (hsub hu)⟩

/-- With more rounds than versions it has not been to a walk ends. -/
theorem back_some (rounds : ℕ) : ∀ v w, Live f c v → left f w < rounds →
    ∃ r, back f al c reference rounds v w = some r ∧ w.seen ⊆ r.2.seen := by
  induction rounds with
  | zero => exact fun v w _ hlt => absurd hlt (Nat.not_lt_zero _)
  | succ rounds ih =>
    intro v w hlive hlt
    rw [back]
    by_cases hseen : v ∈ w.seen
    · exact ⟨(none, w), by rw [if_pos hseen], fun u hu => hu⟩
    rw [if_neg hseen]
    have hfewer : ∀ w' : Walk, w'.seen = v :: w.seen → left f w' < rounds := fun w' hw' => by
      have := left_lt (hlive.mem h) hseen hw'
      omega
    have hcons : ∀ w' w'' : Walk, w'.seen = v :: w.seen → w'.seen ⊆ w''.seen → w.seen ⊆ w''.seen :=
      fun w' w'' hw' hsub u hu => hsub (hw' ▸ List.mem_cons_of_mem _ hu)
    cases v with
    | entry => exact ⟨_, rfl, fun u hu => List.mem_cons_of_mem _ hu⟩
    | param b =>
      obtain ⟨r, hr, hsub⟩ := merge_some ih (ways f c b) (fun v hv => live_ways h hv) none
        ⟨.param b :: w.seen, w.budget⟩ (hfewer _ rfl)
      exact ⟨r, hr, hcons _ _ rfl hsub⟩
    | result i =>
      dsimp only
      split
      · exact ⟨_, rfl, fun u hu => List.mem_cons_of_mem _ hu⟩
      split
      · exact ⟨_, rfl, fun u hu => List.mem_cons_of_mem _ hu⟩
      split
      · exact ⟨_, rfl, fun u hu => List.mem_cons_of_mem _ hu⟩
      · rename_i next hmem
        have hwrites : f.writes i := by
          obtain ⟨es, e, hpath, hreach⟩ := hlive
          rcases reach_made h.carries es e hpath hreach with ⟨hv, -⟩ | ⟨_, _, _, -, -, -, hmade⟩
          · exact absurd hv (by simp)
          rcases hmade with ⟨b, -, -, hv⟩ | ⟨j, hwrites, -, hv⟩
          · exact absurd hv (by simp)
          · rw [Version.result.inj hv]
            exact hwrites
        obtain ⟨r, hr, hsub⟩ := ih next ⟨.result i :: w.seen, w.budget - 1⟩
          (live_memIn h (touches_of_writes hwrites) hmem) (hfewer _ rfl)
        exact ⟨r, hr, hcons _ _ rfl hsub⟩

/-- The walk answers every question. -/
theorem clobber_some (limit : ℕ) {load : Inst} (htouches : f.touches load) :
    ∃ a, clobber f al c limit load = some a := by
  rw [clobber]
  split
  · rename_i reference version hreads hmem
    have hleft : left f ⟨[], limit⟩ < versions f + 1 := by
      have hcard : left f ⟨[], limit⟩ ≤ (allVersions f).toFinset.card := Finset.card_le_card Finset.sdiff_subset
      have := List.toFinset_card_le (allVersions f)
      rw [length_allVersions] at this
      omega
    obtain ⟨r, hr, -⟩ := @back_some f al d c reference h _ version _
      (live_memIn h htouches hmem) hleft
    exact ⟨_, by rw [hr]; rfl⟩
  · exact ⟨_, rfl⟩

end

end Rucc.Opt.MemSsa
