import Mathlib.Data.List.Chain
import Rucc.Opt.MemSsaBuild

/-!
# The walk back and the paths

An answer of the walk holds of every version it has been to, so that a path to the read is followed back
through these versions to the write that the answer names, over writes that are none.
-/

namespace Rucc.Opt

namespace Func

variable {f : Func}

/-- The beginning of a path is one. -/
theorem Path.front {es es' : List Event} (h : f.Path (es ++ es')) (hne : es ≠ []) : f.Path es := by
  refine ⟨?_, (List.isChain_append.mp h.steps).1⟩
  rw [← h.start, List.head?_append]
  obtain ⟨e, rest, rfl⟩ := List.exists_cons_of_ne_nil hne
  rfl

/-- Two paths over one event, the first one up to there and the second one from there on. -/
theorem Path.glue {e : Event} {es es' fs fs' : List Event} (h : f.Path (es ++ e :: es'))
    (h' : f.Path (fs ++ e :: fs')) : f.Path (es ++ e :: fs') := by
  refine ⟨?_, List.isChain_split.mpr ⟨(List.isChain_split.mp h.steps).1, (List.isChain_split.mp h'.steps).2⟩⟩
  rw [← h.start, List.head?_append, List.head?_append]
  rfl

end Func

namespace MemSsa

variable {f : Func} {al : Alias} {c : Chain} {reference : Access}

variable {es : List Event} {i : Inst} {v w : Version}

/-! ## What the answer says of the versions that were seen -/

/-- What an answer says of a version: what comes to a parameter has been seen, the answer at the start is
that there is no clobber, and a write is the answer or what it takes has been seen. -/
def Accounted (f : Func) (al : Alias) (c : Chain) (reference : Access) (seen : List Version)
    (r : Option Clobber) : Version → Prop
  | .param b => ∀ v, some v ∈ ways f c b → v ∈ seen
  | .entry => r = some .noClobber
  | .result i => (∀ a, wrote f al reference i = some a → r = some a) ∧
      (wrote f al reference i = none → ∀ v, c.memIn i = some v → v ∈ seen)

theorem Accounted.mono {seen seen' : List Version} {r r' : Option Clobber} {u : Version}
    (h : Accounted f al c reference seen r u) (hsub : seen ⊆ seen') (hr : r = none ∨ r' = r) :
    Accounted f al c reference seen' r' u := by
  have hanswer : ∀ a, r = some a → r' = some a := by
    intro a ha
    rcases hr with hr | hr
    · exact absurd (hr.symm.trans ha) (by simp)
    · rw [hr, ha]
  cases u with
  | entry => exact hanswer _ h
  | param b => exact fun v hv => hsub (h v hv)
  | result i => exact ⟨fun a ha => hanswer a (h.1 a ha), fun hnone v hv => hsub (h.2 hnone v hv)⟩

/-- What a walk gives when its answer is one. -/
def Explained (f : Func) (al : Alias) (c : Chain) (reference : Access) (w w' : Walk) (r : Option Clobber) : Prop :=
  w.seen ⊆ w'.seen ∧ ∀ u ∈ w'.seen, u ∉ w.seen → Accounted f al c reference w'.seen r u

theorem Explained.refl (w : Walk) (r : Option Clobber) : Explained f al c reference w w r :=
  ⟨fun _ hu => hu, fun _ hu hnot => absurd hu hnot⟩

theorem Explained.trans {w₁ w₂ w₃ : Walk} {r r' : Option Clobber} (h : Explained f al c reference w₁ w₂ r)
    (h' : Explained f al c reference w₂ w₃ r') (hr : r = none ∨ r' = r) :
    Explained f al c reference w₁ w₃ r' := by
  refine ⟨fun u hu => h'.1 (h.1 hu), fun u hu hnot => ?_⟩
  by_cases hu₂ : u ∈ w₂.seen
  · exact (h.2 u hu₂ hnot).mono h'.1 hr
  · exact h'.2 u hu hu₂

/-- Two answers that give an answer are one, or one of them is none. -/
theorem combine_eq {a b : Option Clobber} (h : combine a b ≠ some .unknown) :
    b ≠ some .unknown ∧ (a = none ∨ combine a b = a) ∧ (b = none ∨ combine a b = b) := by
  cases a with
  | none => exact ⟨h, Or.inl rfl, Or.inr rfl⟩
  | some a =>
    cases b with
    | none => exact ⟨by simp, Or.inr rfl, Or.inl rfl⟩
    | some b =>
      rw [combine] at h ⊢
      split
      case isTrue heq =>
        rw [if_pos heq] at h
        exact ⟨heq ▸ h, Or.inr rfl, Or.inr (by rw [heq])⟩
      case isFalse hne =>
        rw [if_neg hne] at h
        exact absurd rfl h

theorem merge_spec {walk : Version → Walk → Option (Option Clobber × Walk)}
    (hwalk : ∀ v w r w', walk v w = some (r, w') → r ≠ some .unknown →
      v ∈ w'.seen ∧ Explained f al c reference w w' r) (l : List (Option Version)) :
    ∀ answer w r w', merge walk answer l w = some (r, w') → r ≠ some .unknown →
      (answer = none ∨ r = answer) ∧ (∀ v, some v ∈ l → v ∈ w'.seen) ∧ Explained f al c reference w w' r := by
  induction l with
  | nil =>
    intro answer w r w' h hne
    rw [merge, Option.some.injEq, Prod.mk.injEq] at h
    obtain ⟨rfl, rfl⟩ := h
    exact ⟨Or.inr rfl, fun v hv => absurd hv (List.not_mem_nil), Explained.refl w answer⟩
  | cons x l ih =>
    intro answer w r w' h hne
    cases x with
    | none =>
      obtain ⟨hanswer, hmem, hexp⟩ := ih answer w r w' h hne
      refine ⟨hanswer, fun v hv => ?_, hexp⟩
      rcases List.mem_cons.mp hv with heq | hv
      · exact absurd heq (by simp)
      · exact hmem v hv
    | some v =>
      rw [merge] at h
      obtain ⟨⟨r₁, w₁⟩, hone, h⟩ := Option.bind_eq_some_iff.mp h
      dsimp only at h
      by_cases hunknown : combine answer r₁ = some .unknown
      · rw [if_pos hunknown, hunknown, Option.some.injEq, Prod.mk.injEq] at h
        exact absurd h.1.symm hne
      rw [if_neg hunknown] at h
      obtain ⟨hne₁, hleft, hright⟩ := combine_eq hunknown
      obtain ⟨hv₁, hexp₁⟩ := hwalk v w r₁ w₁ hone hne₁
      obtain ⟨hanswer, hmem, hexp⟩ := ih _ w₁ r w' h hne
      -- an answer of one way is the answer
      have hthrough : ∀ a, a = none ∨ combine answer r₁ = a → a = none ∨ r = a := by
        intro a ha
        rcases ha with ha | ha
        · exact Or.inl ha
        · rw [ha] at hanswer
          exact hanswer
      refine ⟨hthrough answer hleft, fun u hu => ?_, hexp₁.trans hexp (hthrough r₁ hright)⟩
      rcases List.mem_cons.mp hu with heq | hu
      · rw [Option.some.inj heq]
        exact hexp.1 hv₁
      · exact hmem u hu

/-- Every version that a walk has been to is accounted for by its answer. -/
theorem back_spec (rounds : ℕ) : ∀ v w r w', back f al c reference rounds v w = some (r, w') →
    r ≠ some .unknown → v ∈ w'.seen ∧ Explained f al c reference w w' r := by
  induction rounds with
  | zero => exact fun v w r w' h => absurd h (by simp [back])
  | succ rounds ih =>
    intro v w r w' h hne
    rw [back] at h
    by_cases hseen : v ∈ w.seen
    · rw [if_pos hseen, Option.some.injEq, Prod.mk.injEq] at h
      obtain ⟨rfl, rfl⟩ := h
      exact ⟨hseen, Explained.refl w none⟩
    rw [if_neg hseen] at h
    -- the version itself is new, and so it has to be accounted for
    have hadd : ∀ w'' : Walk, (v :: w.seen) ⊆ w''.seen → Accounted f al c reference w''.seen r v →
        (∀ u ∈ w''.seen, u ∉ v :: w.seen → Accounted f al c reference w''.seen r u) →
        v ∈ w''.seen ∧ Explained f al c reference w w'' r := by
      intro w'' hsub hv hall
      refine ⟨hsub (List.mem_cons_self), fun u hu => hsub (List.mem_cons_of_mem _ hu), fun u hu hnot => ?_⟩
      by_cases huv : u = v
      · rw [huv]
        exact hv
      · exact hall u hu fun hmem => (List.mem_cons.mp hmem).elim huv hnot
    cases v with
    | entry =>
      dsimp only at h
      rw [Option.some.injEq, Prod.mk.injEq] at h
      obtain ⟨rfl, rfl⟩ := h
      exact hadd _ (fun u hu => hu) rfl fun u hu hnot => absurd hu hnot
    | param b =>
      dsimp only at h
      obtain ⟨-, hmem, hexp⟩ := merge_spec ih _ none _ r w' h hne
      exact hadd w' hexp.1 hmem hexp.2
    | result i =>
      dsimp only at h
      by_cases hbudget : w.budget = 0
      · rw [if_pos hbudget, Option.some.injEq, Prod.mk.injEq] at h
        exact absurd h.1.symm hne
      rw [if_neg hbudget] at h
      cases hwrote : wrote f al reference i with
      | some a =>
        rw [hwrote] at h
        dsimp only at h
        rw [Option.some.injEq, Prod.mk.injEq] at h
        obtain ⟨rfl, rfl⟩ := h
        refine hadd _ (fun u hu => hu) ⟨fun a' ha' => ha'.symm.trans hwrote ▸ rfl, fun hnone => ?_⟩
          fun u hu hnot => absurd hu hnot
        exact absurd (hwrote.symm.trans hnone) (by simp)
      | none =>
        rw [hwrote] at h
        dsimp only at h
        have hnot : ∀ a, wrote f al reference i = some a → r = some a := fun a ha =>
          absurd (hwrote.symm.trans ha) (by simp)
        cases hmem : c.memIn i with
        | none =>
          rw [hmem] at h
          dsimp only at h
          rw [Option.some.injEq, Prod.mk.injEq] at h
          obtain ⟨rfl, rfl⟩ := h
          refine hadd _ (fun u hu => hu) ⟨hnot, fun _ v hv => ?_⟩ fun u hu hnot => absurd hu hnot
          exact absurd (hmem.symm.trans hv) (by simp)
        | some next =>
          rw [hmem] at h
          dsimp only at h
          obtain ⟨hnext, hexp⟩ := ih next _ r w' h hne
          refine hadd w' hexp.1 ⟨hnot, fun _ v hv => ?_⟩ hexp.2
          rw [← Option.some.inj (hmem.symm.trans hv)]
          exact hnext

/-! ## Paths to the read -/

/-- No write of a path is one that the walk stops at. -/
def Quiet (f : Func) (al : Alias) (reference : Access) (es : List Event) : Prop :=
  ∀ i, Event.exec i ∈ es → f.writes i → wrote f al reference i = none

theorem Quiet.append {es' : List Event} (h : Quiet f al reference es) (h' : Quiet f al reference es') :
    Quiet f al reference (es ++ es') := fun i hi hwrites =>
  (List.mem_append.mp hi).elim (fun hi => h i hi hwrites) fun hi => h' i hi hwrites

theorem touches_of_writes (h : f.writes i) : f.touches i := by
  obtain ⟨data, hdata, hwrite⟩ := (Option.any_eq_true _ _).mp h
  refine (Option.any_eq_true _ _).mpr ⟨data, hdata, ?_⟩
  revert hwrite
  cases data.effect <;> decide

/-- When every version that was seen is accounted for, a path to one of them has the write that is the
answer with none after it, or there is no clobber and the path has none. -/
theorem back_path (hc : Carries f c) {seen : List Version} {r : Option Clobber}
    (hseen : ∀ u ∈ seen, Accounted f al c reference seen r u) : ∀ es e, f.Path (es ++ [e]) →
    c.reach f (es ++ [e]) ∈ seen →
    (r = some .noClobber ∧ Quiet f al reference (es ++ [e])) ∨
      ∃ pre i post, es ++ [e] = pre ++ .exec i :: post ∧ f.writes i ∧ r = wrote f al reference i ∧ r ≠ none ∧
        Quiet f al reference post := by
  -- an event that is no write the walk stops at can be left out
  have hskip : ∀ es e, Quiet f al reference [e] →
      ((r = some .noClobber ∧ Quiet f al reference es) ∨ ∃ pre i post, es = pre ++ .exec i :: post ∧
        f.writes i ∧ r = wrote f al reference i ∧ r ≠ none ∧ Quiet f al reference post) →
      (r = some .noClobber ∧ Quiet f al reference (es ++ [e])) ∨ ∃ pre i post,
        es ++ [e] = pre ++ .exec i :: post ∧ f.writes i ∧ r = wrote f al reference i ∧ r ≠ none ∧
          Quiet f al reference post := by
    rintro es e he (⟨hr, hquiet⟩ | ⟨pre, i, post, rfl, hwrites, hr, hne, hquiet⟩)
    · exact Or.inl ⟨hr, hquiet.append he⟩
    · exact Or.inr ⟨pre, i, post ++ [e], by simp, hwrites, hr, hne, hquiet.append he⟩
  have henter : ∀ b, Quiet f al reference [.enter b] := fun b i hi =>
    absurd (List.mem_singleton.mp hi) (by simp)
  refine Func.Path.induction ?_ ?_
  · intro hmem
    have hreach : c.reach f ([] ++ [.enter 0]) = .entry := if_neg hc.zero
    rw [hreach] at hmem
    exact Or.inl ⟨hseen _ hmem, henter 0⟩
  · intro es e e' hpath hnext ih hmem
    have hpath' : f.Path (es ++ [e] ++ [e']) := by
      rw [List.append_assoc]
      exact Func.path_snoc.mpr ⟨hpath, hnext⟩
    rw [Chain.reach_snoc] at hmem
    cases e' with
    | enter b =>
      refine hskip _ _ (henter b) (ih ?_)
      change (if b ∈ c.params then Version.param b else _) ∈ seen at hmem
      by_cases hparam : b ∈ c.params
      · rw [if_pos hparam] at hmem
        exact hseen _ hmem _ (hc.ways _ b hpath' hparam)
      · rw [if_neg hparam] at hmem
        exact hmem
    | exec i =>
      change (if f.writes i then Version.result i else _) ∈ seen at hmem
      by_cases hwrites : f.writes i
      · rw [if_pos hwrites] at hmem
        obtain ⟨hstop, hpass⟩ := hseen _ hmem
        cases hwrote : wrote f al reference i with
        | some a =>
          have hr := hstop a hwrote
          exact Or.inr ⟨es ++ [e], i, [], rfl, hwrites, hr.trans hwrote.symm, by rw [hr]; simp,
            fun j hj => absurd hj (List.not_mem_nil)⟩
        | none =>
          refine hskip _ _ (fun j hj _ => ?_) (ih ?_)
          · rw [Event.exec.inj (List.mem_singleton.mp hj)]
            exact hwrote
          · exact hpass hwrote _ (hc.memIn _ i hpath' (touches_of_writes hwrites))
      · rw [if_neg hwrites] at hmem
        refine hskip _ _ (fun j hj hj' => ?_) (ih hmem)
        rw [Event.exec.inj (List.mem_singleton.mp hj)] at hj'
        exact absurd hj' hwrites

/-- A path has been where a version is made and has written nothing since. -/
def Made (f : Func) (c : Chain) (v : Version) (es : List Event) : Prop :=
  (v = .entry ∧ ∀ i, Event.exec i ∈ es → ¬ f.writes i) ∨
    ∃ pre e post, es = pre ++ e :: post ∧ pre ≠ [] ∧ (∀ i, Event.exec i ∈ post → ¬ f.writes i) ∧
      ((∃ b ∈ c.params, e = .enter b ∧ v = .param b) ∨ ∃ i, f.writes i ∧ e = .exec i ∧ v = .result i)

theorem Made.snoc {e : Event} (h : Made f c v es)
    (hquiet : ∀ i, e = .exec i → ¬ f.writes i) : Made f c v (es ++ [e]) := by
  have hone : ∀ i, Event.exec i ∈ [e] → ¬ f.writes i := fun i hi => hquiet i (List.mem_singleton.mp hi).symm
  rcases h with ⟨hv, hall⟩ | ⟨pre, x, post, rfl, hne, hall, hmade⟩
  · exact Or.inl ⟨hv, fun i hi => (List.mem_append.mp hi).elim (hall i) (hone i)⟩
  · exact Or.inr ⟨pre, x, post ++ [e], by simp, hne,
      fun i hi => (List.mem_append.mp hi).elim (hall i) (hone i), hmade⟩

/-- A path ends with a version that was made on it, with nothing written since. -/
theorem reach_made (hc : Carries f c) : ∀ es e, f.Path (es ++ [e]) →
    c.reach f (es ++ [e]) = v → Made f c v (es ++ [e]) := by
  refine Func.Path.induction ?_ ?_
  · intro hreach
    refine Or.inl ⟨hreach.symm.trans (if_neg hc.zero), fun i hi => ?_⟩
    exact absurd (List.mem_singleton.mp hi) (by simp)
  · intro es e e' hpath hnext ih hreach
    rw [Chain.reach_snoc] at hreach
    have hlast : ∀ i, Event.exec i ∈ ([] : List Event) → ¬ f.writes i := fun i hi =>
      absurd hi (List.not_mem_nil)
    cases e' with
    | enter b =>
      change (if b ∈ c.params then Version.param b else _) = v at hreach
      by_cases hparam : b ∈ c.params
      · rw [if_pos hparam] at hreach
        exact Or.inr ⟨es ++ [e], .enter b, [], rfl, by simp, hlast, Or.inl ⟨b, hparam, rfl, hreach.symm⟩⟩
      · rw [if_neg hparam] at hreach
        exact (ih hreach).snoc fun i heq => absurd heq (by simp)
    | exec i =>
      change (if f.writes i then Version.result i else _) = v at hreach
      by_cases hwrites : f.writes i
      · rw [if_pos hwrites] at hreach
        exact Or.inr ⟨es ++ [e], .exec i, [], rfl, by simp, hlast, Or.inr ⟨i, hwrites, rfl, hreach.symm⟩⟩
      · rw [if_neg hwrites] at hreach
        exact (ih hreach).snoc fun j heq => Event.exec.inj heq ▸ hwrites

/-! ## The oldest version -/

/-- A version that every path to another one has had, with no write since that the walk stops at. -/
def Since (f : Func) (al : Alias) (c : Chain) (reference : Access) (v w : Version) : Prop :=
  ∀ es, f.Path es → c.reach f es = v →
    ∃ pre post, es = pre ++ post ∧ f.Path pre ∧ c.reach f pre = w ∧ Quiet f al reference post

theorem Since.refl (v : Version) : Since f al c reference v v := fun es hpath hreach =>
  ⟨es, [], by simp, hpath, hreach, fun i hi => absurd hi (List.not_mem_nil)⟩

theorem Since.trans {u : Version} (h : Since f al c reference u v) (h' : Since f al c reference v w) :
    Since f al c reference u w := by
  intro es hpath hreach
  obtain ⟨pre, post, rfl, hpre, hv, hquiet⟩ := h es hpath hreach
  obtain ⟨pre', post', rfl, hpre', hw, hquiet'⟩ := h' pre hpre hv
  exact ⟨pre', post' ++ post, by simp, hpre', hw, hquiet'.append hquiet⟩

theorem quiet_of_not_writes (h : ∀ i, Event.exec i ∈ es → ¬ f.writes i) :
    Quiet f al reference es := fun i hi hwrites => absurd hwrites (h i hi)

/-- The paths to what an instruction produces have come over what it takes. -/
theorem since_result (hc : Carries f c) {next : Version} (hwrote : wrote f al reference i = none)
    (hnext : c.memIn i = some next) : Since f al c reference (.result i) next := by
  intro es hpath hreach
  obtain ⟨front, e, rfl⟩ := (List.eq_nil_or_concat' es).resolve_left fun hnil => by
    rw [hnil] at hpath
    exact absurd hpath.start (by simp)
  rcases reach_made hc front e hpath hreach with ⟨hv, -⟩ | ⟨pre, e', post, hes, hne, hquiet, hmade⟩
  · exact absurd hv (by simp)
  rcases hmade with ⟨b, -, -, hv⟩ | ⟨j, hwrites, rfl, hv⟩
  · exact absurd hv (by simp)
  obtain rfl : i = j := Version.result.inj hv
  rw [hes] at hpath ⊢
  have hfront : f.Path (pre ++ [.exec i]) := by
    refine @Func.Path.front f _ post ?_ (by simp)
    simpa using hpath
  refine ⟨pre, .exec i :: post, rfl, hpath.front hne, ?_, ?_⟩
  · have := hc.memIn pre i hfront (touches_of_writes hwrites)
    exact Option.some.inj (this.symm.trans hnext)
  · intro j hj hwritesj
    rcases List.mem_cons.mp hj with heq | hj
    · rw [Event.exec.inj heq]
      exact hwrote
    · exact absurd hwritesj (hquiet j hj)

/-- The paths to a parameter have come over a version when each way into it has, or comes back to the
parameter. -/
theorem since_param (hc : Carries f c) {b : ℕ}
    (hways : ∀ v, some v ∈ ways f c b → Since f al c reference v w ∨ Since f al c reference v (.param b)) :
    Since f al c reference (.param b) w := by
  intro es
  induction hlen : es.length using Nat.strong_induction_on generalizing es with
  | _ n ih =>
    intro hpath hreach
    obtain ⟨front, e, rfl⟩ := (List.eq_nil_or_concat' es).resolve_left fun hnil => by
      rw [hnil] at hpath
      exact absurd hpath.start (by simp)
    rcases reach_made hc front e hpath hreach with ⟨hv, -⟩ | ⟨pre, e', post, hes, hne, hquiet, hmade⟩
    · exact absurd hv (by simp)
    rcases hmade with ⟨b', hparam, rfl, hv⟩ | ⟨j, -, -, hv⟩
    swap
    · exact absurd hv (by simp)
    obtain rfl : b = b' := Version.param.inj hv
    rw [hes] at hpath hlen ⊢
    have hfront : f.Path (pre ++ [.enter b]) := by
      refine @Func.Path.front f _ post ?_ (by simp)
      simpa using hpath
    have hpost : Quiet f al reference (.enter b :: post) := by
      refine quiet_of_not_writes fun j hj => ?_
      rcases List.mem_cons.mp hj with heq | hj
      · exact absurd heq (by simp)
      · exact hquiet j hj
    rcases hways _ (hc.ways pre b hfront hparam) with hway | hway
    · obtain ⟨pre', post', rfl, hpre', hw, hquiet'⟩ := hway pre (hpath.front hne) rfl
      exact ⟨pre', post' ++ .enter b :: post, by simp, hpre', hw, hquiet'.append hpost⟩
    · -- once more round, over a shorter path
      obtain ⟨pre', post', rfl, hpre', hw, hquiet'⟩ := hway pre (hpath.front hne) rfl
      have hshort : pre'.length < n := by
        rw [← hlen]
        simp only [List.length_append, List.length_cons]
        omega
      obtain ⟨pre'', post'', rfl, hpre'', hw'', hquiet''⟩ := ih pre'.length hshort pre' rfl hpre' hw
      exact ⟨pre'', post'' ++ (post' ++ .enter b :: post), by simp, hpre'', hw'',
        hquiet''.append (hquiet'.append hpost)⟩

theorem agree_spec {walk : Version → ℕ → Version × ℕ} {version : Version}
    (hwalk : ∀ v budget, Since f al c reference v (walk v budget).1) (l : List (Option Version)) :
    ∀ agreed budget, (agree walk version agreed l budget).1 = version ∨
      (∀ a ∈ agreed, (agree walk version agreed l budget).1 = a) ∧ ∀ v, some v ∈ l →
        Since f al c reference v (agree walk version agreed l budget).1 ∨ Since f al c reference v version := by
  induction l with
  | nil =>
    intro agreed budget
    cases agreed with
    | none => exact Or.inl rfl
    | some a =>
      refine Or.inr ⟨fun a' ha' => ?_, fun v hv => absurd hv (List.not_mem_nil)⟩
      exact Option.mem_some_iff.mp ha'
  | cons x l ih =>
    intro agreed budget
    cases x with
    | none => exact Or.inl rfl
    | some v =>
      rw [agree]
      have hv := hwalk v budget
      generalize walk v budget = r at hv
      by_cases hback : r.1 = version
      · rw [if_pos hback]
        refine (ih agreed r.2).imp_right fun ⟨hagreed, hall⟩ => ⟨hagreed, fun u hu => ?_⟩
        rcases List.mem_cons.mp hu with heq | hu
        · rw [Option.some.inj heq]
          exact Or.inr (hback ▸ hv)
        · exact hall u hu
      rw [if_neg hback]
      by_cases hsplit : agreed.any (· ≠ r.1) = true
      · rw [if_pos hsplit]
        exact Or.inl rfl
      rw [if_neg hsplit]
      refine (ih (some r.1) r.2).imp_right fun ⟨hagreed, hall⟩ => ⟨fun a ha => ?_, fun u hu => ?_⟩
      · -- the ways before came back to the same version
        have hsame : a = r.1 := by
          by_contra hne
          rw [Option.mem_def.mp ha] at hsplit
          exact hsplit (decide_eq_true hne)
        rw [hsame]
        exact hagreed _ (Option.mem_some_self _)
      · rcases List.mem_cons.mp hu with heq | hu
        · rw [Option.some.inj heq, hagreed _ (Option.mem_some_self _)]
          exact Or.inl hv
        · exact hall u hu

/-- The version that the walk settles on is one that every path has had since. -/
theorem settle_spec (hc : Carries f c) (rounds : ℕ) : ∀ opened v budget,
    Since f al c reference v (settle f al c reference rounds opened v budget).1 := by
  induction rounds with
  | zero => exact fun opened v budget => Since.refl v
  | succ rounds ih =>
    intro opened v budget
    cases v with
    | entry =>
      rw [settle]
      split
      · exact Since.refl _
      · exact Since.refl _
    | param b =>
      rw [settle]
      split
      · exact Since.refl _
      rcases @agree_spec f al c reference _ (.param b) (fun v budget => ih (.param b :: opened) v budget)
        (ways f c b) none (budget - 1) with heq | ⟨-, hall⟩
      · rw [heq]
        exact Since.refl _
      · exact since_param hc hall
    | result i =>
      rw [settle]
      split
      · exact Since.refl _
      split
      · exact Since.refl _
      rename_i hstops
      have hwrote : wrote f al reference i = none := by
        rw [stops] at hstops
        exact Option.not_isSome_iff_eq_none.mp hstops
      cases hmem : c.memIn i with
      | none => exact Since.refl _
      | some next => exact (since_result hc hwrote hmem).trans (ih opened next (budget - 1))

end MemSsa

end Rucc.Opt
