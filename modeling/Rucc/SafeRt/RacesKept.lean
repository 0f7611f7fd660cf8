import Rucc.SafeRt.RacesSteps

/-!
# What a run keeps

What holds of the world of a run that loses no ordering: that thread numbers and birth slots belong to one
thread each, and that what a step has published is found still, with a clock that is not behind the step.
-/

namespace Rucc.SafeRt.Races

open Epoch Sync

variable {w w' : World} {t : ℕ}

/-! ## The state of a run -/

/-- Whether a step is one that an operation begins or goes on with, and not what an earlier step left to do with
a stamp or a slot in it. -/
def Micro.plain : Micro → Bool
  | .fill _ _ _ | .giveBack _ | .born _ | .sync _ => false
  | _ => true

/-- The thread has a birth slot that it is about to let go of. -/
def World.Holds (w : World) (t slot : ℕ) : Prop :=
  ∃ rest, w.todo t = .born (some slot) :: rest ∨ w.todo t = .giveBack slot :: rest

/-- What holds of the world on its own. -/
structure Sane (w : World) : Prop where
  keyless : w.keyless = false
  valid : w.clocks.Valid
  rests : ∀ t m rest, w.todo t = m :: rest → ∀ m' ∈ rest, m'.plain = true
  unborn : ∀ t, w.threads ≤ t → w.status t = .unborn
  ids : ∀ t, t < w.threads → w.id t ≠ 0
  apart : ∀ t u, t < w.threads → u < w.threads → w.status t ≠ .gone → w.status u ≠ .gone → w.id t = w.id u → t = u
  slots : ∀ t slot, w.Holds t slot → ∃ s, w.births slot = some s
  alone : ∀ t u slot, w.Holds t slot → w.Holds u slot → t = u
  born : ∀ t rest, w.todo t ≠ .born none :: rest

theorem Sane.lt_threads (h : Sane w) (ht : w.status t = .running) : t < w.threads := by
  by_contra hge
  rw [h.unborn t (Nat.le_of_not_lt hge)] at ht
  exact absurd ht (by simp)

/-- A number that none has is the number of threads that are gone only. -/
theorem World.gone_of_named {id : ℕ} (h : w.named id = false) (ht : t < w.threads) (hid : w.id t = id) :
    w.status t = .gone := by
  unfold named at h
  rw [List.any_eq_false] at h
  have hnot := h t (List.mem_range.2 ht)
  rw [Bool.and_eq_true, decide_eq_true_eq, decide_eq_true_eq, not_and_not_right] at hnot
  exact hnot hid

/-! ### Turns -/

/-- What a turn leaves as it is, and what it may do to a thread. -/
structure Turns (w w' : World) : Prop where
  keyless : w'.keyless = w.keyless
  clocks : w'.clocks = w.clocks
  published : w'.published = w.published
  exits : w'.exits = w.exits
  fenced : w'.fenced = w.fenced
  births : w'.births = w.births
  epochs : w'.epochs = w.epochs
  threads : w'.threads = w.threads
  id : w'.id = w.id
  todo : ∀ t, w'.todo t = w.todo t ∨ ∀ m ∈ w'.todo t, m.plain = true
  status : ∀ t, w'.status t = w.status t ∨ (∃ returned, w.status t = .finished returned) ∧ w'.status t = .gone

theorem Op.micros_plain (op : Op) : ∀ m ∈ op.micros, m.plain = true := by
  cases op with
  | store addr size => exact List.forall_mem_cons.2 ⟨rfl, List.forall_mem_singleton.2 rfl⟩
  | wait key => exact List.forall_mem_cons.2 ⟨rfl, List.forall_mem_singleton.2 rfl⟩
  | _ => exact List.forall_mem_singleton.2 rfl

theorem turn_turns {turn : Turn} (h : w.turn turn = some w') : Turns w w' := by
  cases turn with
  | start t op =>
    rw [World.turn] at h
    split at h
    · obtain rfl := Option.some.inj h
      refine ⟨rfl, rfl, rfl, rfl, rfl, rfl, rfl, rfl, rfl, fun u => ?_, fun _ => Or.inl rfl⟩
      by_cases heq : u = t
      · subst heq
        refine Or.inr ?_
        dsimp only
        rw [Function.update_self]
        exact op.micros_plain
      · exact Or.inl (Function.update_of_ne heq _ _)
    · exact absurd h (by simp)
  | watch r =>
    obtain rfl := Option.some.inj h
    exact ⟨rfl, rfl, rfl, rfl, rfl, rfl, rfl, rfl, rfl, fun _ => Or.inl rfl, fun _ => Or.inl rfl⟩
  | reap t =>
    rw [World.turn] at h
    split at h
    · rename_i returned hstatus
      obtain rfl := Option.some.inj h
      refine ⟨rfl, rfl, rfl, rfl, rfl, rfl, rfl, rfl, rfl, fun _ => Or.inl rfl, fun u => ?_⟩
      by_cases heq : u = t
      · subst heq
        exact Or.inr ⟨⟨_, hstatus⟩, Function.update_self _ _ _⟩
      · exact Or.inl (Function.update_of_ne heq _ _)
    · exact absurd h (by simp)

/-- What is left to do with a stamp or a slot in it was left before the turn. -/
theorem Turns.head {w w' : World} (h : Turns w w') {t : ℕ} {m : Micro} {rest : List Micro}
    (htodo : w'.todo t = m :: rest) (hm : m.plain = false) : w.todo t = m :: rest := by
  obtain hsame | hplain := h.todo t
  · rw [← hsame, htodo]
  · have htrue := hplain m (by rw [htodo]; exact List.mem_cons_self)
    rw [hm] at htrue
    exact absurd htrue Bool.false_ne_true

theorem Turns.holds (h : Turns w w') {slot : ℕ} (hholds : w'.Holds t slot) : w.Holds t slot := by
  obtain ⟨rest, htodo | htodo⟩ := hholds
  · exact ⟨rest, Or.inl (h.head htodo rfl)⟩
  · exact ⟨rest, Or.inr (h.head htodo rfl)⟩

theorem Turns.not_gone (h : Turns w w') (hgone : w'.status t ≠ .gone) : w.status t ≠ .gone := by
  obtain hsame | ⟨-, hgone'⟩ := h.status t
  · rwa [hsame] at hgone
  · exact absurd hgone' hgone

theorem Sane.turn (h : Sane w) (hturns : Turns w w') : Sane w' := by
  constructor
  case keyless => exact hturns.keyless.trans h.keyless
  case valid => rw [hturns.clocks]; exact h.valid
  case rests =>
    intro t m rest htodo m' hm'
    obtain hsame | hplain := hturns.todo t
    · exact h.rests t m rest (hsame ▸ htodo) m' hm'
    · exact hplain m' (by rw [htodo]; exact List.mem_cons_of_mem _ hm')
  case unborn =>
    intro t ht
    rw [hturns.threads] at ht
    obtain hsame | ⟨⟨returned, hstatus⟩, -⟩ := hturns.status t
    · rw [hsame, h.unborn t ht]
    · rw [h.unborn t ht] at hstatus
      exact absurd hstatus (by simp)
  case ids => rw [hturns.threads, hturns.id]; exact h.ids
  case apart =>
    intro t u ht hu htgone hugone hid
    rw [hturns.threads] at ht hu
    rw [hturns.id] at hid
    exact h.apart t u ht hu (hturns.not_gone htgone) (hturns.not_gone hugone) hid
  case slots =>
    intro t slot hholds
    rw [hturns.births]
    exact h.slots t slot (hturns.holds hholds)
  case alone => exact fun t u slot ht hu => h.alone t u slot (hturns.holds ht) (hturns.holds hu)
  case born => exact fun t rest htodo => h.born t rest (hturns.head htodo rfl)

/-! ### Steps -/

section Step

variable {w w' : World} {t : ℕ} {rest : List Micro} {m : Micro}

/-- What is left to do with a stamp or a slot in it was left before the step, or is left by it, or is what a
thread that it created begins with. -/
theorem Change.head (h : Change w t rest m w') (hsane : Sane w) (hstatus : w.status t = .running)
    (htodo : w.todo t = m :: rest) {u : ℕ} {m' : Micro} {rest' : List Micro} (htodo' : w'.todo u = m' :: rest')
    (hm' : m'.plain = false) :
    u ≠ t ∧ w.todo u = m' :: rest' ∧ (∀ id, m ≠ .create u id) ∨ u = t ∧ Pushes w w' t m m' ∨
      ∃ id slot, m = .create u id ∧ m' = .born (some slot) ∧ w.births slot = none ∧
        w'.births slot = some (w'.clocks.slot t) ∧ w'.clocks.slot t ≠ NONE ∧ u = w.threads := by
  by_cases hu : u = t
  · subst hu
    obtain hrest | ⟨pushed, hpushes, hrest⟩ := h.todo_own (hsane.lt_threads hstatus)
    · have hplain := hsane.rests u m rest htodo m' (by rw [← hrest, htodo']; exact List.mem_cons_self)
      rw [hm'] at hplain
      exact absurd hplain Bool.false_ne_true
    · obtain ⟨rfl, -⟩ := List.cons.inj (htodo'.symm.trans hrest)
      exact Or.inr (Or.inl ⟨rfl, hpushes⟩)
  · obtain ⟨hsame, hnot⟩ | ⟨id, slot, hcreate, hborn, hfree, htaken, hne, hthreads⟩ := h.todo_other hu
    · exact Or.inl ⟨hu, by rw [← hsame, htodo'], hnot⟩
    · obtain ⟨rfl, -⟩ := List.cons.inj (htodo'.symm.trans hborn)
      exact Or.inr (Or.inr ⟨id, slot, hcreate, rfl, hfree, htaken, hne, hthreads⟩)

/-- A slot that is held was held before by the same thread, which did not make the step, or was free. -/
theorem Change.holds (h : Change w t rest m w') (hsane : Sane w) (hstatus : w.status t = .running)
    (htodo : w.todo t = m :: rest) {u slot : ℕ} (hholds : w'.Holds u slot) :
    u ≠ t ∧ w.Holds u slot ∨ w.births slot = none ∧ (∃ s, w'.births slot = some s) ∧
      (u = t ∧ m = .createFails ∨ u = w.threads ∧ ∃ id, m = .create u id) := by
  obtain ⟨rest', htodo' | htodo'⟩ := hholds
  · obtain ⟨hu, hsame, -⟩ | ⟨rfl, hpushes⟩ | ⟨id, slot', hcreate, hborn, hfree, htaken, -, hthreads⟩ :=
      h.head hsane hstatus htodo htodo' rfl
    · exact Or.inl ⟨hu, rest', Or.inl hsame⟩
    · cases hpushes
    · obtain rfl := Option.some.inj (Micro.born.inj hborn)
      exact Or.inr ⟨hfree, ⟨_, htaken⟩, Or.inr ⟨hthreads, id, hcreate⟩⟩
  · obtain ⟨hu, hsame, -⟩ | ⟨rfl, hpushes⟩ | ⟨id, slot', -, hborn, -⟩ := h.head hsane hstatus htodo htodo' rfl
    · exact Or.inl ⟨hu, rest', Or.inr hsame⟩
    · cases hpushes with
      | claimed hfree htaken => exact Or.inr ⟨hfree, ⟨_, htaken⟩, Or.inl ⟨rfl, rfl⟩⟩
    · exact absurd hborn (by simp)

theorem Change.not_gone (h : Change w t rest m w') (hstatus : w.status t = .running) {u : ℕ} (hu : u < w.threads)
    (hgone : w'.status u ≠ .gone) : w.status u ≠ .gone := by
  intro hgone'
  obtain ⟨hsame, -⟩ | ⟨rfl, -⟩ | ⟨hfinished, -⟩ | ⟨hborn, -⟩ := h.status u
  · exact hgone (hsame.trans hgone')
  · exact absurd (hstatus.symm.trans hgone') (by simp)
  · exact absurd (hfinished.symm.trans hgone') (by simp)
  · omega

theorem Sane.change (hsane : Sane w) (hstatus : w.status t = .running) (htodo : w.todo t = m :: rest)
    (h : Change w t rest m w') : Sane w' := by
  constructor
  case keyless => exact h.keyless.trans hsane.keyless
  case valid => exact h.moves.valid hsane.valid
  case rests =>
    intro u m' rest' htodo' m'' hm''
    have hrest := hsane.rests t m rest htodo
    by_cases hu : u = t
    · subst hu
      obtain hsame | ⟨pushed, -, hsame⟩ := h.todo_own (hsane.lt_threads hstatus)
      · exact hrest m'' (by rw [← hsame, htodo']; exact List.mem_cons_of_mem _ hm'')
      · obtain ⟨-, rfl⟩ := List.cons.inj (htodo'.symm.trans hsame)
        exact hrest m'' hm''
    · obtain ⟨hsame, -⟩ | ⟨id, slot, -, hborn, -⟩ := h.todo_other hu
      · exact hsane.rests u m' rest' (hsame ▸ htodo') m'' hm''
      · obtain ⟨-, rfl⟩ := List.cons.inj (htodo'.symm.trans hborn)
        exact absurd hm'' (by simp)
  case unborn =>
    intro u hu
    have hle : w.threads ≤ w'.threads := by
      obtain ⟨hthreads, -⟩ | ⟨-, -, -, -, hthreads, -⟩ := h.ids <;> omega
    have hunborn := hsane.unborn u (hle.trans hu)
    obtain ⟨hsame, -⟩ | ⟨rfl, -⟩ | ⟨hfinished, -⟩ | ⟨rfl, -, hthreads⟩ := h.status u
    · exact hsame.trans hunborn
    · exact absurd (hstatus.symm.trans hunborn) (by simp)
    · exact absurd (hfinished.symm.trans hunborn) (by simp)
    · omega
  case ids =>
    intro u hu
    obtain ⟨hthreads, hid, -⟩ | ⟨id, -, hne, -, hthreads, hid⟩ := h.ids
    · rw [hid]
      exact hsane.ids u (by omega)
    · rw [hid]
      by_cases heq : u = w.threads
      · rwa [heq, Function.update_self]
      · rw [Function.update_of_ne heq]
        exact hsane.ids u (by omega)
  case apart =>
    intro u v hu hv hugone hvgone hsame
    obtain ⟨hthreads, hid, -⟩ | ⟨id, -, -, hnamed, hthreads, hid⟩ := h.ids
    · rw [hthreads] at hu hv
      rw [hid] at hsame
      exact hsane.apart u v hu hv (h.not_gone hstatus hu hugone) (h.not_gone hstatus hv hvgone) hsame
    · -- no thread that is not gone has the number of the new one
      have hold {x : ℕ} (hx : x < w.threads) (hgone : w'.status x ≠ .gone) : w.id x ≠ id :=
        fun hxid => h.not_gone hstatus hx hgone (World.gone_of_named hnamed hx hxid)
      rw [hid] at hsame
      by_cases hut : u = w.threads
      · by_cases hvt : v = w.threads
        · rw [hut, hvt]
        · rw [hut, Function.update_self, Function.update_of_ne hvt] at hsame
          exact absurd hsame.symm (hold (by omega) hvgone)
      · by_cases hvt : v = w.threads
        · rw [hvt, Function.update_self, Function.update_of_ne hut] at hsame
          exact absurd hsame (hold (by omega) hugone)
        · rw [Function.update_of_ne hut, Function.update_of_ne hvt] at hsame
          have hu' : u < w.threads := by omega
          have hv' : v < w.threads := by omega
          exact hsane.apart u v hu' hv' (h.not_gone hstatus hu' hugone) (h.not_gone hstatus hv' hvgone) hsame
  case slots =>
    intro u slot hholds
    obtain ⟨hu, hheld⟩ | ⟨-, htaken, -⟩ := h.holds hsane hstatus htodo hholds
    · -- the step lets go of a slot that its own thread holds, and that is another one
      obtain ⟨s, hs⟩ := hsane.slots u slot hheld
      refine ⟨s, h.births_keep hs ?_ ?_⟩
      · rintro rfl
        exact hu (hsane.alone u t slot hheld ⟨rest, Or.inr htodo⟩)
      · rintro rfl
        exact hu (hsane.alone u t slot hheld ⟨rest, Or.inl htodo⟩)
    · exact htaken
  case alone =>
    intro u v slot hu hv
    have hfree {x : ℕ} (hx : w.Holds x slot) (hnone : w.births slot = none) : False := by
      obtain ⟨s, hs⟩ := hsane.slots x slot hx
      exact absurd (hs.symm.trans hnone) (by simp)
    obtain ⟨-, hheld⟩ | ⟨hnone, -, hnew⟩ := h.holds hsane hstatus htodo hu
    · obtain ⟨-, hheld'⟩ | ⟨hnone, -⟩ := h.holds hsane hstatus htodo hv
      · exact hsane.alone u v slot hheld hheld'
      · exact (hfree hheld hnone).elim
    · obtain ⟨-, hheld'⟩ | ⟨-, -, hnew'⟩ := h.holds hsane hstatus htodo hv
      · exact (hfree hheld' hnone).elim
      · obtain ⟨hut, hm⟩ | ⟨hut, id, hm⟩ := hnew
        · obtain ⟨hvt, -⟩ | ⟨-, id', hm'⟩ := hnew'
          · rw [hut, hvt]
          · exact absurd (hm.symm.trans hm') (by simp)
        · obtain ⟨-, hm'⟩ | ⟨hvt, -⟩ := hnew'
          · exact absurd (hm'.symm.trans hm) (by simp)
          · rw [hut, hvt]
  case born =>
    intro u rest' htodo'
    obtain ⟨-, hsame, -⟩ | ⟨rfl, hpushes⟩ | ⟨id, slot, -, hborn, -⟩ := h.head hsane hstatus htodo htodo' rfl
    · exact hsane.born u rest' hsame
    · cases hpushes
    · exact absurd (Micro.born.inj hborn) (by simp)

end Step

/-! ## What was published -/

/-- What a step has published is there still, with a clock that is not behind the step. -/
def Kept (w : World) (e : Event) : Prop :=
  match e.micro with
  | .released key => key ≠ 0 → w.published.published key ≠ NONE ∧ e.time ≤ clock (w.published.published key)
  | .publishedEverywhere => e.time ≤ w.fenced
  | .create child _ => child < w.threads ∧ ∀ slot rest, w.todo child = .born (some slot) :: rest →
      ∃ s, w.births slot = some s ∧ s ≠ NONE ∧ e.time ≤ clock s
  | .exited => w.status e.thread = .gone ∨ w.status e.thread = .finished true ∧
      w.exits.published (w.id e.thread) ≠ NONE ∧ e.time ≤ clock (w.exits.published (w.id e.thread))
  | .quit => w.status e.thread = .gone ∨ w.status e.thread = .finished false
  | .born none => False
  | _ => True

theorem Kept.turn {e : Event} (h : Kept w e) (hturns : Turns w w') : Kept w' e := by
  obtain ⟨u, m, time⟩ := e
  have hgone {returned : Bool} (hu : w.status u = .finished returned) :
      w'.status u = .gone ∨ w'.status u = .finished returned := by
    obtain hsame | ⟨-, hgone⟩ := hturns.status u
    · exact Or.inr (hsame.trans hu)
    · exact Or.inl hgone
  have hstays (hu : w.status u = .gone) : w'.status u = .gone := by
    obtain hsame | ⟨-, hgone⟩ := hturns.status u
    · exact hsame.trans hu
    · exact hgone
  cases m with
  | released key =>
    change key ≠ 0 → _
    rw [hturns.published]
    exact h
  | publishedEverywhere => exact (h : time ≤ w.fenced).trans hturns.fenced.ge
  | create child id =>
    obtain ⟨hchild, hborn⟩ := h
    refine ⟨by rwa [hturns.threads], fun slot rest htodo => ?_⟩
    rw [hturns.births]
    exact hborn slot rest (hturns.head htodo rfl)
  | exited =>
    change w'.status u = .gone ∨ w'.status u = .finished true ∧ w'.exits.published (w'.id u) ≠ NONE ∧
      time ≤ clock (w'.exits.published (w'.id u))
    rw [hturns.exits, hturns.id]
    obtain hu | ⟨hu, hpublished⟩ := h
    · exact Or.inl (hstays hu)
    · exact (hgone hu).imp_right fun hu' => ⟨hu', hpublished⟩
  | quit =>
    obtain hu | hu := h
    · exact Or.inl (hstays hu)
    · exact hgone hu
  | born slot =>
    cases slot with
    | none => exact h
    | some slot => trivial
  | _ => trivial

section Step

variable {w w' : World} {t : ℕ} {rest : List Micro} {m : Micro}

variable {u : ℕ}

/-- A thread that has ended makes no step, and has the status it had until it is gone. -/
theorem Change.ended (h : Change w t rest m w') (hsane : Sane w) (hstatus : w.status t = .running)
    {returned : Bool} (hu : w.status u = .finished returned) :
    u ≠ t ∧ u < w.threads ∧ (w'.status u = .gone ∨ w'.status u = .finished returned) := by
  have hlt : u < w.threads := by
    by_contra hge
    exact absurd (hu.symm.trans (hsane.unborn u (Nat.le_of_not_lt hge))) (by simp)
  have hne : u ≠ t := by
    rintro rfl
    exact absurd (hu.symm.trans hstatus) (by simp)
  refine ⟨hne, hlt, ?_⟩
  obtain ⟨hsame, -⟩ | ⟨heq, -⟩ | ⟨-, hgone⟩ | ⟨hborn, -⟩ := h.status u
  · exact Or.inr (hsame.trans hu)
  · exact absurd heq hne
  · exact Or.inl hgone
  · omega

theorem Change.stays_gone (h : Change w t rest m w') (hsane : Sane w) (hstatus : w.status t = .running)
    (hu : w.status u = .gone) : w'.status u = .gone := by
  obtain ⟨hsame, -⟩ | ⟨rfl, -⟩ | ⟨-, hgone⟩ | ⟨rfl, -⟩ := h.status u
  · exact hsame.trans hu
  · exact absurd (hstatus.symm.trans hu) (by simp)
  · exact hgone
  · exact absurd ((hsane.unborn _ le_rfl).symm.trans hu) (by simp)

theorem Kept.change {e : Event} (hkept : Kept w e) (hsane : Sane w) (hstatus : w.status t = .running)
    (htodo : w.todo t = m :: rest) (h : Change w t rest m w') : Kept w' e := by
  obtain ⟨u, me, time⟩ := e
  cases me with
  | released key =>
    intro hkey
    obtain ⟨hne, hle⟩ := hkept hkey
    obtain ⟨hsame, -⟩ | ⟨key', -, hkey', hnew, hcell, hnot, hpublish⟩ := h.published
    · rw [hsame]
      exact ⟨hne, hle⟩
    · rw [hpublish]
      by_cases heq : key' = key
      · -- the new clock under the key is not below the old one
        subst heq
        rw [Table.published_publish hkey' hcell]
        exact ⟨hnew, hle.trans hnot⟩
      · rw [Table.published_keeps heq hcell hne]
        exact ⟨hne, hle⟩
  | publishedEverywhere => exact (hkept : time ≤ w.fenced).trans h.fenced.1
  | create child id =>
    obtain ⟨hchild, hborn⟩ := hkept
    have hthreads : w.threads ≤ w'.threads := by
      obtain ⟨hthreads, -⟩ | ⟨-, -, -, -, hthreads, -⟩ := h.ids <;> omega
    refine ⟨hchild.trans_le hthreads, fun slot rest' htodo' => ?_⟩
    obtain ⟨hne, hsame, -⟩ | ⟨rfl, hpushes⟩ | ⟨-, -, -, -, -, -, -, hnew⟩ := h.head hsane hstatus htodo htodo' rfl
    · -- the slot is held, so nothing but its own thread lets go of it
      obtain ⟨s, hs, hs'⟩ := hborn slot rest' hsame
      refine ⟨s, h.births_keep hs ?_ ?_, hs'⟩
      · rintro rfl
        exact hne (hsane.alone child t slot ⟨rest', Or.inl hsame⟩ ⟨rest, Or.inr htodo⟩)
      · rintro rfl
        exact hne (hsane.alone child t slot ⟨rest', Or.inl hsame⟩ ⟨rest, Or.inl htodo⟩)
    · cases hpushes
    · omega
  | exited =>
    obtain hu | ⟨hu, hne, hle⟩ := hkept
    · exact Or.inl (h.stays_gone hsane hstatus hu)
    obtain ⟨hut, hlt, hgone | hu'⟩ := h.ended hsane hstatus hu
    · exact Or.inl hgone
    refine Or.inr ⟨hu', ?_⟩
    have hid : w'.id u = w.id u := by
      obtain ⟨-, hid, -⟩ | ⟨id, -, -, -, -, hid⟩ := h.ids
      · rw [hid]
      · rw [hid, Function.update_of_ne hlt.ne]
    dsimp only at hne hle ⊢
    rw [hid]
    obtain ⟨hsame, -⟩ | ⟨-, -, hcell, hpublish⟩ := h.exits
    · rw [hsame]
      exact ⟨hne, hle⟩
    · -- the thread that leaves has another number
      have hlt' := hsane.lt_threads hstatus
      have hother : w.id t ≠ w.id u := by
        intro heq
        have htgone : w.status t ≠ .gone := by simp [hstatus]
        have hugone : w.status u ≠ .gone := by simp [hu]
        exact hut (hsane.apart t u hlt' hlt htgone hugone heq).symm
      rw [hpublish (hsane.ids t hlt'), Table.published_keeps hother hcell hne]
      exact ⟨hne, hle⟩
  | quit =>
    obtain hu | hu := hkept
    · exact Or.inl (h.stays_gone hsane hstatus hu)
    · exact (h.ended hsane hstatus hu).2.2
  | born slot =>
    cases slot with
    | none => exact hkept
    | some slot => trivial
  | _ => trivial

/-- What a step publishes is there once it is made. -/
theorem Change.made (h : Change w t rest m w') (hsane : Sane w) (hstatus : w.status t = .running)
    (htodo : w.todo t = m :: rest) : Kept w' ⟨t, m, clock (w'.clocks.slot t)⟩ := by
  have hlt := hsane.lt_threads hstatus
  cases m with
  | released key =>
    intro hkey
    obtain ⟨-, hzero⟩ | ⟨key', hsame, hkey', hnew, hcell, -, hpublish⟩ := h.published
    · exact absurd (hzero key rfl) hkey
    · obtain rfl := Micro.released.inj hsame
      rw [hpublish, Table.published_publish hkey' hcell]
      exact ⟨hnew, le_rfl⟩
  | publishedEverywhere => exact h.fenced.2 rfl
  | create child id =>
    obtain ⟨-, -, hnot⟩ | ⟨id', hsame, -, -, hthreads, -⟩ := h.ids
    · exact absurd rfl (hnot child id)
    obtain ⟨rfl, -⟩ := Micro.create.inj hsame
    refine ⟨by rw [hthreads]; exact Nat.lt_succ_self _, fun slot rest' htodo' => ?_⟩
    obtain ⟨-, -, hnot⟩ | ⟨heq, -⟩ | ⟨id, slot', -, hborn, -, htaken, hne, -⟩ := h.head hsane hstatus htodo htodo' rfl
    · exact absurd rfl (hnot id)
    · exact absurd heq hlt.ne'
    · obtain rfl := Option.some.inj (Micro.born.inj hborn)
      exact ⟨_, htaken, hne, le_rfl⟩
  | exited =>
    obtain ⟨-, hnot⟩ | ⟨-, hne, hcell, hpublish⟩ := h.exits
    · exact absurd rfl hnot
    have hid : w'.id t = w.id t := by
      obtain ⟨-, hid, -⟩ | ⟨id, hcreate, -⟩ := h.ids
      · rw [hid]
      · exact absurd hcreate (by simp)
    have hfinished : w'.status t = .finished true := by
      obtain ⟨-, hnot⟩ | ⟨-, ⟨-, hfinished⟩ | ⟨hquit, -⟩⟩ | ⟨hfinished, -⟩ | ⟨heq, -⟩ := h.status t
      · exact absurd rfl (hnot (Or.inl rfl))
      · exact hfinished
      · exact absurd hquit (by simp)
      · exact absurd (hstatus.symm.trans hfinished) (by simp)
      · exact absurd heq hlt.ne
    refine Or.inr ⟨hfinished, ?_⟩
    dsimp only
    rw [hid, hpublish (hsane.ids t hlt), Table.published_publish (hsane.ids t hlt) hcell]
    exact ⟨hne, le_rfl⟩
  | quit =>
    obtain ⟨-, hnot⟩ | ⟨-, ⟨hexited, -⟩ | ⟨-, hfinished⟩⟩ | ⟨hfinished, -⟩ | ⟨heq, -⟩ := h.status t
    · exact absurd rfl (hnot (Or.inr rfl))
    · exact absurd hexited (by simp)
    · exact Or.inr hfinished
    · exact absurd (hstatus.symm.trans hfinished) (by simp)
    · exact absurd heq hlt.ne
  | born slot =>
    cases slot with
    | none => exact absurd htodo (hsane.born t rest)
    | some slot => trivial
  | _ => trivial

end Step

end Rucc.SafeRt.Races
