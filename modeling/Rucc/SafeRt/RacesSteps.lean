import Rucc.SafeRt.Races

/-!
# What one step does

What the operations on the clocks do to the clock of one thread, and for every step what it changes in the
world and what it leaves the thread to do. The runs that are looked at later use nothing else about a step.
-/

namespace Rucc.SafeRt.Races

open Epoch Sync

variable {w w' : World} {t : ℕ}

/-! ## Clocks -/

namespace Clocks

variable {c : Clocks} {t : ℕ} {own : Clock}

/-- Every clock that was made has a number and has started. -/
def Valid (c : Clocks) : Prop := ∀ t, c.slot t ≠ NONE → thread (c.slot t) ≤ THREADS ∧ 0 < clock (c.slot t)

/-- The clocks of the other threads stay, and that of the thread moves forward under its number. -/
structure Moves (c c' : Clocks) (t : ℕ) : Prop where
  other : ∀ u, u ≠ t → c'.slot u = c.slot u
  le : clock (c.slot t) ≤ clock (c'.slot t)
  same : c.slot t ≠ NONE → c'.slot t ≠ NONE ∧ thread (c'.slot t) = thread (c.slot t)
  valid : c.Valid → c'.Valid

theorem Moves.refl (c : Clocks) (t : ℕ) : c.Moves c t := ⟨fun _ _ => rfl, le_rfl, fun h => ⟨h, rfl⟩, fun h => h⟩

theorem Moves.trans {c' c'' : Clocks} (h : c.Moves c' t) (h' : c'.Moves c'' t) : c.Moves c'' t := by
  constructor
  case other => exact fun u hu => (h'.other u hu).trans (h.other u hu)
  case le => exact h.le.trans h'.le
  case same =>
    intro hslot
    obtain ⟨hslot', hthread⟩ := h.same hslot
    obtain ⟨hslot'', hthread'⟩ := h'.same hslot'
    exact ⟨hslot'', hthread'.trans hthread⟩
  case valid => exact fun hvalid => h'.valid (h.valid hvalid)

end Clocks

/-! ## Steps -/

/-- A stamp that a thread has just taken, and that something can get past. -/
structure Own (w : World) (t : ℕ) (s : Stamp) : Prop where
  ne : s ≠ NONE
  slot : w.clocks.slot t = s
  lt : clock s < CLOCKS

/-- What a step leaves its thread to do next. -/
inductive Pushes (w w' : World) (t : ℕ) : Micro → Micro → Prop
  | walk {addr size b n : ℕ} : Pushes w w' t (.raced addr size) (.walk b n)
  | clear {payload block b n : ℕ} : Pushes w w' t (.begin_ payload block) (.fill b n NONE)
  | over_ {payload b n : ℕ} : Pushes w w' t (.end_ payload) (.over_ b n)
  | stamped {addr size b n : ℕ} {s : Stamp} (hs : Own w' t s) : Pushes w w' t (.stamped addr size) (.fill b n s)
  | freed {payload block b n : ℕ} {s : Stamp} (hs : Own w' t s) : Pushes w w' t (.over_ payload block) (.fill b n s)
  | acquired {key : ℕ} (hkey : key ≠ 0) : Pushes w w' t (.acquired key) (.sync (w.published.published key))
  | taken (hfenced : w.fenced ≠ 0) : Pushes w w' t .takenEverywhere (.sync (stamp 0 w.fenced))
  | claimed {slot : ℕ} {s : Stamp} (hslot : w.births slot = none) (hnew : w'.births slot = some s) :
      Pushes w w' t .createFails (.giveBack slot)
  | born {slot : ℕ} {s : Stamp} (hslot : w.births slot = some s) : Pushes w w' t (.born (some slot)) (.sync s)
  | joined {child : ℕ} (hstatus : w.status child = .finished true) (hid : w.id child ≠ 0) :
      Pushes w w' t (.joined child) (.sync (w.exits.published (w.id child)))

/-- Whether a step changes nothing that another thread can see of the order, nor any plane. -/
def Micro.quiet : Micro → Bool
  | .raced _ _ | .walk _ _ | .stamped _ _ | .begin_ _ _ | .end_ _ | .over_ _ _ | .acquired _ | .takenEverywhere
  | .born none | .sync _ => true
  | .released key => key = 0
  | _ => false

/-- What a quiet step leaves as it is. -/
structure Quiet (w w' : World) : Prop where
  keyless : w'.keyless = w.keyless
  published : w'.published = w.published
  exits : w'.exits = w.exits
  fenced : w'.fenced = w.fenced
  births : w'.births = w.births
  epochs : w'.epochs = w.epochs
  threads : w'.threads = w.threads
  status : w'.status = w.status
  id : w'.id = w.id

/-- What a step of a thread changes, where it loses no ordering. -/
inductive Change (w : World) (t : ℕ) (rest : List Micro) : Micro → World → Prop
  | quiet {m : Micro} {w' : World} (hkind : m.quiet = true) (hquiet : Quiet w w')
      (hmoves : w.clocks.Moves w'.clocks t)
      (htodo : w'.todo = Function.update w.todo t rest ∨
        ∃ m', Pushes w w' t m m' ∧ w'.todo = Function.update w.todo t (m' :: rest))
      (hsync : ∀ seen, m = .sync seen → seen ≠ NONE → min (clock seen + 1) CLOCKS ≤ clock (w'.clocks.slot t)) :
      Change w t rest m w'
  | fill {addr len : ℕ} {s : Stamp} : Change w t rest (.fill addr len s)
      { w with todo := Function.update w.todo t rest, epochs := Epoch.fill w.epochs addr len s }
  | released {key : ℕ} {clocks : Clocks} (hkey : key ≠ 0) (hmoves : w.clocks.Moves clocks t)
      (hne : clocks.slot t ≠ NONE) (hcell : (w.published.cellOf key).isSome = true)
      (hle : clock (w.published.published key) ≤ clock (clocks.slot t)) : Change w t rest (.released key)
      { w with
        todo := Function.update w.todo t rest
        clocks := clocks
        published := w.published.publish key (clocks.slot t) }
  | publishedEverywhere {clocks : Clocks} (hmoves : w.clocks.Moves clocks t) :
      Change w t rest .publishedEverywhere
      { w with
        todo := Function.update w.todo t rest
        clocks := clocks
        fenced := max w.fenced (clock (clocks.slot t)) }
  | create {child id slot : ℕ} {clocks : Clocks} {tracked : ℕ → Bool} (hchild : child = w.threads) (hid : id ≠ 0)
      (hnamed : w.named id = false) (hslot : w.births slot = none) (hmoves : w.clocks.Moves clocks t)
      (hne : clocks.slot t ≠ NONE) : Change w t rest (.create child id)
      { w with
        clocks := clocks
        births := Function.update w.births slot (some (clocks.slot t))
        threads := w.threads + 1
        status := Function.update w.status child .running
        id := Function.update w.id child id
        tracked := tracked
        todo := Function.update (Function.update w.todo t rest) child [.born (some slot)] }
  | createFails {clocks : Clocks} (hmoves : w.clocks.Moves clocks t) : Change w t rest .createFails
      { w with todo := Function.update w.todo t rest, clocks := clocks }
  | claimed {slot : ℕ} {clocks : Clocks} (hslot : w.births slot = none) (hmoves : w.clocks.Moves clocks t)
      (hne : clocks.slot t ≠ NONE) : Change w t rest .createFails
      { w with
        todo := Function.update w.todo t (.giveBack slot :: rest)
        clocks := clocks
        births := Function.update w.births slot (some (clocks.slot t)) }
  | giveBack {slot : ℕ} : Change w t rest (.giveBack slot)
      { w with todo := Function.update w.todo t rest, births := Function.update w.births slot none }
  | born {slot : ℕ} {s : Stamp} (hslot : w.births slot = some s) : Change w t rest (.born (some slot))
      { w with
        todo := Function.update w.todo t (.sync s :: rest)
        births := Function.update w.births slot none }
  | exited {clocks : Clocks} (hmoves : w.clocks.Moves clocks t) (hne : clocks.slot t ≠ NONE)
      (hcell : (w.exits.cellOf (w.id t)).isSome = true) : Change w t rest .exited
      { w with
        todo := Function.update w.todo t rest
        clocks := clocks
        status := Function.update w.status t (.finished true)
        exits := if w.id t = 0 then w.exits else w.exits.publish (w.id t) (clocks.slot t) }
  | quit : Change w t rest .quit
      { w with todo := Function.update w.todo t rest, status := Function.update w.status t (.finished false) }
  | joined {child : ℕ} (hstatus : w.status child = .finished true) : Change w t rest (.joined child)
      { w with
        status := Function.update w.status child .gone
        todo := Function.update w.todo t
          (if w.id child = 0 then rest else .sync (w.exits.published (w.id child)) :: rest) }

/-- A quiet step that leaves its thread nothing to do. -/
theorem Change.done {w : World} {t : ℕ} {rest : List Micro} {m : Micro} {clocks : Clocks} {heap : ℕ → Option ℕ}
    {owned : ℕ → Bool} (hkind : m.quiet = true) (hmoves : w.clocks.Moves clocks t)
    (hsync : ∀ seen, m = .sync seen → seen ≠ NONE → min (clock seen + 1) CLOCKS ≤ clock (clocks.slot t)) :
    Change w t rest m
      { w with todo := Function.update w.todo t rest, clocks := clocks, heap := heap, owned := owned } :=
  .quiet hkind ⟨rfl, rfl, rfl, rfl, rfl, rfl, rfl, rfl, rfl⟩ hmoves (Or.inl rfl) hsync

namespace Change

variable {w w' : World} {t : ℕ} {rest : List Micro} {m : Micro}

/-- A step moves the clock of its thread only, and only forward. -/
theorem moves (h : Change w t rest m w') : w.clocks.Moves w'.clocks t := by
  cases h with
  | quiet _ _ hmoves => exact hmoves
  | released _ hmoves => exact hmoves
  | publishedEverywhere hmoves => exact hmoves
  | create _ _ _ _ hmoves => exact hmoves
  | createFails hmoves => exact hmoves
  | claimed _ hmoves => exact hmoves
  | exited hmoves => exact hmoves
  | _ => exact Clocks.Moves.refl _ _

/-- A thread that takes an ordering gets past it. -/
theorem synced {seen : Stamp} (h : Change w t rest (.sync seen) w') (hne : seen ≠ NONE) :
    min (clock seen + 1) CLOCKS ≤ clock (w'.clocks.slot t) := by
  cases h with
  | quiet _ _ _ _ hsync => exact hsync seen rfl hne

theorem keyless (h : Change w t rest m w') : w'.keyless = w.keyless := by
  cases h with
  | quiet _ hquiet => exact hquiet.keyless
  | _ => rfl

/-- What a thread has left to do is the rest of what it had, and before it what the step left to do. -/
theorem todo_own (h : Change w t rest m w') (ht : t < w.threads) :
    w'.todo t = rest ∨ ∃ m', Pushes w w' t m m' ∧ w'.todo t = m' :: rest := by
  cases h with
  | quiet _ _ _ htodo =>
    obtain htodo | ⟨m', hpushes, htodo⟩ := htodo
    · exact Or.inl (by rw [htodo, Function.update_self])
    · exact Or.inr ⟨m', hpushes, by rw [htodo, Function.update_self]⟩
  | create hchild =>
    refine Or.inl ?_
    dsimp only
    rw [Function.update_of_ne (by omega), Function.update_self]
  | claimed hslot => exact Or.inr ⟨_, .claimed hslot (Function.update_self _ _ _), Function.update_self _ _ _⟩
  | born hslot => exact Or.inr ⟨_, .born hslot, Function.update_self _ _ _⟩
  | @joined child hstatus =>
    by_cases hid : w.id child = 0
    · refine Or.inl ?_
      dsimp only
      rw [Function.update_self, if_pos hid]
    · refine Or.inr ⟨_, .joined hstatus hid, ?_⟩
      dsimp only
      rw [Function.update_self, if_neg hid]
  | _ => exact Or.inl (Function.update_self _ _ _)

/-- Another thread has left to do what it had, unless it is the one that was just created. -/
theorem todo_other (h : Change w t rest m w') {u : ℕ} (hu : u ≠ t) :
    (w'.todo u = w.todo u ∧ ∀ id, m ≠ .create u id) ∨
      ∃ id slot, m = .create u id ∧ w'.todo u = [.born (some slot)] ∧ w.births slot = none ∧
        w'.births slot = some (w'.clocks.slot t) ∧ w'.clocks.slot t ≠ NONE ∧ u = w.threads := by
  cases h with
  | quiet hkind _ _ htodo =>
    refine Or.inl ⟨?_, fun id hm => ?_⟩
    · obtain htodo | ⟨m', -, htodo⟩ := htodo
      · rw [htodo, Function.update_of_ne hu]
      · rw [htodo, Function.update_of_ne hu]
    · subst hm
      exact Bool.false_ne_true hkind
  | @create child id slot clocks tracked hchild _ _ hslot _ hne =>
    by_cases heq : u = child
    · subst heq
      exact Or.inr ⟨id, slot, rfl, Function.update_self _ _ _, hslot, Function.update_self _ _ _, hne, hchild⟩
    · refine Or.inl ⟨?_, fun id' hm => heq (Micro.create.inj hm).1.symm⟩
      dsimp only
      rw [Function.update_of_ne heq, Function.update_of_ne hu]
  | _ => exact Or.inl ⟨Function.update_of_ne hu _ _, nofun⟩

/-- The plane changes where a fill writes it. -/
theorem epochs (h : Change w t rest m w') : (w'.epochs = w.epochs ∧ ∀ addr len s, m ≠ .fill addr len s) ∨
    ∃ addr len s, m = .fill addr len s ∧ w'.epochs = Epoch.fill w.epochs addr len s := by
  cases h with
  | quiet hkind hquiet =>
    refine Or.inl ⟨hquiet.epochs, fun addr len s hm => ?_⟩
    subst hm
    exact Bool.false_ne_true hkind
  | fill => exact Or.inr ⟨_, _, _, rfl, rfl⟩
  | _ => exact Or.inl ⟨rfl, nofun⟩

/-- The table of the locks changes where one is given up. -/
theorem published (h : Change w t rest m w') : (w'.published = w.published ∧ ∀ key, m = .released key → key = 0) ∨
      ∃ key, m = .released key ∧ key ≠ 0 ∧ w'.clocks.slot t ≠ NONE ∧ (w.published.cellOf key).isSome = true ∧
        clock (w.published.published key) ≤ clock (w'.clocks.slot t) ∧
        w'.published = w.published.publish key (w'.clocks.slot t) := by
  cases h with
  | quiet hkind hquiet =>
    refine Or.inl ⟨hquiet.published, fun key hm => ?_⟩
    subst hm
    exact of_decide_eq_true hkind
  | released hkey _ hne hcell hle => exact Or.inr ⟨_, rfl, hkey, hne, hcell, hle, rfl⟩
  | _ => exact Or.inl ⟨rfl, nofun⟩

/-- The clock of the fences only moves forward, and a release fence moves it past its thread. -/
theorem fenced (h : Change w t rest m w') :
    w.fenced ≤ w'.fenced ∧ (m = .publishedEverywhere → clock (w'.clocks.slot t) ≤ w'.fenced) := by
  cases h with
  | quiet hkind hquiet =>
    refine ⟨hquiet.fenced.ge, fun hm => ?_⟩
    subst hm
    exact absurd hkind Bool.false_ne_true
  | publishedEverywhere => exact ⟨le_max_left _ _, fun _ => le_max_right _ _⟩
  | _ => exact ⟨le_rfl, nofun⟩

/-- The table of the exits changes where a thread leaves, and that is where it is finished. -/
theorem exits (h : Change w t rest m w') : (w'.exits = w.exits ∧ m ≠ .exited) ∨
    m = .exited ∧ w'.clocks.slot t ≠ NONE ∧ (w.exits.cellOf (w.id t)).isSome = true ∧
      (w.id t ≠ 0 → w'.exits = w.exits.publish (w.id t) (w'.clocks.slot t)) := by
  cases h with
  | quiet hkind hquiet =>
    refine Or.inl ⟨hquiet.exits, fun hm => ?_⟩
    subst hm
    exact Bool.false_ne_true hkind
  | exited _ hne hcell => exact Or.inr ⟨rfl, hne, hcell, fun hid => if_neg hid⟩
  | _ => exact Or.inl ⟨rfl, nofun⟩

/-- A step that ends its thread, joins another one or creates one changes the status of that one. -/
theorem status (h : Change w t rest m w') (u : ℕ) : w'.status u = w.status u ∧ ((m = .exited ∨ m = .quit) → u ≠ t) ∨
      u = t ∧ (m = .exited ∧ w'.status u = .finished true ∨ m = .quit ∧ w'.status u = .finished false) ∨
      w.status u = .finished true ∧ w'.status u = .gone ∨
        u = w.threads ∧ w'.status u = .running ∧ w'.threads = w.threads + 1 := by
  cases h with
  | quiet hkind hquiet =>
    refine Or.inl ⟨by rw [hquiet.status], fun hm => ?_⟩
    rcases hm with hm | hm
    · subst hm
      exact absurd hkind Bool.false_ne_true
    · subst hm
      exact absurd hkind Bool.false_ne_true
  | @create child id slot clocks tracked hchild =>
    by_cases heq : u = child
    · subst heq
      exact Or.inr (Or.inr (Or.inr ⟨hchild, Function.update_self _ _ _, rfl⟩))
    · exact Or.inl ⟨Function.update_of_ne heq _ _, nofun⟩
  | exited =>
    by_cases heq : u = t
    · subst heq
      exact Or.inr (Or.inl ⟨rfl, Or.inl ⟨rfl, Function.update_self _ _ _⟩⟩)
    · exact Or.inl ⟨Function.update_of_ne heq _ _, fun _ => heq⟩
  | quit =>
    by_cases heq : u = t
    · subst heq
      exact Or.inr (Or.inl ⟨rfl, Or.inr ⟨rfl, Function.update_self _ _ _⟩⟩)
    · exact Or.inl ⟨Function.update_of_ne heq _ _, fun _ => heq⟩
  | @joined child hstatus =>
    by_cases heq : u = child
    · subst heq
      exact Or.inr (Or.inr (Or.inl ⟨hstatus, Function.update_self _ _ _⟩))
    · exact Or.inl ⟨Function.update_of_ne heq _ _, nofun⟩
  | _ => exact Or.inl ⟨rfl, nofun⟩

/-- The threads and their numbers change where one is created, under a number that none has that is not gone. -/
theorem ids (h : Change w t rest m w') : (w'.threads = w.threads ∧ w'.id = w.id ∧ ∀ child id, m ≠ .create child id) ∨
    ∃ id, m = .create w.threads id ∧ id ≠ 0 ∧ w.named id = false ∧ w'.threads = w.threads + 1 ∧
      w'.id = Function.update w.id w.threads id := by
  cases h with
  | quiet hkind hquiet =>
    refine Or.inl ⟨hquiet.threads, hquiet.id, fun child id hm => ?_⟩
    subst hm
    exact Bool.false_ne_true hkind
  | create hchild hid hnamed =>
    subst hchild
    exact Or.inr ⟨_, rfl, hid, hnamed, rfl, rfl⟩
  | _ => exact Or.inl ⟨rfl, rfl, nofun⟩

/-- A birth slot that is taken stays taken until it is read or given back. -/
theorem births_keep (h : Change w t rest m w') {slot : ℕ} {s : Stamp} (hs : w.births slot = some s)
    (hgive : m ≠ .giveBack slot) (hborn : m ≠ .born (some slot)) : w'.births slot = some s := by
  have htaken {slot' : ℕ} (h : w.births slot' = none) : slot ≠ slot' := by
    rintro rfl
    rw [h] at hs
    exact absurd hs (by simp)
  cases h with
  | quiet _ hquiet => rw [hquiet.births, hs]
  | create _ _ _ hslot => exact (Function.update_of_ne (htaken hslot) _ _).trans hs
  | claimed hslot => exact (Function.update_of_ne (htaken hslot) _ _).trans hs
  | @giveBack slot' =>
    have hne : slot ≠ slot' := by
      rintro rfl
      exact hgive rfl
    exact (Function.update_of_ne hne _ _).trans hs
  | @born slot' =>
    have hne : slot ≠ slot' := by
      rintro rfl
      exact hborn rfl
    exact (Function.update_of_ne hne _ _).trans hs
  | _ => exact hs

end Change

end Rucc.SafeRt.Races
