import Rucc.Lib.Lamport
import Rucc.Lib.Lists
import Rucc.SafeRt.RacesKept

/-!
# What the race detector reports

In a run that loses no ordering every link from one step to another moves the clocks forward, and what is in the
plane is a stamp of the step that left it. A stamp that is reported was left by a step of another thread that is
not behind the reader, and so no links lead from that step to the reader's.
-/

namespace Rucc.SafeRt.Races

open Epoch Sync

variable {w w' : World} {t addr len : ℕ} {events : List Event}

/-! ## Runs -/

/-- A stamp that a thread has written no later than a time, and that something can get past. -/
structure Stamped (w : World) (t : ℕ) (s : Stamp) (time : ℕ) : Prop where
  slot : w.clocks.slot t ≠ NONE
  thread : thread (w.clocks.slot t) = thread s
  le : clock s ≤ time
  lt : clock s < CLOCKS

/-- What a thread is about to take is not behind any step that handed it to the last one of the thread. -/
def Taken (events : List Event) (t : ℕ) (seen : Stamp) : Prop :=
  ∀ l look, events[l]? = some look → look.thread = t → (∀ (m : ℕ) (d : Event), l < m → events[m]? = some d → d.thread ≠ t) →
    ∀ i e, i < l → events[i]? = some e → Hands e look → seen ≠ NONE ∧ e.time ≤ clock seen

/-- What holds of a run that loses no ordering. -/
structure Ran (events : List Event) (w : World) : Prop where
  sane : Sane w
  kept : ∀ e ∈ events, Kept w e
  times : ∀ e ∈ events, e.time ≤ clock (w.clocks.slot e.thread)
  fills : ∀ t addr len s rest, w.todo t = .fill addr len s :: rest → s ≠ NONE →
    Stamped w t s (clock (w.clocks.slot t))
  plane : ∀ granule, w.epochs granule ≠ NONE → ∃ i e, events[i]? = some e ∧ Left events granule i ∧
    Stamped w e.thread (w.epochs granule) e.time
  taken : ∀ t seen rest, w.todo t = .sync seen :: rest → Taken events t seen
  links : ∀ i j e e', Link events i j → events[i]? = some e → events[j]? = some e' →
    e.thread = e'.thread ∧ e.time ≤ e'.time ∨ min (e.time + 1) CLOCKS ≤ e'.time

theorem Stamped.moves {u : ℕ} {s : Stamp} {time : ℕ} (h : Stamped w u s time)
    (hmoves : w.clocks.Moves w'.clocks t) : Stamped w' u s time := by
  by_cases hu : u = t
  · subst hu
    obtain ⟨hslot, hthread⟩ := hmoves.same h.slot
    exact ⟨hslot, hthread.trans h.thread, h.le, h.lt⟩
  · have hsame := hmoves.other u hu
    exact ⟨by rw [hsame]; exact h.slot, by rw [hsame]; exact h.thread, h.le, h.lt⟩

theorem Sane.new : Sane (World.new false) := by
  have hholds (t slot : ℕ) : ¬ (World.new false).Holds t slot := by
    rintro ⟨rest, h | h⟩
    · exact absurd h (List.cons_ne_nil _ _).symm
    · exact absurd h (List.cons_ne_nil _ _).symm
  constructor
  case keyless => rfl
  case valid => exact fun t h => absurd rfl h
  case rests => exact fun t m rest h => absurd h (List.cons_ne_nil _ _).symm
  case unborn => exact fun t ht => if_neg (Nat.pos_iff_ne_zero.1 ht)
  case ids => exact fun _ _ => Nat.one_ne_zero
  case apart =>
    intro t u ht hu _ _ _
    exact (Nat.lt_one_iff.1 ht).trans (Nat.lt_one_iff.1 hu).symm
  case slots => exact fun t slot h => absurd h (hholds t slot)
  case alone => exact fun t u slot h => absurd h (hholds t slot)
  case born => exact fun t rest h => absurd h (List.cons_ne_nil _ _).symm

theorem Ran.new : Ran [] (World.new false) := by
  constructor
  case sane => exact Sane.new
  case kept => exact fun e he => absurd he List.not_mem_nil
  case times => exact fun e he => absurd he List.not_mem_nil
  case fills => exact fun t addr len s rest h => absurd h (List.cons_ne_nil _ _).symm
  case plane => exact fun granule h => absurd rfl h
  case taken => exact fun t seen rest h => absurd h (List.cons_ne_nil _ _).symm
  case links => exact fun i j e e' _ he => absurd he (by simp)

theorem Ran.turn (h : Ran events w) (hturns : Turns w w') : Ran events w' := by
  have hstamped {t : ℕ} {s : Stamp} {time : ℕ} (hs : Stamped w t s time) : Stamped w' t s time := by
    have hclocks := hturns.clocks
    exact ⟨by rw [hclocks]; exact hs.slot, by rw [hclocks]; exact hs.thread, hs.le, hs.lt⟩
  constructor
  case sane => exact h.sane.turn hturns
  case kept => exact fun e he => (h.kept e he).turn hturns
  case times => rw [hturns.clocks]; exact h.times
  case fills =>
    intro t addr len s rest htodo hs
    rw [hturns.clocks]
    exact hstamped (h.fills t addr len s rest (hturns.head htodo rfl) hs)
  case plane =>
    intro granule hne
    rw [hturns.epochs] at hne ⊢
    obtain ⟨i, e, hi, hleft, hs⟩ := h.plane granule hne
    exact ⟨i, e, hi, hleft, hstamped hs⟩
  case taken => exact fun t seen rest htodo => h.taken t seen rest (hturns.head htodo rfl)
  case links => exact h.links

section Step

variable {events : List Event} {w w' : World} {t : ℕ} {rest : List Micro} {m : Micro}

/-- What a thread has just looked up is not behind any step that handed it over. -/
theorem Pushes.seen {seen : Stamp} {time : ℕ} {e : Event} (hpushes : Pushes w w' t m (.sync seen)) (h : Ran events w)
    (htodo : w.todo t = m :: rest) (he : e ∈ events) (hhands : Hands e ⟨t, m, time⟩) :
    seen ≠ NONE ∧ e.time ≤ clock seen := by
  have hkept := h.kept e he
  obtain ⟨u, me, time'⟩ := e
  cases hpushes with
  | @acquired key hkey =>
    cases me with
    | released key' =>
      obtain ⟨rfl, -⟩ := hhands
      exact hkept hkey
    | _ => exact hhands.elim
  | taken hfenced =>
    cases me with
    | publishedEverywhere =>
      refine ⟨stamp_ne_none (Nat.pos_of_ne_zero hfenced), ?_⟩
      rw [clock_stamp]
      exact le_min hkept ((h.times _ he).trans (clock_le _))
    | _ => exact hhands.elim
  | @born slot s hslot =>
    cases me with
    | create child id =>
      obtain rfl : t = child := hhands
      obtain ⟨s', hs', hne, hle⟩ := hkept.2 slot rest htodo
      obtain rfl := Option.some.inj (hs'.symm.trans hslot)
      exact ⟨hne, hle⟩
    | _ => exact hhands.elim
  | @joined child hstatus hid =>
    cases me with
    | exited =>
      obtain rfl : u = child := hhands
      obtain hgone | ⟨-, hpublished⟩ := hkept
      · exact absurd (hstatus.symm.trans hgone) (by simp)
      · exact hpublished
    | quit =>
      obtain rfl : u = child := hhands
      obtain hgone | hquit := hkept
      · exact absurd (hstatus.symm.trans hgone) (by simp)
      · exact absurd (hstatus.symm.trans hquit) (by simp)
    | _ => exact hhands.elim

/-- Where a step comes after another one directly in a run with one more step, it does so without that step, or
it is that step. -/
theorem Link.of_snoc {e' : Event} {i j : ℕ} (h : Link (events ++ [e']) i j) :
    i < j ∧ (j < events.length ∧ Link events i j ∨ j = events.length) := by
  cases h with
  | program hi hj hlt hthread =>
    refine ⟨hlt, ?_⟩
    obtain ⟨hjlt, hj⟩ | ⟨hj, -⟩ := getElem?_snoc hj
    · obtain ⟨-, hi⟩ | ⟨hi, -⟩ := getElem?_snoc hi
      · exact Or.inl ⟨hjlt, .program hi hj hlt hthread⟩
      · omega
    · exact Or.inr hj
  | handed hi hl hj hil hlj hhands hthread hnext htake =>
    refine ⟨hil.trans hlj, ?_⟩
    obtain ⟨hjlt, hj⟩ | ⟨hj, -⟩ := getElem?_snoc hj
    · obtain ⟨-, hl⟩ | ⟨hl, -⟩ := getElem?_snoc hl
      · obtain ⟨-, hi⟩ | ⟨hi, -⟩ := getElem?_snoc hi
        · exact Or.inl ⟨hjlt, .handed hi hl hj hil hlj hhands hthread
            (fun m d hm hmj hd => hnext m d hm hmj (getElem?_append_singleton hd)) htake⟩
        · omega
      · omega
    · exact Or.inr hj
  | born hi hj hlt hcreate hborn =>
    refine ⟨hlt, ?_⟩
    obtain ⟨hjlt, hj⟩ | ⟨hj, -⟩ := getElem?_snoc hj
    · obtain ⟨-, hi⟩ | ⟨hi, -⟩ := getElem?_snoc hi
      · exact Or.inl ⟨hjlt, .born hi hj hlt hcreate hborn⟩
      · omega
    · exact Or.inr hj

/-- What comes directly before the last step of a run: a step of its thread, or one that was handed to the step
before it in the thread, or one that created the thread. -/
theorem Link.last {x : Event} {i : ℕ} (h : Link (events ++ [x]) i events.length) :
    ∃ e, events[i]? = some e ∧ (e.thread = x.thread ∨ x.micro = .born none ∨
      ∃ l look seen, i < l ∧ events[l]? = some look ∧ look.thread = x.thread ∧ Hands e look ∧
        (∀ (m : ℕ) (d : Event), l < m → events[m]? = some d → d.thread ≠ x.thread) ∧ x.micro = .sync seen) := by
  have hbefore {k : ℕ} {y : Event} (hk : (events ++ [x])[k]? = some y) (hlt : k < events.length) :
      events[k]? = some y := by
    obtain ⟨-, hk⟩ | ⟨rfl, -⟩ := getElem?_snoc hk
    · exact hk
    · exact absurd hlt (lt_irrefl _)
  have hlast {y : Event} (hy : (events ++ [x])[events.length]? = some y) : x = y := by
    obtain ⟨hlt, -⟩ | ⟨-, hy⟩ := getElem?_snoc hy
    · exact absurd hlt (lt_irrefl _)
    · exact hy
  generalize hlen : events.length = n at h
  cases h with
  | program hi hj hlt hthread =>
    subst hlen
    obtain rfl := hlast hj
    exact ⟨_, hbefore hi hlt, Or.inl hthread⟩
  | handed hi hl hj hil hlj hhands hthread hnext htake =>
    subst hlen
    obtain rfl := hlast hj
    refine ⟨_, hbefore hi (hil.trans hlj), Or.inr (Or.inr ⟨_, _, _, hil, hbefore hl hlj, hthread, hhands, ?_, htake⟩)⟩
    intro m d hm hd
    exact hnext m d hm (List.getElem?_eq_some_iff.1 hd).1 (getElem?_append_singleton hd)
  | born hi hj hlt hcreate hborn =>
    subst hlen
    obtain rfl := hlast hj
    exact ⟨_, hbefore hi hlt, Or.inr (Or.inl hborn)⟩

/-- A step is not behind any that it comes after. -/
theorem Ran.link (h : Ran events w) (htodo : w.todo t = m :: rest) (hchange : Change w t rest m w') {i : ℕ} {e : Event}
    (hlink : Link (events ++ [⟨t, m, clock (w'.clocks.slot t)⟩]) i events.length) (hi : events[i]? = some e) :
    e.thread = t ∧ e.time ≤ clock (w'.clocks.slot t) ∨ min (e.time + 1) CLOCKS ≤ clock (w'.clocks.slot t) := by
  obtain ⟨e', hi', hthread | hborn | ⟨l, look, seen, hil, hl, hthread, hhands, hnext, htake⟩⟩ := hlink.last
  · obtain rfl := Option.some.inj (hi.symm.trans hi')
    obtain rfl : e.thread = t := hthread
    exact Or.inl ⟨rfl, (h.times e (List.mem_of_getElem? hi)).trans hchange.moves.le⟩
  · obtain rfl : m = .born none := hborn
    exact absurd htodo (h.sane.born t rest)
  · obtain rfl := Option.some.inj (hi.symm.trans hi')
    obtain rfl : m = .sync seen := htake
    obtain ⟨hne, hle⟩ := h.taken t seen rest htodo l look hl hthread hnext i e hil hi hhands
    refine Or.inr ?_
    have hpast := hchange.synced hne
    omega

/-- The plane has in it what the last step that wrote it left. -/
theorem Ran.plane_step (h : Ran events w) (htodo : w.todo t = m :: rest) (hchange : Change w t rest m w') {granule : ℕ}
    (hne : w'.epochs granule ≠ NONE) :
    ∃ i e, (events ++ [⟨t, m, clock (w'.clocks.slot t)⟩])[i]? = some e ∧
      Left (events ++ [⟨t, m, clock (w'.clocks.slot t)⟩]) granule i ∧ Stamped w' e.thread (w'.epochs granule) e.time := by
  have hmoves := hchange.moves
  -- what was left stays left by the same step, where the new step does not write the granule
  have hstays (hsame : w'.epochs granule = w.epochs granule)
      (hwrites : ¬ Event.writes ⟨t, m, clock (w'.clocks.slot t)⟩ granule) :
      ∃ i e, (events ++ [⟨t, m, clock (w'.clocks.slot t)⟩])[i]? = some e ∧
        Left (events ++ [⟨t, m, clock (w'.clocks.slot t)⟩]) granule i ∧
        Stamped w' e.thread (w'.epochs granule) e.time := by
    rw [hsame] at hne ⊢
    obtain ⟨i, e, hi, ⟨⟨e', hi', he'⟩, hafter⟩, hs⟩ := h.plane granule hne
    refine ⟨i, e, getElem?_append_singleton hi, ⟨⟨e', getElem?_append_singleton hi', he'⟩, ?_⟩, hs.moves hmoves⟩
    intro j d hij hj
    obtain ⟨-, hj⟩ | ⟨-, rfl⟩ := getElem?_snoc hj
    · exact hafter j d hij hj
    · exact hwrites
  obtain ⟨hsame, hnot⟩ | ⟨addr, len, s, rfl, hfill⟩ := hchange.epochs
  · refine hstays (by rw [hsame]) ?_
    rintro ⟨addr, len, s, hm, -⟩
    exact hnot addr len s hm
  · by_cases htouches : touches addr len granule
    · have hgranule : w'.epochs granule = s := by
        rw [hfill]
        exact if_pos htouches
      rw [hgranule] at hne ⊢
      obtain ⟨hslot, hthread, hle, hlt⟩ := h.fills t addr len s rest htodo hne
      have hlast : (events ++ [(⟨t, .fill addr len s, clock (w'.clocks.slot t)⟩ : Event)])[events.length]? =
          some ⟨t, .fill addr len s, clock (w'.clocks.slot t)⟩ := List.getElem?_concat_length
      refine ⟨events.length, _, hlast, ⟨⟨_, hlast, addr, len, s, rfl, htouches⟩, ?_⟩,
        Stamped.moves ⟨hslot, hthread, hle.trans hmoves.le, hlt⟩ hmoves⟩
      intro j d hj hd
      have := (List.getElem?_eq_some_iff.1 hd).1
      rw [List.length_append, List.length_singleton] at this
      omega
    · refine hstays ?_ ?_
      · rw [hfill]
        exact if_neg htouches
      · rintro ⟨addr', len', s', hm, htouches'⟩
        obtain ⟨rfl, rfl, rfl⟩ := Micro.fill.inj hm
        exact htouches htouches'

theorem Ran.step (h : Ran events w) (hstatus : w.status t = .running) (htodo : w.todo t = m :: rest)
    (hchange : Change w t rest m w') : Ran (events ++ [⟨t, m, clock (w'.clocks.slot t)⟩]) w' := by
  have hmoves := hchange.moves
  constructor
  case sane => exact h.sane.change hstatus htodo hchange
  case kept =>
    intro e he
    rcases List.mem_append.1 he with he | he
    · exact (h.kept e he).change h.sane hstatus htodo hchange
    · obtain rfl := List.mem_singleton.1 he
      exact hchange.made h.sane hstatus htodo
  case times =>
    intro e he
    rcases List.mem_append.1 he with he | he
    · by_cases hthread : e.thread = t
      · rw [hthread]
        exact (hthread ▸ h.times e he).trans hmoves.le
      · rw [hmoves.other _ hthread]
        exact h.times e he
    · obtain rfl := List.mem_singleton.1 he
      exact le_rfl
  case fills =>
    intro u addr len s rest' htodo' hs
    obtain ⟨hu, hold, -⟩ | ⟨rfl, hpushes⟩ | ⟨id, slot, -, hborn, -⟩ := hchange.head h.sane hstatus htodo htodo' rfl
    · rw [hmoves.other u hu]
      exact (h.fills u addr len s rest' hold hs).moves hmoves
    · cases hpushes with
      | clear => exact absurd rfl hs
      | stamped hown => exact ⟨by rw [hown.slot]; exact hs, by rw [hown.slot], by rw [hown.slot], hown.lt⟩
      | freed hown => exact ⟨by rw [hown.slot]; exact hs, by rw [hown.slot], by rw [hown.slot], hown.lt⟩
    · exact absurd hborn (by simp)
  case plane => exact fun granule hne => h.plane_step htodo hchange hne
  case taken =>
    intro u seen rest' htodo' l look hl hthread hlast i e hil hi hhands
    have hilt : events[i]? = some e := by
      obtain ⟨-, hi⟩ | ⟨rfl, -⟩ := getElem?_snoc hi
      · exact hi
      · have := (List.getElem?_eq_some_iff.1 hl).1
        rw [List.length_append, List.length_singleton] at this
        omega
    obtain ⟨hu, hold, -⟩ | ⟨rfl, hpushes⟩ | ⟨id, slot, -, hborn, -⟩ := hchange.head h.sane hstatus htodo htodo' rfl
    · -- the step is one of another thread, and is neither the last one of this thread nor handed to it
      obtain ⟨-, hl⟩ | ⟨-, rfl⟩ := getElem?_snoc hl
      · exact h.taken u seen rest' hold l look hl hthread
          (fun m d hm hd => hlast m d hm (getElem?_append_singleton hd)) i e hil hilt hhands
      · exact absurd hthread.symm hu
    · obtain ⟨hlt, -⟩ | ⟨-, rfl⟩ := getElem?_snoc hl
      · exact absurd rfl (hlast events.length _ hlt List.getElem?_concat_length)
      · exact hpushes.seen h htodo (List.mem_of_getElem? hilt) hhands
    · exact absurd hborn (by simp)
  case links =>
    intro i j e e' hlink hi hj
    obtain ⟨hij, ⟨hjlt, hbefore⟩ | rfl⟩ := hlink.of_snoc
    · rw [List.getElem?_append_left (hij.trans hjlt)] at hi
      rw [List.getElem?_append_left hjlt] at hj
      exact h.links i j e e' hbefore hi hj
    · obtain ⟨hlt, -⟩ | ⟨-, rfl⟩ := getElem?_snoc hj
      · exact absurd hlt (lt_irrefl _)
      obtain ⟨-, hi⟩ | ⟨rfl, -⟩ := getElem?_snoc hi
      · exact h.link htodo hchange hlink hi
      · exact absurd hij (lt_irrefl _)

end Step

theorem World.exec_keyless {m : Micro} (h : w.exec t m = some w') : w'.keyless = w.keyless := by
  cases m with
  | born slot =>
    cases slot with
    | none => grind [World.exec]
    | some slot => grind [World.exec, World.next]
  | _ => grind [World.exec, World.next]

theorem Run.keyless {keyless : Bool} {allowed : World → ℕ → Micro → Prop} {events : List Event} {w : World}
    (h : Run keyless allowed events w) : w.keyless = keyless := by
  induction h with
  | init => rfl
  | turn _ turn hturn ih => exact (turn_turns hturn).keyless.trans ih
  | step _ t m _ hstep ih =>
    unfold World.step at hstep
    split at hstep
    · obtain ⟨w'', hexec, heq⟩ := Option.map_eq_some_iff.1 hstep
      obtain ⟨-, rfl⟩ := Prod.mk.inj heq
      exact (World.exec_keyless hexec).trans ih
    · exact absurd hstep (by simp)

/-! ## Reports -/

/-- What is found is a stamp of the plane that is not behind the thread and is another one's. -/
theorem World.found_spec (h : w.found t addr len ≠ NONE) :
    w.keyless = false ∧ (∃ granule, touches addr len granule ∧ w.epochs granule = w.found t addr len) ∧
      unordered (w.found t addr len) (w.clocks.here w.keyless t).1 = true := by
  unfold World.found at h ⊢
  dsimp only at h ⊢
  by_cases hmine : (w.clocks.here w.keyless t).1 = NONE
  · exact absurd (if_pos hmine) h
  rw [if_neg hmine] at h ⊢
  obtain ⟨granule, htouches, hepoch, hunordered⟩ := stranger_spec h
  refine ⟨?_, ⟨granule, htouches, hepoch⟩, by rwa [← hepoch]⟩
  by_contra hkeyless
  rw [Bool.not_eq_false] at hkeyless
  rw [hkeyless] at hmine
  exact hmine rfl

theorem Link.isSome {i j : ℕ} (h : Link events i j) : (∃ e, events[i]? = some e) ∧ ∃ e, events[j]? = some e := by
  cases h with
  | program hi hj => exact ⟨⟨_, hi⟩, ⟨_, hj⟩⟩
  | handed hi _ hj => exact ⟨⟨_, hi⟩, ⟨_, hj⟩⟩
  | born hi hj => exact ⟨⟨_, hi⟩, ⟨_, hj⟩⟩

/-- No step comes before one of another thread that stands no further than a stamp it left. -/
theorem Ran.not_before {events : List Event} {w : World} (h : Ran events w) {i j c : ℕ} {e e' : Event}
    (hi : events[i]? = some e) (hj : events[j]? = some e') (hthread : e.thread ≠ e'.thread) (hle : c ≤ e.time)
    (htop : c < CLOCKS) (hbehind : e'.time ≤ c) : ¬ Before events i j := by
  refine @Lamport.not_before ℕ (Option ℕ) (fun k => events[k]?.map Event.thread)
    (fun k => (events[k]?.map Event.time).getD 0) CLOCKS (Link events) ?_ i j c ?_ ?_ htop ?_
  · intro k l hlink
    obtain ⟨⟨d, hk⟩, ⟨d', hl⟩⟩ := hlink.isSome
    unfold Lamport.Follows
    dsimp only
    rw [hk, hl]
    exact (h.links k l d d' hlink hk hl).imp_left fun ⟨hsame, hle⟩ => ⟨congrArg some hsame, hle⟩
  · rw [hi, hj]
    exact fun hsame => hthread (Option.some.inj hsame)
  · rwa [hi]
  · rwa [hj]

end Rucc.SafeRt.Races
