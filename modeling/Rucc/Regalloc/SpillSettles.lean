import Rucc.Regalloc.Spill

/-!
# The spill choice settles every point

However the trades end, no point is left with more values of a class than there is room for: the counts
are those of the values not sent to memory (`Counted`) from the start of a class to its end, the walk
along the points knows which values are live at the point it is at (`Swept`), and a trade is kept only
when it has settled every point it put over.
-/

namespace Rucc.Regalloc.Spill

open Mir

section

variable {cls : RegClass} {count : ℕ} {candidates : ℕ → Candidate} {points : ℕ}

variable {one bound point fuel when_ piece : ℕ} {area : Area} {t t' : Trying} {over_ ranked : List ℕ} {s : Sweep}
    {rest : List (ℕ × ℕ)} {inside : Bool}

/-- How many of the candidates not sent to memory are live at a point. -/
def held (count : ℕ) (candidates : ℕ → Candidate) (gone : ℕ → Bool) (point : ℕ) : ℕ :=
  ((Finset.range count).filter fun one =>
    gone one = false ∧ (candidates one).area.covers point = true).card

/-- Sending a value to memory takes it off every point it is live at. -/
theorem held_update_true {gone : ℕ → Bool} (hone : one < count) (hgone : gone one = false) (point : ℕ) :
    held count candidates gone point =
      held count candidates (Function.update gone one true) point +
        if (candidates one).area.covers point then 1 else 0 := by
  have herase : ((Finset.range count).filter fun other =>
      Function.update gone one true other = false ∧ (candidates other).area.covers point = true) =
      ((Finset.range count).filter fun other =>
        gone other = false ∧ (candidates other).area.covers point = true).erase one := by
    ext other
    by_cases heq : other = one
    · simp [heq]
    · simp [heq]
  unfold held
  rw [herase]
  split_ifs with hcovers
  · rw [Finset.card_erase_add_one (by simp [hone, hgone, hcovers])]
  · rw [Finset.erase_eq_of_notMem (by simp [hcovers]), add_zero]

/-- The counts of a class are of the candidates not sent to memory, and nothing else has changed. -/
structure Counted (cls : RegClass) (count : ℕ) (candidates : ℕ → Candidate) (points : ℕ)
    (before pressure : Pressure) (gone : ℕ → Bool) : Prop where
  wanted : ∀ point, pressure.wanted cls point = held count candidates gone point
  length : (pressure.wantedRows cls).length = points
  room : pressure.roomRows = before.roomRows
  other : ∀ cls' ≠ cls, pressure.wantedRows cls' = before.wantedRows cls'

/-- The candidates' areas are stored in order, in front of the last point. -/
structure Stored (count : ℕ) (candidates : ℕ → Candidate) (points : ℕ) : Prop where
  stored : ∀ one < count, (candidates one).area.Stored points
  nonempty : ∀ one < count, (candidates one).area.pieces ≠ []

variable {before pressure : Pressure} {gone : ℕ → Bool}

/-- A value that goes is taken off the counts. -/
theorem Counted.lift (h : Counted cls count candidates points before pressure gone)
    (hstored : Stored count candidates points) (hone : one < count)
    (hgone : gone one = false) :
    Counted cls count candidates points before (pressure.lift cls (candidates one).area)
      (Function.update gone one true) where
  wanted := fun point => by
    rw [Pressure.lift_wanted (hstored.stored one hone), h.wanted, held_update_true hone hgone]
    omega
  length := by rw [Pressure.length_lift, h.length]
  room := h.room
  other := fun cls' hne => by rw [Pressure.lift_other hne, h.other cls' hne]

/-- A value put back is on the counts again. -/
theorem Counted.lower (h : Counted cls count candidates points before pressure gone)
    (hstored : Stored count candidates points) (hone : one < count)
    (hgone : gone one = true) :
    Counted cls count candidates points before (pressure.lower cls (candidates one).area)
      (Function.update gone one false) where
  wanted := fun point => by
    have hback : Function.update (Function.update gone one false) one true = gone := by
      rw [Function.update_idem, ← hgone, Function.update_eq_self]
    rw [Pressure.lower_wanted (hstored.stored one hone) h.length.ge, h.wanted,
      held_update_true hone (Function.update_self one false gone), hback]
  length := by rw [Pressure.length_lower, h.length]
  room := h.room
  other := fun cls' hne => by rw [Pressure.lower_other hne, h.other cls' hne]

theorem Counted.excess (h : Counted cls count candidates points before pressure gone) (point : ℕ) :
    pressure.excess cls point = held count candidates gone point - before.room cls point := by
  unfold Pressure.excess
  rw [h.wanted]
  unfold Pressure.room
  rw [h.room]

/-- Values put back one after another. -/
theorem Counted.undo (hstored : Stored count candidates points) {others : List ℕ}
    (hnodup : others.Nodup) (hlt : ∀ other ∈ others, other < count)
    (hgone : ∀ other ∈ others, gone other = false)
    (h : Counted cls count candidates points before pressure
      fun other => decide (other ∈ others) || gone other) :
    Counted cls count candidates points before
      (others.foldl (fun p other => p.lower cls (candidates other).area) pressure) gone := by
  induction others generalizing pressure with
  | nil => simpa using h
  | cons one rest ih =>
    rw [List.nodup_cons] at hnodup
    refine ih hnodup.2 (fun other hother => hlt other (List.mem_cons_of_mem _ hother))
      (fun other hother => hgone other (List.mem_cons_of_mem _ hother)) ?_
    have hone := h.lower hstored (hlt one List.mem_cons_self) (by simp)
    have heq : Function.update (fun other => decide (other ∈ one :: rest) || gone other) one false =
        fun other => decide (other ∈ rest) || gone other := by
      funext other
      by_cases hother : other = one
      · rw [hother, Function.update_self, hgone one List.mem_cons_self]
        simp [hnodup.1]
      · rw [Function.update_of_ne hother]
        simp [hother]
    rwa [heq] at hone

/-! ## A trade -/

variable {build : Overflow}

/-- What holds while the values beside one that went are tried in its place: the counts are without them,
and each of them is tried once. -/
structure Tried (cls : RegClass) (count : ℕ) (candidates : ℕ → Candidate) (points : ℕ)
    (before : Pressure) (gone : ℕ → Bool) (beside : List ℕ) (t : Trying) : Prop where
  counted : Counted cls count candidates points before t.pressure
    fun other => decide (other ∈ t.instead) || gone other
  nodup : t.instead.Nodup
  subset : ∀ other ∈ t.instead, other ∈ beside

variable {beside : List ℕ} {cost : BitVec 128}

/-- One more value tried. -/
theorem Tried.step {t : Trying} (h : Tried cls count candidates points before gone beside t)
    (hstored : Stored count candidates points) (hlt : ∀ other ∈ beside, other < count)
    (hgone : ∀ other ∈ beside, gone other = false) {other : ℕ} (hother : other ∈ beside)
    (hnew : other ∉ t.instead) (spent work : ℕ) :
    Tried cls count candidates points before gone beside
      ⟨t.instead ++ [other], spent, t.pressure.lift cls (candidates other).area, work⟩ where
  counted := by
    have hlift := h.counted.lift hstored (hlt other hother) (by simp [hnew, hgone other hother])
    have heq : Function.update (fun other => decide (other ∈ t.instead) || gone other) other true =
        fun other' => decide (other' ∈ t.instead ++ [other]) || gone other' := by
      funext other'
      by_cases heq : other' = other
      · rw [heq, Function.update_self]
        simp
      · rw [Function.update_of_ne heq]
        simp [heq]
    rwa [heq] at hlift
  nodup := by
    rw [List.nodup_append]
    refine ⟨h.nodup, List.nodup_singleton _, fun a ha b hb => ?_⟩
    rw [List.mem_singleton] at hb
    exact fun hab => hnew (hb ▸ hab ▸ ha)
  subset := fun other' hmem => by
    rcases List.mem_append.mp hmem with hold | hlast
    · exact h.subset other' hold
    · rw [List.mem_singleton.mp hlast]
      exact hother

/-- Taking a value off never puts a point over. -/
theorem excess_lift_le {p : Pressure} (h : area.Stored bound) (point : ℕ) :
    (p.lift cls area).excess cls point ≤ p.excess cls point := by
  unfold Pressure.excess
  rw [Pressure.lift_wanted h, Pressure.lift_room]
  omega

/-- One point: the values tried in place of one are tried once each, no point is over by more, and the
point is settled unless the trade is given up for costing too much. -/
theorem tradePoint_spec (hstored : Stored count candidates points)
    (hlt : ∀ other ∈ beside, other < count) (hgone : ∀ other ∈ beside, gone other = false)
     {broke : Bool}
    (hrun : tradePoint build cls candidates beside cost point fuel t = some (t', broke))
    (h : Tried cls count candidates points before gone beside t)
    (hfuel : t.pressure.excess cls point ≤ fuel) :
    Tried cls count candidates points before gone beside t' ∧
      (∀ p, t'.pressure.excess cls p ≤ t.pressure.excess cls p) ∧
      (broke = false → t'.pressure.excess cls point = 0) ∧
      (broke = true → cost.toNat ≤ t'.spent) := by
  induction fuel generalizing t with
  | zero =>
    obtain ⟨rfl, rfl⟩ : t = t' ∧ false = broke := by simpa [tradePoint] using hrun
    exact ⟨h, fun _ => le_rfl, fun _ => by omega, by simp⟩
  | succ fuel ih =>
    unfold tradePoint at hrun
    split_ifs at hrun with hover
    · cases hfind : beside.find? fun other =>
          other ∉ t.instead && (candidates other).area.covers point with
      | none =>
        rw [hfind] at hrun
        obtain ⟨rfl, rfl⟩ := Prod.mk.inj (Option.some.inj hrun)
        have hmax := cost.isLt
        refine ⟨⟨h.counted, h.nodup, h.subset⟩, fun _ => le_rfl, by simp, fun _ => ?_⟩
        dsimp only [U128.MAX]
        omega
      | some other =>
        rw [hfind] at hrun
        obtain ⟨spent, hspent, hrun⟩ := Option.bind_eq_some_iff.mp hrun
        have hother := List.mem_of_find?_eq_some hfind
        have hfound := List.find?_some hfind
        rw [Bool.and_eq_true, decide_eq_true_eq] at hfound
        have hstep := h.step hstored hlt hgone hother hfound.1 spent (t.work + beside.length)
        have hmono (p : ℕ) : (t.pressure.lift cls (candidates other).area).excess cls p ≤
            t.pressure.excess cls p := excess_lift_le (hstored.stored other (hlt other hother)) p
        dsimp only at hrun
        split_ifs at hrun with hcost
        · obtain ⟨rfl, rfl⟩ := Prod.mk.inj (Option.some.inj hrun)
          exact ⟨hstep, hmono, by simp, fun _ => hcost⟩
        · have hless : (t.pressure.lift cls (candidates other).area).excess cls point ≤ fuel := by
            unfold Pressure.excess at hfuel hover ⊢
            rw [Pressure.lift_wanted (hstored.stored other (hlt other hother)), Pressure.lift_room,
              if_pos hfound.2]
            omega
          obtain ⟨htried, hle, hsettled, hbroke⟩ := ih hrun hstep hless
          exact ⟨htried, fun p => (hle p).trans (hmono p), hsettled, hbroke⟩
    · obtain ⟨rfl, rfl⟩ := Prod.mk.inj (Option.some.inj hrun)
      exact ⟨h, fun _ => le_rfl, fun _ => by omega, by simp⟩

/-- All the points: they are settled if the values tried cost less in the end. -/
theorem tradePoints_spec (hstored : Stored count candidates points)
    (hlt : ∀ other ∈ beside, other < count) (hgone : ∀ other ∈ beside, gone other = false)
    
    (hrun : tradePoints build cls candidates beside cost over_ t = some t')
    (h : Tried cls count candidates points before gone beside t) :
    Tried cls count candidates points before gone beside t' ∧
      (∀ p, t'.pressure.excess cls p ≤ t.pressure.excess cls p) ∧
      (t'.spent < cost.toNat → ∀ p ∈ over_, t'.pressure.excess cls p = 0) := by
  induction over_ generalizing t with
  | nil =>
    obtain rfl : t = t' := Option.some.inj hrun
    exact ⟨h, fun _ => le_rfl, by simp⟩
  | cons point rest ih =>
    unfold tradePoints at hrun
    obtain ⟨⟨t₁, broke⟩, hpoint, hrun⟩ := Option.bind_eq_some_iff.mp hrun
    obtain ⟨htried, hle, hsettled, hbroke⟩ := tradePoint_spec hstored hlt hgone hpoint h le_rfl
    dsimp only at hrun
    split_ifs at hrun with hb
    · obtain rfl : t₁ = t' := Option.some.inj hrun
      have hcost := hbroke hb
      exact ⟨htried, hle, fun hless => by omega⟩
    · obtain ⟨htried', hle', hsettled'⟩ := ih hrun htried
      refine ⟨htried', fun p => (hle' p).trans (hle p), fun hless p hp => ?_⟩
      rcases List.mem_cons.mp hp with rfl | hp
      · have := hle' p
        have := hsettled (by simpa using hb)
        omega
      · exact hsettled' hless p hp

theorem mem_pointsIn (h : area.Stored bound) {p : ℕ} : p ∈ pointsIn area ↔ area.covers p = true := by
  rw [h.covers_iff]
  unfold pointsIn Covered
  rw [h.all_eq, List.mem_flatMap]
  refine exists_congr fun piece => and_congr_right fun hpiece => ?_
  have := h.laid.nonempty piece hpiece
  rw [List.mem_range'_1, Range.covers_iff]
  omega

theorem foldl_update_true (others : List ℕ) (gone : ℕ → Bool) :
    others.foldl (fun gone other => Function.update gone other true) gone =
      fun other => decide (other ∈ others) || gone other := by
  induction others generalizing gone with
  | nil => simp
  | cons one rest ih =>
    rw [List.foldl_cons, ih]
    funext other
    by_cases hother : other = one
    · simp [hother]
    · simp [hother]

/-- A trade kept or undone: no point is over, and the other values that went are still gone. -/
theorem tradeOne_spec (hstored : Stored count candidates points)
    (hranked : ∀ other ∈ ranked, other < count) {s s' : Trade}
    (hrun : tradeOne build cls candidates ranked s one = some s') (hone : one < count)
    (hgone : s.gone one = true)
    (h : Counted cls count candidates points before s.pressure s.gone)
    (hclear : ∀ p, s.pressure.excess cls p = 0) :
    Counted cls count candidates points before s'.pressure s'.gone ∧
      (∀ p, s'.pressure.excess cls p = 0) ∧
      ∀ other ≠ one, s.gone other = true → s'.gone other = true := by
  unfold tradeOne at hrun
  dsimp only at hrun
  generalize hover : (pointsIn (candidates one).area).filter (fun point =>
    0 < (s.pressure.lower cls (candidates one).area).excess cls point) = over_ at hrun
  generalize hbeside : (if over_.isEmpty then [] else ranked.filter fun other =>
    !s.gone other && (candidates other).area.overlaps (candidates one).area) = beside at hrun
  obtain ⟨t, ht, hrun⟩ := Option.bind_eq_some_iff.mp hrun
  have hmem (other : ℕ) (hother : other ∈ beside) : other < count ∧ s.gone other = false := by
    rw [← hbeside] at hother
    split_ifs at hother
    · cases hother
    · obtain ⟨hin, hfree⟩ := List.mem_filter.mp hother
      rw [Bool.and_eq_true, Bool.not_eq_true'] at hfree
      exact ⟨hranked other hin, hfree.1⟩
  have hback (other : ℕ) (hother : other ∈ beside) : Function.update s.gone one false other = false := by
    rw [Function.update_apply]
    split_ifs
    · rfl
    · exact (hmem other hother).2
  have hlower := h.lower hstored hone hgone
  have hstart : Tried cls count candidates points before (Function.update s.gone one false) beside
      ⟨[], 0, s.pressure.lower cls (candidates one).area, s.work⟩ := by
    refine ⟨?_, List.nodup_nil, by simp⟩
    simpa using hlower
  obtain ⟨htried, hle, hsettled⟩ := tradePoints_spec hstored (fun other hother => (hmem other hother).1)
    hback ht hstart
  split_ifs at hrun with hless
  · obtain rfl := Option.some.inj hrun
    dsimp only
    rw [foldl_update_true]
    refine ⟨htried.counted, fun p => ?_, fun other hne hother => ?_⟩
    · by_cases hp : p ∈ over_
      · exact hsettled hless p hp
      · have hbound := hle p
        have hzero : (s.pressure.lower cls (candidates one).area).excess cls p = 0 := by
          by_cases hcovers : (candidates one).area.covers p = true
          · rw [← hover, List.mem_filter, mem_pointsIn (hstored.stored one hone)] at hp
            simpa [hcovers] using hp
          · have hsame := hclear p
            unfold Pressure.excess at hsame ⊢
            rwa [Pressure.lower_wanted (hstored.stored one hone) h.length.ge, if_neg hcovers, add_zero]
        dsimp only at hbound
        omega
    · dsimp only
      rw [Function.update_of_ne hne, hother, Bool.or_true]
  · obtain rfl := Option.some.inj hrun
    have hundo := Counted.undo hstored htried.nodup
      (fun other hother => (hmem other (htried.subset other hother)).1)
      (fun other hother => hback other (htried.subset other hother)) htried.counted
    have hlift := hundo.lift hstored hone (Function.update_self one false s.gone)
    rw [Function.update_idem, ← hgone, Function.update_eq_self] at hlift
    refine ⟨hlift, fun p => ?_, fun other _ hother => hother⟩
    rw [hlift.excess, ← h.excess, hclear]

/-- Any number of trades. -/
theorem tradeAll_spec (hstored : Stored count candidates points)
    (hranked : ∀ other ∈ ranked, other < count) {sent : List ℕ} {s s' : Trade}
    (hrun : tradeAll build cls candidates ranked sent s = some s') (hnodup : sent.Nodup)
    (hsent : ∀ one ∈ sent, one < count ∧ s.gone one = true)
    (h : Counted cls count candidates points before s.pressure s.gone)
    (hclear : ∀ p, s.pressure.excess cls p = 0) :
    Counted cls count candidates points before s'.pressure s'.gone ∧
      ∀ p, s'.pressure.excess cls p = 0 := by
  induction sent generalizing s with
  | nil =>
    obtain rfl : s = s' := Option.some.inj hrun
    exact ⟨h, hclear⟩
  | cons one rest ih =>
    unfold tradeAll at hrun
    obtain ⟨s₁, hone, hrun⟩ := Option.bind_eq_some_iff.mp hrun
    obtain ⟨hlt, hgone⟩ := hsent one List.mem_cons_self
    obtain ⟨hcounted, hzero, hkept⟩ := tradeOne_spec hstored hranked hone hlt hgone h hclear
    rw [List.nodup_cons] at hnodup
    split_ifs at hrun
    · obtain rfl : s₁ = s' := Option.some.inj hrun
      exact ⟨hcounted, hzero⟩
    · refine ih hrun hnodup.2 (fun other hother => ?_) hcounted hzero
      obtain ⟨hlt', hgone'⟩ := hsent other (List.mem_cons_of_mem _ hother)
      exact ⟨hlt', hkept other (fun heq => hnodup.1 (heq ▸ hother)) hgone'⟩

/-- The trades of a class leave no point over. -/
theorem trade_spec (hstored : Stored count candidates points) {pressure : Pressure} {gone : ℕ → Bool}
    {s : Trade} (hrun : trade build cls count candidates gone pressure = some s)
    (h : Counted cls count candidates points before pressure gone)
    (hclear : ∀ p, pressure.excess cls p = 0) :
    Counted cls count candidates points before s.pressure s.gone ∧
      ∀ p, s.pressure.excess cls p = 0 := by
  unfold trade at hrun
  refine tradeAll_spec hstored (fun other hother => ?_) hrun ?_ (fun one hone => ?_) h hclear
  · exact List.mem_range.mp ((List.mem_insertionSort _).mp hother)
  · exact (List.perm_insertionSort _ _).nodup_iff.mpr (List.nodup_range.filter _)
  · obtain ⟨hlt, hgone⟩ := List.mem_filter.mp ((List.mem_insertionSort _).mp hone)
    exact ⟨List.mem_range.mp hlt, hgone⟩

/-! ## The walk along the points -/

/-- The point of a value's next change. -/
def due (area : Area) (piece : ℕ) (inside : Bool) : Option ℕ :=
  if inside then some ((area.piece piece).stop + 1)
  else if piece < area.count then some (area.piece piece).start
  else none

/-- How many changes of a value are still to come. -/
def remaining (area : Area) (piece : ℕ) (inside : Bool) : ℕ :=
  2 * (area.count - piece) - if inside then 1 else 0

/-- How many changes are still to come at the most, those of values already gone among them. -/
def pending (count : ℕ) (candidates : ℕ → Candidate) (s : Sweep) : ℕ :=
  s.changes.length +
    ∑ one ∈ Finset.range count, remaining (candidates one).area (s.piece one) (s.inside one)

/-- What the walk knows once it has made the changes up to a point, perhaps not all of them: of every value
not sent to memory, which piece it is at, whether it is inside it, and the one change it waits for. -/
structure Swept (cls : RegClass) (count : ℕ) (candidates : ℕ → Candidate) (points : ℕ)
    (before : Pressure) (point : ℕ) (s : Sweep) : Prop where
  counted : Counted cls count candidates points before s.pressure s.gone
  sorted : s.changes.Pairwise sooner
  changes_nodup : s.changes.Nodup
  lt : ∀ c ∈ s.changes, c.2 < count
  here_nodup : s.here.Nodup
  here : ∀ one, one ∈ s.here ↔ one < count ∧ s.gone one = false ∧ s.inside one = true
  next : ∀ one < count, s.gone one = false → ∀ when_, (when_, one) ∈ s.changes ↔
    due (candidates one).area (s.piece one) (s.inside one) = some when_
  inside : ∀ one < count, s.gone one = false → s.inside one = true →
    s.piece one < (candidates one).area.count ∧
      ((candidates one).area.piece (s.piece one)).start ≤ point
  past : ∀ one < count, s.gone one = false → ∀ piece < s.piece one,
    ((candidates one).area.piece piece).stop < point

theorem Swept.mono {point point' : ℕ} {s : Sweep} (h : Swept cls count candidates points before point s)
    (hle : point ≤ point') : Swept cls count candidates points before point' s :=
  { h with
    inside := fun one hone hgone hin =>
      ⟨(h.inside one hone hgone hin).1, (h.inside one hone hgone hin).2.trans hle⟩
    past := fun one hone hgone piece hpiece => (h.past one hone hgone piece hpiece).trans_le hle }

instance : Std.Total sooner := ⟨fun a b => le_total (toLex a) (toLex b)⟩

instance : IsTrans (ℕ × ℕ) sooner := ⟨fun _ _ _ => le_trans⟩

theorem sooner_le {a b : ℕ × ℕ} (h : sooner a b) : a.1 ≤ b.1 := by
  rcases Prod.Lex.le_iff.mp h with h | h
  · exact h.le
  · exact h.1.le

/-- With the changes up to a point made, the values live there are the ones inside a piece. -/
theorem Swept.covers_iff (h : Swept cls count candidates points before point s)
    (hstored : Stored count candidates points) (hlater : ∀ c ∈ s.changes, point < c.1)
    (hone : one < count) (hgone : s.gone one = false) :
    (candidates one).area.covers point = true ↔ s.inside one = true := by
  have harea := hstored.stored one hone
  have hdue (when_ : ℕ) (hd : due (candidates one).area (s.piece one) (s.inside one) = some when_) :
      point < when_ := hlater _ ((h.next one hone hgone when_).mpr hd)
  rw [harea.covers_iff_piece]
  constructor
  · rintro ⟨k, hk, hstart, hstop⟩
    by_contra hout
    rw [Bool.not_eq_true] at hout
    rcases lt_or_ge k (s.piece one) with hlt | hge
    · have := h.past one hone hgone k hlt
      omega
    · have hcount : s.piece one < (candidates one).area.count := by omega
      have hwait := hdue ((candidates one).area.piece (s.piece one)).start (by
        unfold due
        rw [hout, if_neg Bool.false_ne_true, if_pos hcount])
      rcases hge.eq_or_lt with heq | hlt
      · rw [heq] at hwait
        omega
      · have := harea.stop_lt_start hlt hk
        have := harea.start_le_stop hcount
        omega
  · intro hin
    obtain ⟨hcount, hstart⟩ := h.inside one hone hgone hin
    have hwait := hdue (((candidates one).area.piece (s.piece one)).stop + 1) (by
      unfold due
      rw [hin, if_pos rfl])
    exact ⟨s.piece one, hcount, hstart, by omega⟩

/-- A value's own change taken off the heap leaves it none there, and every other value the one it waits
for. -/
theorem Swept.next_rest
    (h : Swept cls count candidates points before point s) (hchanges : s.changes = (when_, one) :: rest)
    {other : ℕ} (hother : other < count) (hgone : s.gone other = false) (w : ℕ) :
    (w, other) ∈ rest ↔ other ≠ one ∧
      due (candidates other).area (s.piece other) (s.inside other) = some w := by
  have hnodup := h.changes_nodup
  have hnext := h.next other hother hgone w
  rw [hchanges, List.nodup_cons] at hnodup
  rw [← hnext, hchanges, List.mem_cons]
  constructor
  · intro hmem
    refine ⟨fun heq => ?_, Or.inr hmem⟩
    subst heq
    have hw := (h.next other hother hgone w).mp (by
      rw [hchanges]
      exact List.mem_cons_of_mem _ hmem)
    have hwhen := (h.next other hother hgone when_).mp (by
      rw [hchanges]
      exact List.mem_cons_self)
    obtain rfl : w = when_ := Option.some.inj (hw.symm.trans hwhen)
    exact hnodup.1 hmem
  · rintro ⟨hne, heq | hmem⟩
    · exact absurd (Prod.mk.inj heq).2 hne
    · exact hmem

/-- The heap with a value's next change on it, if it has one. -/
def awaiting (rest : List (ℕ × ℕ)) (one : ℕ) : Option ℕ → List (ℕ × ℕ)
  | none => rest
  | some when_ => rest.orderedInsert sooner (when_, one)

theorem mem_awaiting {next : Option ℕ} {c : ℕ × ℕ} :
    c ∈ awaiting rest one next ↔ (∃ when_, next = some when_ ∧ c = (when_, one)) ∨ c ∈ rest := by
  cases next with
  | none => simp [awaiting]
  | some when_ => simp [awaiting, List.mem_orderedInsert]

/-- A value's change made: it moves to its next place and waits for the change after. -/
theorem Swept.move
    (h : Swept cls count candidates points before point s) (hchanges : s.changes = (when_, one) :: rest)
    (hgone : s.gone one = false) {here : List ℕ} (hnodup : here.Nodup)
    (hhere : ∀ other, other ∈ here ↔ if other = one then inside = true else other ∈ s.here)
    (hinside : inside = true → piece < (candidates one).area.count ∧
      ((candidates one).area.piece piece).start ≤ point)
    (hpast : ∀ k < piece, ((candidates one).area.piece k).stop < point) :
    Swept cls count candidates points before point
      { s with
        here := here
        piece := Function.update s.piece one piece
        inside := Function.update s.inside one inside
        changes := awaiting rest one (due (candidates one).area piece inside) } := by
  have hone : one < count := h.lt (when_, one) (by rw [hchanges]; exact List.mem_cons_self)
  have hrest (c : ℕ × ℕ) (hc : c ∈ rest) : c ∈ s.changes := by
    rw [hchanges]
    exact List.mem_cons_of_mem _ hc
  have hfresh (w : ℕ) : (w, one) ∉ rest := fun hmem =>
    ((h.next_rest hchanges hone hgone w).mp hmem).1 rfl
  have hsorted := h.sorted
  have hchanges_nodup := h.changes_nodup
  rw [hchanges] at hsorted hchanges_nodup
  refine ⟨h.counted, ?_, ?_, ?_, hnodup, ?_, ?_, ?_, ?_⟩
  · dsimp only
    cases due (candidates one).area piece inside with
    | none => exact hsorted.of_cons
    | some w => exact hsorted.of_cons.orderedInsert _ _
  · dsimp only
    cases due (candidates one).area piece inside with
    | none => exact hchanges_nodup.of_cons
    | some w =>
      exact (List.perm_orderedInsert _ _ _).nodup_iff.mpr
        (List.nodup_cons.mpr ⟨hfresh w, hchanges_nodup.of_cons⟩)
  · intro c hc
    rcases mem_awaiting.mp hc with ⟨w, -, rfl⟩ | hc
    · exact hone
    · exact h.lt c (hrest c hc)
  · intro other
    dsimp only
    rw [hhere, Function.update_apply]
    by_cases heq : other = one
    · simp [heq, hone, hgone]
    · rw [if_neg heq, if_neg heq]
      exact h.here other
  · intro other hother hgone' w
    dsimp only at hgone' ⊢
    rw [mem_awaiting, h.next_rest hchanges hother hgone' w]
    by_cases heq : other = one
    · subst heq
      simp [eq_comm]
    · rw [Function.update_of_ne heq, Function.update_of_ne heq]
      simp [heq]
  · intro other hother hgone' hin
    dsimp only at hgone' hin ⊢
    by_cases heq : other = one
    · subst heq
      rw [Function.update_self] at hin ⊢
      exact hinside hin
    · rw [Function.update_of_ne heq] at hin ⊢
      exact h.inside other hother hgone' hin
  · intro other hother hgone' k hk
    dsimp only at hgone' hk ⊢
    by_cases heq : other = one
    · subst heq
      rw [Function.update_self] at hk
      exact hpast k hk
    · rw [Function.update_of_ne heq] at hk
      exact h.past other hother hgone' k hk

/-- A change made leaves fewer to come. -/
theorem pending_move (hchanges : s.changes = (when_, one) :: rest) (hone : one < count) (here : List ℕ)
    (hless : remaining (candidates one).area piece inside <
      remaining (candidates one).area (s.piece one) (s.inside one)) :
    pending count candidates
      { s with
        here := here
        piece := Function.update s.piece one piece
        inside := Function.update s.inside one inside
        changes := awaiting rest one (due (candidates one).area piece inside) } <
      pending count candidates s := by
  have hlength : (awaiting rest one (due (candidates one).area piece inside)).length ≤
      s.changes.length := by
    rw [hchanges, List.length_cons]
    cases due (candidates one).area piece inside with
    | none => exact Nat.le_succ _
    | some w => exact (List.orderedInsert_length _ _ _).le
  have hsum : ∑ other ∈ Finset.range count, remaining (candidates other).area
      (Function.update s.piece one piece other) (Function.update s.inside one inside other) <
      ∑ other ∈ Finset.range count, remaining (candidates other).area (s.piece other)
        (s.inside other) := by
    refine Finset.sum_lt_sum (fun other _ => ?_) ⟨one, Finset.mem_range.mpr hone, ?_⟩
    · by_cases heq : other = one
      · subst heq
        rw [Function.update_self, Function.update_self]
        exact hless.le
      · rw [Function.update_of_ne heq, Function.update_of_ne heq]
    · rw [Function.update_self, Function.update_self]
      exact hless
  exact Nat.add_lt_add_of_le_of_lt hlength hsum

/-- One change off the heap and made. -/
theorem change_spec
    (h : Swept cls count candidates points before point s) (hchanges : s.changes = (when_, one) :: rest)
    (hwhen : when_ ≤ point) :
    Swept cls count candidates points before point (change candidates { s with changes := rest } one) ∧
      pending count candidates (change candidates { s with changes := rest } one) <
        pending count candidates s ∧
      (change candidates { s with changes := rest } one).pressure = s.pressure := by
  have hmem : (when_, one) ∈ s.changes := by
    rw [hchanges]
    exact List.mem_cons_self
  have hone : one < count := h.lt _ hmem
  unfold change
  dsimp only
  split_ifs with hgone hinside
  · have hsorted := h.sorted
    have hnodup := h.changes_nodup
    rw [hchanges] at hsorted hnodup
    refine ⟨{ h with
      sorted := hsorted.of_cons
      changes_nodup := hnodup.of_cons
      lt := fun c hc => h.lt c (by rw [hchanges]; exact List.mem_cons_of_mem _ hc)
      next := fun other hother hgone' w => ?_ }, ?_, rfl⟩
    · have hne : other ≠ one := fun heq => by
        rw [heq, hgone] at hgone'
        cases hgone'
      rw [h.next_rest hchanges hother hgone' w, and_iff_right hne]
    · unfold pending
      rw [hchanges, List.length_cons]
      dsimp only
      omega
  · rw [Bool.not_eq_true] at hgone
    obtain ⟨hcount, hstart⟩ := h.inside one hone hgone hinside
    have hdue := (h.next one hone hgone when_).mp hmem
    rw [due, if_pos hinside] at hdue
    have hstop := Option.some.inj hdue
    have heq : leave candidates { s with changes := rest } one =
        { s with
          here := s.here.erase one
          piece := Function.update s.piece one (s.piece one + 1)
          inside := Function.update s.inside one false
          changes := awaiting rest one (due (candidates one).area (s.piece one + 1) false) } := by
      unfold leave due
      dsimp only
      rw [if_neg Bool.false_ne_true]
      split_ifs <;> rfl
    rw [heq]
    refine ⟨h.move hchanges hgone (h.here_nodup.erase _) (fun other => ?_) (by simp) (fun k hk => ?_),
      pending_move hchanges hone _ ?_, rfl⟩
    · rw [h.here_nodup.mem_erase_iff]
      split_ifs with hother
      · simp [hother]
      · exact and_iff_right hother
    · rcases Nat.lt_succ_iff_lt_or_eq.mp hk with hlt | rfl
      · exact h.past one hone hgone k hlt
      · omega
    · unfold remaining
      rw [if_neg Bool.false_ne_true, if_pos hinside]
      omega
  · rw [Bool.not_eq_true] at hgone
    have hout : s.inside one = false := by simpa using hinside
    have hdue := (h.next one hone hgone when_).mp hmem
    rw [due, if_neg hinside] at hdue
    split_ifs at hdue with hcount
    have hstart := Option.some.inj hdue
    have hnot : one ∉ s.here := fun hin => hinside ((h.here one).mp hin).2.2
    have heq : enter candidates { s with changes := rest } one =
        { s with
          here := s.here.orderedInsert (lighter candidates) one
          piece := Function.update s.piece one (s.piece one)
          inside := Function.update s.inside one true
          changes := awaiting rest one (due (candidates one).area (s.piece one) true) } := by
      unfold enter due
      dsimp only
      rw [if_neg hnot, if_pos rfl, Function.update_eq_self]
      rfl
    rw [heq]
    refine ⟨h.move hchanges hgone ?_ (fun other => ?_) (fun _ => ⟨hcount, by omega⟩)
      (h.past one hone hgone), pending_move hchanges hone _ ?_, rfl⟩
    · exact (List.perm_orderedInsert _ _ _).nodup_iff.mpr (List.nodup_cons.mpr ⟨hnot, h.here_nodup⟩)
    · rw [List.mem_orderedInsert]
      split_ifs with hother
      · simp [hother]
      · exact or_iff_right hother
    · unfold remaining
      rw [hout, if_pos rfl, if_neg Bool.false_ne_true]
      omega

/-- The changes up to a point: none of them is left on the heap. -/
theorem advance_spec
    (h : Swept cls count candidates points before point s) (hfuel : pending count candidates s ≤ fuel) :
    Swept cls count candidates points before point (advance candidates point fuel s) ∧
      (∀ c ∈ (advance candidates point fuel s).changes, point < c.1) ∧
      pending count candidates (advance candidates point fuel s) ≤ pending count candidates s ∧
      (advance candidates point fuel s).pressure = s.pressure := by
  induction fuel generalizing s with
  | zero =>
    have hnone : s.changes = [] := by
      unfold pending at hfuel
      exact List.length_eq_zero_iff.mp (by omega)
    refine ⟨h, ?_, le_rfl, rfl⟩
    rw [advance, hnone]
    simp
  | succ fuel ih =>
    cases hchanges : s.changes with
    | nil =>
      have heq : advance candidates point (fuel + 1) s = s := by
        unfold advance
        rw [hchanges]
      rw [heq]
      exact ⟨h, by simp [hchanges], le_rfl, rfl⟩
    | cons c rest =>
      obtain ⟨when_, one⟩ := c
      have heq : advance candidates point (fuel + 1) s =
          if when_ > point then s
          else advance candidates point fuel (change candidates { s with changes := rest } one) := by
        conv_lhs => unfold advance
        rw [hchanges]
      rw [heq]
      split_ifs with hwhen
      · refine ⟨h, fun c hc => ?_, le_rfl, rfl⟩
        have hsorted := h.sorted
        rw [hchanges] at hsorted hc
        rcases List.mem_cons.mp hc with rfl | hc
        · exact hwhen
        · have := sooner_le (List.rel_of_pairwise_cons hsorted hc)
          exact lt_of_lt_of_le hwhen this
      · obtain ⟨hswept, hless, hpressure⟩ := change_spec h hchanges (not_lt.mp hwhen)
        obtain ⟨hswept', hlater, hle, hpressure'⟩ := ih hswept (by omega)
        exact ⟨hswept', hlater, by omega, hpressure'.trans hpressure⟩

/-- The lightest value of those here sent to memory. -/
theorem Swept.send {rest : List ℕ}
    (h : Swept cls count candidates points before point s) (hstored : Stored count candidates points)
    (hhere : s.here = one :: rest) :
    Swept cls count candidates points before point
      { s with
        here := rest
        gone := Function.update s.gone one true
        pressure := s.pressure.lift cls (candidates one).area } := by
  have hnodup := h.here_nodup
  obtain ⟨hone, hgone, -⟩ := (h.here one).mp (by rw [hhere]; exact List.mem_cons_self)
  have hkept {other : ℕ} (hg : Function.update s.gone one true other = false) :
      other ≠ one ∧ s.gone other = false := by
    have hne : other ≠ one := fun heq => by
      rw [heq, Function.update_self] at hg
      cases hg
    rw [Function.update_of_ne hne] at hg
    exact ⟨hne, hg⟩
  rw [hhere, List.nodup_cons] at hnodup
  refine ⟨h.counted.lift hstored hone hgone, h.sorted, h.changes_nodup, h.lt, hnodup.2, ?_, ?_, ?_, ?_⟩
  · intro other
    have hold := h.here other
    rw [hhere, List.mem_cons] at hold
    dsimp only
    constructor
    · intro hin
      have hne : other ≠ one := fun heq => hnodup.1 (heq ▸ hin)
      rw [Function.update_of_ne hne]
      exact hold.mp (Or.inr hin)
    · rintro ⟨hlt, hg, hin⟩
      exact (hold.mpr ⟨hlt, (hkept hg).2, hin⟩).resolve_left (hkept hg).1
  · exact fun other hother hg => h.next other hother (hkept hg).2
  · exact fun other hother hg => h.inside other hother (hkept hg).2
  · exact fun other hother hg => h.past other hother (hkept hg).2

/-- Values go until the point is not over, or none are left here. -/
theorem settle_spec (hstored : Stored count candidates points) {point : ℕ} {here : List ℕ} {s : Sweep}
    (h : Swept cls count candidates points before point s) (hhere : s.here = here) :
    let s' := settle cls candidates point here s
    Swept cls count candidates points before point s' ∧ s'.changes = s.changes ∧
      pending count candidates s' = pending count candidates s ∧
      (∀ p, s'.pressure.excess cls p ≤ s.pressure.excess cls p) ∧
      (s'.pressure.excess cls point = 0 ∨ s'.here = []) := by
  induction here generalizing s with
  | nil => exact ⟨h, rfl, rfl, fun _ => le_rfl, Or.inr hhere⟩
  | cons one rest ih =>
    unfold settle
    dsimp only
    split_ifs with hover
    · obtain ⟨hone, -, -⟩ := (h.here one).mp (by rw [hhere]; exact List.mem_cons_self)
      obtain ⟨hswept, hchanges, hpending, hle, hdone⟩ := ih (h.send hstored hhere) rfl
      exact ⟨hswept, hchanges, hpending,
        fun p => (hle p).trans (excess_lift_le (hstored.stored one hone) p), hdone⟩
    · exact ⟨h, rfl, rfl, fun _ => le_rfl, Or.inl (by omega)⟩

/-- A point that was over is settled when it is visited, and no other is over by more. -/
theorem visit_spec (hstored : Stored count candidates points) {point' : ℕ}
    (h : Swept cls count candidates points before point s) (hle : point ≤ point')
    (hfuel : pending count candidates s ≤ changesOf count candidates) :
    let s' := visit cls count candidates s point'
    Swept cls count candidates points before point' s' ∧
      pending count candidates s' ≤ changesOf count candidates ∧
      (∀ p, s'.pressure.excess cls p ≤ s.pressure.excess cls p) ∧
      s'.pressure.excess cls point' = 0 := by
  unfold visit
  dsimp only
  split_ifs with hzero
  · exact ⟨h.mono hle, hfuel, fun _ => le_rfl, hzero⟩
  · obtain ⟨hadvanced, hlater, hpending, hpressure⟩ := advance_spec (h.mono hle) hfuel
    generalize advance candidates point' (changesOf count candidates) s = s₁ at *
    obtain ⟨hswept, hchanges, hpending', hless, hdone⟩ := settle_spec hstored hadvanced rfl
    generalize settle cls candidates point' s₁.here s₁ = s' at *
    refine ⟨hswept, by omega, fun p => by rw [← hpressure]; exact hless p, ?_⟩
    rcases hdone with hdone | hempty
    · exact hdone
    · -- nothing is left here, so nothing that is not in memory is live at the point
      have hheld : held count candidates s'.gone point' = 0 := by
        unfold held
        rw [Finset.card_eq_zero, Finset.filter_eq_empty_iff]
        rintro one hone ⟨hgone, hcovers⟩
        rw [Finset.mem_range] at hone
        have hin := (hswept.covers_iff hstored (hchanges ▸ hlater) hone hgone).mp hcovers
        have hmem := (hswept.here one).mpr ⟨hone, hgone, hin⟩
        rw [hempty] at hmem
        cases hmem
      rw [hswept.counted.excess, hheld, Nat.zero_sub]

/-- The points visited in order are all settled. -/
theorem foldl_visit_spec (hstored : Stored count candidates points)
    (h : Swept cls count candidates points before point s)
    (hsorted : over_.Pairwise (· ≤ ·)) (hfirst : ∀ p ∈ over_, point ≤ p)
    (hfuel : pending count candidates s ≤ changesOf count candidates) :
    let s' := over_.foldl (visit cls count candidates) s
    Counted cls count candidates points before s'.pressure s'.gone ∧
      (∀ p, s'.pressure.excess cls p ≤ s.pressure.excess cls p) ∧
      ∀ p ∈ over_, s'.pressure.excess cls p = 0 := by
  induction over_ generalizing point s with
  | nil => exact ⟨h.counted, fun _ => le_rfl, by simp⟩
  | cons next rest ih =>
    obtain ⟨hswept, hpending, hle, hzero⟩ := visit_spec hstored h (hfirst next List.mem_cons_self) hfuel
    rw [List.pairwise_cons] at hsorted
    obtain ⟨hcounted, hle', hzero'⟩ := ih hswept hsorted.2 hsorted.1 hpending
    refine ⟨hcounted, fun p => (hle' p).trans (hle p), fun p hp => ?_⟩
    rcases List.mem_cons.mp hp with rfl | hp
    · have := hle' p
      rw [List.foldl_cons]
      omega
    · exact hzero' p hp

/-- The walk of a class begins with every value waiting for its first piece. -/
theorem start_swept (hstored : Stored count candidates points) {pressure : Pressure}
    (h : Counted cls count candidates points before pressure fun _ => false) :
    Swept cls count candidates points before 0 (start count candidates pressure) := by
  have hmem (c : ℕ × ℕ) : c ∈ (start count candidates pressure).changes ↔
      c.2 < count ∧ (candidates c.2).area.hull.start = c.1 := by
    unfold start
    dsimp only
    rw [List.mem_insertionSort, List.mem_map]
    constructor
    · rintro ⟨one, hone, rfl⟩
      exact ⟨List.mem_range.mp hone, rfl⟩
    · rintro ⟨hlt, heq⟩
      exact ⟨c.2, List.mem_range.mpr hlt, Prod.ext heq rfl⟩
  refine ⟨h, List.pairwise_insertionSort _ _, ?_, fun c hc => ((hmem c).mp hc).1, List.nodup_nil,
    by simp [start], fun one hone _ w => ?_, by simp [start], by simp [start]⟩
  · refine (List.perm_insertionSort _ _).nodup_iff.mpr (List.nodup_range.map fun a b hab => ?_)
    exact (Prod.mk.inj hab).2
  · have hcount : 0 < (candidates one).area.count :=
      List.length_pos_iff.mpr (hstored.nonempty one hone)
    rw [hmem]
    unfold due start
    dsimp only
    rw [if_neg Bool.false_ne_true, if_pos hcount, Option.some_inj]
    exact and_iff_right hone

/-- The walk along the points of a class leaves none of them over. -/
theorem sweep_spec (hstored : Stored count candidates points) {pressure : Pressure}
    (h : Counted cls count candidates points before pressure fun _ => false) :
    let s := sweep cls count candidates pressure
    Counted cls count candidates points before s.pressure s.gone ∧
      ∀ p, s.pressure.excess cls p = 0 := by
  have hfuel : pending count candidates (start count candidates pressure) ≤
      changesOf count candidates := by
    unfold pending changesOf start remaining
    dsimp only
    rw [List.length_insertionSort, List.length_map, List.length_range, Finset.sum_add_distrib]
    simp [Nat.add_comm]
  have hsorted : (pressure.over_ cls).Pairwise (· ≤ ·) :=
    (List.pairwise_le_range).sublist List.filter_sublist
  obtain ⟨hcounted, hle, hzero⟩ := foldl_visit_spec hstored (start_swept hstored h) hsorted
    (fun p _ => Nat.zero_le p) hfuel
  refine ⟨hcounted, fun p => ?_⟩
  by_cases hp : p ∈ pressure.over_ cls
  · exact hzero p hp
  · have hbound := hle p
    have hstart : (start count candidates pressure).pressure = pressure := rfl
    rw [Pressure.mem_over, not_and, not_lt, Nat.le_zero] at hp
    by_cases hlt : p < (pressure.wantedRows cls).length
    · rw [hstart, hp hlt] at hbound
      exact Nat.le_zero.mp hbound
    · have hwanted : pressure.wanted cls p = 0 := Pressure.getD_of_le (not_lt.mp hlt)
      have hnone : pressure.excess cls p = 0 := by
        unfold Pressure.excess
        rw [hwanted, Nat.zero_sub]
      rw [hstart, hnone] at hbound
      exact Nat.le_zero.mp hbound

end

end Rucc.Regalloc.Spill
