import Mathlib.Data.List.ReduceOption
import Rucc.Regalloc.SpillSettles

/-!
# The values left in registers fit at every point

The walk and the trades of each class put together: the candidates of a class are its values with
somewhere to be live that are not sent to the stack (`candidate_spec`), the table counts exactly those
before anything is chosen (`counted_start`), and no class is looked at twice.
-/

namespace Rucc.Regalloc.Spill

open Mir

section

variable {build : Overflow} {f : Func} {live : Live} {costs : List (BitVec 128)} {stack : List Reg}

variable {c : Candidate} {cls : RegClass} {s s' : Pressure × List Reg}

/-- What a value is a candidate as. -/
structure IsCandidate (f : Func) (live : Live) (stack : List Reg) (v : ℕ) (cls : RegClass)
    (c : Candidate) : Prop where
  reg : c.reg = .virtualReg v
  area : live.area (.virtualReg v) = some c.area
  cls : f.classes[v]? = some cls
  free : Reg.virtualReg v ∉ stack

theorem candidate_spec {v : ℕ} {o : Option (RegClass × Candidate)}
    (h : candidate build f live costs stack v = some o) :
    (∀ cls c, o = some (cls, c) → IsCandidate f live stack v cls c) ∧
      (o = none → ∀ cls q, ¬Wanting f live stack cls q v) := by
  unfold candidate at h
  cases harea : live.area (.virtualReg v) with
  | none =>
    rw [harea] at h
    obtain rfl := Option.some.inj h
    refine ⟨by simp, fun _ cls q hwanting => ?_⟩
    obtain ⟨area, hsome, -⟩ := Pressure.wanting_iff.mp hwanting
    rw [harea] at hsome
    cases hsome
  | some area =>
    cases hcls : f.classes[v]? with
    | none =>
      rw [harea, hcls] at h
      obtain rfl := Option.some.inj h
      refine ⟨by simp, fun _ cls q hwanting => ?_⟩
      rw [hwanting.1] at hcls
      cases hcls
    | some cls' =>
      rw [harea, hcls] at h
      dsimp only at h
      split_ifs at h with hstack
      · obtain rfl := Option.some.inj h
        exact ⟨by simp, fun _ cls q hwanting => hwanting.2.2 hstack⟩
      · obtain ⟨cost, -, h⟩ := Option.bind_eq_some_iff.mp h
        obtain ⟨scaled, -, h⟩ := Option.bind_eq_some_iff.mp h
        obtain ⟨length, -, h⟩ := Option.bind_eq_some_iff.mp h
        split_ifs at h
        obtain rfl := Option.some.inj h
        refine ⟨fun cls c heq => ?_, by simp⟩
        obtain ⟨rfl, rfl⟩ := Prod.mk.inj (Option.some.inj heq)
        exact ⟨rfl, harea, hcls, hstack⟩

theorem forall₂_of_mapM {α β : Type} {g : α → Option β} {xs : List α} {ys : List β}
    (h : xs.mapM g = some ys) : List.Forall₂ (fun x y => g x = some y) xs ys := by
  induction xs generalizing ys with
  | nil =>
    obtain rfl := Option.some.inj h
    exact List.Forall₂.nil
  | cons x xs ih =>
    rw [List.mapM_cons] at h
    obtain ⟨y, hy, h⟩ := Option.bind_eq_some_iff.mp h
    obtain ⟨ys', hys, h⟩ := Option.bind_eq_some_iff.mp h
    obtain rfl := Option.some.inj h
    exact List.Forall₂.cons hy (ih hys)

/-- The candidates found among some values: each is one of the values, and those of a class live at a
point are as many as the values of the class that want a register there. -/
theorem found_spec {vs : List ℕ} {found : List (Option (RegClass × Candidate))}
    (h : List.Forall₂ (fun v o => candidate build f live costs stack v = some o) vs found) :
    (∀ one ∈ found.reduceOption, ∃ v ∈ vs, IsCandidate f live stack v one.1 one.2) ∧
      (∀ v ∈ vs, ∀ cls q, Wanting f live stack cls q v → ∃ c, (cls, c) ∈ found.reduceOption ∧
        IsCandidate f live stack v cls c) ∧
      ∀ cls q, (((found.reduceOption).filter fun one => one.1 = cls).map Prod.snd).countP
        (fun c => c.area.covers q) = vs.countP fun v => decide (Wanting f live stack cls q v) := by
  induction h with
  | nil => exact ⟨by simp, by simp, by simp⟩
  | @cons v o vs found hv _ ih =>
    obtain ⟨hfound, hwants, hcount⟩ := ih
    obtain ⟨hsome, hnone⟩ := candidate_spec hv
    cases o with
    | none =>
      rw [List.reduceOption_cons_of_none]
      refine ⟨fun one hone => ?_, fun w hw cls q hwanting => ?_, fun cls q => ?_⟩
      · obtain ⟨w, hw, hc⟩ := hfound one hone
        exact ⟨w, List.mem_cons_of_mem _ hw, hc⟩
      · rcases List.mem_cons.mp hw with rfl | hw
        · exact absurd hwanting (hnone rfl cls q)
        · exact hwants w hw cls q hwanting
      · rw [List.countP_cons_of_neg (by simpa using hnone rfl cls q), hcount]
    | some one =>
      obtain ⟨cls', c⟩ := one
      have hc := hsome cls' c rfl
      rw [List.reduceOption_cons_of_some]
      refine ⟨fun one hone => ?_, fun w hw cls q hwanting => ?_, fun cls q => ?_⟩
      · rcases List.mem_cons.mp hone with rfl | hone
        · exact ⟨v, List.mem_cons_self, hc⟩
        · obtain ⟨w, hw, hc⟩ := hfound one hone
          exact ⟨w, List.mem_cons_of_mem _ hw, hc⟩
      · rcases List.mem_cons.mp hw with rfl | hw
        · obtain rfl : cls' = cls := Option.some.inj (hc.cls.symm.trans hwanting.1)
          exact ⟨c, List.mem_cons_self, hc⟩
        · obtain ⟨c', hmem, hc'⟩ := hwants w hw cls q hwanting
          exact ⟨c', List.mem_cons_of_mem _ hmem, hc'⟩
      · have hiff : Wanting f live stack cls q v ↔ cls' = cls ∧ c.area.covers q = true := by
          rw [Pressure.wanting_iff, hc.area, hc.cls]
          simp [hc.free]
        rw [List.countP_cons, ← hcount]
        by_cases hcls : cls' = cls
        · rw [List.filter_cons_of_pos (by simpa using hcls), List.map_cons, List.countP_cons]
          simp [hiff, hcls]
        · rw [List.filter_cons_of_neg (by simpa using hcls)]
          simp [hiff, hcls]

/-! ## One class -/

theorem card_filter_range (P : ℕ → Prop) [DecidablePred P] (n : ℕ) :
    ((Finset.range n).filter P).card = (List.range n).countP fun i => decide (P i) := by
  induction n with
  | zero => rfl
  | succ n ih =>
    rw [Finset.range_add_one, Finset.filter_insert, List.range_succ, List.countP_append, ← ih]
    by_cases h : P n
    · rw [if_pos h, Finset.card_insert_of_notMem (by simp)]
      simp [h]
    · rw [if_neg h]
      simp [h]

/-- The table of a class is its candidates, by where they start. -/
theorem map_table (found : List Candidate) : (List.range found.length).map (table found) =
      found.insertionSort fun one other => one.area.hull.start ≤ other.area.hull.start := by
  refine List.ext_getElem (by simp) fun i h₁ h₂ => ?_
  rw [List.getElem_map, List.getElem_range, table, List.getD_eq_getElem?_getD,
    List.getElem?_eq_getElem h₂]
  rfl

theorem mem_table {found : List Candidate} {one : ℕ} (h : one < found.length) : table found one ∈ found := by
  have hmem : table found one ∈ (List.range found.length).map (table found) :=
    List.mem_map_of_mem (List.mem_range.mpr h)
  rw [map_table] at hmem
  exact (List.mem_insertionSort _).mp hmem

theorem exists_table {found : List Candidate} (h : c ∈ found) : ∃ one < found.length, table found one = c := by
  have hmem : c ∈ (List.range found.length).map (table found) := by
    rw [map_table]
    exact (List.mem_insertionSort _).mpr h
  obtain ⟨one, hone, heq⟩ := List.mem_map.mp hmem
  exact ⟨one, List.mem_range.mp hone, heq⟩

/-- Before any of them goes, the candidates live at a point are counted once each. -/
theorem held_start (found : List Candidate) (q : ℕ) :
    held found.length (table found) (fun _ => false) q = found.countP fun c => c.area.covers q := by
  have hperm := (List.perm_insertionSort
    (fun one other : Candidate => one.area.hull.start ≤ other.area.hull.start) found).countP_eq
      fun c => c.area.covers q
  unfold held
  rw [card_filter_range, ← hperm, ← map_table, List.countP_map]
  simp [Function.comp_def]

variable {points : ℕ} {offered : RegClass → List PhysReg} {taken : List (RegClass × PhysReg × ℕ)}

/-- The candidates of a class. -/
def ofClass (found : List (RegClass × Candidate)) (cls : RegClass) : List Candidate :=
  (found.filter fun one => one.1 = cls).map Prod.snd

theorem mem_ofClass {found : List (RegClass × Candidate)} : c ∈ ofClass found cls ↔ (cls, c) ∈ found := by
  simp [ofClass]

/-- What the candidates are of a function: its values with somewhere to be live that are not sent to the
stack, each once. -/
structure Found (f : Func) (live : Live) (stack : List Reg) (found : List (RegClass × Candidate)) :
    Prop where
  sound : ∀ cls c, (cls, c) ∈ found → ∃ v < f.vregs, IsCandidate f live stack v cls c
  complete : ∀ v < f.vregs, ∀ cls q, Wanting f live stack cls q v →
    ∃ c, (cls, c) ∈ found ∧ IsCandidate f live stack v cls c
  count : ∀ cls q, (ofClass found cls).countP (fun c => c.area.covers q) =
    ((Finset.range f.vregs).filter (Wanting f live stack cls q)).card

theorem found_of_mapM {found : List (Option (RegClass × Candidate))}
    (h : (List.range f.vregs).mapM (candidate build f live costs stack) = some found) :
    Found f live stack found.reduceOption := by
  obtain ⟨hsound, hcomplete, hcount⟩ := found_spec (forall₂_of_mapM h)
  refine ⟨fun cls c hc => ?_, fun v hv => hcomplete v (List.mem_range.mpr hv), fun cls q => ?_⟩
  · obtain ⟨v, hv, hcandidate⟩ := hsound (cls, c) hc
    exact ⟨v, List.mem_range.mp hv, hcandidate⟩
  · rw [card_filter_range]
    exact hcount cls q

variable {found : List (RegClass × Candidate)}

theorem Found.stored (h : Found f live stack found) (hlive : live.Stored points) (cls : RegClass) :
    Stored (ofClass found cls).length (table (ofClass found cls)) points := by
  have harea (one : ℕ) (hone : one < (ofClass found cls).length) :
      ∃ v, live.area (.virtualReg v) = some (table (ofClass found cls) one).area := by
    obtain ⟨v, -, hc⟩ := h.sound cls _ (mem_ofClass.mp (mem_table hone))
    exact ⟨v, hc.area⟩
  constructor
  · intro one hone
    obtain ⟨v, hv⟩ := harea one hone
    exact hlive.stored _ _ hv
  · intro one hone
    obtain ⟨v, hv⟩ := harea one hone
    exact hlive.nonempty _ _ hv

/-- A class no candidate of which has gone yet is counted right by the table it started with. -/
theorem Found.counted_start (h : Found f live stack found) (hlive : live.Stored points)
    (hcls : cls ∈ found.map Prod.fst) {p : Pressure}
    (hrows : p.wantedRows cls =
      (Pressure.with_ f points live offered stack taken).wantedRows cls) :
    Counted cls (ofClass found cls).length (table (ofClass found cls)) points p p fun _ => false := by
  obtain ⟨⟨cls', c⟩, hc, rfl⟩ := List.mem_map.mp hcls
  obtain ⟨v, hv, hcandidate⟩ := h.sound _ _ hc
  have hlength : ((Pressure.with_ f points live offered stack taken).wantedRows cls').length = points :=
    Pressure.length_with hv hcandidate.area hcandidate.cls hcandidate.free
  dsimp only at hrows ⊢
  refine ⟨fun q => ?_, by rw [hrows, hlength], rfl, fun _ _ => rfl⟩
  rw [held_start, h.count]
  have hwanted : p.wanted cls' q = (Pressure.with_ f points live offered stack taken).wanted cls' q := by
    unfold Pressure.wanted
    rw [hrows]
  by_cases hq : q < points
  · rw [hwanted, Pressure.with_wanted hlive cls' hq]
  · rw [hwanted, eq_comm, Pressure.wanted, Pressure.getD_of_le (by omega), Finset.card_eq_zero,
      Finset.filter_eq_empty_iff]
    intro w _ hwanting
    obtain ⟨area, harea, -, hcovers, -⟩ := Pressure.wanting_iff.mp hwanting
    obtain ⟨r, hr, hin⟩ := ((hlive.stored _ _ harea).covers_iff q).mp hcovers
    have := (hlive.stored _ _ harea).laid.before r hr
    rw [Range.covers_iff] at hin
    omega

/-- One class: the values chosen for it leave no more of it live at any point than there is room for. -/
theorem chooseIn_spec (h : Found f live stack found) (hlive : live.Stored points) (hcls : cls ∈ found.map Prod.fst)
    (hrows : s.1.wantedRows cls =
      (Pressure.with_ f points live offered stack taken).wantedRows cls)
    (hrun : chooseIn build found s cls = some s') :
    s'.1.roomRows = s.1.roomRows ∧ (∀ cls' ≠ cls, s'.1.wantedRows cls' = s.1.wantedRows cls') ∧
      ∃ out, s'.2 = s.2 ++ out ∧ (∀ r ∈ out, r ∉ stack) ∧
        ∀ q, ((Finset.range f.vregs).filter (Wanting f live (stack ++ out) cls q)).card ≤
          s.1.room cls q := by
  have hstored := h.stored hlive cls
  obtain ⟨hswept, hzero⟩ := sweep_spec hstored (h.counted_start hlive hcls hrows)
  unfold chooseIn at hrun
  obtain ⟨traded, htrade, hrun⟩ := Option.bind_eq_some_iff.mp hrun
  obtain rfl := Option.some.inj hrun
  obtain ⟨hcounted, hclear⟩ := trade_spec hstored htrade hswept hzero
  have hmem (r : Reg) (hr : r ∈ ((List.range (ofClass found cls).length).filter fun one =>
      traded.gone one).map fun one => (table (ofClass found cls) one).reg) :
      ∃ one < (ofClass found cls).length, traded.gone one = true ∧
        (table (ofClass found cls) one).reg = r := by
    obtain ⟨one, hone, rfl⟩ := List.mem_map.mp hr
    obtain ⟨hlt, hgone⟩ := List.mem_filter.mp hone
    exact ⟨one, List.mem_range.mp hlt, hgone, rfl⟩
  refine ⟨hcounted.room, hcounted.other, _, rfl, fun r hr => ?_, fun q => ?_⟩
  · obtain ⟨one, hone, -, rfl⟩ := hmem r hr
    obtain ⟨v, -, hc⟩ := h.sound _ _ (mem_ofClass.mp (mem_table hone))
    rw [hc.reg]
    exact hc.free
  · have hexcess := hclear q
    rw [hcounted.excess, Nat.sub_eq_zero_iff_le] at hexcess
    refine le_trans ?_ hexcess
    -- a value still live there is a candidate that has not gone
    have hcover : (Finset.range f.vregs).filter (Wanting f live (stack ++ ((List.range
        (ofClass found cls).length).filter fun one => traded.gone one).map fun one =>
          (table (ofClass found cls) one).reg) cls q) ⊆
        ((Finset.range (ofClass found cls).length).filter fun one => traded.gone one = false ∧
          (table (ofClass found cls) one).area.covers q = true).image fun one =>
            @Reg.casesOn (fun _ => ℕ) (table (ofClass found cls) one).reg id id := by
      intro v hv
      obtain ⟨hlt, hwanting⟩ := Finset.mem_filter.mp hv
      rw [Finset.mem_range] at hlt
      have hout := hwanting.2.2
      rw [List.mem_append, not_or] at hout
      obtain ⟨c, hc, hcandidate⟩ := h.complete v hlt cls q ⟨hwanting.1, hwanting.2.1, hout.1⟩
      obtain ⟨one, hone, htable⟩ := exists_table (mem_ofClass.mpr hc)
      obtain ⟨area, harea, -, hcovers, -⟩ := Pressure.wanting_iff.mp hwanting
      obtain rfl : c.area = area := Option.some.inj (hcandidate.area.symm.trans harea)
      rw [Finset.mem_image]
      refine ⟨one, Finset.mem_filter.mpr ⟨Finset.mem_range.mpr hone, ?_, by rw [htable]; exact hcovers⟩, ?_⟩
      · by_contra hgone
        rw [Bool.not_eq_false] at hgone
        refine hout.2 (List.mem_map.mpr ⟨one, List.mem_filter.mpr ⟨List.mem_range.mpr hone, hgone⟩, ?_⟩)
        rw [htable, hcandidate.reg]
      · rw [htable, hcandidate.reg]
        rfl
    exact (Finset.card_le_card hcover).trans Finset.card_image_le

/-! ## Every class -/

/-- The classes one after another. -/
theorem foldlM_chooseIn_spec (h : Found f live stack found) (hlive : live.Stored points)
    {classes : List RegClass} (hnodup : classes.Nodup) (hcls : ∀ cls ∈ classes, cls ∈ found.map Prod.fst)
    
    (hrows : ∀ cls ∈ classes, s.1.wantedRows cls =
      (Pressure.with_ f points live offered stack taken).wantedRows cls)
    (hroom : s.1.roomRows = (Pressure.with_ f points live offered stack taken).roomRows)
    (hrun : classes.foldlM (chooseIn build found) s = some s') :
    ∃ out, s'.2 = s.2 ++ out ∧ (∀ r ∈ out, r ∉ stack) ∧
      ∀ cls ∈ classes, ∀ q, ((Finset.range f.vregs).filter (Wanting f live (stack ++ out) cls q)).card ≤
        (Pressure.with_ f points live offered stack taken).room cls q := by
  induction classes generalizing s with
  | nil =>
    obtain rfl := Option.some.inj hrun
    exact ⟨[], by simp, by simp, by simp⟩
  | cons cls classes ih =>
    rw [List.foldlM_cons] at hrun
    obtain ⟨s₁, hone, hrun⟩ := Option.bind_eq_some_iff.mp hrun
    rw [List.nodup_cons] at hnodup
    obtain ⟨hroom₁, hother, out, hout, hfree, hfits⟩ := chooseIn_spec h hlive
      (hcls cls List.mem_cons_self) (hrows cls List.mem_cons_self) hone
    obtain ⟨out', hout', hfree', hfits'⟩ := ih hnodup.2
      (fun cls' hcls' => hcls cls' (List.mem_cons_of_mem _ hcls'))
      (fun cls' hcls' => by
        rw [hother cls' fun heq => hnodup.1 (heq ▸ hcls')]
        exact hrows cls' (List.mem_cons_of_mem _ hcls'))
      (hroom₁.trans hroom) hrun
    have hmono {l : List Reg} (cls' : RegClass) (q : ℕ) (hl : ∀ r ∈ l, r ∈ out ++ out') :
        ((Finset.range f.vregs).filter (Wanting f live (stack ++ (out ++ out')) cls' q)).card ≤
          ((Finset.range f.vregs).filter (Wanting f live (stack ++ l) cls' q)).card := by
      refine Finset.card_le_card fun v hv => ?_
      obtain ⟨hlt, hclass, hcovers, hnot⟩ := Finset.mem_filter.mp hv
      refine Finset.mem_filter.mpr ⟨hlt, hclass, hcovers, fun hin => hnot ?_⟩
      rcases List.mem_append.mp hin with hin | hin
      · exact List.mem_append_left _ hin
      · exact List.mem_append_right _ (hl _ hin)
    refine ⟨out ++ out', by rw [hout', hout, List.append_assoc], fun r hr => ?_, fun cls' hcls' q => ?_⟩
    · rcases List.mem_append.mp hr with hr | hr
      · exact hfree r hr
      · exact hfree' r hr
    · rcases List.mem_cons.mp hcls' with rfl | hcls'
      · refine (hmono _ q fun r hr => List.mem_append_left _ hr).trans ((hfits q).trans ?_)
        unfold Pressure.room
        rw [hroom]
      · exact (hmono _ q fun r hr => List.mem_append_right _ hr).trans (hfits' cls' hcls' q)

end

/-- After the choice, no point of any class has more values live that are neither forced to memory nor
chosen than the table says there is room for, and no forced value is chosen. -/
theorem with_settles (build : Overflow) (f : Func) (offered : RegClass → List PhysReg)
    (taken : List (RegClass × PhysReg × ℕ)) (costs : List (BitVec 128)) (stack chosen : List Reg)
    (h : with_ build f (Live.of f (Order.of f))
      (Pressure.with_ f (Order.of f).points (Live.of f (Order.of f)) offered stack taken) costs stack =
        some chosen) :
    (∀ cls point, ((Finset.range f.vregs).filter
      (Wanting f (Live.of f (Order.of f)) (stack ++ chosen) cls point)).card ≤
        (Pressure.with_ f (Order.of f).points (Live.of f (Order.of f)) offered stack taken).room cls
          point) ∧
      ∀ reg ∈ chosen, reg ∉ stack := by
  unfold with_ at h
  obtain ⟨found, hfound, h⟩ := Option.bind_eq_some_iff.mp h
  obtain ⟨s', hrun, h⟩ := Option.bind_eq_some_iff.mp h
  obtain rfl := Option.some.inj h
  have hfinds := found_of_mapM hfound
  obtain ⟨out, hout, hfree, hfits⟩ := foldlM_chooseIn_spec hfinds (Live.of_stored f)
    ((List.perm_insertionSort _ _).nodup_iff.mpr (List.nodup_dedup _))
    (fun cls hcls => List.mem_dedup.mp ((List.mem_insertionSort _).mp hcls)) (fun _ _ => rfl) rfl hrun
  rw [hout, List.nil_append]
  refine ⟨fun cls point => ?_, hfree⟩
  by_cases hcls : cls ∈ found.reduceOption.map Prod.fst
  · exact hfits cls ((List.mem_insertionSort _).mpr (List.mem_dedup.mpr hcls)) point
  · -- a class with no candidates has nothing to leave
    have hnone : (Finset.range f.vregs).filter
        (Wanting f (Live.of f (Order.of f)) (stack ++ out) cls point) = ∅ := by
      rw [Finset.filter_eq_empty_iff]
      intro v hv hwanting
      have hstack := hwanting.2.2
      rw [List.mem_append, not_or] at hstack
      obtain ⟨c, hc, -⟩ := hfinds.complete v (Finset.mem_range.mp hv) cls point
        ⟨hwanting.1, hwanting.2.1, hstack.1⟩
      exact hcls (List.mem_map.mpr ⟨_, hc, rfl⟩)
    rw [hnone, Finset.card_empty]
    exact Nat.zero_le _

theorem three_classes_lt : ([0, 0, 0] : List RegClass).length < 2^31 := by decide

/-- Two values live at once, and a third read beside the first. -/
def meeting : Func where
  classes := [0, 0, 0]
  blocks := [⟨[], [[⟨.virtualReg 0, 0, .define, .reg⟩], [⟨.virtualReg 1, 0, .define, .reg⟩],
    [⟨.virtualReg 0, 0, .use, .reg⟩, ⟨.virtualReg 1, 0, .use, .reg⟩], [⟨.virtualReg 2, 0, .define, .reg⟩],
    [⟨.virtualReg 2, 0, .use, .reg⟩, ⟨.virtualReg 0, 0, .use, .reg⟩]], []⟩]
  layout := [0]
  classes_lt := three_classes_lt
  layout_perm := by decide
  succs_lt := by decide

/-- With one register for them, the long value goes first, and then it is traded for the two that cost
less together. -/
theorem with_settles_meeting :
    let offered : RegClass → List PhysReg := fun cls => if cls = 0 then [0] else []
    let live := Live.of meeting (Order.of meeting)
    let pressure := Pressure.with_ meeting (Order.of meeting).points live offered [] []
    let chosen : List Reg := [.virtualReg 1, .virtualReg 2]
    with_ .panics meeting live pressure [5, 2, 2] [] = some chosen ∧
      (∀ cls point, ((Finset.range meeting.vregs).filter
        (Wanting meeting live ([] ++ chosen) cls point)).card ≤ pressure.room cls point) ∧
      ∀ reg ∈ chosen, reg ∉ ([] : List Reg) :=
  ⟨by decide +kernel, with_settles .panics meeting _ [] [5, 2, 2] [] _ (by decide +kernel)⟩

end Rucc.Regalloc.Spill
