import Rucc.Pp.HideSets

/-!
# Hide sets are sets

In every table that some operations make of the one with only the empty set, an index stands for the finite set of the
names stored under it. Each operation gives the index of the set it should, whether the set was stored before, its
answer was remembered, or neither, and leaves what every other index stands for as it was. An index stands for no set
that another one does.
-/

namespace Rucc.Pp

open Base SortedSets

/-! ## Merging -/

section Merge

variable {op : Merge} {a b : List Symbol}

/-- What is below a whole list in order is not in it. -/
theorem not_mem_of_lt {x y : Symbol} (hlt : x < y) (hb : Increasing (y :: b)) : x ∉ y :: b := by
  intro hin
  obtain rfl | hin := List.mem_cons.1 hin
  · exact hlt.false
  · exact (hlt.trans ((List.pairwise_cons.1 hb).1 x hin)).false

/-- A merge has the names it should have of the two sets. -/
def Merge.Has (op : Merge) (a b : List Symbol) (x : Symbol) : Prop :=
  match op with
  | .union => x ∈ a ∨ x ∈ b
  | .intersect => x ∈ a ∧ x ∈ b

theorem mem_merge (ha : Increasing a) (hb : Increasing b) (x : Symbol) : x ∈ merge op a b ↔ op.Has a b x := by
  fun_induction merge op a b with
  | case1 y a z b hlt hop ih =>
    subst hop
    rw [List.mem_cons, ih ha.of_cons hb]
    simp only [Merge.Has, List.mem_cons, or_assoc]
  | case2 y a z b hlt hop ih =>
    -- the name passed over is below every one of the other set
    obtain rfl : op = .intersect := by cases op <;> simp_all
    have hnot := not_mem_of_lt hlt hb
    rw [ih ha.of_cons hb]
    simp only [Merge.Has, List.mem_cons (b := y)]
    exact ⟨fun ⟨hin, hin'⟩ => ⟨Or.inr hin, hin'⟩, fun ⟨hin, hin'⟩ => ⟨hin.resolve_left fun h => hnot (h ▸ hin'), hin'⟩⟩
  | case3 y a z b _ hlt hop ih =>
    subst hop
    rw [List.mem_cons, ih ha hb.of_cons]
    simp only [Merge.Has, List.mem_cons, or_left_comm]
  | case4 y a z b _ hlt hop ih =>
    obtain rfl : op = .intersect := by cases op <;> simp_all
    have hnot := not_mem_of_lt hlt ha
    rw [ih ha hb.of_cons]
    simp only [Merge.Has, List.mem_cons (b := z)]
    exact ⟨fun ⟨hin, hin'⟩ => ⟨hin, Or.inr hin'⟩, fun ⟨hin, hin'⟩ => ⟨hin, hin'.resolve_left fun h => hnot (h ▸ hin)⟩⟩
  | case5 y a z b hyz hzy ih =>
    obtain rfl : y = z := le_antisymm (not_lt.1 hzy) (not_lt.1 hyz)
    rw [List.mem_cons, ih ha.of_cons hb.of_cons]
    cases op
    · simp only [Merge.Has, List.mem_cons]
      exact or_or_distrib_left
    · simp only [Merge.Has, List.mem_cons]
      exact or_and_left
  | case6 a b hend hop =>
    subst hop
    exact List.mem_append
  | case7 a b hend hop =>
    obtain rfl : op = .intersect := by cases op <;> simp_all
    suffices ¬ (x ∈ a ∧ x ∈ b) by simpa [Merge.Has] using this
    rintro ⟨hin, hin'⟩
    obtain _ | ⟨y, a⟩ := a
    · exact List.not_mem_nil hin
    · obtain _ | ⟨z, b⟩ := b
      · exact List.not_mem_nil hin'
      · exact hend y a z b rfl rfl

/-- Merging keeps the order. -/
theorem increasing_merge (ha : Increasing a) (hb : Increasing b) : Increasing (merge op a b) := by
  have hbelow {y : Symbol} {a b : List Symbol} (ha : Increasing a) (hb : Increasing b) (hya : ∀ x ∈ a, y < x)
      (hyb : ∀ x ∈ b, y < x) : ∀ x ∈ merge op a b, y < x := by
    intro x hx
    have hhas := (mem_merge ha hb x).1 hx
    cases op
    · exact hhas.elim (hya x) (hyb x)
    · exact hya x hhas.1
  have hrest {y z : Symbol} {b : List Symbol} (hlt : y < z) (hb : Increasing (z :: b)) : ∀ x ∈ z :: b, y < x := by
    intro x hx
    obtain rfl | hx := List.mem_cons.1 hx
    · exact hlt
    · exact hlt.trans ((List.pairwise_cons.1 hb).1 x hx)
  fun_induction merge op a b with
  | case1 y a z b hlt hop ih =>
    have hya := (List.pairwise_cons.1 ha).1
    exact List.pairwise_cons.2 ⟨hbelow ha.of_cons hb hya (hrest hlt hb), ih ha.of_cons hb⟩
  | case2 y a z b hlt hop ih => exact ih ha.of_cons hb
  | case3 y a z b _ hlt hop ih =>
    have hzb := (List.pairwise_cons.1 hb).1
    exact List.pairwise_cons.2 ⟨hbelow ha hb.of_cons (hrest hlt ha) hzb, ih ha hb.of_cons⟩
  | case4 y a z b _ hlt hop ih => exact ih ha hb.of_cons
  | case5 y a z b hyz hzy ih =>
    obtain rfl : y = z := le_antisymm (not_lt.1 hzy) (not_lt.1 hyz)
    have hya := (List.pairwise_cons.1 ha).1
    have hyb := (List.pairwise_cons.1 hb).1
    exact List.pairwise_cons.2 ⟨hbelow ha.of_cons hb.of_cons hya hyb, ih ha.of_cons hb.of_cons⟩
  | case6 a b hend hop =>
    -- one of the two is used up
    obtain _ | ⟨y, a⟩ := a
    · exact hb
    · obtain _ | ⟨z, b⟩ := b
      · rw [List.append_nil]
        exact ha
      · exact (hend y a z b rfl rfl).elim
  | case7 a b hend hop => exact List.Pairwise.nil

end Merge

namespace HideSets

/-- An index of the table. -/
def Valid (s : HideSets) (set : HideSet) : Prop := set.raw < s.sets.length

/-- The set an index stands for. -/
def denote (s : HideSets) (set : HideSet) : Finset Symbol := ((s.members set).getD []).toFinset

/-- The tables that some operations make. -/
inductive Reachable : HideSets → Prop
  | new : Reachable .new
  | add {s s' : HideSets} {set found : HideSet} {name : Symbol} (h : Reachable s)
      (hadd : s.add set name = some (found, s')) : Reachable s'
  | union {s s' : HideSets} {a b found : HideSet} (h : Reachable s) (hunion : s.union a b = some (found, s')) :
      Reachable s'
  | intersect {s s' : HideSets} {a b found : HideSet} (h : Reachable s)
      (hintersect : s.intersect a b = some (found, s')) : Reachable s'

/-- The answer to an operation is the index of a set, in a table where every other index stands for what it did. There
is none only when no index is left. -/
def Answers (s : HideSets) (answer : Option (HideSet × HideSets)) (set : Finset Symbol) : Prop :=
  match answer with
  | some (found, s') => s'.Valid found ∧ s'.denote found = set ∧ ∀ a, s.Valid a → s'.Valid a ∧ s'.denote a = s.denote a
  | none => 2^32 ≤ s.sets.length

/-- What every operation keeps of a table. -/
structure Sound (s : HideSets) : Prop where
  sorted : ∀ l ∈ s.sets, Increasing l
  map : ∀ l set, s.map l = some set ↔ s.members set = some l
  empty : s.members .EMPTY = some []
  added : ∀ set name found, s.added (set, name) = some found →
    s.Valid set ∧ s.Valid found ∧ s.denote found = Insert.insert name (s.denote set)
  unions : ∀ a b found, s.unions (a, b) = some found →
    s.Valid a ∧ s.Valid b ∧ s.Valid found ∧ s.denote found = s.denote a ∪ s.denote b

variable {s s' : HideSets} {a b set found : HideSet} {l : List Symbol} {name : Symbol}

theorem Valid.members (h : s.Valid set) : ∃ l, s.members set = some l :=
  ⟨_, List.getElem?_eq_getElem h⟩

theorem valid_of_members (h : s.members set = some l) : s.Valid set :=
  (List.getElem?_eq_some_iff.1 h).1

theorem denote_of_members (h : s.members set = some l) : s.denote set = l.toFinset := by
  rw [denote, h]
  rfl

namespace Sound

theorem increasing (hs : s.Sound) (h : s.members set = some l) : Increasing l :=
  hs.sorted l (List.mem_of_getElem? h)

/-- An index stands for no set that another one does. -/
theorem denote_inj (hs : s.Sound) (ha : s.Valid a) (hb : s.Valid b) (h : s.denote a = s.denote b) : a = b := by
  obtain ⟨l, hl⟩ := ha.members
  obtain ⟨m, hm⟩ := hb.members
  rw [denote_of_members hl, denote_of_members hm] at h
  have heq : l = m := (hs.increasing hl).ext (hs.increasing hm) fun x => by
    rw [← List.mem_toFinset, h, List.mem_toFinset]
  subst heq
  exact Option.some.inj (((hs.map l a).2 hl).symm.trans ((hs.map l b).2 hm))

theorem denote_empty (hs : s.Sound) : s.denote .EMPTY = ∅ :=
  denote_of_members hs.empty

theorem eq_empty (h : set.isEmpty = true) : set = .EMPTY := by
  obtain ⟨raw⟩ := set
  exact congrArg HideSet.mk (of_decide_eq_true h)

end Sound

theorem new_sound : Sound new where
  sorted l hl := by
    obtain rfl := List.mem_singleton.1 hl
    exact List.Pairwise.nil
  map l set := by
    obtain ⟨raw⟩ := set
    by_cases hl : l = []
    · subst hl
      cases raw <;> simp [new, HideSet.EMPTY, HideSets.members]
    · cases raw <;> simp [new, HideSets.members, hl, Ne.symm hl]
  empty := rfl
  added set name found h := by cases h
  unions a b found h := by cases h

/-- Answers to an operation, in a table that is still sound. -/
def Right (s : HideSets) (answer : Option (HideSet × HideSets)) (set : Finset Symbol) : Prop :=
  s.Answers answer set ∧ ∀ found s', answer = some (found, s') → s'.Sound

/-- An index of a sound table answers for what it stands for, and the table stays as it is. -/
theorem Sound.right (hs : s.Sound) (h : s.Valid found) : s.Right (some (found, s)) (s.denote found) := by
  refine ⟨⟨h, rfl, fun a ha => ⟨ha, rfl⟩⟩, ?_⟩
  rintro _ _ ⟨⟩
  exact hs

theorem getElem?_concat {α : Type*} (xs : List α) (x : α) (n : ℕ) :
    (xs ++ [x])[n]? = if n = xs.length then some x else xs[n]? := by
  split_ifs with h
  · rw [h, List.getElem?_concat_length]
  · obtain hlt | hgt := lt_or_gt_of_ne h
    · exact List.getElem?_append_left hlt
    · rw [List.getElem?_eq_none (by simpa using hgt), List.getElem?_eq_none hgt.le]

/-- What is stored under an index stays when another list is stored. -/
theorem denote_of_kept (hkept : ∀ a l, s.members a = some l → s'.members a = some l) (ha : s.Valid a) :
    s'.Valid a ∧ s'.denote a = s.denote a := by
  obtain ⟨m, hm⟩ := ha.members
  exact ⟨valid_of_members (hkept a m hm), by rw [denote_of_members (hkept a m hm), denote_of_members hm]⟩

/-- What was remembered is still right when every index stands for what it did. -/
theorem Sound.of_kept (hs : s.Sound) (sorted : ∀ l ∈ s'.sets, Increasing l)
    (map : ∀ l set, s'.map l = some set ↔ s'.members set = some l)
    (hkept : ∀ a l, s.members a = some l → s'.members a = some l) (hadded : s'.added = s.added)
    (hunions : s'.unions = s.unions) : s'.Sound where
  sorted := sorted
  map := map
  empty := hkept _ _ hs.empty
  added set name found h := by
    rw [hadded] at h
    obtain ⟨hset, hfound, heq⟩ := hs.added set name found h
    obtain ⟨hset', hset⟩ := denote_of_kept hkept hset
    obtain ⟨hfound', hfound⟩ := denote_of_kept hkept hfound
    exact ⟨hset', hfound', by rw [hset, hfound, heq]⟩
  unions a b found h := by
    rw [hunions] at h
    obtain ⟨ha, hb, hfound, heq⟩ := hs.unions a b found h
    obtain ⟨ha', ha⟩ := denote_of_kept hkept ha
    obtain ⟨hb', hb⟩ := denote_of_kept hkept hb
    obtain ⟨hfound', hfound⟩ := denote_of_kept hkept hfound
    exact ⟨ha', hb', hfound', by rw [ha, hb, hfound, heq]⟩

/-- The table with a list stored that it did not have. -/
theorem Sound.store (hs : s.Sound) (hl : Increasing l) (hnone : s.map l = none) :
    s.Right (some (⟨s.sets.length⟩,
      { s with sets := s.sets ++ [l], map := Function.update s.map l (some ⟨s.sets.length⟩) })) l.toFinset := by
  let s' : HideSets := { s with sets := s.sets ++ [l], map := Function.update s.map l (some ⟨s.sets.length⟩) }
  have hmembers (a : HideSet) : s'.members a = if a.raw = s.sets.length then some l else s.members a :=
    getElem?_concat s.sets l a.raw
  have hkept : ∀ a l, s.members a = some l → s'.members a = some l := fun a m h => by
    rw [hmembers, if_neg (valid_of_members h).ne, h]
  have hfound : s'.members ⟨s.sets.length⟩ = some l := by rw [hmembers, if_pos rfl]
  refine ⟨⟨valid_of_members hfound, denote_of_members hfound, fun a ha => denote_of_kept hkept ha⟩, ?_⟩
  rintro _ _ ⟨⟩
  refine hs.of_kept (fun m hm => ?_) (fun m set => ?_) hkept rfl rfl
  · obtain hm | hm := List.mem_append.1 hm
    · exact hs.sorted m hm
    · obtain rfl := List.mem_singleton.1 hm
      exact hl
  · change Function.update s.map l _ m = _ ↔ s'.members set = _
    by_cases hm : m = l
    · subst hm
      rw [Function.update_self, Option.some_inj]
      refine ⟨fun h => h ▸ hfound, fun h => ?_⟩
      rw [hmembers] at h
      split_ifs at h with hset
      · exact congrArg HideSet.mk hset.symm
      · -- the list was not stored before
        rw [(hs.map m set).2 h] at hnone
        cases hnone
    · rw [Function.update_of_ne hm, hs.map]
      refine ⟨hkept set m, fun h => ?_⟩
      rw [hmembers] at h
      split_ifs at h with hset
      · exact (hm (Option.some.inj h).symm).elim
      · exact h

theorem Sound.insert (hs : s.Sound) (hl : Increasing l) : s.Right (s.insert l) l.toFinset := by
  unfold HideSets.insert
  split
  next found hfound =>
    have hmembers := (hs.map l found).1 hfound
    rw [← denote_of_members hmembers]
    exact hs.right (valid_of_members hmembers)
  next hnone =>
    split_ifs with hlen
    · exact hs.store hl hnone
    · exact ⟨not_lt.1 hlen, fun _ _ h => by cases h⟩

/-! ## The operations -/

/-- What a name was added to is remembered with the answer. -/
theorem Right.remember_add (h : s.Right (some (found, s')) (Insert.insert name (s.denote set))) (hset : s.Valid set) :
    s.Right (some (found, { s' with added := Function.update s'.added (set, name) (some found) }))
      (Insert.insert name (s.denote set)) := by
  obtain ⟨⟨hfound, hdenote, hkept⟩, hs'⟩ := h
  have hs' := hs' found s' rfl
  refine ⟨⟨hfound, hdenote, hkept⟩, ?_⟩
  rintro _ _ ⟨⟩
  refine { hs' with added := fun set' name' found' h => ?_ }
  obtain ⟨hset', heq⟩ := hkept set hset
  by_cases hkey : (set', name') = (set, name)
  · obtain ⟨rfl, rfl⟩ := Prod.mk.inj hkey
    obtain rfl : found = found' := by simpa using h
    rw [← heq] at hdenote
    exact ⟨hset', hfound, hdenote⟩
  · have h : s'.added (set', name') = some found' := by simpa [hkey] using h
    exact hs'.added set' name' found' h

/-- What was united is remembered with the answer. -/
theorem Right.remember_union (h : s.Right (some (found, s')) (s.denote a ∪ s.denote b)) (ha : s.Valid a)
    (hb : s.Valid b) :
    s.Right (some (found, { s' with unions := Function.update s'.unions (a, b) (some found) }))
      (s.denote a ∪ s.denote b) := by
  obtain ⟨⟨hfound, hdenote, hkept⟩, hs'⟩ := h
  have hs' := hs' found s' rfl
  refine ⟨⟨hfound, hdenote, hkept⟩, ?_⟩
  rintro _ _ ⟨⟩
  refine { hs' with unions := fun a' b' found' h => ?_ }
  obtain ⟨ha', haeq⟩ := hkept a ha
  obtain ⟨hb', hbeq⟩ := hkept b hb
  by_cases hkey : (a', b') = (a, b)
  · obtain ⟨rfl, rfl⟩ := Prod.mk.inj hkey
    obtain rfl : found = found' := by simpa using h
    rw [← haeq, ← hbeq] at hdenote
    exact ⟨ha', hb', hfound, hdenote⟩
  · have h : s'.unions (a', b') = some found' := by simpa [hkey] using h
    exact hs'.unions a' b' found' h

namespace Sound

theorem contains (hs : s.Sound) (ha : s.Valid a) (name : Symbol) :
    s.contains a name = some (decide (name ∈ s.denote a)) := by
  unfold HideSets.contains
  split_ifs with hempty
  · rw [eq_empty hempty, hs.denote_empty]
    rfl
  · obtain ⟨l, hl⟩ := ha.members
    rw [denote_of_members hl, hl]
    refine congrArg some ?_
    obtain ⟨index, hfind, hin⟩ | ⟨index, hfind, hnot, -⟩ := binarySearch_spec (hs.increasing hl) name
    · rw [hfind]
      exact (decide_eq_true (List.mem_toFinset.2 hin)).symm
    · rw [hfind]
      exact (decide_eq_false fun h => hnot (List.mem_toFinset.1 h)).symm

theorem add (hs : s.Sound) (ha : s.Valid a) (name : Symbol) :
    s.Right (s.add a name) (Insert.insert name (s.denote a)) := by
  unfold HideSets.add
  split
  next found hfound =>
    obtain ⟨-, hvalid, heq⟩ := hs.added a name found hfound
    rw [← heq]
    exact hs.right hvalid
  next =>
    obtain ⟨l, hl⟩ := ha.members
    rw [hl]
    dsimp only [Option.bind_eq_bind, Option.bind_some]
    obtain ⟨index, hfind, hin⟩ | ⟨index, hfind, hnot, hinc, hmem⟩ := binarySearch_spec (hs.increasing hl) name
    · rw [hfind]
      have heq : Insert.insert name (s.denote a) = s.denote a := by
        rw [denote_of_members hl]
        exact Finset.insert_eq_self.2 (List.mem_toFinset.2 hin)
      rw [heq]
      exact hs.right ha
    · rw [hfind]
      have hright := hs.insert hinc
      have heq : (l.take index ++ name :: l.drop index).toFinset = Insert.insert name (s.denote a) := by
        rw [denote_of_members hl]
        ext x
        rw [List.mem_toFinset, hmem, Finset.mem_insert, List.mem_toFinset]
      rw [heq] at hright
      dsimp only
      cases hinsert : s.insert (l.take index ++ name :: l.drop index) with
      | none =>
        rw [hinsert] at hright
        exact hright
      | some r =>
        rw [hinsert] at hright
        exact hright.remember_add ha

theorem union (hs : s.Sound) (ha : s.Valid a) (hb : s.Valid b) :
    s.Right (s.union a b) (s.denote a ∪ s.denote b) := by
  unfold HideSets.union
  split_ifs with hsame hempty
  · have heq : s.denote a ∪ s.denote b = s.denote a := by
      obtain rfl | hempty := hsame
      · exact Finset.union_self _
      · rw [eq_empty hempty, hs.denote_empty, Finset.union_empty]
    rw [heq]
    exact hs.right ha
  · rw [eq_empty hempty, hs.denote_empty, Finset.empty_union]
    exact hs.right hb
  split
  next found hfound =>
    obtain ⟨-, -, hvalid, heq⟩ := hs.unions a b found hfound
    rw [← heq]
    exact hs.right hvalid
  next =>
    obtain ⟨l, hl⟩ := ha.members
    obtain ⟨m, hm⟩ := hb.members
    rw [hl, hm]
    dsimp only [Option.bind_eq_bind, Option.bind_some]
    have hmerge : Increasing (merge .union l m) := increasing_merge (hs.increasing hl) (hs.increasing hm)
    have hright := hs.insert hmerge
    have heq : (merge .union l m).toFinset = s.denote a ∪ s.denote b := by
      rw [denote_of_members hl, denote_of_members hm]
      ext x
      rw [List.mem_toFinset, mem_merge (hs.increasing hl) (hs.increasing hm), Finset.mem_union, List.mem_toFinset,
        List.mem_toFinset]
      rfl
    rw [heq] at hright
    cases hinsert : s.insert (merge .union l m) with
    | none =>
      rw [hinsert] at hright
      exact hright
    | some r =>
      rw [hinsert] at hright
      exact hright.remember_union ha hb

theorem intersect (hs : s.Sound) (ha : s.Valid a) (hb : s.Valid b) :
    s.Right (s.intersect a b) (s.denote a ∩ s.denote b) := by
  unfold HideSets.intersect
  split_ifs with hsame hempty
  · subst hsame
    rw [Finset.inter_self]
    exact hs.right ha
  · have heq : s.denote a ∩ s.denote b = s.denote .EMPTY := by
      obtain hempty | hempty := hempty
      · rw [eq_empty hempty, hs.denote_empty, Finset.empty_inter]
      · rw [eq_empty hempty, hs.denote_empty, Finset.inter_empty]
    rw [heq]
    exact hs.right (valid_of_members hs.empty)
  · obtain ⟨l, hl⟩ := ha.members
    obtain ⟨m, hm⟩ := hb.members
    rw [hl, hm]
    have hmerge : Increasing (merge .intersect l m) := increasing_merge (hs.increasing hl) (hs.increasing hm)
    have hright := hs.insert hmerge
    have heq : (merge .intersect l m).toFinset = s.denote a ∩ s.denote b := by
      rw [denote_of_members hl, denote_of_members hm]
      ext x
      rw [List.mem_toFinset, mem_merge (hs.increasing hl) (hs.increasing hm), Finset.mem_inter, List.mem_toFinset,
        List.mem_toFinset]
      rfl
    rw [heq] at hright
    exact hright

/-! ## Runs -/

theorem of_add (hs : s.Sound) (h : s.add set name = some (found, s')) : s'.Sound := by
  by_cases hvalid : s.Valid set
  · exact (hs.add hvalid name).2 found s' h
  · have hadded : s.added (set, name) = none :=
      Option.eq_none_iff_forall_ne_some.2 fun found h => hvalid (hs.added set name found h).1
    have hmembers : s.members set = none := List.getElem?_eq_none (not_lt.1 hvalid)
    rw [HideSets.add, hadded, hmembers] at h
    cases h

/-- No index is made of an index of another table. -/
theorem eq_of_union (hs : s.Sound) (hnot : ¬ (s.Valid a ∧ s.Valid b)) (h : s.union a b = some (found, s')) :
    s = s' := by
  have hunions : s.unions (a, b) = none :=
    Option.eq_none_iff_forall_ne_some.2 fun found h => hnot ⟨(hs.unions a b found h).1, (hs.unions a b found h).2.1⟩
  unfold HideSets.union at h
  rw [hunions] at h
  split_ifs at h
  · exact (Prod.mk.inj (Option.some.inj h)).2
  · exact (Prod.mk.inj (Option.some.inj h)).2
  · cases ha : s.members a with
    | none =>
      rw [ha] at h
      cases h
    | some l =>
      have hb : s.members b = none := List.getElem?_eq_none (not_lt.1 fun hb => hnot ⟨valid_of_members ha, hb⟩)
      rw [ha, hb] at h
      cases h

theorem eq_of_intersect (hnot : ¬ (s.Valid a ∧ s.Valid b)) (h : s.intersect a b = some (found, s')) : s = s' := by
  unfold HideSets.intersect at h
  split_ifs at h
  · exact (Prod.mk.inj (Option.some.inj h)).2
  · exact (Prod.mk.inj (Option.some.inj h)).2
  · cases ha : s.members a with
    | none =>
      rw [ha] at h
      cases h
    | some l =>
      have hb : s.members b = none := List.getElem?_eq_none (not_lt.1 fun hb => hnot ⟨valid_of_members ha, hb⟩)
      rw [ha, hb] at h
      cases h

end Sound

/-- Every table that some operations make is sound. -/
theorem Reachable.sound (h : s.Reachable) : s.Sound := by
  induction h with
  | new => exact new_sound
  | add _ hadd hs => exact hs.of_add hadd
  | @union s s' a b found _ hunion hs =>
    by_cases hvalid : s.Valid a ∧ s.Valid b
    · exact (hs.union hvalid.1 hvalid.2).2 found s' hunion
    · exact hs.eq_of_union hvalid hunion ▸ hs
  | @intersect s s' a b found _ hintersect hs =>
    by_cases hvalid : s.Valid a ∧ s.Valid b
    · exact (hs.intersect hvalid.1 hvalid.2).2 found s' hintersect
    · exact Sound.eq_of_intersect hvalid hintersect ▸ hs

/-- In every table that some operations make, the indices stand for finite sets of names, one index for a set, and each
operation answers with the index of the set it is of, or with whether a name is in it. -/
theorem Reachable.denotes (h : s.Reachable) :
    (s.Valid .EMPTY ∧ s.denote .EMPTY = ∅) ∧
      (∀ a b, s.Valid a → s.Valid b → (a = b ↔ s.denote a = s.denote b)) ∧
      (∀ a name, s.Valid a → s.contains a name = some (decide (name ∈ s.denote a))) ∧
      (∀ a name, s.Valid a → s.Answers (s.add a name) (Insert.insert name (s.denote a))) ∧
      (∀ a b, s.Valid a → s.Valid b → s.Answers (s.union a b) (s.denote a ∪ s.denote b)) ∧
      ∀ a b, s.Valid a → s.Valid b → s.Answers (s.intersect a b) (s.denote a ∩ s.denote b) := by
  have hs := h.sound
  refine ⟨⟨valid_of_members hs.empty, hs.denote_empty⟩, fun a b ha hb => ⟨congrArg _, hs.denote_inj ha hb⟩,
    fun a name ha => hs.contains ha name, fun a name ha => (hs.add ha name).1, fun a b ha hb => (hs.union ha hb).1,
    fun a b ha hb => (hs.intersect ha hb).1⟩

/-- The table after a name is added to the empty set. -/
theorem denotes_add_seven :
    ∃ s' found, new.add .EMPTY ⟨7⟩ = some (found, s') ∧ s'.contains found ⟨7⟩ = some true ∧
      (∀ a b, s'.Valid a → s'.Valid b → (a = b ↔ s'.denote a = s'.denote b)) := by
  obtain ⟨⟨found, s'⟩, hadd⟩ : ∃ r, new.add .EMPTY ⟨7⟩ = some r := Option.isSome_iff_exists.1 rfl
  have hreach : s'.Reachable := .add .new hadd
  have hadd' := (Reachable.denotes .new).2.2.2.1 .EMPTY ⟨7⟩ (Reachable.denotes .new).1.1
  rw [hadd] at hadd'
  obtain ⟨hvalid, hdenote, -⟩ := hadd'
  refine ⟨s', found, hadd, ?_, (Reachable.denotes hreach).2.1⟩
  rw [(Reachable.denotes hreach).2.2.1 found ⟨7⟩ hvalid, hdenote]
  simp

end HideSets

end Rucc.Pp
