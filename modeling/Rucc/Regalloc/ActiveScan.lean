import Mathlib.Data.List.Lattice
import Rucc.Regalloc.ActiveLists

/-!
# The lists of pieces agree with the values in flight

Over a scan, the list of a register's pieces holds every piece that ends at or after the current point of
the values of its class in the register, and nothing else that does (`Kept`). So what it answers for an
area that starts there is what the values answer.
-/

namespace Rucc.Regalloc

open Mir Pieces

variable {area : Area} {held held' : List Held} {cls : RegClass} {piece : Range} {slot : PhysReg} {r : Reg}
    {i : Interval} {n : ℕ}

/-! ## Whole areas put in and taken out -/

/-- The entries of an area. -/
def entries (area : Area) (reg : Reg) : List Entry := area.all.map fun piece => entry piece reg

theorem mem_entries {reg : Reg} {e : Entry} :
    e ∈ entries area reg ↔ e.owner = reg ∧ (⟨e.start, e.stop⟩ : Range) ∈ area.all := by
  unfold entries
  rw [List.mem_map]
  constructor
  · rintro ⟨piece, hpiece, rfl⟩
    exact ⟨rfl, hpiece⟩
  · rintro ⟨rfl, hpiece⟩
    exact ⟨_, hpiece, rfl⟩

theorem entries_nodup (h : area.WellFormed) (reg : Reg) : (entries area reg).Nodup := by
  refine List.pairwise_map.mpr (h.inOrder.apart.imp_of_mem fun {r r'} hr _ hlt heq => ?_)
  have := h.inOrder.nonempty r hr
  have := (Entry.mk.inj heq).1
  omega

namespace Pieces

variable {p : Pieces} {area : Area} {reg : Reg}

variable {p' p'' : Pieces}

/-- What putting pieces in does to a list. -/
structure PutIn (p p' : Pieces) (new : List Entry) : Prop where
  perm : p'.list.Perm (new ++ p.list)
  ordered : p.Ordered → p'.Ordered
  broken : p'.broken = false → p.broken = false
  kept : p'.kept = p.kept

theorem PutIn.trans {new new' : List Entry} (h : PutIn p p' new)
    (h' : PutIn p' p'' new') : PutIn p p'' (new ++ new') where
  perm := by
    refine h'.perm.trans ((h.perm.append_left new').trans ?_)
    rw [← List.append_assoc]
    exact List.perm_append_comm.append_right _
  ordered := h'.ordered ∘ h.ordered
  broken := h.broken ∘ h'.broken
  kept := h'.kept.trans h.kept

theorem putIn_insertAll : PutIn p (p.insertAll area reg) (entries area reg) := by
  unfold insertAll entries
  induction area.all generalizing p with
  | nil => exact ⟨List.Perm.refl _, id, id, rfl⟩
  | cons piece rest ih =>
    have hone : PutIn p (p.insert piece reg) [entry piece reg] :=
      ⟨insert_perm, Ordered.insert, insert_broken, insert_kept⟩
    exact hone.trans ih

theorem putIn_foldl (held : List Held) : PutIn p (held.foldl (fun p h => p.insertAll h.area h.reg) p)
      (held.flatMap fun h => entries h.area h.reg) := by
  induction held generalizing p with
  | nil => exact ⟨List.Perm.refl _, id, id, rfl⟩
  | cons h rest ih =>
    rw [List.flatMap_cons]
    exact putIn_insertAll.trans ih

/-- What taking pieces out does to a list in order. -/
structure TakenOut (p p' : Pieces) (gone : List Entry) : Prop where
  list : p'.list = p.list.diff gone
  ordered : p'.Ordered
  broken : p'.broken = p.broken
  kept : p'.kept = p.kept

theorem TakenOut.trans {gone gone' : List Entry} (h : TakenOut p p' gone)
    (h' : TakenOut p' p'' gone') : TakenOut p p'' (gone ++ gone') where
  list := by rw [h'.list, h.list, List.diff_append]
  ordered := h'.ordered
  broken := h'.broken.trans h.broken
  kept := h'.kept.trans h.kept

theorem Ordered.takenOut_removeAll (h : p.Ordered) : TakenOut p (p.removeAll area reg) (entries area reg) := by
  unfold removeAll entries
  induction area.all generalizing p with
  | nil => exact ⟨rfl, h, rfl, rfl⟩
  | cons piece rest ih =>
    obtain ⟨hlist, hbroken, hkept⟩ := @Ordered.remove_list p piece reg h
    have hone : TakenOut p (p.remove piece reg) [entry piece reg] := by
      refine ⟨?_, h.remove, hbroken, hkept⟩
      rw [hlist, List.diff_cons, List.diff_nil]
    exact hone.trans (ih h.remove)

theorem Ordered.takenOut_foldl (h : p.Ordered) (held : List Held) :
    TakenOut p (held.foldl (fun p h => p.removeAll h.area h.reg) p)
      (held.flatMap fun h => entries h.area h.reg) := by
  induction held generalizing p with
  | nil => exact ⟨rfl, h, rfl, rfl⟩
  | cons one rest ih =>
    rw [List.flatMap_cons]
    have hone : TakenOut p (p.removeAll one.area one.reg) (entries one.area one.reg) :=
      h.takenOut_removeAll
    exact hone.trans (ih hone.ordered)

end Pieces

/-! ## What holds of each register -/

/-- The values in a register: each one that has been given a register, once, with its interval around it. -/
structure InRegister (seen : Reg → Prop) (held : List Held) : Prop where
  seen : ∀ h ∈ held, seen h.reg
  distinct : (held.map Held.reg).Nodup
  wellFormed : ∀ h ∈ held, h.area.WellFormed
  range : ∀ h ∈ held, ∀ piece ∈ h.area.all, piece.stop ≤ h.range.stop

/-- The list of one class in a register, next to the values there: while it is kept and in order, the pieces
that end at or after the point are theirs. -/
structure Kept (point : ℕ) (seen : Reg → Prop) (held : List Held) (cls : RegClass) (p : Pieces) :
    Prop where
  ordered : p.Ordered
  nodup : p.list.Nodup
  fresh : p.kept = false → p.list = []
  owned : ∀ e ∈ p.list, seen e.owner
  complete : p.kept = true → p.broken = false → ∀ h ∈ held, h.cls = cls → ∀ piece ∈ h.area.all,
    point ≤ piece.stop → entry piece h.reg ∈ p.list
  sound : p.broken = false → ∀ e ∈ p.list, point ≤ e.stop →
    ∃ h ∈ held, h.cls = cls ∧ e ∈ entries h.area h.reg

/-- What holds of every register between the steps of a scan. -/
structure InFlight (point : ℕ) (seen : Reg → Prop) (a : Active) : Prop where
  held : ∀ slot, InRegister seen (a.held slot)
  kept : ∀ cls slot, Kept point seen (a.held slot) cls (a.pieces cls slot)

theorem InRegister.sublist {seen : Reg → Prop} (h : InRegister seen held)
    (hsub : held'.Sublist held) : InRegister seen held' :=
  ⟨fun one hone => h.seen one (hsub.subset hone), h.distinct.sublist (hsub.map _),
    fun one hone => h.wellFormed one (hsub.subset hone), fun one hone => h.range one (hsub.subset hone)⟩

theorem InRegister.eq_of_reg {seen : Reg → Prop} (h : InRegister seen held)
    {one other : Held} (hone : one ∈ held) (hother : other ∈ held) (hreg : one.reg = other.reg) :
    one = other := List.inj_on_of_nodup_map h.distinct hone hother hreg

/-- With nothing in any register, nothing is listed. -/
theorem InFlight.empty : InFlight 0 (fun _ => False) Active.empty where
  held := fun _ => ⟨by simp [Active.empty], List.nodup_nil, by simp [Active.empty],
    by simp [Active.empty]⟩
  kept := fun _ _ => ⟨⟨List.Pairwise.nil, fun _ => List.Pairwise.nil⟩, List.nodup_nil, fun _ => rfl,
    by simp [Active.empty, none_], by simp [Active.empty], by simp [Active.empty, none_]⟩

variable {point : ℕ} {seen : Reg → Prop} {a : Active}

/-- Letting go of what has ended leaves nothing the list could be asked about out of it. -/
theorem InFlight.expire (h : InFlight point seen a) {point' : ℕ} (hle : point ≤ point') :
    InFlight point' seen (a.expire point') := by
  have hsub (slot : PhysReg) : ((a.expire point').held slot).Sublist (a.held slot) := by
    unfold Active.expire
    dsimp only
    split_ifs
    · exact List.Sublist.refl _
    · exact List.filter_sublist
  have hstay (slot : PhysReg) (one : Held) (hone : one ∈ a.held slot) (hend : point' ≤ one.range.stop) :
      one ∈ (a.expire point').held slot := by
    unfold Active.expire
    dsimp only
    split_ifs
    · exact hone
    · exact List.mem_filter.mpr ⟨hone, by simpa using hend⟩
  refine ⟨fun slot => (h.held slot).sublist (hsub slot), fun cls slot => ?_⟩
  have hkept := h.kept cls slot
  refine ⟨hkept.ordered, hkept.nodup, hkept.fresh, hkept.owned, ?_, ?_⟩
  · exact fun hk hb one hone hcls piece hpiece hend =>
      hkept.complete hk hb one ((hsub slot).subset hone) hcls piece hpiece (hle.trans hend)
  · intro hb e he hend
    obtain ⟨one, hone, hcls, hin⟩ := hkept.sound hb e he (hle.trans hend)
    have hrange := (h.held slot).range one hone _ (mem_entries.mp hin).2
    exact ⟨one, hstay slot one hone (hend.trans hrange), hcls, hin⟩

/-- A list is not touched by values of other classes coming and going. -/
theorem Kept.congr {p : Pieces}
    (h : Kept point seen held cls p) {seen' : Reg → Prop} (hseen : ∀ r, seen r → seen' r)
    (hheld : ∀ one, one.cls = cls → (one ∈ held' ↔ one ∈ held)) : Kept point seen' held' cls p :=
  ⟨h.ordered, h.nodup, h.fresh, fun e he => hseen _ (h.owned e he),
    fun hk hb one hone hcls => h.complete hk hb one ((hheld one hcls).mp hone) hcls,
    fun hb e he hend => by
      obtain ⟨one, hone, hcls, hin⟩ := h.sound hb e he hend
      exact ⟨one, (hheld one hcls).mpr hone, hcls, hin⟩⟩

/-- Values sent away take their pieces out of the list. -/
theorem InFlight.evict (h : InFlight point seen a) (cls : RegClass) (slot : PhysReg)
    (goes : Held → Bool) : InFlight point seen (a.evict cls slot goes) := by
  have hheld (slot' : PhysReg) : InRegister seen ((a.evict cls slot goes).held slot') := by
    unfold Active.evict
    dsimp only
    rw [Function.update_apply]
    split_ifs with hslot
    · exact (h.held slot).sublist List.filter_sublist
    · exact h.held slot'
  refine ⟨hheld, fun cls' slot' => ?_⟩
  unfold Active.evict Active.setPieces
  dsimp only
  by_cases hslot : slot' = slot
  · subst hslot
    rw [Function.update_self]
    by_cases hcls : cls' = cls
    · subst hcls
      rw [Function.update_self, Function.update_self]
      have hkept := h.kept cls' slot'
      have hregister := h.held slot'
      generalize a.pieces cls' slot' = p at hkept
      generalize a.held slot' = held at hkept hregister
      have hmem (one : Held) : one ∈ held.filter (fun h => !(h.cls = cls' && goes h)) ↔
          one ∈ held ∧ ¬(one.cls = cls' ∧ goes one = true) := by
        simp [List.mem_filter]
        tauto
      have hgone (one : Held) : one ∈ held.filter (fun h => h.cls = cls' && goes h) ↔
          one ∈ held ∧ one.cls = cls' ∧ goes one = true := by
        simp [List.mem_filter]
      by_cases hk : p.kept = true
      · rw [if_pos hk]
        have htaken := hkept.ordered.takenOut_foldl (held.filter fun h => h.cls = cls' && goes h)
        generalize (held.filter fun h => h.cls = cls' && goes h).foldl
          (fun p h => p.removeAll h.area h.reg) p = p' at htaken ⊢
        have hlist (e : Entry) : e ∈ p'.list ↔ e ∈ p.list ∧ ∀ one ∈ held, one.cls = cls' →
            goes one = true → e ∉ entries one.area one.reg := by
          rw [htaken.list, hkept.nodup.mem_sdiff_iff, List.mem_flatMap]
          refine and_congr_right fun _ => ?_
          constructor
          · exact fun hno one hone hc hg hin => hno ⟨one, (hgone one).mpr ⟨hone, hc, hg⟩, hin⟩
          · rintro hno ⟨one, hone, hin⟩
            obtain ⟨hone, hc, hg⟩ := (hgone one).mp hone
            exact hno one hone hc hg hin
        refine ⟨htaken.ordered, ?_, ?_, ?_, ?_, ?_⟩
        · rw [htaken.list]
          exact hkept.nodup.sublist (List.diff_sublist _ _)
        · intro hnot
          rw [htaken.kept, hk] at hnot
          cases hnot
        · exact fun e he => hkept.owned e ((hlist e).mp he).1
        · intro _ hb one hone hc piece hpiece hend
          rw [htaken.broken] at hb
          obtain ⟨hin, hstays⟩ := (hmem one).mp hone
          refine (hlist _).mpr ⟨hkept.complete hk hb one hin hc piece hpiece hend, ?_⟩
          intro other hother hc' hg hentry
          -- a value that goes and owns the piece is the one that stays
          have heq := hregister.eq_of_reg hin hother (mem_entries.mp hentry).1
          rw [heq] at hstays
          exact hstays ⟨hc', hg⟩
        · intro hb e he hend
          rw [htaken.broken] at hb
          obtain ⟨hin, hno⟩ := (hlist e).mp he
          obtain ⟨one, hone, hc, hentry⟩ := hkept.sound hb e hin hend
          exact ⟨one, (hmem one).mpr ⟨hone, fun hg => hno one hone hc hg.2 hentry⟩, hc, hentry⟩
      · rw [if_neg hk]
        rw [Bool.not_eq_true] at hk
        have hnil := hkept.fresh hk
        refine ⟨hkept.ordered, hkept.nodup, hkept.fresh, hkept.owned, fun hk' => ?_, fun _ e he => ?_⟩
        · rw [hk] at hk'
          cases hk'
        · rw [hnil] at he
          cases he
    · rw [Function.update_of_ne hcls]
      refine (h.kept cls' slot').congr (fun _ => id) fun one hone => ?_
      rw [List.mem_filter]
      simp [hone, hcls]
  · rw [Function.update_of_ne hslot]
    have hpieces : Function.update a.pieces cls (Function.update (a.pieces cls) slot
        (if (a.pieces cls slot).kept = true then
          ((a.held slot).filter fun h => h.cls = cls && goes h).foldl
            (fun p h => p.removeAll h.area h.reg) (a.pieces cls slot)
        else a.pieces cls slot)) cls' slot' = a.pieces cls' slot' := by
      by_cases hcls : cls' = cls
      · rw [hcls, Function.update_self, Function.update_of_ne hslot]
      · rw [Function.update_of_ne hcls]
    rw [hpieces]
    exact h.kept cls' slot'

/-- A value given a register goes on the list of its class there, or starts it with the others. -/
theorem Kept.push {held : List Held} {cls : RegClass} {p : Pieces} (h : Kept point seen held cls p)
    (hregister : InRegister seen held) {one : Held} (hcls : one.cls = cls) (hnew : ¬seen one.reg)
    (hwell : one.area.WellFormed) :
    Kept point (fun r => seen r ∨ r = one.reg) (held ++ [one]) cls
      (if p.kept then (p.dropBefore point).insertAll one.area one.reg
      else if FEW < (held ++ [one]).length then
        ((held ++ [one]).filter fun h => h.cls = cls).foldl (fun p h => p.insertAll h.area h.reg)
          { p with kept := true }
      else p) := by
  split_ifs with hk hfew
  · have hput : PutIn (p.dropBefore point) ((p.dropBefore point).insertAll one.area one.reg)
        (entries one.area one.reg) := putIn_insertAll
    generalize (p.dropBefore point).insertAll one.area one.reg = p' at hput ⊢
    have hmem (e : Entry) : e ∈ p'.list ↔ e ∈ entries one.area one.reg ∨ e ∈ (p.dropBefore point).list := by
      rw [hput.perm.mem_iff, List.mem_append]
    have hdrop (e : Entry) (he : e ∈ (p.dropBefore point).list) : e ∈ p.list := by
      unfold dropBefore at he
      split_ifs at he
      · exact he
      · exact (List.dropWhile_sublist _).subset he
    refine ⟨hput.ordered (h.ordered.dropBefore point), ?_, fun hnot => ?_, fun e he => ?_, ?_, ?_⟩
    · refine hput.perm.nodup_iff.mpr (List.nodup_append'.mpr ⟨entries_nodup hwell _, ?_, ?_⟩)
      · unfold dropBefore
        split_ifs
        · exact h.nodup
        · exact h.nodup.sublist (List.dropWhile_sublist _)
      · intro e he he'
        have := h.owned e (hdrop e he')
        rw [(mem_entries.mp he).1] at this
        exact hnew this
    · rw [hput.kept, dropBefore_kept, hk] at hnot
      cases hnot
    · rcases (hmem e).mp he with he | he
      · exact Or.inr (mem_entries.mp he).1
      · exact Or.inl (h.owned e (hdrop e he))
    · intro _ hb other hother hc piece hpiece hend
      have hbroken := hput.broken hb
      rw [dropBefore_broken] at hbroken
      rcases List.mem_append.mp hother with hother | hother
      · refine (hmem _).mpr (Or.inr ((h.ordered.mem_dropBefore hbroken).mpr ⟨?_, hend⟩))
        exact h.complete hk hbroken other hother hc piece hpiece hend
      · rw [List.mem_singleton.mp hother] at hpiece ⊢
        exact (hmem _).mpr (Or.inl (mem_entries.mpr ⟨rfl, hpiece⟩))
    · intro hb e he hend
      have hbroken := hput.broken hb
      rw [dropBefore_broken] at hbroken
      rcases (hmem e).mp he with he | he
      · exact ⟨one, List.mem_append_right _ (List.mem_singleton_self _), hcls, he⟩
      · obtain ⟨other, hother, hc, hin⟩ := h.sound hbroken e (hdrop e he) hend
        exact ⟨other, List.mem_append_left _ hother, hc, hin⟩
  · rw [Bool.not_eq_true] at hk
    have hnil := h.fresh hk
    have hput := putIn_foldl (p := { p with kept := true }) ((held ++ [one]).filter fun h => h.cls = cls)
    generalize ((held ++ [one]).filter fun h => h.cls = cls).foldl
      (fun p h => p.insertAll h.area h.reg) { p with kept := true } = p' at hput ⊢
    have hmem (e : Entry) : e ∈ p'.list ↔
        ∃ other ∈ held ++ [one], other.cls = cls ∧ e ∈ entries other.area other.reg := by
      rw [hput.perm.mem_iff, hnil, List.append_nil, List.mem_flatMap]
      simp only [List.mem_filter, decide_eq_true_eq, and_assoc]
    have hdistinct : ((held ++ [one]).map Held.reg).Nodup := by
      rw [List.map_append, List.nodup_append']
      refine ⟨hregister.distinct, List.nodup_singleton _, fun r hr hr' => ?_⟩
      obtain ⟨other, hother, rfl⟩ := List.mem_map.mp hr
      have heq : other.reg = one.reg := List.mem_singleton.mp hr'
      exact hnew (heq ▸ hregister.seen other hother)
    refine ⟨hput.ordered ⟨h.ordered.sorted, h.ordered.ends⟩, ?_, fun hnot => ?_, fun e he => ?_, ?_, ?_⟩
    · rw [hput.perm.nodup_iff, hnil, List.append_nil, List.nodup_flatMap]
      have hsub := (List.filter_sublist (p := fun h : Held => decide (h.cls = cls)) (l := held ++ [one]))
      constructor
      · intro other hother
        rcases List.mem_append.mp (hsub.subset hother) with hin | hin
        · exact entries_nodup (hregister.wellFormed other hin) _
        · rw [List.mem_singleton.mp hin]
          exact entries_nodup hwell _
      · refine (List.pairwise_map.mp (hdistinct.sublist (hsub.map _))).imp fun {h h'} hne => ?_
        intro e he he'
        exact hne ((mem_entries.mp he).1.symm.trans (mem_entries.mp he').1)
    · rw [hput.kept] at hnot
      cases hnot
    · obtain ⟨other, hother, -, hin⟩ := (hmem e).mp he
      rw [(mem_entries.mp hin).1]
      rcases List.mem_append.mp hother with hother | hother
      · exact Or.inl (hregister.seen other hother)
      · rw [List.mem_singleton.mp hother]
        exact Or.inr rfl
    · exact fun _ _ other hother hc piece hpiece _ =>
        (hmem _).mpr ⟨other, hother, hc, mem_entries.mpr ⟨rfl, hpiece⟩⟩
    · exact fun _ e he _ => (hmem e).mp he
  · rw [Bool.not_eq_true] at hk
    have hnil := h.fresh hk
    refine ⟨h.ordered, h.nodup, h.fresh, fun e he => Or.inl (h.owned e he), fun hk' => ?_, fun _ e he => ?_⟩
    · rw [hk] at hk'
      cases hk'
    · rw [hnil] at he
      cases he

theorem hull_start_le (h : area.WellFormed) (hpiece : piece ∈ area.all) : area.hull.start ≤ piece.start := by
  have horder := h.inOrder
  obtain ⟨pieces, also⟩ := area
  cases pieces with
  | nil => cases hpiece
  | cons first rest => exact horder.after hpiece

theorem le_hull_stop (h : area.WellFormed) (hpiece : piece ∈ area.all) : piece.stop ≤ area.hull.stop := by
  obtain ⟨r, hr, rfl⟩ := List.mem_map.mp hpiece
  rw [(area.stretch_spec r).1]
  have hlast : area.hull.stop = (area.pieces.getLast (List.ne_nil_of_mem hr)).stop := by
    unfold Area.hull
    rw [List.getLastD_eq_getLast?, List.getLast?_eq_some_getLast (List.ne_nil_of_mem hr)]
    rfl
  have hin := hr
  have hapart := h.apart
  rw [← List.dropLast_append_getLast (List.ne_nil_of_mem hr), List.mem_append,
    List.mem_singleton] at hin
  rw [← List.dropLast_append_getLast (List.ne_nil_of_mem hr), List.pairwise_append] at hapart
  rw [hlast]
  rcases hin with hin | heq
  · have := hapart.2.2 r hin _ (List.mem_singleton_self _)
    have := h.nonempty _ (List.getLast_mem (List.ne_nil_of_mem hr))
    omega
  · rw [← heq]

/-- A value is given a register at the point its interval starts at. -/
theorem InFlight.push (h : InFlight point seen a) {i : Interval} (hstart : i.range.start = point)
    (hrange : i.range = i.area.hull) (hwell : i.area.WellFormed) (hnew : ¬seen i.reg)
    (slot : PhysReg) : InFlight point (fun r => seen r ∨ r = i.reg) (a.push i slot) := by
  have hheld := h.held slot
  constructor
  · intro slot'
    unfold Active.push
    dsimp only
    rw [Function.update_apply]
    split_ifs with hslot
    · refine ⟨?_, ?_, ?_, ?_⟩
      · intro one hone
        rcases List.mem_append.mp hone with hone | hone
        · exact Or.inl (hheld.seen one hone)
        · rw [List.mem_singleton.mp hone]
          exact Or.inr rfl
      · rw [List.map_append, List.nodup_append']
        refine ⟨hheld.distinct, List.nodup_singleton _, fun r hr hr' => ?_⟩
        obtain ⟨one, hone, rfl⟩ := List.mem_map.mp hr
        have heq : one.reg = i.reg := List.mem_singleton.mp hr'
        exact hnew (heq ▸ hheld.seen one hone)
      · intro one hone
        rcases List.mem_append.mp hone with hone | hone
        · exact hheld.wellFormed one hone
        · rw [List.mem_singleton.mp hone]
          exact hwell
      · intro one hone piece hpiece
        rcases List.mem_append.mp hone with hone | hone
        · exact hheld.range one hone piece hpiece
        · rw [List.mem_singleton.mp hone] at hpiece ⊢
          dsimp only
          rw [hrange]
          exact le_hull_stop hwell hpiece
    · have := h.held slot'
      exact ⟨fun one hone => Or.inl (this.seen one hone), this.distinct, this.wellFormed, this.range⟩
  · intro cls slot'
    unfold Active.push Active.setPieces
    dsimp only
    by_cases hslot : slot' = slot
    · subst hslot
      rw [Function.update_self]
      by_cases hcls : cls = i.cls
      · subst hcls
        rw [Function.update_self, Function.update_self, hstart]
        have hone : (⟨i.reg, i.cls, i.range, i.area, slot', a.count⟩ : Held).cls = i.cls := rfl
        exact (h.kept i.cls slot').push hheld hone hnew hwell
      · rw [Function.update_of_ne hcls]
        refine (h.kept cls slot').congr (fun _ => Or.inl) fun one hone => ?_
        rw [List.mem_append, List.mem_singleton, or_iff_left]
        intro heq
        exact hcls (by rw [← hone, heq])
    · rw [Function.update_of_ne hslot]
      have hkept := (h.kept cls slot').congr (fun r hr => Or.inl hr : ∀ r, seen r → seen r ∨ r = i.reg)
        (fun one _ => Iff.rfl)
      by_cases hcls : cls = i.cls
      · rw [hcls, Function.update_self, Function.update_of_ne hslot, ← hcls]
        exact hkept
      · rw [Function.update_of_ne hcls]
        exact hkept

/-! ## What the lists answer -/

/-- The pieces listed that touch a piece starting at or after the point are those of the values held. -/
theorem InFlight.listed_iff (h : InFlight point seen a)
    (hk : (a.pieces cls slot).kept = true) (hb : (a.pieces cls slot).broken = false)
    (hpoint : point ≤ piece.start) :
    (∃ e ∈ (a.pieces cls slot).list, e.owner = r ∧ e.start ≤ piece.stop ∧ piece.start ≤ e.stop) ↔
      ∃ one ∈ a.held slot, one.cls = cls ∧ one.reg = r ∧
        ∃ mine ∈ one.area.all, mine.overlaps piece = true := by
  have hkept := h.kept cls slot
  constructor
  · rintro ⟨e, he, rfl, hstart, hstop⟩
    obtain ⟨one, hone, hcls, hin⟩ := hkept.sound hb e he (hpoint.trans hstop)
    obtain ⟨howner, hpiece⟩ := mem_entries.mp hin
    exact ⟨one, hone, hcls, howner.symm, _, hpiece, (overlaps_iff _ _).mpr ⟨hstart, hstop⟩⟩
  · rintro ⟨one, hone, hcls, rfl, mine, hmine, hover⟩
    rw [overlaps_iff] at hover
    exact ⟨_, hkept.complete hk hb one hone hcls mine hmine (hpoint.trans hover.2), rfl, hover⟩

/-- What the list answers is what the values answer. -/
theorem InFlight.listed_eq (h : InFlight point seen a)
    (hwell : area.WellFormed) (hpoint : point ≤ area.hull.start) {except : Option Reg} {answer : Bool}
    (hlisted : a.listed cls slot area except = some answer) :
    answer = a.walked cls slot area except := by
  unfold Active.listed at hlisted
  dsimp only at hlisted
  split_ifs at hlisted with hlist
  obtain rfl := Option.some.inj hlisted
  rw [Bool.and_eq_true, Bool.not_eq_true'] at hlist
  obtain ⟨hk, hb⟩ := hlist
  rw [Bool.eq_iff_iff, (h.kept cls slot).ordered.touch_iff hb]
  unfold Active.walked
  rw [List.any_eq_true]
  constructor
  · rintro ⟨piece, hpiece, e, he, hexcept, hstart, hstop⟩
    have hafter := hpoint.trans (hull_start_le hwell hpiece)
    obtain ⟨one, hone, hcls, hreg, mine, hmine, hover⟩ :=
      (h.listed_iff hk hb hafter).mp ⟨e, he, rfl, hstart, hstop⟩
    refine ⟨one, hone, ?_⟩
    have hareas := (Area.overlaps_iff ((h.held slot).wellFormed one hone) hwell).mpr
      ⟨mine, hmine, piece, hpiece, hover⟩
    simp [hcls, hreg, hexcept, hareas]
  · rintro ⟨one, hone, hall⟩
    simp only [Bool.and_eq_true, decide_eq_true_eq] at hall
    obtain ⟨⟨hcls, hexcept⟩, hareas⟩ := hall
    obtain ⟨mine, hmine, piece, hpiece, hover⟩ :=
      (Area.overlaps_iff ((h.held slot).wellFormed one hone) hwell).mp hareas
    have hafter := hpoint.trans (hull_start_le hwell hpiece)
    obtain ⟨e, he, howner, hstart, hstop⟩ :=
      (h.listed_iff hk hb hafter).mpr ⟨one, hone, hcls, rfl, mine, hmine, hover⟩
    exact ⟨piece, hpiece, e, he, howner ▸ hexcept, hstart, hstop⟩

/-- The values the list names are the ones held whose areas touch. -/
theorem InFlight.mem_owners (h : InFlight point seen a)
    (hwell : area.WellFormed) (hpoint : point ≤ area.hull.start) {l : List Reg}
    (hl : a.owners cls slot area = some l) :
    r ∈ l ↔ ∃ one ∈ a.held slot, one.cls = cls ∧ one.reg = r ∧ one.area.overlaps area = true := by
  unfold Active.owners at hl
  dsimp only at hl
  split_ifs at hl with hk
  have hb : (a.pieces cls slot).broken = false := by
    unfold Pieces.owners at hl
    split_ifs at hl with hbroken
    simpa using hbroken
  rw [(h.kept cls slot).ordered.mem_owners hl]
  constructor
  · rintro ⟨piece, hpiece, hentry⟩
    have hafter := hpoint.trans (hull_start_le hwell hpiece)
    obtain ⟨one, hone, hcls, hreg, mine, hmine, hover⟩ := (h.listed_iff hk hb hafter).mp hentry
    exact ⟨one, hone, hcls, hreg, (Area.overlaps_iff ((h.held slot).wellFormed one hone) hwell).mpr
      ⟨mine, hmine, piece, hpiece, hover⟩⟩
  · rintro ⟨one, hone, hcls, hreg, hareas⟩
    obtain ⟨mine, hmine, piece, hpiece, hover⟩ :=
      (Area.overlaps_iff ((h.held slot).wellFormed one hone) hwell).mp hareas
    have hafter := hpoint.trans (hull_start_le hwell hpiece)
    exact ⟨piece, hpiece, (h.listed_iff hk hb hafter).mpr ⟨one, hone, hcls, hreg, mine, hmine, hover⟩⟩

/-! ## Every state of a scan -/

/-- A line of intervals to scan: each value once, by where it starts, with its interval around it. -/
structure InLine (line : List Interval) : Prop where
  sorted : line.Pairwise fun i i' => i.range.start ≤ i'.range.start
  distinct : line.Pairwise fun i i' => i.reg ≠ i'.reg
  range : ∀ i ∈ line, i.range = i.area.hull
  wellFormed : ∀ i ∈ line, i.area.WellFormed

theorem interval_spec {f : Func} {live : Live} {points : ℕ} (hlive : live.Stored points)
    {reuses : ℕ → Option ℕ} {number : ℕ} (hi : interval f live reuses number = some i) :
    i.reg = .virtualReg number ∧ i.range = i.area.hull ∧ i.area.WellFormed := by
  unfold interval at hi
  cases harea : live.area (.virtualReg number) with
  | none => simp [harea] at hi
  | some area =>
    cases hcls : f.classes[number]? with
    | none => simp [harea, hcls] at hi
    | some cls =>
      rw [harea, hcls] at hi
      obtain rfl := Option.some.inj hi
      have hwell := (hlive.stored _ _ harea).wellFormed (hlive.nonempty _ _ harea)
      refine ⟨rfl, rfl, ?_⟩
      dsimp only
      cases reuses number with
      | none => exact hwell
      | some point => exact hwell.extend point

instance : Std.Total earlier := ⟨fun _ _ => le_total _ _⟩

instance : IsTrans Interval earlier := ⟨fun _ _ _ => le_trans⟩

theorem earlier_start_le {one other : Interval} (h : earlier one other) : one.range.start ≤ other.range.start := by
  rcases Prod.Lex.le_iff.mp h with h | h
  · exact h.le
  · exact h.1.le

/-- The intervals of a function are in line. -/
theorem intervals_inLine (f : Func) (reuses : ℕ → Option ℕ) :
    InLine (intervals f (Live.of f (Order.of f)) reuses) := by
  have hmem (i : Interval) (hi : i ∈ intervals f (Live.of f (Order.of f)) reuses) :
      i.range = i.area.hull ∧ i.area.WellFormed := by
    obtain ⟨number, -, hi⟩ := List.mem_filterMap.mp ((List.mem_insertionSort _).mp hi)
    exact (interval_spec (Live.of_stored f) hi).2
  have hdistinct : ((List.range f.vregs).filterMap (interval f (Live.of f (Order.of f)) reuses)).Pairwise
      fun i i' => i.reg ≠ i'.reg := by
    refine List.pairwise_filterMap.mpr (List.nodup_range.imp fun {n n'} hne i hi i' hi' heq => hne ?_)
    rw [(interval_spec (Live.of_stored f) hi).1, (interval_spec (Live.of_stored f) hi').1] at heq
    exact Reg.virtualReg.inj heq
  constructor
  · exact (List.pairwise_insertionSort earlier _).imp earlier_start_le
  · exact ((List.perm_insertionSort earlier _).pairwise_iff fun {_ _} hne => hne.symm).mpr hdistinct
  · exact fun i hi => (hmem i hi).1
  · exact fun i hi => (hmem i hi).2

/-- The values that have been taken up, of which the last still waits for its register. -/
def takenUp (line : List Interval) (n : ℕ) (r : Reg) : Prop :=
  ∃ k, ∃ hk : k < line.length, k < n ∧ (line.get ⟨k, hk⟩).reg = r

/-- The invariant of a scan: while an interval is being placed, it is the one the point is at the start of,
and its value is not among those given a register. -/
theorem Scanned.inFlight {line : List Interval} (hline : InLine line) {placed : Bool} {point : ℕ}
    {a : Active} (h : Scanned line n placed point a) :
    InFlight point (takenUp line (if placed then n else n - 1)) a ∧
      (∀ k, ∀ hk : k < line.length, n ≤ k → point ≤ (line.get ⟨k, hk⟩).range.start) ∧
      (placed = false → ∀ hn : n - 1 < line.length, (line.get ⟨n - 1, hn⟩).range.start = point) := by
  have hgrow {a : Active} {point : ℕ} {seen seen' : Reg → Prop} (hseen : ∀ r, seen r → seen' r)
      (hin : InFlight point seen a) : InFlight point seen' a :=
    ⟨fun slot => ⟨fun one hone => hseen _ ((hin.held slot).seen one hone), (hin.held slot).distinct,
      (hin.held slot).wellFormed, (hin.held slot).range⟩,
      fun cls slot => (hin.kept cls slot).congr hseen fun _ _ => Iff.rfl⟩
  induction h with
  | start =>
    refine ⟨hgrow (fun _ hfalse => hfalse.elim) InFlight.empty, fun _ _ _ => Nat.zero_le _, fun hp => ?_⟩
    cases hp
  | @expire n placed point a h hn ih =>
    obtain ⟨hin, hlater, -⟩ := ih
    refine ⟨?_, fun k hk hle => ?_, fun _ _ => rfl⟩
    · refine hgrow (fun r hr => ?_) (hin.expire (hlater n hn le_rfl))
      obtain ⟨k, hk, hlt, hreg⟩ := hr
      refine ⟨k, hk, ?_, hreg⟩
      split_ifs at hlt
      · exact hlt
      · rw [if_neg Bool.false_ne_true]
        omega
    · exact List.pairwise_iff_get.mp hline.sorted ⟨n, hn⟩ ⟨k, hk⟩ (Fin.mk_lt_mk.mpr hle)
  | evict h hn slot goes ih => exact ⟨ih.1.evict _ slot goes, ih.2⟩
  | @push n point a h hn slot ih =>
    obtain ⟨hin, hlater, hstart⟩ := ih
    refine ⟨?_, hlater, fun hp => by cases hp⟩
    have hmem := List.get_mem line ⟨n, hn⟩
    have hnew : ¬takenUp line n (line.get ⟨n, hn⟩).reg := by
      rintro ⟨k, hk, hlt, hreg⟩
      exact List.pairwise_iff_get.mp hline.distinct ⟨k, hk⟩ ⟨n, hn⟩ (Fin.mk_lt_mk.mpr hlt) hreg
    have hpush := hin.push (hstart rfl hn) (hline.range _ hmem) (hline.wellFormed _ hmem) hnew slot
    refine hgrow (fun r hr => ?_) hpush
    rw [if_pos rfl]
    rcases hr with ⟨k, hk, hlt, hreg⟩ | rfl
    · exact ⟨k, hk, Nat.lt_succ_of_lt hlt, hreg⟩
    · exact ⟨n, hn, Nat.lt_succ_self n, rfl⟩

/-- In every state of every scan, what the list of a register's pieces answers for an area that starts at
or after the current point, when it is kept and in order, is what the walk over the values in the register
answers, and the values it names are the ones held whose areas overlap the query. -/
theorem lists_agree (f : Func) (reuses : ℕ → Option ℕ) {n : ℕ} {placed : Bool} {point : ℕ} {a : Active}
    (h : Scanned (intervals f (Live.of f (Order.of f)) reuses) n placed point a) (cls : RegClass)
    (slot : PhysReg) (area : Area) (hwell : area.WellFormed) (hpoint : point ≤ area.hull.start) :
    (∀ except, (∀ answer, a.listed cls slot area except = some answer →
      answer = a.walked cls slot area except) ∧
      a.taken cls slot area except = a.walked cls slot area except) ∧
      ∀ l, a.owners cls slot area = some l →
        l.Pairwise (fun one other => bits one < bits other) ∧
          ∀ r, r ∈ l ↔ ∃ one ∈ a.held slot, one.cls = cls ∧ one.reg = r ∧
            one.area.overlaps area = true := by
  obtain ⟨hin, -⟩ := h.inFlight (intervals_inLine f reuses)
  refine ⟨fun except => ⟨fun answer => hin.listed_eq hwell hpoint, ?_⟩, fun l hl => ⟨?_, fun r =>
    hin.mem_owners hwell hpoint hl⟩⟩
  · unfold Active.taken
    cases hlisted : (if FEW < (a.held slot).length then a.listed cls slot area except else none) with
    | none => rfl
    | some answer =>
      split_ifs at hlisted
      exact hin.listed_eq hwell hpoint hlisted
  · unfold Active.owners at hl
    dsimp only at hl
    split_ifs at hl
    exact owners_sorted hl

/-- In every state of every scan, what a register would cost an interval not started yet is what the walk over the
values in it finds, also where its list of pieces is asked instead. -/
theorem costing_eq (f : Func) (reuses : ℕ → Option ℕ) {n : ℕ} {placed : Bool} {point : ℕ} {a : Active}
    (h : Scanned (intervals f (Live.of f (Order.of f)) reuses) n placed point a) {i : Interval}
    (hi : i ∈ intervals f (Live.of f (Order.of f)) reuses) (hpoint : point ≤ i.range.start) (slot : PhysReg) :
    a.costing i slot = (a.held slot).filter fun one => one.cls = i.cls && one.area.overlaps i.area := by
  have hline := intervals_inLine f reuses
  obtain ⟨hin, -⟩ := h.inFlight hline
  unfold Active.costing
  dsimp only
  refine List.filter_congr fun one hone => ?_
  cases howners : (if FEW < (a.held slot).length then a.owners i.cls slot i.area else none) with
  | none => rfl
  | some l =>
    split_ifs at howners
    rw [Option.elim_some, Bool.eq_iff_iff]
    simp only [Bool.and_eq_true, decide_eq_true_eq]
    refine and_congr_right fun hcls => ?_
    rw [hin.mem_owners (hline.wellFormed i hi) (hline.range i hi ▸ hpoint) howners]
    constructor
    · rintro ⟨other, hother, -, hreg, hareas⟩
      rwa [← (hin.held slot).eq_of_reg hother hone hreg]
    · exact fun hareas => ⟨one, hone, hcls, rfl, hareas⟩

/-- Every interval of a line in one register, whatever is there already. -/
def crowded (line : List Interval) (slot : PhysReg) : ℕ → ℕ × Active
  | 0 => (0, Active.empty)
  | n + 1 =>
    if hn : n < line.length then
      let i := line.get ⟨n, hn⟩
      (i.range.start, ((crowded line slot n).2.expire i.range.start).push i slot)
    else crowded line slot n

theorem crowded_scanned (line : List Interval) (slot : PhysReg) (hn : n ≤ line.length) :
    Scanned line n true (crowded line slot n).1 (crowded line slot n).2 := by
  induction n with
  | zero => exact Scanned.start
  | succ n ih =>
    rw [crowded, dif_pos (by omega : n < line.length)]
    exact ((ih (by omega)).expire (by omega)).push (by omega) slot

/-- Five values written one after another and then read in the same order. -/
def relay : Func where
  classes := List.replicate 5 0
  blocks := [⟨[], (List.range 5).map (fun v => [⟨.virtualReg v, 0, .define, .reg⟩]) ++
    (List.range 5).map (fun v => [⟨.virtualReg v, 0, .use, .reg⟩]), []⟩]
  layout := [0]
  classes_lt := by decide
  layout_perm := by decide
  succs_lt := by decide

/-- With all five in one register its list is kept and in order, and it answers as the values do. -/
theorem lists_agree_relay :
    let line := intervals relay (Live.of relay (Order.of relay)) fun _ => none
    let a := (crowded line 0 5).2
    let area : Area := ⟨[⟨12, 14⟩], none⟩
    a.listed 0 0 area none = some true ∧ a.taken 0 0 area none = a.walked 0 0 area none :=
  ⟨by decide +kernel, ((lists_agree relay (fun _ => none) (crowded_scanned _ 0 (by decide +kernel)) 0 0
    ⟨[⟨12, 14⟩], none⟩ ⟨List.pairwise_singleton _ _, by decide, by decide⟩
    (by decide +kernel)).1 none).2⟩

/-- What the one register would cost the last of the five. -/
theorem costing_eq_relay :
    let line := intervals relay (Live.of relay (Order.of relay)) fun _ => none
    let a := (crowded line 0 5).2
    let i := line.get ⟨4, by decide +kernel⟩
    a.costing i 0 = (a.held 0).filter fun one => one.cls = i.cls && one.area.overlaps i.area :=
  costing_eq relay (fun _ => none) (crowded_scanned _ 0 (by decide +kernel)) (List.get_mem _ _) (by decide +kernel) 0

end Rucc.Regalloc
