import Rucc.Lib.Post
import Rucc.Regalloc.LegalizeProbe
import Rucc.Regalloc.Rewrite

/-!
# An instruction that wants no second register

An instruction with no operand on the stack of a class that holds one register back, or with one and no register of
such a class named outright, reads it into that register, and borrows none of the class. `Few` is what the passes keep:
how many such operands are left to place, and that the register is free while one is.
-/

namespace Rucc.Regalloc

open Mir

/-- Whether it is for want of a register. -/
def Stop.wants : Stop → Bool
  | .noRegisters _ | .nothingToBorrow _ | .unbrokenCycle _ | .slotToSlot _ => true
  | _ => false

/-- A stop for want of a register, other than one of a class that holds two back or more with nothing left to borrow. -/
def Stop.Short (env : Env) (stop : Stop) : Prop :=
  stop.wants = true ∧ ∀ cls, stop = .nothingToBorrow cls → (env.scratch cls).length < 2

/-- An assignment with more slots, of classes that hold two registers back or more. -/
def Grown (env : Env) (a b : Assignment) : Prop :=
  b.places = a.places ∧ ∃ new, b.slots = a.slots ++ new ∧ ∀ cls ∈ new, 2 ≤ (env.scratch cls).length

variable {env : Env} {a b c : Assignment}

theorem Grown.refl (a : Assignment) : Grown env a a := ⟨rfl, [], (List.append_nil _).symm, by simp⟩

theorem Grown.trans (h : Grown env a b) (h' : Grown env b c) : Grown env a c := by
  obtain ⟨hplaces, new, hslots, hnew⟩ := h
  obtain ⟨hplaces', new', hslots', hnew'⟩ := h'
  refine ⟨hplaces'.trans hplaces, new ++ new', by rw [hslots', hslots, List.append_assoc], fun cls hcls => ?_⟩
  obtain hcls | hcls := List.mem_append.1 hcls
  · exact hnew cls hcls
  · exact hnew' cls hcls

theorem fetch_post {α : Type} (l : List α) (i : ℕ) : Post (Stop.Short env) (fetch l i) fun x => l[i]? = some x := by
  unfold fetch
  cases l[i]? with
  | none => exact fun h => Bool.false_ne_true h.1
  | some x => exact rfl

theorem phys_post (reg : Reg) : Post (Stop.Short env) (phys reg) fun at_ => reg = .physical at_ := by
  cases reg with
  | physical at_ => exact rfl
  | virtualReg number => exact fun h => Bool.false_ne_true h.1

theorem place_post (a : Assignment) (reg : Reg) :
    Post (Stop.Short env) (place a reg) fun at_ => place a reg = .ok at_ := by
  cases h : place a reg with
  | ok at_ => exact rfl
  | error stop =>
    unfold place at h
    cases hplace : a.place reg with
    | some at_ =>
      rw [hplace] at h
      cases h
    | none =>
      rw [hplace] at h
      cases reg with
      | physical at_ => cases h
      | virtualReg number =>
        cases h
        exact fun h => Bool.false_ne_true h.1

namespace Legalize

variable {α : Type}

/-! ## Handing out a register -/

section

variable {idle : Idle} {inst : Inst} {s : Scratch} {cls : RegClass}

variable {at_ : PhysReg}

/-- The register of each class that holds one back is not one a value travels in. -/
def Free (env : Env) (c : Claimed) : Prop :=
  ∀ cls at_, env.scratch cls = [at_] → (cls, at_) ∉ c.reads ∧ (cls, at_) ∉ c.writes ∧ (cls, at_) ∉ c.passed

theorem Free.take {c : Claimed} (h : Free env c) (hcls : 2 ≤ (env.scratch cls).length) (at_ : PhysReg) :
    Free env (c.take cls at_) := by
  intro own held hheld
  have hne : own ≠ cls := by
    rintro rfl
    rw [hheld] at hcls
    exact absurd hcls (by simp)
  obtain ⟨hreads, hwrites, hpassed⟩ := h own held hheld
  unfold Claimed.take
  simp [hreads, hwrites, hpassed, hne]

theorem Free.clashes {c : Claimed} (h : Free env c) (hheld : env.scratch cls = [at_]) (role : Role) :
    c.clashes role cls at_ = false := by
  obtain ⟨hreads, hwrites, hpassed⟩ := h cls at_ hheld
  unfold Claimed.clashes Claimed.side
  split
  · simp [hreads, hwrites, hpassed]
  · simp [hreads, hpassed]

theorem spareSlot_post (hcls : 2 ≤ (env.scratch cls).length) : Post (Stop.Short env) (s.spareSlot cls) fun t =>
    Grown env s.assignment t.assignment ∧ t.claimed = s.claimed := by
  unfold Scratch.spareSlot Assignment.takeSlot
  dsimp only
  split
  · split
    · exact ⟨⟨rfl, [cls], rfl, by simpa using hcls⟩, rfl⟩
    · exact fun h => Bool.false_ne_true h.1
  · exact ⟨Grown.refl _, rfl⟩

/-- A class with two registers held back may borrow. -/
theorem borrow_post (hcls : 2 ≤ (env.scratch cls).length) :
    Post (Stop.Short env) (s.borrow env idle inst false cls) fun t =>
      Grown env s.assignment t.2.assignment ∧ (Free env s.claimed → Free env t.2.claimed) := by
  unfold Scratch.borrow
  split
  · exact ⟨Grown.refl _, fun h => h.take hcls _⟩
  · unfold Scratch.free
    split
    · rename_i at_ _
      refine (spareSlot_post hcls).bind fun s' ⟨hgrown, hclaimed⟩ => (fetch_post _ _).bind fun slot _ => ?_
      refine ⟨hgrown, fun h => ?_⟩
      rw [← hclaimed] at h
      exact h.take hcls at_
    · -- nothing to borrow, which is not for a class that holds fewer back
      exact fun h => absurd (h.2 cls rfl) (by omega)

theorem handOut_post (hcls : 2 ≤ (env.scratch cls).length) (counts : RegClass → ℕ) (role : Role) :
    Post (Stop.Short env) (handOut env idle inst false counts cls s role) fun t =>
      (∀ own, own ≠ cls → t.2.1 own = counts own) ∧ Grown env s.assignment t.2.2.assignment ∧
        (Free env s.claimed → Free env t.2.2.claimed) := by
  unfold handOut
  dsimp only
  split
  · exact ⟨fun own hne => Function.update_of_ne hne _ _, Grown.refl _, id⟩
  · exact (borrow_post hcls).bind fun t ⟨hgrown, hfree⟩ =>
      ⟨fun own hne => Function.update_of_ne hne _ _, hgrown, hfree⟩

/-- The register a class holds back is handed out when it is free. -/
theorem handOut_short (hheld : env.scratch cls = [at_]) (hfree : Free env s.claimed)
    {counts : RegClass → ℕ} (hcounts : counts cls = 0) (probing : Bool) (role : Role) :
    handOut env idle inst probing counts cls s role = .ok (at_, Function.update counts cls 1, s) := by
  have hpass : passOver env s cls role (counts cls) = 0 := by
    unfold passOver
    rw [hcounts, hheld, List.drop_zero, List.takeWhile_cons_of_neg (by simp [hfree.clashes hheld])]
    rfl
  unfold handOut
  rw [hpass, hheld]
  rfl

end

/-! ## What the passes keep -/

open Rewrite

/-- Whether an operand is of a class that holds one register back, and on the stack. -/
def wanting (env : Env) (one : Operand × Place) : Bool := short env one.1.cls && one.2.isSlot

/-- How many of the operands at some indices are. -/
def left (env : Env) (operands : List (Operand × Place)) (indices : List ℕ) : ℕ :=
  indices.countP fun index => operands[index]?.any (wanting env)

theorem short_iff {cls : RegClass} : short env cls = true ↔ ∃ at_, env.scratch cls = [at_] := by
  unfold short
  rw [decide_eq_true_iff, List.length_eq_one_iff]

/-- What the passes keep while they have the operands at some indices still to place. -/
def Few (env : Env) (operands : List (Operand × Place)) (a : Assignment) (indices : List ℕ) (s : Legalizing) : Prop :=
  Grown env a s.scratch.assignment ∧ (left env operands indices = 0 ∨ (left env operands indices = 1 ∧
    Free env s.scratch.claimed ∧ ∀ cls, short env cls = true → s.read cls = 0 ∧ s.written cls = 0))

section

variable {operands : List (Operand × Place)} {indices : List ℕ} {index : ℕ} {s t : Legalizing}

/-- A state that differs in what is not kept. -/
theorem Few.of_eq (h : Few env operands a indices s) (hscratch : t.scratch = s.scratch) (hread : t.read = s.read)
    (hwritten : t.written = s.written) : Few env operands a indices t := by
  unfold Few
  rw [hscratch, hread, hwritten]
  exact h

theorem Few.perm {indices' : List ℕ} (h : Few env operands a indices s) (hperm : indices.Perm indices') :
    Few env operands a indices' s := by
  have hleft : left env operands indices' = left env operands indices := (hperm.countP_eq _).symm
  unfold Few
  rw [hleft]
  exact h

/-- An operand that wants no register of its own leaves as many to place as before, or fewer. -/
theorem Few.tail (h : Few env operands a (index :: indices) s) : Few env operands a indices s := by
  obtain ⟨hgrown, hleft⟩ := h
  unfold left at hleft
  rw [List.countP_cons] at hleft
  refine ⟨hgrown, ?_⟩
  unfold left
  obtain hleft | ⟨hleft, hfree, hcounts⟩ := hleft
  · exact Or.inl (by omega)
  · by_cases hnone : indices.countP (fun index => operands[index]?.any (wanting env)) = 0
    · exact Or.inl hnone
    · exact Or.inr ⟨by split at hleft <;> omega, hfree, hcounts⟩

variable {idle : Idle} {inst : Inst} {operand : Operand} {slot : ℕ}

/-- The same operands, and the same ones left for the second pass. -/
def SameOperands (s t : Legalizing) : Prop := t.operands = s.operands ∧ t.reusing = s.reusing

/-- A register is handed out for an operand on the stack, of a class that holds any back. -/
theorem Few.handOut (h : Few env operands a (index :: indices) s) (hat : operands[index]? = some (operand, .slot slot))
    (hbare : env.scratch operand.cls ≠ []) {counts : RegClass → ℕ} (hcounts : counts = s.read ∨ counts = s.written)
    (role : Role) (f : (RegClass → ℕ) → Scratch → Legalizing) (hsame : ∀ counts scratch, SameOperands s (f counts scratch))
    (hscratch : ∀ counts scratch, (f counts scratch).scratch = scratch)
    (hf : ∀ counts' scratch, (∀ own, own ≠ operand.cls → counts' own = counts own) → ∀ own, own ≠ operand.cls →
      (f counts' scratch).read own = s.read own ∧ (f counts' scratch).written own = s.written own) :
    Post (Stop.Short env)
      (Legalize.handOut env idle inst false counts operand.cls s.scratch role >>= fun t => .ok (t.1, f t.2.1 t.2.2))
      fun t => Few env operands a indices t.2 ∧ SameOperands s t.2 := by
  obtain ⟨hgrown, hleft⟩ := h
  unfold left at hleft
  rw [List.countP_cons, hat] at hleft
  by_cases hshort : short env operand.cls = true
  · -- it is the only one of its kind, and the register is free
    obtain ⟨at_, hheld⟩ := short_iff.1 hshort
    have hwanting : (some (operand, Place.slot slot)).any (wanting env) = true := by
      show (short env operand.cls && true) = true
      rw [hshort]
      rfl
    rw [if_pos hwanting] at hleft
    obtain hleft | ⟨hleft, hfree, hzero⟩ := hleft
    · exact absurd hleft (Nat.succ_ne_zero _)
    · have hnone : counts operand.cls = 0 := by
        obtain rfl | rfl := hcounts
        · exact (hzero operand.cls hshort).1
        · exact (hzero operand.cls hshort).2
      rw [handOut_short hheld hfree hnone]
      refine ⟨⟨?_, Or.inl (by unfold left; omega)⟩, hsame _ _⟩
      show Grown env a (f _ _).scratch.assignment
      rw [hscratch]
      exact hgrown
  · have hmany : 2 ≤ (env.scratch operand.cls).length := by
      have hpos := List.length_pos_iff.2 hbare
      have hne : (env.scratch operand.cls).length ≠ 1 := fun h => hshort (decide_eq_true h)
      omega
    have hwanting : (some (operand, Place.slot slot)).any (wanting env) ≠ true := by
      show (short env operand.cls && true) ≠ true
      simpa using hshort
    rw [if_neg hwanting] at hleft
    refine (handOut_post hmany counts role).bind fun t ⟨hothers, hmore, hkept⟩ => ?_
    refine ⟨⟨?_, hleft.imp id fun ⟨hone, hfree, hzero⟩ => ⟨hone, ?_, fun own hown => ?_⟩⟩, hsame _ _⟩
    · show Grown env a (f _ _).scratch.assignment
      rw [hscratch]
      exact hgrown.trans hmore
    · show Free env (f _ _).scratch.claimed
      rw [hscratch]
      exact hkept hfree
    · have hne : own ≠ operand.cls := fun heq => hshort (heq ▸ hown)
      obtain ⟨hread, hwritten⟩ := hf t.2.1 t.2.2 hothers own hne
      exact ⟨hread.trans (hzero own hown).1, hwritten.trans (hzero own hown).2⟩

section

variable (h : Few env operands a (index :: indices) s) (hat : operands[index]? = some (operand, .slot slot))
  (hbare : env.scratch operand.cls ≠ [])
include h hat hbare

theorem Few.readInto : Post (Stop.Short env) (s.readInto env idle inst false operand.cls) fun t =>
    Few env operands a indices t.2 ∧ SameOperands s t.2 :=
  h.handOut hat hbare (Or.inl rfl) .use (fun read scratch => { s with read := read, scratch := scratch })
    (fun _ _ => ⟨rfl, rfl⟩) (fun _ _ => rfl) fun _ _ hothers own hne => ⟨hothers own hne, rfl⟩

theorem Few.writtenInto : Post (Stop.Short env) (s.writtenInto env idle inst false operand.cls) fun t =>
    Few env operands a indices t.2 ∧ SameOperands s t.2 :=
  h.handOut hat hbare (Or.inr rfl) .define (fun written scratch => { s with written := written, scratch := scratch })
    (fun _ _ => ⟨rfl, rfl⟩) (fun _ _ => rfl) fun _ _ hothers own hne => ⟨rfl, hothers own hne⟩

theorem Few.earlyInto : Post (Stop.Short env) (s.earlyInto env idle inst false operand.cls) fun t =>
    Few env operands a indices t.2 ∧ SameOperands s t.2 :=
  h.handOut hat hbare (Or.inl rfl) .earlyDefine
    (fun read scratch => { s with
      read := read
      written := Function.update s.written operand.cls (max (s.written operand.cls) (read operand.cls))
      scratch := scratch })
    (fun _ _ => ⟨rfl, rfl⟩) (fun _ _ => rfl)
    fun _ _ hothers own hne => ⟨hothers own hne, Function.update_of_ne hne _ _⟩

theorem Few.registerFor (instOperands : List Operand) (places : List Place) :
    Post (Stop.Short env) (Legalize.registerFor env idle inst false instOperands places s index operand) fun t =>
      Few env operands a indices t.2 ∧ SameOperands s t.2 := by
  unfold Legalize.registerFor
  split
  · exact ⟨h.tail, rfl, rfl⟩
  · exact h.earlyInto hat hbare
  · exact h.writtenInto hat hbare
  · split
    · exact ⟨h.tail, rfl, rfl⟩
    · exact h.readInto hat hbare

end

end

/-! ## The passes -/

theorem getElem?_of_mapM {β : Type} {f : α → Except Stop β} {l : List α} {l' : List β} (h : l.mapM f = .ok l') :
    l'.length = l.length ∧ ∀ (i : ℕ) (x : α), l[i]? = some x → ∃ y, f x = .ok y ∧ l'[i]? = some y := by
  induction l generalizing l' with
  | nil =>
    cases h
    exact ⟨rfl, fun i x hi => absurd hi (by simp)⟩
  | cons first rest ih =>
    rw [List.mapM_cons] at h
    cases hfirst : f first with
    | error stop =>
      rw [hfirst] at h
      cases h
    | ok y =>
      cases hrest : rest.mapM f with
      | error stop =>
        rw [hfirst, hrest] at h
        cases h
      | ok ys =>
        rw [hfirst, hrest] at h
        cases h
        obtain ⟨hlength, hget⟩ := ih hrest
        refine ⟨by rw [List.length_cons, List.length_cons, hlength], fun i x hi => ?_⟩
        cases i with
        | zero =>
          cases hi
          exact ⟨y, hfirst, rfl⟩
        | succ i => exact hget i x hi

/-- What the passes keep of the operands of an instruction. -/
structure Placing (env : Env) (a : Assignment) (operands : List Operand) (places : List Place) (indices : List ℕ)
    (s : Legalizing) : Prop where
  few : Few env (operands.zip places) a indices s
  cls : ∀ i : ℕ, (s.operands[i]?).map Operand.cls = (operands[i]?).map Operand.cls

section Passes

variable {operands : List Operand} {places : List Place} {indices : List ℕ} {index : ℕ} {s : Legalizing} {idle : Idle}
  {inst : Inst}

theorem Placing.push (h : Placing env a operands places indices s) (operand : Operand) (mov : Move Place) :
    Placing env a operands places indices (s.push operand mov) := by
  unfold Legalizing.push
  split
  · exact ⟨h.few.of_eq rfl rfl rfl, h.cls⟩
  · exact ⟨h.few.of_eq rfl rfl rfl, h.cls⟩

theorem Placing.rewrite (h : Placing env a operands places indices s) (index : ℕ) (at_ : PhysReg) :
    Placing env a operands places indices (s.rewrite index at_) := by
  refine ⟨h.few.of_eq rfl rfl rfl, fun i => ?_⟩
  rw [← h.cls i]
  unfold Legalizing.rewrite
  rw [List.getElem?_modify]
  cases s.operands[i]? with
  | none => rfl
  | some operand =>
    show some (Operand.cls (if index = i then _ else operand)) = _
    split
    · rfl
    · rfl

theorem push_operands (operand : Operand) (mov : Move Place) : (s.push operand mov).operands = s.operands := by
  unfold Legalizing.push
  split
  · rfl
  · rfl

theorem push_reusing (operand : Operand) (mov : Move Place) : (s.push operand mov).reusing = s.reusing := by
  unfold Legalizing.push
  split
  · rfl
  · rfl

variable (hmap : operands.mapM (fun operand => place a operand.reg) = .ok places)
  (hbare : ∀ operand ∈ operands, ∀ slot, place a operand.reg = .ok (.slot slot) → env.scratch operand.cls ≠ [])

/-- The operands that are still to be placed in the first pass are as they were. -/
def Fresh (operands : List Operand) (indices : List ℕ) (s : Legalizing) : Prop :=
  ∀ i ∈ indices, s.operands[i]? = operands[i]?

include hmap hbare

theorem placeOperand_post (hnodup : (index :: indices).Nodup)
    (h : Placing env a operands places (index :: (indices ++ s.reusing)) s) (hfresh : Fresh operands (index :: indices) s) :
    Post (Stop.Short env) (placeOperand env idle inst false operands places s index) fun t =>
      Placing env a operands places (indices ++ t.reusing) t ∧ Fresh operands indices t := by
  have hrewrite (t : Legalizing) (ht : t.operands = s.operands) (at_ : PhysReg) :
      Fresh operands indices (t.rewrite index at_) := by
    intro i hi
    have hne : index ≠ i := fun heq => (List.nodup_cons.1 hnodup).1 (heq ▸ hi)
    show (t.operands.modify index _)[i]? = _
    rw [List.getElem?_modify_ne _ _ hne, ht, hfresh i (List.mem_cons_of_mem _ hi)]
  have htail : Placing env a operands places (indices ++ s.reusing) s := ⟨h.few.tail, h.cls⟩
  unfold placeOperand
  refine (fetch_post _ _).bind fun operand hoperand => (place_post _ _).bind fun at_ hplace => ?_
  rw [hfresh index List.mem_cons_self] at hoperand
  rw [place_congr h.few.1.1] at hplace
  obtain ⟨at_, hplace', hat⟩ := (getElem?_of_mapM hmap).2 index operand hoperand
  obtain rfl := Except.ok.inj (hplace.symm.trans hplace')
  have hzip : (operands.zip places)[index]? = some (operand, at_) := by
    rw [List.getElem?_zip_eq_some]
    exact ⟨hoperand, hat⟩
  split
  · split
    · exact ⟨htail.rewrite _ _, hrewrite _ rfl _⟩
    · refine ⟨?_, hrewrite _ (push_operands _ _) _⟩
      show Placing env a operands places (indices ++ (s.push operand _).reusing) _
      rw [push_reusing]
      exact (htail.push _ _).rewrite _ _
  · exact ⟨htail.rewrite _ _, hrewrite _ rfl _⟩
  · refine ⟨⟨?_, h.cls⟩, fun i hi => hfresh i (List.mem_cons_of_mem _ hi)⟩
    -- it is left for the second pass
    have hperm : (index :: (indices ++ s.reusing)).Perm (indices ++ (s.reusing ++ [index])) := by
      rw [← List.append_assoc]
      exact (List.perm_append_singleton index _).symm
    exact (h.few.perm hperm).of_eq rfl rfl rfl
  · refine (h.few.registerFor hzip (hbare operand (List.mem_of_getElem? hoperand) _ hplace) operands places).bind
      fun t ⟨hfew, hsame, hreusing⟩ => ⟨?_, hrewrite _ ((push_operands _ _).trans hsame) _⟩
    show Placing env a operands places (indices ++ (t.2.push operand _).reusing) _
    rw [push_reusing, hreusing]
    refine Placing.rewrite (Placing.push ⟨hfew, ?_⟩ _ _) _ _
    rw [hsame]
    exact h.cls

theorem placeReusing_post (h : Placing env a operands places (index :: indices) s) :
    Post (Stop.Short env) (placeReusing env idle inst false places s index) fun t =>
      Placing env a operands places indices t := by
  have htail : Placing env a operands places indices s := ⟨h.few.tail, h.cls⟩
  unfold placeReusing
  refine (fetch_post _ _).bind fun operand hoperand => (fetch_post _ _).bind fun at_ hat => ?_
  split
  · rename_i other slot _
    refine (fetch_post _ _).bind fun reused _ => ?_
    split
    · exact (fetch_post _ _).bind fun source _ => (phys_post _).bind fun at_ _ => (htail.push _ _).rewrite _ _
    · -- the operand the instruction has there, of the same class
      have hcls := h.cls index
      rw [hoperand] at hcls
      obtain ⟨given, hgiven, hcls⟩ := Option.map_eq_some_iff.1 hcls.symm
      obtain ⟨at_, hplace, hat'⟩ := (getElem?_of_mapM hmap).2 index given hgiven
      obtain rfl := Option.some.inj (hat.symm.trans hat')
      have hzip : (operands.zip places)[index]? = some (given, .slot slot) := by
        rw [List.getElem?_zip_eq_some]
        exact ⟨hgiven, hat⟩
      rw [← hcls]
      refine (h.few.readInto hzip (hbare given (List.mem_of_getElem? hgiven) slot hplace)).bind
        fun t ⟨hfew, hsame, _⟩ => (Placing.push ⟨hfew, ?_⟩ _ _).rewrite _ _
      rw [hsame]
      exact h.cls
  · exact htail

omit hmap hbare in
theorem passOrder_perm (places : List Place) : (passOrder places).Perm (List.range places.length) :=
  List.perm_append_comm.trans (List.filter_append_perm _ _)

theorem passes_post (h : Placing env a operands places (passOrder places) s) (hreusing : s.reusing = [])
    (hoperands : s.operands = operands) :
    Post (Stop.Short env) (passes env idle inst false operands places s) fun t => Grown env a t.scratch.assignment := by
  have hnodup := (passOrder_perm places).nodup_iff.2 List.nodup_range
  have hfirst : Post (Stop.Short env) ((passOrder places).foldlM (placeOperand env idle inst false operands places) s)
      fun t => Placing env a operands places t.reusing t := by
    refine (Post.foldlM (I := fun l t => l.Nodup ∧ Placing env a operands places (l ++ t.reusing) t ∧ Fresh operands l t)
      ⟨hnodup, by rwa [hreusing, List.append_nil], fun i _ => by rw [hoperands]⟩ ?_).mono fun t ht => ht.2.1
    intro index rest t ⟨hnodup, hplacing, hfresh⟩
    refine (placeOperand_post hmap hbare hnodup hplacing hfresh).mono fun u hu => ?_
    exact ⟨(List.nodup_cons.1 hnodup).2, hu⟩
  unfold passes
  refine hfirst.bind fun s hs => (Post.foldlM hs fun index rest t ht => placeReusing_post hmap hbare ht).bind fun s hs => ?_
  -- the copies ask for no register
  refine Post.foldlM (I := fun _ (t : Legalizing) => Grown env a t.scratch.assignment) hs.few.1 fun index rest t ht => ?_
  unfold copyReused
  refine (fetch_post _ _).bind fun operand _ => ?_
  split
  · refine (fetch_post _ _).bind fun source _ => ?_
    split
    · exact ht
    · exact (phys_post _).bind fun _ _ => (phys_post _).bind fun _ _ => ht
  · exact ht

end Passes

/-! ## An instruction -/

theorem countP_range (p : α → Bool) (l : List α) :
    (List.range l.length).countP (fun i => l[i]?.any p) = l.countP p := by
  induction l with
  | nil => rfl
  | cons x l ih =>
    rw [List.length_cons, List.range_succ_eq_map, List.countP_cons, List.countP_map, List.countP_cons]
    exact congrArg (· + _) ih

theorem named_eq_false {operands : List Operand} (h : named env operands = false) {operand : Operand}
    (hin : operand ∈ operands) (hshort : short env operand.cls = true) :
    (∃ number, operand.reg = .virtualReg number) ∧ ∀ at_, operand.constraint ≠ .fixed at_ := by
  have hone := List.any_eq_false.1 h operand hin
  rw [hshort] at hone
  cases hreg : operand.reg with
  | physical at_ => simp [hreg] at hone
  | virtualReg number =>
    refine ⟨⟨number, rfl⟩, fun at_ hfixed => ?_⟩
    simp [hreg, hfixed] at hone

/-- An operand of a class that holds one register back names another. -/
theorem Free.operand {c : Claimed} (h : Free env c) {operand : Operand} {at_ : Place}
    (hown : ∀ held, env.scratch operand.cls = [held] → at_ ≠ .reg held ∧ ∀ fixed, operand.constraint ≠ .fixed fixed) :
    Free env (c.operand operand at_) := by
  have hname (c : Claimed) (h : Free env c) (at_ : PhysReg) (hne : ∀ held, env.scratch operand.cls = [held] → at_ ≠ held) :
      Free env (c.name operand at_) := by
    intro cls held hheld
    obtain ⟨hreads, hwrites, hpassed⟩ := h cls held hheld
    have hother : (cls, held) ≠ (operand.cls, at_) := by
      intro heq
      obtain ⟨rfl, rfl⟩ := Prod.mk.inj heq
      exact hne _ hheld rfl
    unfold Claimed.name
    split
    · exact ⟨hreads, by simpa [hwrites] using hother, hpassed⟩
    · exact ⟨by simpa [hreads] using hother, hwrites, hpassed⟩
  unfold Claimed.operand
  cases hconstraint : operand.constraint with
  | fixed fixed =>
    -- no class that holds one back has an operand like this
    have hno (held : PhysReg) (hheld : env.scratch operand.cls = [held]) : False := (hown held hheld).2 fixed hconstraint
    have hpair (c : Claimed) (h : Free env c) (at_ : PhysReg) : Free env (c.name operand at_) :=
      hname c h at_ fun held hheld => absurd hheld (hno held)
    refine hpair _ ?_ fixed
    cases at_ with
    | slot slot => exact h
    | reg at_ =>
      dsimp only
      split
      · exact hpair _ h _
      · split
        · exact h
        · intro cls held hheld
          obtain ⟨hreads, hwrites, hpassed⟩ := h cls held hheld
          refine ⟨hreads, hwrites, fun hin => ?_⟩
          obtain hin | hin := List.mem_append.1 hin
          · exact hpassed hin
          · obtain ⟨rfl, -⟩ := Prod.mk.inj (List.mem_singleton.1 hin)
            exact hno held hheld
  | _ =>
    cases at_ with
    | slot slot => exact h
    | reg at_ => exact hname c h at_ fun held hheld heq => (hown held hheld).1 (congrArg Place.reg heq)

theorem free_of {operands : List (Operand × Place)} {c : Claimed} (h : Free env c)
    (hown : ∀ one ∈ operands, ∀ held, env.scratch one.1.cls = [held] →
      one.2 ≠ .reg held ∧ ∀ fixed, one.1.constraint ≠ .fixed fixed) :
    Free env (operands.foldl (fun c one => c.operand one.1 one.2) c) := by
  induction operands generalizing c with
  | nil => exact h
  | cons one operands ih =>
    exact ih (h.operand (hown one List.mem_cons_self)) fun other hin => hown other (List.mem_cons_of_mem _ hin)

section

variable {f : Func} {idle : Idle} {inst : Inst} {spare : Spare}

/-- An instruction that wants no second register of a class that holds one back takes no slot of one, and stops for
want of a register only in a class that holds two back or more. -/
theorem instruction_post
    (hbare : ∀ operand ∈ f.operands inst.1 inst.2, ∀ slot, place a operand.reg = .ok (.slot slot) →
      env.scratch operand.cls ≠ [])
    (hheld : ∀ operand ∈ f.operands inst.1 inst.2, ∀ at_, a.place operand.reg = some (.reg at_) →
      at_ ∉ env.scratch operand.cls)
    (hfew : ∀ places, (f.operands inst.1 inst.2).mapM (fun operand => place a operand.reg) = .ok places →
      ((f.operands inst.1 inst.2).zip places).countP (wanting env) = 0 ∨
        ((f.operands inst.1 inst.2).zip places).countP (wanting env) = 1 ∧ named env (f.operands inst.1 inst.2) = false) :
    Post (Stop.Short env) (instruction f a env spare idle inst) fun t => Grown env a t.2.assignment := by
  unfold instruction legalize
  generalize f.operands inst.1 inst.2 = operands at hbare hheld hfew ⊢
  cases hmap : operands.mapM fun operand => place a operand.reg with
  | error stop =>
    exact Post.not_bad (Post.mapM fun operand _ => (place_post a operand.reg).mono fun _ _ => trivial) hmap
  | ok places =>
    obtain ⟨hlength, hget⟩ := getElem?_of_mapM hmap
    have hzip : (operands.zip places).length = places.length := by rw [List.length_zip, hlength, min_self]
    have hleft : left env (operands.zip places) (passOrder places) = (operands.zip places).countP (wanting env) := by
      unfold left
      rw [(passOrder_perm places).countP_eq, ← hzip, countP_range]
    show Post _ (passes env idle inst false operands places (begin operands places a spare) >>= _) _
    refine (passes_post hmap hbare ⟨⟨Grown.refl a, ?_⟩, fun _ => rfl⟩ rfl rfl).bind fun t ht => ht
    rw [hleft]
    refine (hfew places hmap).imp id fun ⟨hone, hnamed⟩ => ⟨hone, ?_, fun _ _ => ⟨rfl, rfl⟩⟩
    refine free_of (fun cls at_ _ => ⟨List.not_mem_nil, List.not_mem_nil, List.not_mem_nil⟩) fun one hin held hone => ?_
    obtain ⟨i, hi⟩ := List.getElem?_of_mem hin
    obtain ⟨hoperand, hplace⟩ := List.getElem?_zip_eq_some.1 hi
    have hmem := List.mem_of_getElem? hoperand
    obtain ⟨⟨number, hreg⟩, hfixed⟩ := named_eq_false hnamed hmem (short_iff.2 ⟨held, hone⟩)
    refine ⟨fun heq => ?_, hfixed⟩
    obtain ⟨at_, hat, hat'⟩ := hget i one.1 hoperand
    obtain rfl := Option.some.inj (hplace.symm.trans hat')
    rw [heq, hreg] at hat
    unfold place at hat
    cases hplaced : a.place (.virtualReg number) with
    | none =>
      rw [hplaced] at hat
      cases hat
    | some at_ =>
      rw [hplaced] at hat
      cases hat
      refine hheld one.1 hmem held (hreg ▸ hplaced) ?_
      rw [hone]
      exact List.mem_singleton_self held

end

end Legalize

end Rucc.Regalloc
