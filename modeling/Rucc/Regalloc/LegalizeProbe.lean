import Rucc.Regalloc.Legalize

/-!
# What a probe says of the rewrite

A probe of an instruction that takes no slot does what the rewrite of the instruction does, whatever slots were taken
before it. `Quiet` says this of a computation: where it takes no slot, the assignment and the slots are the ones it
began with, and the rewrite's computation, with an assignment of its own that has the same places, gives the same. It
composes along binds and loops, and is proved of each function the passes are made of.
-/

namespace Rucc.Regalloc.Legalize

open Mir

/-! ## States with slots -/

/-- A state with an assignment and slots in it, which can be put in their place. -/
class Carries (σ : Type) where
  assignment : σ → Assignment
  spare : σ → Spare
  within : σ → Assignment → Spare → σ

open Carries

instance : Carries Scratch := ⟨Scratch.assignment, Scratch.spare, fun s a spare => { s with assignment := a, spare := spare }⟩

instance : Carries Legalizing :=
  ⟨fun s => s.scratch.assignment, fun s => s.scratch.spare, fun s a spare => { s with scratch := within s.scratch a spare }⟩

instance {α σ : Type} [Carries σ] : Carries (α × σ) :=
  ⟨fun s => assignment s.2, fun s => spare s.2, fun s a spare => (s.1, within s.2 a spare)⟩

/-- Whether a slot was taken. -/
def Borrowed {σ : Type} [Carries σ] (s : σ) : Prop := ((spare s).any fun slots => !slots.isEmpty) = true

/-- A probe's computation from a state and the rewrite's. -/
def Quiet {σ τ : Type} [Carries σ] [Carries τ] (s : σ) (x : Except Stop τ)
    (real : Assignment → Spare → Except Stop τ) : Prop :=
  ∀ t, x = .ok t → (Borrowed s → Borrowed t) ∧ (¬Borrowed t → assignment t = assignment s ∧ spare t = spare s ∧
    ∀ a slots, a.places = (assignment s).places → real a slots = .ok (within t a slots))

namespace Quiet

variable {σ τ υ : Type} [Carries σ] [Carries τ] [Carries υ] {s : σ} {x : Except Stop τ}
  {real : Assignment → Spare → Except Stop τ}

/-- Nothing is taken. -/
theorem ok {t : τ} (hassignment : assignment t = assignment s) (hspare : spare t = spare s)
    (hreal : ∀ a slots, a.places = (assignment s).places → real a slots = .ok (within t a slots)) :
    Quiet s (.ok t) real := by
  rintro _ ⟨⟩
  refine ⟨fun h => ?_, fun _ => ⟨hassignment, hspare, hreal⟩⟩
  unfold Borrowed
  rw [hspare]
  exact h

/-- From a state with the same assignment and slots. -/
theorem of_eq {s' : υ} (h : Quiet s x real) (hassignment : assignment s' = assignment s) (hspare : spare s' = spare s) :
    Quiet s' x real := by
  unfold Quiet Borrowed at h ⊢
  rw [hassignment, hspare]
  exact h

/-- A computation followed by another one. -/
theorem bind {f f' : τ → Except Stop υ} (h : Quiet s x real) (hf : ∀ t, Quiet t (f t) fun a slots => f' (within t a slots)) :
    Quiet s (x >>= f) fun a slots => real a slots >>= f' := by
  intro u hu
  cases hx : x with
  | error stop =>
    rw [hx] at hu
    cases hu
  | ok t =>
    rw [hx] at hu
    obtain ⟨hkept, hsame⟩ := h t hx
    obtain ⟨hkept', hsame'⟩ := hf t u hu
    refine ⟨fun hs => hkept' (hkept hs), fun hno => ?_⟩
    obtain ⟨hassignment', hspare', hreal'⟩ := hsame' hno
    obtain ⟨hassignment, hspare, hreal⟩ := hsame fun hyes => hno (hkept' hyes)
    refine ⟨hassignment'.trans hassignment, hspare'.trans hspare, fun a slots ha => ?_⟩
    show real a slots >>= f' = _
    rw [hreal a slots ha]
    exact hreal' a slots (by rw [hassignment, ha])

/-- A computation that reads no slots, followed by another one. -/
theorem pureBind {α : Type} {y : Except Stop α} {y' : Assignment → Except Stop α} {f : α → Except Stop τ}
    {f' : Assignment → Spare → α → Except Stop τ} (hy : ∀ a, a.places = (assignment s).places → y' a = y)
    (hf : ∀ v, Quiet s (f v) fun a slots => f' a slots v) :
    Quiet s (y >>= f) fun a slots => y' a >>= f' a slots := by
  intro t ht
  cases y with
  | error stop => cases ht
  | ok v =>
    obtain ⟨hkept, hsame⟩ := hf v t ht
    refine ⟨hkept, fun hno => ⟨(hsame hno).1, (hsame hno).2.1, fun a slots ha => ?_⟩⟩
    show y' a >>= f' a slots = _
    rw [hy a ha]
    exact (hsame hno).2.2 a slots ha

/-- A loop, each round of which is quiet. -/
theorem foldlM {α : Type} {f f' : σ → α → Except Stop σ}
    (hf : ∀ s one, Quiet s (f s one) fun a slots => f' (within s a slots) one) (l : List α) (s : σ) :
    Quiet s (l.foldlM f s) fun a slots => l.foldlM f' (within s a slots) := by
  induction l generalizing s with
  | nil => exact ok rfl rfl fun a slots _ => rfl
  | cons one l ih => exact (hf s one).bind fun t => ih t

/-- A slot is taken. -/
theorem of_borrowed (h : ∀ t, x = .ok t → Borrowed t) : Quiet s x real :=
  fun t ht => ⟨fun _ => h t ht, fun hno => absurd (h t ht) hno⟩

end Quiet

theorem place_congr {a b : Assignment} (h : a.places = b.places) (reg : Reg) : place a reg = place b reg := by
  unfold place Assignment.place
  rw [h]

/-! ## Handing out a register -/

section

variable {env : Env} {idle : Idle} {inst : Inst}

/-- A register whose value is put away has a slot. -/
theorem putAway_borrowed {s : Scratch} {cls : RegClass} {at_ : PhysReg} {t : PhysReg × Scratch}
    (h : s.putAway cls at_ = .ok t) : Borrowed t := by
  unfold Scratch.putAway at h
  cases hslot : s.spareSlot cls with
  | error stop =>
    rw [hslot] at h
    cases h
  | ok s' =>
    rw [hslot] at h
    change (fetch (s'.spare.getD cls []) (s'.borrowed cls) >>= _) = _ at h
    unfold fetch at h
    -- the slot that is read is in the list of the class, which is a list that is not empty
    cases hread : (s'.spare.getD cls [])[s'.borrowed cls]? with
    | none =>
      rw [hread] at h
      cases h
    | some slot =>
      rw [hread] at h
      cases h
      unfold Borrowed
      rw [List.any_eq_true]
      show ∃ slots ∈ s'.spare, _
      cases hlist : s'.spare[cls]? with
      | none => simp [List.getD_eq_getElem?_getD, hlist] at hread
      | some slots =>
        refine ⟨slots, List.mem_of_getElem? hlist, ?_⟩
        cases slots with
        | nil => simp [List.getD_eq_getElem?_getD, hlist] at hread
        | cons one rest => rfl

theorem borrow_quiet (s : Scratch) (cls : RegClass) : Quiet s (s.borrow env idle inst true cls) fun a slots =>
    (within s a slots : Scratch).borrow env idle inst false cls := by
  unfold Scratch.borrow
  have hunused (a : Assignment) (slots : Spare) :
      (within s a slots : Scratch).unused env idle inst cls = s.unused env idle inst cls := rfl
  simp only [hunused]
  cases s.unused env idle inst cls with
  | some at_ => exact Quiet.ok rfl rfl fun a slots _ => rfl
  | none =>
    refine Quiet.of_borrowed fun t ht => ?_
    cases hfree : s.free env true cls with
    | error stop =>
      rw [hfree] at ht
      cases ht
    | ok at_ =>
      rw [hfree] at ht
      exact putAway_borrowed ht

theorem handOut_quiet (counts : RegClass → ℕ) (cls : RegClass) (s : Scratch) (role : Role) :
    Quiet s (handOut env idle inst true counts cls s role) fun a slots =>
      handOut env idle inst false counts cls (within s a slots) role := by
  unfold handOut
  have hpass (a : Assignment) (slots : Spare) :
      passOver env (within s a slots) cls role (counts cls) = passOver env s cls role (counts cls) := rfl
  simp only [hpass]
  cases (env.scratch cls)[passOver env s cls role (counts cls)]? with
  | some at_ => exact Quiet.ok rfl rfl fun a slots _ => rfl
  | none => exact (borrow_quiet s cls).bind fun t => Quiet.ok rfl rfl fun a slots _ => rfl

section Passes

variable (s : Legalizing) (cls : RegClass)

/-- A register handed out, and what the passes do with the counts. -/
theorem count_quiet (counts : RegClass → ℕ) (role : Role) (f : (RegClass → ℕ) → Scratch → Legalizing)
    (hf : ∀ counts scratch, (f counts scratch).scratch = scratch)
    (hwithin : ∀ counts scratch a slots, f counts (within scratch a slots) = within (f counts scratch) a slots) :
    Quiet s (handOut env idle inst true counts cls s.scratch role >>= fun t => .ok (t.1, f t.2.1 t.2.2)) fun a slots =>
      handOut env idle inst false counts cls (within s.scratch a slots) role >>= fun t => .ok (t.1, f t.2.1 t.2.2) := by
  refine ((handOut_quiet counts cls s.scratch role).of_eq rfl rfl).bind fun t => ?_
  have hscratch := hf t.2.1 t.2.2
  refine Quiet.ok (congrArg Scratch.assignment hscratch) (congrArg Scratch.spare hscratch) fun a slots _ => ?_
  show Except.ok (t.1, f t.2.1 (within t.2.2 a slots)) = .ok (t.1, within (f t.2.1 t.2.2) a slots)
  rw [hwithin]

theorem readInto_quiet : Quiet s (s.readInto env idle inst true cls) fun a slots =>
    (within s a slots : Legalizing).readInto env idle inst false cls :=
  count_quiet s cls s.read .use (fun read scratch => { s with read := read, scratch := scratch }) (fun _ _ => rfl)
    fun _ _ _ _ => rfl

theorem writtenInto_quiet : Quiet s (s.writtenInto env idle inst true cls) fun a slots =>
    (within s a slots : Legalizing).writtenInto env idle inst false cls :=
  count_quiet s cls s.written .define (fun written scratch => { s with written := written, scratch := scratch })
    (fun _ _ => rfl) fun _ _ _ _ => rfl

theorem earlyInto_quiet : Quiet s (s.earlyInto env idle inst true cls) fun a slots =>
    (within s a slots : Legalizing).earlyInto env idle inst false cls :=
  count_quiet s cls s.read .earlyDefine
    (fun read scratch => { s with
      read := read
      written := Function.update s.written cls (max (s.written cls) (read cls))
      scratch := scratch })
    (fun _ _ => rfl) fun _ _ _ _ => rfl

variable (operands : List Operand) (places : List Place) (index : ℕ)

/-- A move filed, and the operand rewritten. -/
theorem push_quiet (operand : Operand) (mov : Move Place) (at_ : PhysReg) :
    Quiet s (.ok ((s.push operand mov).rewrite index at_)) fun a slots =>
      .ok (((within s a slots : Legalizing).push operand mov).rewrite index at_) := by
  unfold Legalizing.push
  split
  · exact Quiet.ok rfl rfl fun a slots _ => rfl
  · exact Quiet.ok rfl rfl fun a slots _ => rfl

theorem registerFor_quiet (operand : Operand) :
    Quiet s (registerFor env idle inst true operands places s index operand) fun a slots =>
      registerFor env idle inst false operands places (within s a slots) index operand := by
  unfold registerFor
  have hanswer (a : Assignment) (slots : Spare) :
      answer operands places index operand (within s a slots : Legalizing).scratch.claimed =
        answer operands places index operand s.scratch.claimed := rfl
  simp only [hanswer]
  split
  · exact Quiet.ok rfl rfl fun a slots _ => rfl
  · exact earlyInto_quiet s operand.cls
  · exact writtenInto_quiet s operand.cls
  · split
    · exact Quiet.ok rfl rfl fun a slots _ => rfl
    · exact readInto_quiet s operand.cls

theorem placeOperand_quiet : Quiet s (placeOperand env idle inst true operands places s index) fun a slots =>
    placeOperand env idle inst false operands places (within s a slots) index := by
  unfold placeOperand
  refine Quiet.pureBind (fun _ _ => rfl) fun operand => ?_
  refine Quiet.pureBind (fun a ha => place_congr ha operand.reg) fun at_ => ?_
  split
  · rename_i at_ fixed _
    by_cases heq : at_ = fixed
    · simp only [if_pos heq]
      exact Quiet.ok rfl rfl fun a slots _ => rfl
    · simp only [if_neg heq]
      exact push_quiet s index operand _ fixed
  · exact Quiet.ok rfl rfl fun a slots _ => rfl
  · exact Quiet.ok rfl rfl fun a slots _ => rfl
  · exact (registerFor_quiet s operands places index operand).bind fun t => push_quiet t.2 index operand _ t.1

theorem placeReusing_quiet : Quiet s (placeReusing env idle inst true places s index) fun a slots =>
    placeReusing env idle inst false places (within s a slots) index := by
  unfold placeReusing
  refine Quiet.pureBind (fun _ _ => rfl) fun operand => Quiet.pureBind (fun _ _ => rfl) fun at_ => ?_
  split
  · refine Quiet.pureBind (fun _ _ => rfl) fun source => ?_
    split
    · refine Quiet.pureBind (fun _ _ => rfl) fun source => Quiet.pureBind (fun _ _ => rfl) fun at_ => ?_
      exact push_quiet s index operand _ at_
    · exact (readInto_quiet s operand.cls).bind fun t => push_quiet t.2 index operand _ t.1
  · exact Quiet.ok rfl rfl fun a slots _ => rfl

theorem copyReused_quiet : Quiet s (copyReused s index) fun a slots => copyReused (within s a slots) index := by
  unfold copyReused
  refine Quiet.pureBind (fun _ _ => rfl) fun operand => ?_
  split
  · refine Quiet.pureBind (fun _ _ => rfl) fun source => ?_
    split
    · exact Quiet.ok rfl rfl fun a slots _ => rfl
    · refine Quiet.pureBind (fun _ _ => rfl) fun to_ => Quiet.pureBind (fun _ _ => rfl) fun from_ => ?_
      exact Quiet.ok rfl rfl fun a slots _ => rfl
  · exact Quiet.ok rfl rfl fun a slots _ => rfl

theorem passes_quiet : Quiet s (passes env idle inst true operands places s) fun a slots =>
    passes env idle inst false operands places (within s a slots) := by
  refine (Quiet.foldlM (fun s one => placeOperand_quiet s operands places one) _ s).bind fun s => ?_
  refine (Quiet.foldlM (fun s one => placeReusing_quiet s places one) s.reusing s).bind fun s => ?_
  exact Quiet.foldlM copyReused_quiet _ s

end Passes

/-- A probe that takes no slot leaves the assignment, and with an assignment of the same places the rewrite neither
stops nor takes a slot. -/
theorem probe_spec {f : Func} {a copy : Assignment} (h : probe f a env idle inst = .ok (false, copy)) :
    copy = a ∧ ∀ (b : Assignment) (spare : Spare), b.places = a.places →
      ∃ legal scratch, instruction f b env spare idle inst = .ok (legal, scratch) ∧ scratch.assignment = b := by
  unfold probe legalize at h
  unfold instruction legalize
  generalize f.operands inst.1 inst.2 = operands at h ⊢
  have hplaces (b : Assignment) (hb : b.places = a.places) :
      operands.mapM (fun operand => place b operand.reg) = operands.mapM fun operand => place a operand.reg := by
    simp only [fun reg => place_congr hb reg]
  cases hmap : operands.mapM fun operand => place a operand.reg with
  | error stop =>
    rw [hmap] at h
    cases h
  | ok places =>
    have hquiet : Quiet (begin operands places a []) (passes env idle inst true operands places _) _ :=
      passes_quiet _ operands places
    rw [hmap] at h
    change ((passes env idle inst true operands places _ >>= _) >>= _) = _ at h
    cases hrun : passes env idle inst true operands places (begin operands places a []) with
    | error stop =>
      rw [hrun] at h
      cases h
    | ok s =>
      rw [hrun] at h
      change Except.ok (s.scratch.spare.any fun slots => !slots.isEmpty, s.scratch.assignment) = _ at h
      obtain ⟨hnone, hcopy⟩ := Prod.mk.inj (Except.ok.inj h)
      obtain ⟨hsame, -, hreal⟩ := (hquiet s hrun).2 fun hborrowed => Bool.false_ne_true (hnone.symm.trans hborrowed)
      refine ⟨hcopy.symm.trans hsame, fun b spare hb => ⟨finish s, within s.scratch b spare, ?_, rfl⟩⟩
      have hreal := hreal b spare hb
      rw [hplaces b hb, hmap]
      show (passes env idle inst false operands places (begin operands places b spare) >>= _) = _
      change passes env idle inst false operands places (begin operands places b spare) = _ at hreal
      rw [hreal]
      rfl

end

end Rucc.Regalloc.Legalize
