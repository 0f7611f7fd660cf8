import Rucc.Regalloc.Check
import Rucc.Regalloc.RewriteEdges

/-!
# An assignment that fits is written down

Where `fits` answers yes, of an assignment that goes with the environment, the rewrite takes no slot for a register
borrowed of a class that holds one back, stops for want of a register only at an instruction that leaves nothing to
borrow of a class that holds two back or more, and keeps the register that breaks a cycle on an edge while it is read.

What `fits` does not ask is shown by four functions. The allocation checker knows no environment, so it accepts an
assignment that keeps a value in a register held back, or in a slot of another class.
-/

namespace Rucc.Regalloc.Rewrite

open Mir Legalize

variable {f : Func} {a : Assignment} {env : Env} {order : Order} {live : Live}

variable {α : Type} {l : List α} {b : ℕ}

theorem allM_eq_true {p : α → Except Stop Bool} (h : l.allM p = .ok true) : ∀ x ∈ l, p x = .ok true := by
  induction l with
  | nil => exact fun x hx => absurd hx List.not_mem_nil
  | cons first rest ih =>
    unfold List.allM at h
    cases hfirst : p first with
    | error stop =>
      rw [hfirst] at h
      cases h
    | ok yes =>
      rw [hfirst] at h
      cases yes with
      | false => cases h
      | true =>
        intro x hx
        obtain rfl | hx := List.mem_cons.1 hx
        · exact hfirst
        · exact ih h x hx

/-! ## What fits says -/

/-- Nothing is on the stack in a class that holds no register back, and every edge fits. -/
theorem fitsOnEdges_spec (h : fitsOnEdges f a env = .ok true) :
    (∀ number slot cls, a.place (.virtualReg number) = some (.slot slot) → a.slots[slot]? = some cls →
      env.scratch cls ≠ []) ∧
    ∀ b ∈ f.layout, ∀ call ∈ (f.block b).succs, ∀ param ∈ (f.block call.block).params,
      (env.scratch param.cls).length < 2 →
        edgeFits a env (f.block call.block).params call.args param.cls = .ok true := by
  unfold fitsOnEdges at h
  dsimp only at h
  split at h
  · cases h
  · rename_i hstacked
    rw [Bool.not_eq_true, List.any_eq_false] at hstacked
    refine ⟨fun number slot cls hplace hslot hbare => ?_, fun b hb call hcall param hparam hshort => ?_⟩
    · refine hstacked (.virtualReg number, .slot slot) ?_ ?_
      · unfold Assignment.placed
        rw [List.mem_filterMap]
        exact ⟨(some (.slot slot), number), List.mem_zipIdx_iff_getElem?.2 (Option.join_eq_some_iff.1 hplace), rfl⟩
      · show (a.slots[slot]?.any fun cls => (env.scratch cls).isEmpty) = true
        rw [hslot]
        exact List.isEmpty_iff.2 hbare
    · have hcall := allM_eq_true (allM_eq_true h b hb) call hcall
      refine allM_eq_true hcall param.cls ?_
      unfold classesOf
      rw [List.mem_dedup, List.mem_insertionSort]
      exact List.mem_map_of_mem (List.mem_filter.2 ⟨hparam, decide_eq_true hshort⟩)

/-- An instruction that is not asked about, or that borrows nothing with something put away. -/
def Asked (f : Func) (a : Assignment) (env : Env) (idle : Idle) (inst : Inst) : Prop :=
  (∃ count, stacked a env (f.operands inst.1 inst.2) = .ok count ∧
    (count = 0 ∨ count = 1 ∧ named env (f.operands inst.1 inst.2) = false)) ∨
  ∃ copy, probe f a env idle inst = .ok (false, copy)

theorem borrowersFrom_spec {idle : Idle} {insts : List Inst}
    (h : borrowersFrom f a env idle (fun _ _ => (true, false)) insts false a = .ok false) :
    ∀ inst ∈ insts, Asked f a env idle inst := by
  induction insts with
  | nil => exact fun inst hin => absurd hin List.not_mem_nil
  | cons inst rest ih =>
    rw [borrowersFrom] at h
    have hboth (hone : Asked f a env idle inst)
        (hrest : borrowersFrom f a env idle (fun _ _ => (true, false)) rest false a = .ok false) :
        ∀ other ∈ inst :: rest, Asked f a env idle other := by
      intro other hin
      obtain rfl | hin := List.mem_cons.1 hin
      · exact hone
      · exact ih hrest other hin
    cases hcount : stacked a env (f.operands inst.1 inst.2) with
    | error stop =>
      rw [hcount] at h
      cases h
    | ok count =>
      rw [hcount] at h
      change (if _ then _ else _) = _ at h
      split at h
      · rename_i hfew
        exact hboth (Or.inl ⟨count, hcount, hfew⟩) h
      · cases hprobe : probe f a env idle inst with
        | error stop =>
          rw [hprobe] at h
          cases h
        | ok answer =>
          obtain ⟨yes, copy⟩ := answer
          rw [hprobe] at h
          cases yes with
          | true => cases h
          | false =>
            -- a probe that takes no slot leaves the copy as it was
            obtain ⟨rfl, -⟩ := probe_spec hprobe
            exact hboth (Or.inr ⟨copy, hprobe⟩) h

theorem borrows_spec (h : borrows f a env order live = .ok false) :
    a.slots.any (short env) = false ∨ ∀ inst ∈ f.allInsts, Asked f a env (Idle.of f a order live) inst := by
  unfold borrows borrowers at h
  split at h
  · exact Or.inr (borrowersFrom_spec h)
  · exact Or.inl (Bool.eq_false_of_not_eq_true ‹_›)

theorem fits_spec (h : fits f a env order live = .ok true) :
    fitsOnEdges f a env = .ok true ∧ borrows f a env order live = .ok false := by
  unfold fits at h
  cases hedges : fitsOnEdges f a env with
  | error stop =>
    rw [hedges] at h
    cases h
  | ok yes =>
    rw [hedges] at h
    cases yes with
    | false => cases h
    | true =>
      refine ⟨rfl, ?_⟩
      cases hborrows : borrows f a env order live with
      | error stop =>
        rw [hborrows] at h
        cases h
      | ok any =>
        rw [hborrows] at h
        cases any with
        | true => cases h
        | false => rfl

/-! ## The instructions -/

theorem mapM_filter {β : Type} {g : α → Except Stop β} (p : α → Bool) {l' : List β} (h : l.mapM g = .ok l') :
    (l.filter p).mapM g = .ok (((l.zip l').filter fun one => p one.1).map Prod.snd) := by
  induction l generalizing l' with
  | nil => rfl
  | cons first rest ih =>
    rw [List.mapM_cons] at h
    cases hfirst : g first with
    | error stop =>
      rw [hfirst] at h
      cases h
    | ok y =>
      cases hrest : rest.mapM g with
      | error stop =>
        rw [hfirst, hrest] at h
        cases h
      | ok ys =>
        rw [hfirst, hrest] at h
        cases h
        rw [List.zip_cons_cons]
        by_cases hp : p first = true
        · rw [List.filter_cons_of_pos hp, List.filter_cons_of_pos (by exact hp), List.mapM_cons, hfirst, ih hrest]
          rfl
        · rw [List.filter_cons_of_neg hp, List.filter_cons_of_neg (by exact hp), ih hrest]

/-- How many operands are counted is how many want a register of a class that holds one back. -/
theorem stacked_eq {operands : List Operand} {places : List Place} {count : ℕ}
    (hmap : operands.mapM (fun operand => place a operand.reg) = .ok places) (h : stacked a env operands = .ok count) :
    (operands.zip places).countP (wanting env) = count := by
  unfold stacked at h
  rw [mapM_filter _ hmap] at h
  rw [← Except.ok.inj h, List.countP_map, List.countP_filter]
  refine List.countP_congr fun one _ => ?_
  unfold wanting
  rw [Bool.and_comm]
  rfl

/-- One instruction of a function that fits. -/
theorem instruction_fits (hsuits : Suits env f a) (hfits : fits f a env order live = .ok true) {inst : Inst}
    (hin : inst ∈ f.allInsts) {s : Rewriting} (hs : Grown env a s.assignment) :
    Post (Stop.Short env) (instruction f env (Idle.of f a order live) (savesAt f a) s inst) fun t =>
      Grown env a t.assignment := by
  obtain ⟨hedges, hborrows⟩ := fits_spec hfits
  have hplace (reg : Reg) : place s.assignment reg = place a reg := place_congr hs.1 reg
  have hstack {operand : Operand} (hoperand : operand ∈ f.operands inst.1 inst.2) {slot : ℕ}
      (h : place a operand.reg = .ok (.slot slot)) :
      a.slots[slot]? = some operand.cls ∧ env.scratch operand.cls ≠ [] := by
    have hat := slot_of_place h
    have hslot := inSlot_of (hsuits.operand hoperand).2 hat
    refine ⟨hslot, ?_⟩
    cases hreg : operand.reg with
    | physical at_ =>
      rw [hreg] at hat
      cases hat
    | virtualReg number =>
      rw [hreg] at hat
      exact (fitsOnEdges_spec hedges).1 number slot operand.cls hat hslot
  have hlegal : Post (Stop.Short env) (Legalize.instruction f s.assignment env s.spare (Idle.of f a order live) inst)
      fun t => Grown env a t.2.assignment := by
    by_cases hprobe : ∃ copy, probe f a env (Idle.of f a order live) inst = .ok (false, copy)
    · obtain ⟨copy, hprobe⟩ := hprobe
      obtain ⟨legal, scratch, heq, hsame⟩ := (probe_spec hprobe).2 s.assignment s.spare hs.1
      rw [heq]
      show Grown env a scratch.assignment
      rwa [hsame]
    · refine (instruction_post (fun operand hoperand slot hat => ?_) (fun operand hoperand at_ hat => ?_)
        fun places hmap => ?_).mono fun t ht => hs.trans ht
      · rw [hplace] at hat
        exact (hstack hoperand hat).2
      · refine hsuits.held hoperand ?_
        unfold Assignment.place at hat ⊢
        rwa [hs.1] at hat
      · simp only [hplace] at hmap
        obtain hnone | hasked := borrows_spec hborrows
        · -- no slot is of a class that holds one register back
          refine Or.inl (List.countP_eq_zero.2 fun one hone hwanting => ?_)
          obtain ⟨hshort, hslot⟩ := (Bool.and_eq_true _ _).mp hwanting
          obtain ⟨i, hi⟩ := List.getElem?_of_mem hone
          obtain ⟨hoperand, hat⟩ := List.getElem?_zip_eq_some.1 hi
          obtain ⟨at_, hplaced, hat'⟩ := (getElem?_of_mapM hmap).2 i one.1 hoperand
          obtain rfl := Option.some.inj (hat.symm.trans hat')
          cases hcase : one.2 with
          | reg at_ =>
            rw [hcase] at hslot
            cases hslot
          | slot slot =>
            rw [hcase] at hplaced
            have hcls := (hstack (List.mem_of_getElem? hoperand) hplaced).1
            exact absurd hshort (List.any_eq_false.1 hnone _ (List.mem_of_getElem? hcls))
        · obtain ⟨count, hcount, hfew⟩ := (hasked inst hin).resolve_right hprobe
          rw [stacked_eq hmap hcount]
          exact hfew
  unfold instruction
  exact hlegal.bind fun t ht => ht

/-! ## The edges -/

theorem ordered_congr {b : Assignment} (h : b.places = a.places) (params : List Param) (args : List Reg)
    (cls : RegClass) : ordered b env params args cls = ordered a env params args cls := by
  unfold ordered parallel
  simp only [fun reg => place_congr h reg]

theorem edges_congr {b : Assignment} (h : b.places = a.places) (block : ℕ) : edges f b env block = edges f a env block := by
  unfold edges edgeOf edge edgeClass
  simp only [fun params args cls => @ordered_congr a env b h params args cls]

/-- One class of an edge of a function that fits. -/
theorem edge_fits (hsuits : Suits env f a) (hedges : fitsOnEdges f a env = .ok true) (hb : b ∈ f.layout)
    {call : BlockCall} (hcall : call ∈ (f.block b).succs) {cls : RegClass} {moves : List (Move (Option Place))}
    (horder : ordered a env (f.block call.block).params call.args cls = .ok moves) : Fitting env cls moves := by
  obtain ⟨hstacked, hclasses⟩ := fitsOnEdges_spec hedges
  by_cases hnone : ∃ param ∈ (f.block call.block).params, param.cls = cls
  · obtain ⟨param, hparam, rfl⟩ := hnone
    refine fitting_of_fits (hsuits.distinct _) (fun other hother hcls slot hat => ?_)
      (hclasses b hb call hcall param hparam) horder
    have hplace := slot_of_place hat
    have hslot := inSlot_of (hsuits.param hother) hplace
    rw [hcls] at hslot
    cases hreg : other.reg with
    | physical at_ =>
      rw [hreg] at hplace
      cases hplace
    | virtualReg number =>
      rw [hreg] at hplace
      exact hstacked number slot _ hplace hslot
  · -- no move is of a class that no parameter is of
    obtain ⟨given, hgiven, hsequence⟩ := ordered_post.of_ok horder
    have hnil : given = [] := by
      refine List.eq_nil_iff_forall_not_mem.2 fun mov hmov => ?_
      obtain ⟨_, _, -, param, hparam, hcls, -⟩ := hgiven mov hmov
      exact hnone ⟨param, hparam, hcls⟩
    subst hnil
    obtain rfl : [] = moves := Option.some.inj hsequence
    refine ⟨fun mov hin => absurd hin List.not_mem_nil, fun mov hin => absurd hin List.not_mem_nil, ?_⟩
    exact fun index to_ from_ hat => absurd hat.symm (Option.some_ne_none _)

theorem edges_fit (hsuits : Suits env f a) (hedges : fitsOnEdges f a env = .ok true) (hb : b ∈ f.layout) :
    Post (Stop.Short env) (edges f a env b) fun _ => True := by
  unfold edges
  refine (Post.mapM (Q := fun _ => True) fun call hcall => ?_).bind fun _ _ => trivial
  unfold edgeOf
  dsimp only
  split
  · exact fun h => Bool.false_ne_true h.1
  · split
    · trivial
    · split
      · refine (Post.mapM (Q := fun _ => True) fun cls _ => ?_).bind fun _ _ => trivial
        exact edgeClass_post _ fun moves horder => edge_fits hsuits hedges hb hcall horder
      · exact fun h => Bool.false_ne_true h.1

/-! ## The rewrite -/

theorem rewrite_post (hsuits : Suits env f a) (hfits : fits f a env order live = .ok true) :
    Post (Stop.Short env) (rewrite f a env order live) fun out => Grown env a out.assignment := by
  unfold rewrite
  split
  · refine (Post.foldlM (I := fun rest (s : Rewriting) => (∀ inst ∈ rest, inst ∈ f.allInsts) ∧ Grown env a s.assignment)
      ⟨fun _ => id, Grown.refl a⟩ fun inst rest s ⟨hin, hs⟩ => ?_).bind fun s ⟨_, hs⟩ => ?_
    · refine (instruction_fits hsuits hfits (hin inst List.mem_cons_self) hs).mono fun t ht => ?_
      exact ⟨fun other hother => hin other (List.mem_cons_of_mem _ hother), ht⟩
    · refine (Post.foldlM (I := fun _ _ => True) trivial fun b _ edits _ => ?_).bind fun edits _ => ?_
      · unfold behindTheEnd
        dsimp only
        split
        · trivial
        · split
          · trivial
          · exact fun h => Bool.false_ne_true h.1
      · refine (Post.mapM (Q := fun _ => True) fun b hb => ?_).bind fun moves _ => hs
        rw [edges_congr hs.1]
        exact edges_fit hsuits (fits_spec hfits).1 hb
  · exact fun h => Bool.false_ne_true h.1

/-- Where an assignment that goes with the environment fits, the rewrite is short of a register only where a class that
holds two back or more has nothing left to borrow, every slot it takes is of such a class, and on every edge a value
goes from one slot to another through a register that no cycle is holding. -/
theorem rewrite_fits (hsuits : Suits env f a) (hfits : fits f a env order live = .ok true) :
    (∀ stop, rewrite f a env order live = .error stop → stop.wants = true →
      ∃ cls, stop = .nothingToBorrow cls ∧ 2 ≤ (env.scratch cls).length) ∧
    (∀ out, rewrite f a env order live = .ok out → ∃ new, out.assignment.slots = a.slots ++ new ∧
      ∀ cls ∈ new, 2 ≤ (env.scratch cls).length) ∧
    ∀ b ∈ f.layout, ∀ call ∈ (f.block b).succs, ∀ cls moves,
      ordered a env (f.block call.block).params call.args cls = .ok moves →
        ∀ index to_ from_, moves[index]? = some ⟨some (.slot to_), some (.slot from_)⟩ →
          ∃ at_, expand env cls moves ⟨some (.slot to_), some (.slot from_)⟩ index =
              .ok [⟨.reg at_, .slot from_⟩, ⟨.slot to_, .reg at_⟩] ∧
            (cycle env cls = some (.reg at_) → ¬Held moves index (cycle env cls)) := by
  have hpost := rewrite_post hsuits hfits
  refine ⟨fun stop hstop hwants => ?_, fun out hout => (hpost.of_ok hout).2,
    fun b hb call hcall cls moves horder index to_ from_ hat => ?_⟩
  · by_contra hno
    refine hpost.not_bad hstop ⟨hwants, fun cls hcls => ?_⟩
    by_contra hmany
    exact hno ⟨cls, hcls, not_lt.1 hmany⟩
  · obtain ⟨at_, hthrough, hheld⟩ := (edge_fits hsuits (fits_spec hfits).1 hb hcall horder).slots index to_ from_ hat
    refine ⟨at_, ?_, hheld⟩
    unfold expand
    dsimp only
    rw [hthrough]

/-! ## What it does not ask -/

/-- An instruction that names every register that may be handed out, and reads three values on the stack. -/
def everyNamed : Func where
  classes := [0, 0, 0]
  blocks := [⟨[], [[⟨.virtualReg 0, 0, .define, .reg⟩], [⟨.virtualReg 1, 0, .define, .reg⟩],
    [⟨.virtualReg 2, 0, .define, .reg⟩],
    [⟨.physical 0, 0, .use, .reg⟩, ⟨.virtualReg 0, 0, .use, .reg⟩, ⟨.virtualReg 1, 0, .use, .reg⟩,
      ⟨.virtualReg 2, 0, .use, .reg⟩]], []⟩]
  layout := [0]
  classes_lt := by decide
  layout_perm := by decide
  succs_lt := by decide

/-- An instruction that reads a value in a register and one on the stack, over a third. -/
def threeValues : Func where
  classes := [0, 0, 0]
  blocks := [⟨[], [[⟨.virtualReg 0, 0, .define, .reg⟩], [⟨.virtualReg 1, 0, .define, .reg⟩],
    [⟨.virtualReg 2, 0, .define, .reg⟩],
    [⟨.virtualReg 0, 0, .use, .reg⟩, ⟨.virtualReg 1, 0, .use, .reg⟩],
    [⟨.virtualReg 2, 0, .use, .reg⟩]], []⟩]
  layout := [0]
  classes_lt := by decide
  layout_perm := by decide
  succs_lt := by decide

/-- An edge that carries two values. -/
def twoCarried : Func where
  classes := [0, 0, 0, 0]
  blocks := [
    ⟨[], [[⟨.virtualReg 0, 0, .define, .reg⟩], [⟨.virtualReg 1, 0, .define, .reg⟩]],
      [⟨1, [.virtualReg 0, .virtualReg 1]⟩]⟩,
    ⟨[⟨.virtualReg 2, 0⟩, ⟨.virtualReg 3, 0⟩],
      [[⟨.virtualReg 2, 0, .use, .reg⟩], [⟨.virtualReg 3, 0, .use, .reg⟩]], []⟩]
  layout := [0, 1]
  classes_lt := by decide
  layout_perm := by decide
  succs_lt := by decide

/-- The checker finds nothing wrong with an assignment of a function without critical edges, and it fits. -/
def AcceptedAndFits (f : Func) (a : Assignment) (env : Env) : Prop :=
  Check.check f (Order.of f) (Live.of f (Order.of f)) (fun _ => none) a = some [] ∧ Uncritical f ∧
    fits f a env (Order.of f) (Live.of f (Order.of f)) = .ok true

instance (f : Func) (a : Assignment) (env : Env) : Decidable (AcceptedAndFits f a env) := by
  unfold AcceptedAndFits
  infer_instance

/-- The rewrite by the order and the liveness of the function. -/
def rewritten (f : Func) (a : Assignment) (env : Env) : Except Stop Rewritten :=
  rewrite f a env (Order.of f) (Live.of f (Order.of f))

/-- Of four assignments that are accepted and fit, one leaves nothing to borrow of a class that holds two registers
back; one keeps a value in the register held back, and a slot is taken for another one that is borrowed; one has values
in slots of another class, and there is nothing to read them into; and one holds the same register back twice, and the
edge that swaps two slots overwrites it while it is breaking the cycle. -/
theorem accepted_falls_short :
    (AcceptedAndFits everyNamed ⟨[some (.slot 0), some (.slot 1), some (.slot 2)], [0, 0, 0], []⟩
        (Env.new.with_ 0 [0] [1, 2]) ∧
      rewritten everyNamed ⟨[some (.slot 0), some (.slot 1), some (.slot 2)], [0, 0, 0], []⟩
        (Env.new.with_ 0 [0] [1, 2]) = .error (.nothingToBorrow 0)) ∧
    (AcceptedAndFits threeValues ⟨[some (.reg 1), some (.slot 0), some (.reg 0)], [0], []⟩ (Env.new.with_ 0 [0] [1]) ∧
      (rewritten threeValues ⟨[some (.reg 1), some (.slot 0), some (.reg 0)], [0], []⟩
        (Env.new.with_ 0 [0] [1])).map (fun out => out.assignment.slots) = .ok [0, 0]) ∧
    (AcceptedAndFits twoCarried ⟨[some (.slot 0), some (.slot 1), some (.slot 2), some (.slot 3)], [1, 1, 1, 1], []⟩
        (Env.new.with_ 1 [] [0, 1]) ∧
      rewritten twoCarried ⟨[some (.slot 0), some (.slot 1), some (.slot 2), some (.slot 3)], [1, 1, 1, 1], []⟩
        (Env.new.with_ 1 [] [0, 1]) = .error (.nothingToBorrow 0)) ∧
    (AcceptedAndFits twoCarried ⟨[some (.slot 0), some (.slot 1), some (.slot 1), some (.slot 0)], [0, 0], []⟩
        (Env.new.with_ 0 [] [1, 1]) ∧
      ((rewritten twoCarried ⟨[some (.slot 0), some (.slot 1), some (.slot 1), some (.slot 0)], [0, 0], []⟩
        (Env.new.with_ 0 [] [1, 1])).map fun out =>
          (out.edits.filter fun edit => edit.at_ = .endOf 0).map Edit.mov) =
        .ok [⟨.reg 1, .slot 0⟩, ⟨.reg 1, .slot 1⟩, ⟨.slot 0, .reg 1⟩, ⟨.slot 1, .reg 1⟩]) := by
  refine ⟨⟨?_, ?_⟩, ⟨?_, ?_⟩, ⟨?_, ?_⟩, ?_, ?_⟩
  all_goals decide +kernel

/-- The edge swaps two slots through the second register, as the first is breaking the cycle. -/
theorem rewrite_fits_swap : ∃ at_,
    expand ⟨fun _ => [], fun _ => [1, 2]⟩ 0
        [⟨some (.reg 1), some (.slot 0)⟩, ⟨some (.slot 0), some (.slot 1)⟩, ⟨some (.slot 1), some (.reg 1)⟩]
        ⟨some (.slot 0), some (.slot 1)⟩ 1 = .ok [⟨.reg at_, .slot 1⟩, ⟨.slot 0, .reg at_⟩] ∧
      (cycle ⟨fun _ => [], fun _ => [1, 2]⟩ 0 = some (.reg at_) → ¬Held
        [⟨some (.reg 1), some (.slot 0)⟩, ⟨some (.slot 0), some (.slot 1)⟩, ⟨some (.slot 1), some (.reg 1)⟩] 1
        (cycle ⟨fun _ => [], fun _ => [1, 2]⟩ 0)) := by
  have hsuits : Suits ⟨fun _ => [], fun _ => [1, 2]⟩ twoCarried
      ⟨[some (.slot 0), some (.slot 1), some (.slot 1), some (.slot 0)], [0, 0], []⟩ :=
    ⟨fun _ => (by decide : ([1, 2] : List PhysReg).Nodup), by decide, by decide⟩
  have hfits : fits twoCarried ⟨[some (.slot 0), some (.slot 1), some (.slot 1), some (.slot 0)], [0, 0], []⟩
      ⟨fun _ => [], fun _ => [1, 2]⟩ (Order.of twoCarried) (Live.of twoCarried (Order.of twoCarried)) = .ok true := by
    decide +kernel
  exact (rewrite_fits hsuits hfits).2.2 0 (by decide) ⟨1, [.virtualReg 0, .virtualReg 1]⟩ (by decide) 0 _
    (by decide +kernel) 1 0 1 rfl

end Rucc.Regalloc.Rewrite
