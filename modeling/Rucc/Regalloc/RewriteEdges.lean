import Rucc.Regalloc.LegalizeFew
import Rucc.Regalloc.MovesCorrect

/-!
# The moves of an edge that fits

The order of an edge's moves names the places they are between, and the place a cycle is broken with, which it reads
where it writes it. So an edge that fits asks for no register its class does not hold back, and a value that goes from
one slot to another goes through a register that no cycle is holding.
-/

namespace Rucc.Regalloc

open Mir

/-! ## What the order of some moves names -/

section

variable {T : Type*} [DecidableEq T] {scratch : T}

variable {I : List (Move T) → List (Move T) → Prop} {one : Move T}

/-- What the rounds of the loop keep. -/
theorem sequenceFrom_keeps
    (hgo : ∀ before one after order, I (before ++ one :: after) order → I (before ++ after) (order ++ [one]))
    (hcut : ∀ first rest order, I (first :: rest) order →
      I (broken (first :: rest) scratch first.from_) (order ++ [⟨scratch, first.from_⟩]))
    {rounds : ℕ} {pending order result : List (Move T)} (h : sequenceFrom scratch rounds pending order = some result)
    (hI : I pending order) : I [] result := by
  induction rounds generalizing pending order with
  | zero =>
    cases pending with
    | nil =>
      rw [sequenceFrom] at h
      rwa [← Option.some.inj h]
    | cons first rest => exact absurd h.symm (Option.some_ne_none _)
  | succ rounds ih =>
    cases pending with
    | nil =>
      rw [sequenceFrom] at h
      rwa [← Option.some.inj h]
    | cons first rest =>
      rw [sequenceFrom] at h
      cases hready : ready (first :: rest) with
      | some index =>
        obtain ⟨before, one, after, hsplit, hat, herase, -⟩ := ready_spec hready
        rw [hready] at h
        dsimp only at h
        rw [hat, herase] at h
        exact ih h (hgo before one after order (hsplit ▸ hI))
      | none =>
        rw [hready] at h
        exact ih h (hcut first rest order hI)

variable {rounds : ℕ} {moves result : List (Move T)}

theorem sequence_keeps
    (hgo : ∀ before one after order, I (before ++ one :: after) order → I (before ++ after) (order ++ [one]))
    (hcut : ∀ first rest order, I (first :: rest) order →
      I (broken (first :: rest) scratch first.from_) (order ++ [⟨scratch, first.from_⟩]))
    (h : sequence rounds moves scratch = some result) (hI : I (moves.filter fun one => one.to_ ≠ one.from_) []) :
    I [] result := by
  unfold sequence at h
  dsimp only at h
  split at h
  · exact sequenceFrom_keeps hgo hcut h hI
  · exact absurd h.symm (Option.some_ne_none _)

/-- Each move of the order is from the scratch or the source of a move, and to the scratch or the destination of one. -/
theorem sequence_names (h : sequence rounds moves scratch = some result) (hin : one ∈ result) :
    (one.to_ = scratch ∨ ∃ move ∈ moves, move.to_ = one.to_) ∧
      (one.from_ = scratch ∨ ∃ move ∈ moves, move.from_ = one.from_) := by
  refine (sequence_keeps (I := fun pending order => ∀ one ∈ order ++ pending,
    (one.to_ = scratch ∨ ∃ move ∈ moves, move.to_ = one.to_) ∧
      (one.from_ = scratch ∨ ∃ move ∈ moves, move.from_ = one.from_)) ?_ ?_ h ?_) one (by rwa [List.append_nil])
  · intro before one after order hI other hother
    refine hI other ?_
    simp only [List.mem_append, List.mem_cons, List.not_mem_nil, or_false] at hother ⊢
    tauto
  · intro first rest order hI other hother
    have hfirst := hI first (List.mem_append_right _ List.mem_cons_self)
    obtain hother | hother := List.mem_append.1 hother
    · obtain hother | hother := List.mem_append.1 hother
      · exact hI other (List.mem_append_left _ hother)
      · rw [List.mem_singleton.1 hother]
        exact ⟨Or.inl rfl, hfirst.2⟩
    · obtain ⟨another, hin, -, rfl⟩ | ⟨hin, -⟩ := mem_broken.1 hother
      · exact ⟨(hI another (List.mem_append_right _ hin)).1, Or.inl rfl⟩
      · exact hI other (List.mem_append_right _ hin)
  · intro other hother
    have hin := (List.mem_filter.1 hother).1
    exact ⟨Or.inr ⟨other, hin, rfl⟩, Or.inr ⟨other, hin, rfl⟩⟩

/-- An order that writes the scratch reads it. -/
theorem sequence_reads (hto : ∀ move ∈ moves, move.to_ ≠ scratch) (h : sequence rounds moves scratch = some result)
    (hin : one ∈ result) (hone : one.to_ = scratch) : ∃ other ∈ result, other.from_ = scratch := by
  have hkept : (∀ one ∈ ([] : List (Move T)), one.to_ ≠ scratch) ∧
      ∀ one ∈ result, one.to_ = scratch → ∃ other ∈ result ++ [], other.from_ = scratch := by
    refine sequence_keeps (I := fun pending order => (∀ one ∈ pending, one.to_ ≠ scratch) ∧
      ∀ one ∈ order, one.to_ = scratch → ∃ other ∈ order ++ pending, other.from_ = scratch) ?_ ?_ h ?_
    · intro before one after order ⟨hpending, horder⟩
      have hone : one.to_ ≠ scratch := hpending one (by simp)
      refine ⟨fun other hother => hpending other (by simp only [List.mem_append, List.mem_cons] at hother ⊢; tauto), ?_⟩
      intro other hother heq
      obtain hother | hother := List.mem_append.1 hother
      · obtain ⟨reader, hreader, hreads⟩ := horder other hother heq
        refine ⟨reader, ?_, hreads⟩
        simp only [List.mem_append, List.mem_cons, List.not_mem_nil, or_false] at hreader ⊢
        tauto
      · rw [List.mem_singleton.1 hother] at heq
        exact absurd heq hone
    · intro first rest order ⟨hpending, _⟩
      refine ⟨fun other hother => ?_, fun _ _ _ => ⟨{ first with from_ := scratch }, ?_, rfl⟩⟩
      · obtain ⟨another, hin, -, rfl⟩ | ⟨hin, -⟩ := mem_broken.1 hother
        · exact hpending another hin
        · exact hpending other hin
      · exact List.mem_append_right _ (mem_broken.2 (Or.inl ⟨first, List.mem_cons_self, rfl, rfl⟩))
    · exact ⟨fun one hin => hto one (List.mem_filter.1 hin).1, fun one hin => absurd hin List.not_mem_nil⟩
  obtain ⟨other, hother, hreads⟩ := hkept.2 one hin hone
  rw [List.append_nil] at hother
  exact ⟨other, hother, hreads⟩

end

/-! ## An edge that fits -/

namespace Rewrite

variable {env : Env} {f : Func} {a : Assignment}

variable {b slot : ℕ} {reg : Reg}

/-- The register a value is in is not one that is held back for its class. -/
def handed (env : Env) (a : Assignment) (reg : Reg) (cls : RegClass) : Bool :=
  match a.place reg with
  | some (.reg at_) => at_ ∉ env.scratch cls
  | _ => true

/-- The slot a value is in is one of its class. -/
def inSlot (a : Assignment) (reg : Reg) (cls : RegClass) : Bool :=
  match a.place reg with
  | some (.slot slot) => a.slots[slot]? = some cls
  | _ => true

/-- A function and its assignment go with an environment: it holds back distinct registers, no instruction has a value
in one of them, and every value on the stack is in a slot of its class. -/
structure Suits (env : Env) (f : Func) (a : Assignment) : Prop where
  distinct : ∀ cls, (env.scratch cls).Nodup
  operands : ∀ data ∈ f.blocks, ∀ operands ∈ data.insts, ∀ operand ∈ operands,
    handed env a operand.reg operand.cls = true ∧ inSlot a operand.reg operand.cls = true
  params : ∀ data ∈ f.blocks, ∀ param ∈ data.params, inSlot a param.reg param.cls = true

theorem block_mem (h : f.block b ≠ ⟨[], [], []⟩) : f.block b ∈ f.blocks := by
  unfold Func.block at h ⊢
  rw [List.getD_eq_getElem?_getD] at h ⊢
  cases hat : f.blocks[b]? with
  | none =>
    rw [hat] at h
    exact absurd rfl h
  | some data => exact List.mem_of_getElem? hat

theorem Suits.operand (h : Suits env f a) {b k : ℕ} {operand : Operand} (hin : operand ∈ f.operands b k) :
    handed env a operand.reg operand.cls = true ∧ inSlot a operand.reg operand.cls = true := by
  unfold Func.operands at hin
  rw [List.getD_eq_getElem?_getD] at hin
  cases hat : (f.block b).insts[k]? with
  | none =>
    rw [hat] at hin
    exact absurd hin List.not_mem_nil
  | some operands =>
    rw [hat] at hin
    have hmem := List.mem_of_getElem? hat
    refine h.operands _ (block_mem fun hnone => ?_) operands hmem operand hin
    rw [hnone] at hmem
    exact absurd hmem List.not_mem_nil

theorem Suits.held (h : Suits env f a) {k : ℕ} {operand : Operand} (hin : operand ∈ f.operands b k) {at_ : PhysReg}
    (hat : a.place operand.reg = some (.reg at_)) : at_ ∉ env.scratch operand.cls := by
  have hhanded := (h.operand hin).1
  unfold handed at hhanded
  rw [hat] at hhanded
  exact of_decide_eq_true hhanded

theorem inSlot_of {cls : RegClass} (h : inSlot a reg cls = true)
    (hat : a.place reg = some (.slot slot)) : a.slots[slot]? = some cls := by
  unfold inSlot at h
  rw [hat] at h
  exact of_decide_eq_true h

theorem Suits.param (h : Suits env f a) {b : ℕ} {param : Param} (hin : param ∈ (f.block b).params) :
    inSlot a param.reg param.cls = true := by
  refine h.params _ (block_mem fun hnone => ?_) param hin
  rw [hnone] at hin
  exact absurd hin List.not_mem_nil

theorem slot_of_place (h : place a reg = .ok (.slot slot)) : a.place reg = some (.slot slot) := by
  unfold place at h
  cases hplace : a.place reg with
  | some at_ =>
    rw [hplace] at h
    rw [Except.ok.inj h]
  | none =>
    rw [hplace] at h
    cases reg with
    | physical at_ => cases h
    | virtualReg number => cases h

/-- A cycle holds a place at a move of an order: it is filled in front of the move, and read no earlier. -/
def Held (order : List (Move (Option Place))) (index : ℕ) (cycle : Option Place) : Prop :=
  (∃ i < index, ∃ mov, order[i]? = some mov ∧ mov.to_ = cycle) ∧
    ∃ i, index ≤ i ∧ ∃ mov, order[i]? = some mov ∧ mov.from_ = cycle

theorem busy_of_held {order : List (Move (Option Place))} {index : ℕ} {cycle : Option Place}
    (h : Held order index cycle) : busy order index cycle = true := by
  obtain ⟨⟨i, hi, mov, hmov, hto⟩, j, hj, mov', hmov', hfrom⟩ := h
  unfold busy
  rw [Bool.and_eq_true, List.any_eq_true, List.any_eq_true]
  refine ⟨⟨mov, ?_, decide_eq_true hto⟩, mov', ?_, decide_eq_true hfrom⟩
  · exact List.mem_of_getElem? ((List.getElem?_take_of_lt hi).trans hmov)
  · refine List.mem_of_getElem? (i := j - index) ?_
    rw [List.getElem?_drop, Nat.add_sub_cancel' hj]
    exact hmov'

/-- What an order of the moves of a class keeps that `fits` asks about. -/
structure Fitting (env : Env) (cls : RegClass) (order : List (Move (Option Place))) : Prop where
  some_to : ∀ mov ∈ order, mov.to_ ≠ none
  some_from : ∀ mov ∈ order, mov.from_ ≠ none
  /-- A value goes through a register from one slot to another, which no cycle is holding. -/
  slots : ∀ index to_ from_, order[index]? = some ⟨some (.slot to_), some (.slot from_)⟩ →
    ∃ at_, through env cls order index = some at_ ∧
      (cycle env cls = some (.reg at_) → ¬Held order index (cycle env cls))

theorem Fitting.expand {cls : RegClass} {order : List (Move (Option Place))} (h : Fitting env cls order)
    {mov : Move (Option Place)} {index : ℕ} (hat : order[index]? = some mov) :
    ∃ moves, expand env cls order mov index = .ok moves := by
  obtain ⟨to_, from_⟩ := mov
  have hin := List.mem_of_getElem? hat
  cases to_ with
  | none => exact absurd rfl (h.some_to _ hin)
  | some to_ =>
    cases from_ with
    | none => exact absurd rfl (h.some_from _ hin)
    | some from_ =>
      cases to_ with
      | reg at_ => exact ⟨_, rfl⟩
      | slot to_ =>
        cases from_ with
        | reg at_ => exact ⟨_, rfl⟩
        | slot from_ =>
          obtain ⟨at_, hthrough, -⟩ := h.slots index to_ from_ hat
          unfold Rewrite.expand
          dsimp only
          rw [hthrough]
          exact ⟨_, rfl⟩

section

variable {params : List Param} {args : List Reg} {cls : RegClass}

variable {order : List (Move (Option Place))}

/-- Each of the moves an edge makes at once is to the place of a parameter of the class. -/
theorem parallel_post : Post (Stop.Short env) (parallel a params args cls) fun moves => ∀ mov ∈ moves,
    ∃ to_ from_, mov = ⟨some to_, some from_⟩ ∧ ∃ param ∈ params, param.cls = cls ∧ place a param.reg = .ok to_ := by
  refine Post.mapM fun one hin => ?_
  obtain ⟨hin, hcls⟩ := List.mem_filter.1 hin
  refine (place_post a one.1.reg).bind fun to_ hto => (place_post a one.2).bind fun from_ _ => ?_
  exact ⟨to_, from_, rfl, one.1, (List.of_mem_zip hin).1, of_decide_eq_true hcls, hto⟩

theorem ordered_post : Post (Stop.Short env) (ordered a env params args cls) fun order =>
    ∃ moves, (∀ mov ∈ moves, ∃ to_ from_, mov = ⟨some to_, some from_⟩ ∧
      ∃ param ∈ params, param.cls = cls ∧ place a param.reg = .ok to_) ∧
        sequence (2 * moves.length + 1) moves (cycle env cls) = some order := by
  refine parallel_post.bind fun moves hmoves => ?_
  cases hsequence : sequence (2 * moves.length + 1) moves (cycle env cls) with
  | some order => exact ⟨moves, hmoves, hsequence⟩
  | none => exact fun h => Bool.false_ne_true h.1

theorem edgeFits_spec (h : edgeFits a env params args cls = .ok true)
    (horder : ordered a env params args cls = .ok order) : (∀ mov ∈ order, mov.from_ ≠ none) ∧
      ∀ index to_ from_, order[index]? = some ⟨some (.slot to_), some (.slot from_)⟩ →
        busy order index (cycle env cls) = false := by
  unfold edgeFits at h
  rw [horder] at h
  have hnone := Except.ok.inj h
  rw [Bool.not_eq_true', List.any_eq_false] at hnone
  refine ⟨fun mov hin hfrom => ?_, fun index to_ from_ hat => ?_⟩
  · obtain ⟨index, hat⟩ := List.getElem?_of_mem hin
    refine hnone (mov, index) (List.mem_zipIdx_iff_getElem?.2 hat) ?_
    obtain ⟨to_, from_⟩ := mov
    obtain rfl : from_ = none := hfrom
    rfl
  · have hone := hnone (⟨some (.slot to_), some (.slot from_)⟩, index) (List.mem_zipIdx_iff_getElem?.2 hat)
    exact Bool.eq_false_of_not_eq_true hone

/-- An edge that fits asks for no more registers than its class holds back. -/
theorem fitting_of_fits (hdistinct : (env.scratch cls).Nodup)
    (hbare : ∀ param ∈ params, param.cls = cls → ∀ slot, place a param.reg = .ok (.slot slot) → env.scratch cls ≠ [])
    (hfits : (env.scratch cls).length < 2 → edgeFits a env params args cls = .ok true)
    (horder : ordered a env params args cls = .ok order) :
    Fitting env cls order := by
  obtain ⟨moves, hmoves, hsequence⟩ := ordered_post.of_ok horder
  have hsome : ∀ mov ∈ moves, mov.to_ ≠ none ∧ mov.from_ ≠ none := by
    intro mov hin
    obtain ⟨to_, from_, rfl, -⟩ := hmoves mov hin
    exact ⟨Option.some_ne_none _, Option.some_ne_none _⟩
  have hnames {mov : Move (Option Place)} (hin : mov ∈ order) :
      (mov.to_ ≠ none ∨ cycle env cls = none) ∧ (mov.from_ ≠ none ∨ cycle env cls = none) := by
    obtain ⟨hto, hfrom⟩ := sequence_names hsequence hin
    constructor
    · obtain heq | ⟨move, hmove, heq⟩ := hto
      · by_cases hnone : cycle env cls = none
        · exact Or.inr hnone
        · exact Or.inl (heq ▸ hnone)
      · exact Or.inl (heq ▸ (hsome move hmove).1)
    · obtain heq | ⟨move, hmove, heq⟩ := hfrom
      · by_cases hnone : cycle env cls = none
        · exact Or.inr hnone
        · exact Or.inl (heq ▸ hnone)
      · exact Or.inl (heq ▸ (hsome move hmove).2)
  match hscratch : env.scratch cls with
  | [] =>
    -- nothing goes round in a cycle, and nothing is on the stack
    have hcycle : cycle env cls = none := by
      unfold cycle
      rw [hscratch]
      rfl
    obtain ⟨hfrom, -⟩ := edgeFits_spec (hfits (by rw [hscratch]; decide)) horder
    refine ⟨fun mov hin hto => ?_, hfrom, fun index to_ from_ hat => ?_⟩
    · have hwritten : ∀ move ∈ moves, move.to_ ≠ cycle env cls := fun move hmove => hcycle ▸ (hsome move hmove).1
      obtain ⟨other, hother, hreads⟩ := sequence_reads hwritten hsequence hin (hto.trans hcycle.symm)
      exact hfrom other hother (hreads.trans hcycle)
    · obtain ⟨heq | ⟨move, hmove, heq⟩, -⟩ := sequence_names hsequence (List.mem_of_getElem? hat)
      · exact absurd (heq.trans hcycle) (Option.some_ne_none _)
      · obtain ⟨to', from', rfl, param, hparam, hcls, hplace⟩ := hmoves move hmove
        obtain rfl : to' = .slot to_ := Option.some.inj heq
        exact absurd hscratch (hbare param hparam hcls to_ hplace)
  | [only] =>
    have hcycle : cycle env cls = some (.reg only) := by
      unfold cycle
      rw [hscratch]
      rfl
    have hne : cycle env cls ≠ none := hcycle ▸ Option.some_ne_none _
    obtain ⟨hfrom, hbusy⟩ := edgeFits_spec (hfits (by rw [hscratch]; simp)) horder
    refine ⟨fun mov hin => (hnames hin).1.resolve_right hne, hfrom, fun index to_ from_ hat => ?_⟩
    have hfree := hbusy index to_ from_ hat
    refine ⟨only, ?_, fun _ hheld => Bool.false_ne_true (hfree.symm.trans (busy_of_held hheld))⟩
    unfold through
    rw [hscratch, hfree]
    rfl
  | first :: second :: rest =>
    have hcycle : cycle env cls = some (.reg first) := by
      unfold cycle
      rw [hscratch]
      rfl
    have hne : cycle env cls ≠ none := hcycle ▸ Option.some_ne_none _
    refine ⟨fun mov hin => (hnames hin).1.resolve_right hne, fun mov hin => (hnames hin).2.resolve_right hne,
      fun index to_ from_ hat => ⟨second, ?_, fun hsame => ?_⟩⟩
    · unfold through
      rw [hscratch]
      rfl
    · -- the second register is another one
      rw [hcycle] at hsame
      obtain rfl : first = second := Place.reg.inj (Option.some.inj hsame)
      rw [hscratch] at hdistinct
      exact absurd List.mem_cons_self (List.nodup_cons.1 hdistinct).1

theorem edgeClass_post (at_ : At) (hfitting : ∀ order, ordered a env params args cls = .ok order → Fitting env cls order) :
    Post (Stop.Short env) (edgeClass a env params args at_ cls) fun _ => True := by
  unfold edgeClass
  cases horder : ordered a env params args cls with
  | error stop => exact Post.not_bad ordered_post horder
  | ok order =>
    show Post _ (order.zipIdx.mapM _ >>= _) _
    refine (Post.mapM (Q := fun _ => True) fun one hin => ?_).bind fun _ _ => trivial
    obtain ⟨moves, hmoves⟩ := (hfitting order horder).expand (List.mem_zipIdx_iff_getElem?.1 hin)
    show Post _ (expand env cls order one.1 one.2) _
    rw [hmoves]
    trivial

end

end Rewrite

end Rucc.Regalloc
