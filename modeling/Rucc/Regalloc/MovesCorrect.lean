import Rucc.Regalloc.Moves

/-!
# The order of the moves is right

While moves are still to be made, what each of them reads is what its source held at first, and the destinations that
are written already hold what they should. Where no move is ready the sources are the destinations in another order, so
each place is read once and the scratch is not read: breaking a cycle is safe, and makes a move ready again.
-/

namespace Rucc.Regalloc

open Cycles

variable {T : Type*} [DecidableEq T]

/-! ## Moves that are ready -/

section Ready

variable {pending : List (Move T)} {scratch : T}

variable {one : Move T}

/-- A move that is ready is one of those left, and none of the others reads what it writes. -/
theorem ready_spec {index : ℕ} (h : ready pending = some index) : ∃ before one after,
    pending = before ++ one :: after ∧ pending[index]? = some one ∧ pending.eraseIdx index = before ++ after ∧
      ∀ other ∈ pending, other.to_ ≠ one.to_ → other.from_ ≠ one.to_ := by
  obtain ⟨hlt, hone, -⟩ := List.findIdx?_eq_some_iff_getElem.1 h
  refine ⟨pending.take index, pending[index], pending.drop (index + 1), ?_, List.getElem?_eq_getElem hlt,
    List.eraseIdx_eq_take_drop_succ pending index, fun other hin hne heq => ?_⟩
  · rw [← List.drop_eq_getElem_cons hlt, List.take_append_drop]
  · rw [Bool.not_eq_true', List.any_eq_false] at hone
    exact hone other hin (decide_eq_true ⟨heq, hne⟩)

theorem not_ready (h : ready pending = none) (hin : one ∈ pending) : ∃ other ∈ pending, other.from_ = one.to_ := by
  have hone := List.findIdx?_eq_none_iff.1 h one hin
  rw [Bool.not_eq_false', List.any_eq_true] at hone
  obtain ⟨other, hother, hread⟩ := hone
  exact ⟨other, hother, (of_decide_eq_true hread).1⟩

/-- Where no move is ready, what is read is what is written. -/
theorem perm_of_not_ready (hto : (pending.map Move.to_).Nodup) (h : ready pending = none) :
    List.Perm (pending.map Move.to_) (pending.map Move.from_) := by
  have hsubset : pending.map Move.to_ ⊆ pending.map Move.from_ := by
    intro place hplace
    obtain ⟨one, hin, rfl⟩ := List.mem_map.1 hplace
    obtain ⟨other, hother, heq⟩ := not_ready h hin
    exact heq ▸ List.mem_map_of_mem hother
  refine (List.subperm_of_subset hto hsubset).perm_of_length_le ?_
  rw [List.length_map, List.length_map]

/-- The places that are written go round. -/
theorem periodic_of_not_ready (hto : (pending.map Move.to_).Nodup) (h : ready pending = none)
    (hin : one ∈ pending) : one.to_ ∈ Function.periodicPts (source pending) := by
  have hperm := perm_of_not_ready hto h
  have hfrom := hperm.nodup_iff.1 hto
  refine mem_periodicPts_of_injOn (s := {place | place ∈ pending.map Move.to_}) (List.finite_toSet _) ?_ ?_
    (List.mem_map_of_mem hin)
  · intro place hplace
    obtain ⟨other, hother, rfl⟩ := List.mem_map.1 hplace
    rw [source_of_mem hto hother]
    exact hperm.mem_iff.2 (List.mem_map_of_mem hother)
  · intro place hplace place' hplace' heq
    obtain ⟨other, hother, rfl⟩ := List.mem_map.1 hplace
    obtain ⟨other', hother', rfl⟩ := List.mem_map.1 hplace'
    rw [source_of_mem hto hother, source_of_mem hto hother'] at heq
    rw [List.inj_on_of_nodup_map hfrom hother hother' heq]

end Ready

/-! ## What each step keeps -/

/-- The moves that are left and the order so far are on the way to what the moves say. -/
structure Ordered (V : Type*) (moves : List (Move T)) (scratch : T) (pending order : List (Move T)) : Prop where
  nodup : (pending.map Move.to_).Nodup
  real : ∀ one ∈ pending, one.to_ ≠ scratch ∧ one.to_ ≠ one.from_
  waits : ∀ (held : T → V), ∀ one ∈ pending, ∃ move ∈ moves, move.to_ = one.to_ ∧
    run order held one.from_ = held move.from_
  done : ∀ (held : T → V), ∀ move ∈ moves, (∀ one ∈ pending, one.to_ ≠ move.to_) →
    run order held move.to_ = held move.from_
  kept : ∀ (held : T → V) (place : T), place ≠ scratch → (∀ move ∈ moves, move.to_ ≠ place) →
    run order held place = held place

section Step

variable {V : Type*} {moves pending order : List (Move T)} {scratch : T}

variable {before after : List (Move T)} {one : Move T}

theorem ordered_start (hto : (moves.map Move.to_).Nodup) (hscratch : ∀ move ∈ moves, move.to_ ≠ scratch) :
    Ordered V moves scratch (moves.filter fun one => one.to_ ≠ one.from_) [] where
  nodup := hto.sublist (List.filter_sublist.map _)
  real := fun one hin => by
    obtain ⟨hin, hne⟩ := List.mem_filter.1 hin
    exact ⟨hscratch one hin, of_decide_eq_true hne⟩
  waits := fun _ one hin => ⟨one, (List.mem_filter.1 hin).1, rfl, rfl⟩
  done := fun held move hin hout => by
    by_contra hne
    -- a move that is not of those left is one from a place to itself
    refine hout move (List.mem_filter.2 ⟨hin, decide_eq_true fun heq => hne ?_⟩) rfl
    exact congrArg held heq
  kept := fun _ _ _ _ => rfl

/-- A move that is ready is made. -/
theorem Ordered.go (hto : (moves.map Move.to_).Nodup) (h : Ordered V moves scratch (before ++ one :: after) order)
    (hfree : ∀ other ∈ before ++ one :: after, other.to_ ≠ one.to_ → other.from_ ≠ one.to_) :
    Ordered V moves scratch (before ++ after) (order ++ [one]) := by
  have hone : one ∈ before ++ one :: after := List.mem_append_right _ List.mem_cons_self
  have hsub : (before ++ after).Sublist (before ++ one :: after) := (List.sublist_cons_self one after).append_left before
  have hother : ∀ other ∈ before ++ after, other.to_ ≠ one.to_ := by
    have hnodup := h.nodup
    rw [List.map_append, List.map_cons, List.nodup_middle, List.nodup_cons, ← List.map_append] at hnodup
    exact fun other hin heq => hnodup.1 (heq ▸ List.mem_map_of_mem hin)
  refine ⟨h.nodup.sublist (hsub.map _), fun other hin => h.real other (hsub.subset hin), fun held other hin => ?_,
    fun held move hmove hout => ?_, fun held place hplace hno => ?_⟩
  · obtain ⟨move, hmove, hsame, hread⟩ := h.waits held other (hsub.subset hin)
    refine ⟨move, hmove, hsame, ?_⟩
    rw [run_concat_of_ne (hfree other (hsub.subset hin) (hother other hin)), hread]
  · by_cases hsame : move.to_ = one.to_
    · obtain ⟨move', hmove', hsame', hread⟩ := h.waits held one hone
      obtain rfl : move = move' := List.inj_on_of_nodup_map hto hmove hmove' (hsame.trans hsame'.symm)
      rw [hsame, ← hread]
      exact run_concat_self _ _
    · rw [run_concat_of_ne hsame]
      refine h.done held move hmove fun other hin heq => ?_
      obtain hin | hin := List.mem_append.1 hin
      · exact hout other (List.mem_append_left _ hin) heq
      · obtain rfl | hin := List.mem_cons.1 hin
        · exact hsame heq.symm
        · exact hout other (List.mem_append_right _ hin) heq
  · obtain ⟨move, hmove, hsame, -⟩ := h.waits held one hone
    rw [run_concat_of_ne fun heq => hno move hmove (hsame.trans heq.symm)]
    exact h.kept held place hplace hno

/-- What the moves left are once the source of the first one is in the scratch. -/
def broken (pending : List (Move T)) (scratch source : T) : List (Move T) :=
  pending.map fun one => if one.from_ = source then { one with from_ := scratch } else one

theorem map_to_broken (pending : List (Move T)) (scratch source : T) :
    (broken pending scratch source).map Move.to_ = pending.map Move.to_ := by
  unfold broken
  rw [List.map_map]
  refine List.map_congr_left fun one _ => ?_
  rw [Function.comp_apply]
  split
  · rfl
  · rfl

theorem mem_broken {source : T} : one ∈ broken pending scratch source ↔
    (∃ other ∈ pending, other.from_ = source ∧ one = { other with from_ := scratch }) ∨
      (one ∈ pending ∧ one.from_ ≠ source) := by
  unfold broken
  rw [List.mem_map]
  constructor
  · rintro ⟨other, hin, rfl⟩
    split
    · exact Or.inl ⟨other, hin, ‹_›, rfl⟩
    · exact Or.inr ⟨hin, ‹_›⟩
  · rintro (⟨other, hin, hsource, rfl⟩ | ⟨hin, hsource⟩)
    · exact ⟨other, hin, if_pos hsource⟩
    · exact ⟨one, hin, if_neg hsource⟩

/-- A cycle is broken. Nothing reads the scratch before, as it is not written. -/
theorem Ordered.cut (hscratch : ∀ move ∈ moves, move.to_ ≠ scratch) (h : Ordered V moves scratch pending order)
    (hready : ready pending = none) (source : T) :
    Ordered V moves scratch (broken pending scratch source) (order ++ [⟨scratch, source⟩]) := by
  have hunread : ∀ one ∈ pending, one.from_ ≠ scratch := by
    intro one hin heq
    have hplace := (perm_of_not_ready h.nodup hready).mem_iff.2 (List.mem_map_of_mem hin)
    obtain ⟨other, hother, heq'⟩ := List.mem_map.1 hplace
    exact (h.real other hother).1 (heq'.trans heq)
  refine ⟨by rw [map_to_broken]; exact h.nodup, fun one hin => ?_, fun held one hin => ?_, fun held move hmove hout => ?_,
    fun held place hplace hno => ?_⟩
  · obtain ⟨other, hother, -, rfl⟩ | ⟨hin, -⟩ := mem_broken.1 hin
    · exact ⟨(h.real other hother).1, (h.real other hother).1⟩
    · exact h.real one hin
  · obtain ⟨other, hother, rfl, rfl⟩ | ⟨hin, -⟩ := mem_broken.1 hin
    · obtain ⟨move, hmove, hsame, hread⟩ := h.waits held other hother
      exact ⟨move, hmove, hsame, by rw [run_concat_self, hread]⟩
    · obtain ⟨move, hmove, hsame, hread⟩ := h.waits held one hin
      exact ⟨move, hmove, hsame, by rw [run_concat_of_ne (hunread one hin), hread]⟩
  · rw [run_concat_of_ne (hscratch move hmove)]
    refine h.done held move hmove fun other hin heq => ?_
    have hplace : move.to_ ∈ (broken pending scratch source).map Move.to_ := by
      rw [map_to_broken, ← heq]
      exact List.mem_map_of_mem hin
    obtain ⟨one, hone, hsame⟩ := List.mem_map.1 hplace
    exact hout one hone hsame
  · rw [run_concat_of_ne hplace]
    exact h.kept held place hplace hno

/-! ## Counting cycles -/

/-- The move graph loses no cycle when a move is made that nothing else waits for. -/
theorem cycles_go (hto : ((before ++ one :: after).map Move.to_).Nodup)
    (hfree : ∀ other ∈ before ++ one :: after, other.to_ ≠ one.to_ → other.from_ ≠ one.to_) :
    cycles (source (before ++ after)) = cycles (source (before ++ one :: after)) := by
  have hsub : (before ++ after).Sublist (before ++ one :: after) := (List.sublist_cons_self one after).append_left before
  have hnodup := hto
  rw [List.map_append, List.map_cons, List.nodup_middle, List.nodup_cons, ← List.map_append] at hnodup
  have hother : ∀ other ∈ before ++ after, other.to_ ≠ one.to_ :=
    fun other hin heq => hnodup.1 (heq ▸ List.mem_map_of_mem hin)
  refine cycles_unread (a := one.to_) (fun place hplace => ?_) (source_of_notMem hother) fun place heq => ?_
  · by_cases hwritten : ∃ other ∈ before ++ after, other.to_ = place
    · obtain ⟨other, hin, rfl⟩ := hwritten
      rw [source_of_mem hnodup.2 hin, source_of_mem hto (hsub.subset hin)]
    · have hno : ∀ other ∈ before ++ one :: after, other.to_ ≠ place := by
        intro other hin heq
        obtain hin | hin := List.mem_append.1 hin
        · exact hwritten ⟨other, List.mem_append_left _ hin, heq⟩
        · obtain rfl | hin := List.mem_cons.1 hin
          · exact hplace heq.symm
          · exact hwritten ⟨other, List.mem_append_right _ hin, heq⟩
      rw [source_of_notMem fun other hin => hno other (hsub.subset hin), source_of_notMem hno]
  · by_contra hne
    obtain ⟨other, hin, rfl⟩ := exists_of_source_ne fun hsame : source _ place = place => hne (hsame.symm.trans heq)
    rw [source_of_mem hto hin] at heq
    exact hfree other hin hne heq

section Cut

variable {first : Move T} {rest : List (Move T)} (hto : ((first :: rest).map Move.to_).Nodup)
  (hreal : ∀ one ∈ first :: rest, one.to_ ≠ scratch ∧ one.to_ ≠ one.from_) (hready : ready (first :: rest) = none)
include hto hreal hready

/-- The move graph loses one cycle when it is broken. -/
theorem cycles_break : (cycles (source (broken (first :: rest) scratch first.from_))).ncard + 1 =
    (cycles (source (first :: rest))).ncard := by
  have hbroken : ((broken (first :: rest) scratch first.from_).map Move.to_).Nodup := by rwa [map_to_broken]
  have hfrom := (perm_of_not_ready hto hready).nodup_iff.1 hto
  have hwritten (place : T) (hno : ∀ one ∈ first :: rest, one.to_ ≠ place) :
      ∀ one ∈ broken (first :: rest) scratch first.from_, one.to_ ≠ place := by
    intro one hin heq
    have hplace := List.mem_map_of_mem (f := Move.to_) hin
    rw [map_to_broken] at hplace
    obtain ⟨other, hother, hsame⟩ := List.mem_map.1 hplace
    exact hno other hother (hsame.trans heq)
  have hsource : source (first :: rest) first.to_ = first.from_ := source_of_mem hto List.mem_cons_self
  refine cycles_cut (a := first.to_) (b := scratch) (finite_cycles _) (fun place hplace => ?_) ?_ ?_ ?_
    (periodic_of_not_ready hto hready List.mem_cons_self)
  · by_cases hexists : ∃ one ∈ first :: rest, one.to_ = place
    · obtain ⟨one, hin, rfl⟩ := hexists
      -- the source of the first move is read by it only
      have hne : one.from_ ≠ first.from_ := by
        intro heq
        rw [List.inj_on_of_nodup_map hfrom hin List.mem_cons_self heq] at hplace
        exact hplace rfl
      rw [source_of_mem hto hin, source_of_mem hbroken (mem_broken.2 (Or.inr ⟨hin, hne⟩))]
    · have hno : ∀ one ∈ first :: rest, one.to_ ≠ place := fun one hin heq => hexists ⟨one, hin, heq⟩
      rw [source_of_notMem hno, source_of_notMem (hwritten place hno)]
  · exact source_of_mem hbroken (mem_broken.2 (Or.inl ⟨first, List.mem_cons_self, rfl, rfl⟩))
  · exact source_of_notMem (hwritten scratch fun one hin => (hreal one hin).1)
  · rw [hsource]
    exact (hreal first List.mem_cons_self).2.symm

/-- A move is ready once a cycle is broken, which is the one that writes what is in the scratch now. -/
theorem ready_broken : ready (broken (first :: rest) scratch first.from_) ≠ none := by
  intro hnone
  have hplace := (perm_of_not_ready hto hready).mem_iff.2 (List.mem_map_of_mem (f := Move.from_) List.mem_cons_self)
  obtain ⟨writer, hin, hwrites⟩ := List.mem_map.1 hplace
  have hin' := List.mem_map_of_mem (f := Move.to_) hin
  rw [← map_to_broken _ scratch first.from_] at hin'
  obtain ⟨one, hone, hsame⟩ := List.mem_map.1 hin'
  obtain ⟨other, hother, hreads⟩ := not_ready hnone hone
  rw [hsame, hwrites] at hreads
  obtain ⟨_, -, -, rfl⟩ | ⟨-, hne⟩ := mem_broken.1 hother
  · exact (hreal writer hin).1 (hwrites.trans hreads.symm)
  · exact hne hreads

end Cut

/-! ## The loop -/

/-- How many rounds are left at most: two for each move, and one where none is ready. -/
def measure (pending : List (Move T)) : ℕ := 2 * pending.length + if ready pending = none then 1 else 0

theorem cycles_nil : cycles (source ([] : List (Move T))) = ∅ := by
  refine Set.eq_empty_of_forall_notMem fun _ hc => ?_
  obtain ⟨place, hne, -, -⟩ := hc
  exact hne rfl

/-- The loop ends, and everything is where the moves say. It makes each move once, and one more for each cycle. -/
theorem sequenceFrom_spec (hto : (moves.map Move.to_).Nodup) (hscratch : ∀ move ∈ moves, move.to_ ≠ scratch) (rounds : ℕ)
    (h : Ordered V moves scratch pending order) (hrounds : measure pending ≤ rounds) :
    Yields (sequenceFrom scratch rounds pending order) fun result =>
      Ordered V moves scratch [] result ∧
        result.length = order.length + pending.length + (cycles (source pending)).ncard ∧
        result.countP (fun one => one.to_ = scratch) =
          order.countP (fun one => one.to_ = scratch) + (cycles (source pending)).ncard := by
  induction rounds generalizing pending order with
  | zero =>
    have hnil : pending = [] := List.eq_nil_of_length_eq_zero (by unfold measure at hrounds; omega)
    subst hnil
    exact Yields.some_iff.2 ⟨h, by rw [cycles_nil, Set.ncard_empty]; rfl, by rw [cycles_nil, Set.ncard_empty]; rfl⟩
  | succ rounds ih =>
    cases pending with
    | nil => exact Yields.some_iff.2 ⟨h, by rw [cycles_nil, Set.ncard_empty]; rfl, by rw [cycles_nil, Set.ncard_empty]; rfl⟩
    | cons first rest =>
      rw [sequenceFrom]
      unfold measure at hrounds
      cases hready : ready (first :: rest) with
      | some index =>
        obtain ⟨before, one, after, hsplit, hat, herase, hfree⟩ := ready_spec hready
        rw [if_neg (by rw [hready]; exact Option.some_ne_none index)] at hrounds
        dsimp only
        rw [hat, herase, Option.bind_eq_bind, Option.bind_some]
        rw [hsplit] at h hfree hrounds ⊢
        have hreal := h.real one (List.mem_append_right _ List.mem_cons_self)
        rw [List.length_append, List.length_cons] at hrounds
        refine (ih (h.go hto hfree) ?_).mono fun result ⟨hall, hlength, hcount⟩ => ⟨hall, ?_, ?_⟩
        · unfold measure
          rw [List.length_append]
          split
          · omega
          · omega
        · rw [hlength, cycles_go h.nodup hfree, List.length_append, List.length_append, List.length_append,
            List.length_singleton, List.length_cons]
          omega
        · rw [hcount, cycles_go h.nodup hfree, List.countP_append, List.countP_singleton,
            if_neg (by simpa using hreal.1), Nat.add_zero]
      | none =>
        have hcycles := cycles_break h.nodup h.real hready
        have hprogress := ready_broken h.nodup h.real hready
        have hsame : (broken (first :: rest) scratch first.from_).length = (first :: rest).length := List.length_map _
        rw [if_pos hready] at hrounds
        dsimp only [breakCycle]
        rw [Option.bind_eq_bind, Option.bind_some]
        refine (ih (h.cut hscratch hready first.from_) ?_).mono fun result ⟨hall, hlength, hcount⟩ => ⟨hall, ?_, ?_⟩
        · unfold measure
          rw [if_neg hprogress, hsame]
          omega
        · rw [hlength, hsame, List.length_append, List.length_singleton]
          omega
        · rw [hcount, List.countP_append, List.countP_singleton, if_pos (decide_eq_true rfl)]
          omega

/-- More rounds than it takes change nothing. -/
theorem sequenceFrom_mono {rounds more : ℕ} {result : List (Move T)} (hle : rounds ≤ more)
    (h : sequenceFrom scratch rounds pending order = some result) :
    sequenceFrom scratch more pending order = some result := by
  induction rounds generalizing more pending order with
  | zero =>
    cases pending with
    | nil =>
      rw [sequenceFrom] at h ⊢
      exact h
    | cons first rest => exact absurd h.symm (Option.some_ne_none _)
  | succ rounds ih =>
    obtain ⟨more, rfl⟩ := Nat.exists_eq_add_of_le' (by omega : 1 ≤ more)
    cases pending with
    | nil =>
      rw [sequenceFrom] at h ⊢
      exact h
    | cons first rest =>
      rw [sequenceFrom] at h ⊢
      split at h
      · obtain ⟨one, hone, h⟩ := Option.bind_eq_some_iff.1 h
        rw [hone, Option.bind_eq_bind, Option.bind_some]
        exact ih (by omega) h
      · obtain ⟨next, hnext, h⟩ := Option.bind_eq_some_iff.1 h
        rw [hnext, Option.bind_eq_bind, Option.bind_some]
        exact ih (by omega) h

end Step

/-- Moves with destinations of their own, none of which is from or to the scratch, are put in an order in a number of
rounds. Made one at a time, they leave in each destination what its source held at first, and everything else but the
scratch as it was. There is one move for each that is not from a place to itself, and one to the scratch for each
cycle. -/
theorem sequence_correct {V : Type*} {moves : List (Move T)} {scratch : T} (hto : (moves.map Move.to_).Nodup)
    (hscratch : ∀ move ∈ moves, move.to_ ≠ scratch ∧ move.from_ ≠ scratch) : ∃ order,
      (∀ rounds, 2 * moves.length + 1 ≤ rounds → sequence rounds moves scratch = some order) ∧
      (∀ (held : T → V), ∀ move ∈ moves, run order held move.to_ = held move.from_) ∧
      (∀ (held : T → V) (place : T), place ≠ scratch → (∀ move ∈ moves, move.to_ ≠ place) →
        run order held place = held place) ∧
      (cycles (source moves)).Finite ∧
      order.length = (moves.countP fun move => move.to_ ≠ move.from_) + (cycles (source moves)).ncard ∧
      (order.countP fun one => one.to_ = scratch) = (cycles (source moves)).ncard := by
  have hwritten : ∀ move ∈ moves, move.to_ ≠ scratch := fun move hin => (hscratch move hin).1
  have hstart : Ordered V moves scratch (moves.filter fun one => one.to_ ≠ one.from_) [] := ordered_start hto hwritten
  have hfew : measure (moves.filter fun one => one.to_ ≠ one.from_) ≤ 2 * moves.length + 1 := by
    have hle := List.length_filter_le (fun one : Move T => decide (one.to_ ≠ one.from_)) moves
    unfold measure
    split
    · omega
    · omega
  -- moves from a place to itself are no part of the graph
  have hgraph : source (moves.filter fun one => one.to_ ≠ one.from_) = source moves := by
    funext place
    by_cases hexists : ∃ one ∈ moves, one.to_ = place
    · obtain ⟨one, hin, rfl⟩ := hexists
      rw [source_of_mem hto hin]
      by_cases hne : one.to_ ≠ one.from_
      · exact source_of_mem hstart.nodup (List.mem_filter.2 ⟨hin, decide_eq_true hne⟩)
      · rw [← not_not.1 hne]
        refine source_of_notMem fun other hother heq => hne ?_
        obtain ⟨hother, hreal⟩ := List.mem_filter.1 hother
        rw [List.inj_on_of_nodup_map hto hother hin heq] at hreal
        exact of_decide_eq_true hreal
    · have hno : ∀ one ∈ moves, one.to_ ≠ place := fun one hin heq => hexists ⟨one, hin, heq⟩
      rw [source_of_notMem hno, source_of_notMem fun one hin => hno one (List.mem_filter.1 hin).1]
  obtain ⟨order, horder, hall, hlength, hcount⟩ := sequenceFrom_spec hto hwritten _ hstart hfew
  have hdistinct : (moves.filter fun one => one.to_ ≠ one.from_).Pairwise fun earlier one => earlier.to_ ≠ one.to_ :=
    List.pairwise_map.1 hstart.nodup
  rw [hgraph] at hlength hcount
  refine ⟨order, fun rounds hrounds => ?_, fun held move hin => hall.done held move hin fun _ h => absurd h
    List.not_mem_nil, hall.kept, finite_cycles moves, ?_, ?_⟩
  · unfold sequence
    rw [if_pos hdistinct]
    exact sequenceFrom_mono hrounds horder
  · rw [hlength, List.length_nil, Nat.zero_add, List.countP_eq_length_filter]
  · rw [hcount, List.countP_nil, Nat.zero_add]

theorem sequence_correct_swap : ∃ order,
    (∀ rounds, 7 ≤ rounds → sequence rounds [⟨0, 1⟩, ⟨1, 0⟩, ⟨3, 0⟩] 9 = some order) ∧
      ∀ held : ℕ → ℕ, run order held 0 = held 1 ∧ run order held 1 = held 0 ∧ run order held 3 = held 0 := by
  obtain ⟨order, horder, hholds, -⟩ := @sequence_correct ℕ _ ℕ [⟨0, 1⟩, ⟨1, 0⟩, ⟨3, 0⟩] 9 (by decide) (by decide)
  exact ⟨order, horder, fun held => ⟨hholds held ⟨0, 1⟩ (by decide), hholds held ⟨1, 0⟩ (by decide),
    hholds held ⟨3, 0⟩ (by decide)⟩⟩

end Rucc.Regalloc
