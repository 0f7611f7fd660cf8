import Rucc.Abi.Classify
import Rucc.Abi.FlattenSound

/-!
# What each test finds

For every way a test takes an aggregate apart, where the bytes of its pieces go. The tests that cut an object
into runs of registers cover it from end to end, whatever its pieces are. The tests that give every piece a
register of its own keep every byte too, and keep each only once exactly where the pieces do not overlap.
-/

namespace Rucc.Abi

variable {slots : List Slot} {width limit integerWidth floatWidth : ℕ} {p : Piece} {a : Slot}

/-- The bytes of a slot. -/
def Slot.bytes : Slot → Set ℕ
  | integer offset size | vector offset size => Set.Ico offset (offset + size)
  | float offset format => Set.Ico offset (offset + format.bytes)

/-- Two slots have no byte in common. -/
def Slot.Apart (a b : Slot) : Prop := Disjoint a.bytes b.bytes

/-- No byte is in two of the slots, and every byte of every piece is in one of them. -/
structure Shape.AllThere (s : Shape) (slots : List Slot) : Prop where
  apart : slots.Pairwise Slot.Apart
  covered : ∀ p ∈ s.pieces, ∀ b ∈ p.bytes, ∃ slot ∈ slots, b ∈ slot.bytes

/-- No two pieces have a byte in common. -/
def Shape.Disjoint (s : Shape) : Prop := s.pieces.Pairwise Piece.Apart

variable {s : Shape}

/-- Slots that cover the whole object carry everything in it. -/
theorem Shape.Laid.allThere (hs : s.Laid) (hapart : slots.Pairwise Slot.Apart)
    (hcovered : ∀ b < s.size, ∃ slot ∈ slots, b ∈ slot.bytes) : s.AllThere slots :=
  ⟨hapart, fun p hp b hb => hcovered b (Piece.bytes_subset (hs.within p hp) hb).2⟩

/-- The slots have the bytes of the pieces, one by one. -/
def SameBytes (pieces : List Piece) (slots : List Slot) : Prop :=
  List.Forall₂ (fun p a => Slot.bytes a = Piece.bytes p) pieces slots

namespace SameBytes

variable {pieces : List Piece} {slots : List Slot}

theorem apart_iff (h : SameBytes pieces slots) : slots.Pairwise Slot.Apart ↔ pieces.Pairwise Piece.Apart := by
  induction h with
  | nil => simp only [List.Pairwise.nil]
  | @cons p a ps as hfirst hrest ih =>
    have hhead : (∀ a' ∈ as, a.Apart a') ↔ ∀ p' ∈ ps, p.Apart p' := by
      clear ih
      induction hrest with
      | nil => simp only [List.not_mem_nil, false_imp_iff, implies_true]
      | cons hnext _ ih => rw [List.forall_mem_cons, List.forall_mem_cons, ih, Slot.Apart, Piece.Apart, hfirst, hnext]
    rw [List.pairwise_cons, List.pairwise_cons, hhead, ih]

theorem covered (h : SameBytes pieces slots) : ∀ p ∈ pieces, ∀ b ∈ p.bytes, ∃ slot ∈ slots, b ∈ slot.bytes := by
  intro p hp b hb
  induction h with
  | nil => exact absurd hp List.not_mem_nil
  | cons hfirst _ ih =>
    rcases List.mem_cons.1 hp with rfl | hp
    · exact ⟨_, List.mem_cons_self, hfirst ▸ hb⟩
    · obtain ⟨slot, hmem, hslot⟩ := ih hp
      exact ⟨slot, List.mem_cons_of_mem _ hmem, hslot⟩

/-- Slots that are the pieces, one by one, carry everything, and they overlap where the pieces do. -/
theorem allThere_iff {slots : List Slot} (h : SameBytes s.pieces slots) : s.AllThere slots ↔ s.Disjoint :=
  ⟨fun hall => h.apart_iff.1 hall.apart, fun hdisjoint => ⟨h.apart_iff.2 hdisjoint, h.covered⟩⟩

end SameBytes

theorem word32_of_lt {n other : ℕ} (h : n < 2^32) : word32 n other = n := if_pos h

/-! ## Runs of registers -/

/-- A run of registers of one width, the last of which holds only what is left, covers the object. -/
theorem run_allThere (hs : s.Laid) (hwidth : 0 < width) {f : ℕ → Slot} (hf : ∀ index < divCeil s.size width,
      (f index).bytes = Set.Ico (index * width) (index * width + min (s.size - index * width) width)) :
    s.AllThere ((List.range (divCeil s.size width)).map f) := by
  refine hs.allThere ?_ fun b hb => ?_
  · rw [List.pairwise_map]
    refine (List.pairwise_lt_range).imp_of_mem fun {i j} hi hj hlt => ?_
    rw [Slot.Apart, hf i (List.mem_range.1 hi), hf j (List.mem_range.1 hj)]
    have hnext : (i + 1) * width ≤ j * width := Nat.mul_le_mul_right _ hlt
    rw [Nat.succ_mul] at hnext
    refine Set.disjoint_left.2 fun b hb hb' => ?_
    have hstop := hb.2
    have hfirst := hb'.1
    omega
  · have hindex : b / width < divCeil s.size width := by
      refine (Nat.div_lt_iff_lt_mul hwidth).2 (lt_of_lt_of_le hb ?_)
      have hmod := Nat.div_add_mod (s.size + width - 1) width
      have hlt := Nat.mod_lt (s.size + width - 1) hwidth
      rw [divCeil, Nat.mul_comm]
      omega
    refine ⟨_, List.mem_map.2 ⟨b / width, List.mem_range.2 hindex, rfl⟩, ?_⟩
    rw [hf _ hindex]
    have hmod := Nat.div_add_mod' b width
    have hlt := Nat.mod_lt b hwidth
    constructor <;> omega

theorem integerSlots_allThere (hs : s.Laid) (hwidth : width < 2^32) : s.AllThere (integerSlots s.size width) := by
  refine run_allThere hs (lt_of_lt_of_le Nat.one_pos (le_max_right width 1)) fun index _ => ?_
  rw [word32_of_lt (lt_of_le_of_lt (min_le_right _ _) (max_lt hwidth (by norm_num))), Slot.bytes]

theorem vectorSlots_allThere (hs : s.Laid) : s.AllThere (vectorSlots s.size) := by
  refine run_allThere hs (by norm_num) fun index _ => ?_
  rw [word32_of_lt (lt_of_le_of_lt (min_le_right _ _) (by norm_num)), Slot.bytes]

/-- An object that is small enough is one integer register. -/
theorem oneInteger_allThere (hs : s.Laid) (hsize : s.size < 2^32) : s.AllThere [.integer 0 (word32 s.size 8)] := by
  refine hs.allThere (List.pairwise_singleton _ _) fun b hb => ⟨_, List.mem_cons_self, ?_⟩
  rw [word32_of_lt hsize, Slot.bytes, Nat.zero_add]
  exact ⟨Nat.zero_le b, hb⟩

/-! ## A register for every piece -/

/-- The slot of a scalar has the bytes of the scalar. -/
theorem slot_bytes (hp : p.scalar.Laid) : (slot p.scalar p.offset).bytes = p.bytes := by
  unfold slot Piece.bytes
  split
  · rename_i hkind
    rw [Slot.bytes, hp.used_float hkind]
  · rename_i hkind
    have hused : p.scalar.used = p.scalar.size := by simp only [Scalar.used, hkind]
    simp only [Scalar.Laid, hkind] at hp
    rw [Slot.bytes, word32_of_lt hp.2, hused]

/-- One floating point slot for every piece, where every piece is one of that format. -/
theorem floats_bytes {format : Format} (hs : s.Laid) (hkind : ∀ p ∈ s.pieces, p.scalar.kind = .float format) :
    SameBytes s.pieces (s.pieces.map fun piece => .float piece.offset format) := by
  rw [SameBytes, List.forall₂_map_right_iff, List.forall₂_same]
  intro p hp
  rw [Slot.bytes, Piece.bytes, (hs.within p hp).laid.used_float (hkind p hp)]

theorem homogeneous_spec (hs : s.Laid) (h : homogeneous s limit = some slots) :
    SameBytes s.pieces slots ∧ slots.any Slot.isFloat = true := by
  obtain ⟨first, hfirst, h⟩ := Option.bind_eq_some_iff.1 h
  cases hkind : first.scalar.kind with
  | integer =>
    rw [hkind] at h
    exact absurd h (by simp)
  | float format =>
    rw [hkind] at h
    dsimp only at h
    split_ifs at h with hmany hsize
    obtain rfl := Option.some.inj h
    have hall : ∀ p ∈ s.pieces, p.scalar = first.scalar := by
      simp only [Bool.or_eq_true, decide_eq_true_eq, List.any_eq_true, not_or, not_exists, not_and, not_not] at hmany
      exact hmany.2
    refine ⟨floats_bytes hs fun p hp => by rw [hall p hp, hkind], ?_⟩
    rw [List.any_map, List.any_eq_true]
    exact ⟨first, List.mem_of_mem_head? hfirst, rfl⟩

theorem pairSlot_spec (hp : p.scalar.Laid)
    (h : pairSlot integerWidth floatWidth p = some a) : a.bytes = p.bytes ∧ a.isFloat = p.scalar.isFloat := by
  unfold pairSlot at h
  split at h
  · rename_i hkind
    split_ifs at h
    obtain rfl := Option.some.inj h
    exact ⟨by rw [Slot.bytes, Piece.bytes, hp.used_float hkind], by simp only [Slot.isFloat, Scalar.isFloat, hkind]⟩
  · rename_i hkind
    split_ifs at h
    obtain rfl := Option.some.inj h
    exact ⟨by simp only [Slot.bytes, Piece.bytes, Scalar.used, hkind], by simp only [Slot.isFloat, Scalar.isFloat, hkind]⟩

theorem floatPair_spec (hs : s.Laid) (h : floatPair s integerWidth floatWidth = some slots) :
    SameBytes s.pieces slots ∧ slots.any Slot.isFloat = true := by
  unfold floatPair at h
  dsimp only at h
  split at h
  · rename_i only hpieces
    split_ifs at h with hfloats
    obtain ⟨a, ha, h⟩ := Option.bind_eq_some_iff.1 h
    obtain rfl := Option.some.inj h
    obtain ⟨hbytes, hfloat⟩ := pairSlot_spec (hs.within only (by rw [hpieces]; exact List.mem_cons_self)).laid ha
    rw [hpieces] at hfloats ⊢
    refine ⟨List.Forall₂.cons hbytes List.Forall₂.nil, ?_⟩
    rw [List.any_cons, hfloat, List.any_nil, Bool.or_false]
    by_contra hnot
    exact absurd hfloats (by simp [hnot])
  · rename_i first second hpieces
    split_ifs at h with hfloats
    obtain ⟨a, ha, h⟩ := Option.bind_eq_some_iff.1 h
    obtain ⟨b, hb, h⟩ := Option.bind_eq_some_iff.1 h
    obtain rfl := Option.some.inj h
    have hmem : first ∈ s.pieces ∧ second ∈ s.pieces := by
      rw [hpieces]
      exact ⟨List.mem_cons_self, List.mem_cons_of_mem _ List.mem_cons_self⟩
    obtain ⟨habytes, hafloat⟩ := pairSlot_spec (hs.within first hmem.1).laid ha
    obtain ⟨hbbytes, hbfloat⟩ := pairSlot_spec (hs.within second hmem.2).laid hb
    rw [hpieces] at hfloats ⊢
    refine ⟨List.Forall₂.cons habytes (List.Forall₂.cons hbbytes List.Forall₂.nil), ?_⟩
    rw [List.any_cons, List.any_cons, hafloat, hbfloat, List.any_nil, Bool.or_false, Bool.or_eq_true]
    by_contra hnot
    rw [not_or] at hnot
    exact absurd hfloats (by simp [hnot.1, hnot.2])
  · exact absurd h (by simp)

/-- A shape of one piece is all there in the slot of its piece. -/
theorem Shape.allThere_singleton (hpieces : s.pieces = [p]) (h : a.bytes = p.bytes) : s.AllThere [a] := by
  have hsame : SameBytes s.pieces [a] := by
    rw [hpieces]
    exact List.Forall₂.cons h List.Forall₂.nil
  refine hsame.allThere_iff.2 ?_
  rw [Shape.Disjoint, hpieces]
  exact List.pairwise_singleton _ _

theorem x87Stack_allThere (hs : s.Laid) (h : x87Stack s = some slots) : s.AllThere slots := by
  unfold x87Stack at h
  dsimp only at h
  split_ifs at h with hx87
  obtain rfl := Option.some.inj h
  rw [Bool.and_eq_true, Shape.isAllOf, Bool.and_eq_true, List.all_eq_true] at hx87
  obtain ⟨⟨-, hkind⟩, hone⟩ := hx87
  refine (floats_bytes hs fun p hp => of_decide_eq_true (hkind p hp)).allThere_iff.2 ?_
  rw [Bool.or_eq_true, Bool.and_eq_true, decide_eq_true_eq, decide_eq_true_eq] at hone
  rcases hone with hone | ⟨-, hcomplex⟩
  · obtain ⟨p, hp⟩ := List.length_eq_one_iff.1 hone
    rw [Shape.Disjoint, hp]
    exact List.pairwise_singleton _ _
  · exact hs.apart (by rw [hcomplex, Bool.true_or])

theorem loneFloat_allThere (hs : s.Laid) (h : loneFloat s = some slots) : s.AllThere slots := by
  unfold loneFloat at h
  split at h
  · rename_i piece hpieces
    have hlaid := (hs.within piece (by rw [hpieces]; exact List.mem_cons_self)).laid
    split at h
    · rename_i hkind
      obtain rfl := Option.some.inj h
      exact Shape.allThere_singleton hpieces (by rw [Slot.bytes, Piece.bytes, hlaid.used_float hkind])
    · rename_i hkind
      obtain rfl := Option.some.inj h
      exact Shape.allThere_singleton hpieces (by rw [Slot.bytes, Piece.bytes, hlaid.used_float hkind])
    · exact absurd h (by simp)
  · exact absurd h (by simp)

theorem singleScalar_allThere (hs : s.Laid) (h : singleScalar s = some slots) : s.AllThere slots := by
  unfold singleScalar at h
  split at h
  · rename_i piece hpieces
    split_ifs at h with hone
    obtain rfl := Option.some.inj h
    simp only [Bool.or_eq_true, decide_eq_true_eq, not_or, not_not] at hone
    have hlaid := (hs.within piece (by rw [hpieces]; exact List.mem_cons_self)).laid
    exact Shape.allThere_singleton hpieces (hone.1.2 ▸ slot_bytes hlaid)
  · exact absurd h (by simp)

/-- The lanes of a vector, each in a slot of its own. -/
theorem lanes_allThere (hs : s.Laid) (hvector : s.vector = true) :
    s.AllThere (s.pieces.map fun piece => slot piece.scalar piece.offset) := by
  have hsame : SameBytes s.pieces (s.pieces.map fun piece => slot piece.scalar piece.offset) := by
    rw [SameBytes, List.forall₂_map_right_iff, List.forall₂_same]
    exact fun p hp => slot_bytes (hs.within p hp).laid
  exact hsame.allThere_iff.2 (hs.apart (by rw [hvector, Bool.or_true]))

/-! ## Eightbytes -/

theorem mergePiece_length {classes classes' : List Class} {piece : Piece} (h : mergePiece classes piece = some classes') :
    classes'.length = classes.length := by
  have hall : ∀ (indices : List ℕ) (first : ℕ) (class_ : Class) (classes classes' : List Class),
      indices.foldlM (mergeAt first class_) classes = some classes' → classes'.length = classes.length := by
    intro indices first class_
    induction indices with
    | nil =>
      intro classes classes' h
      exact congrArg List.length (Option.some.inj h).symm
    | cons index rest ih =>
      intro classes classes' h
      rw [List.foldlM_cons] at h
      obtain ⟨between, hbetween, h⟩ := Option.bind_eq_some_iff.1 h
      obtain ⟨old, -, hbetween⟩ := Option.bind_eq_some_iff.1 hbetween
      rw [ih _ _ h, ← Option.some.inj hbetween, List.length_set]
  unfold mergePiece at h
  split_ifs at h
  exact hall _ _ _ _ _ h

theorem mergePieces_length (pieces : List Piece) : ∀ classes classes', pieces.foldlM mergePiece classes = some classes' →
    classes'.length = classes.length := by
  induction pieces with
  | nil =>
    intro classes classes' h
    exact congrArg List.length (Option.some.inj h).symm
  | cons piece rest ih =>
    intro classes classes' h
    rw [List.foldlM_cons] at h
    obtain ⟨between, hbetween, h⟩ := Option.bind_eq_some_iff.1 h
    rw [ih _ _ h, mergePiece_length hbetween]

/-- Once the classes are settled, the first is no upper half, and the second one is that of the first only. -/
theorem settle_pair (a b : Class) : ∃ a' b', (List.range 2).foldl settleAt [a, b] = [a', b'] ∧ a' ≠ .sseUp ∧
    (b' = .sseUp → a' = .sse) := by
  cases a <;> cases b <;> exact ⟨_, _, rfl, by decide, by decide⟩

theorem settle_one (a : Class) : ∃ a', (List.range 1).foldl settleAt [a] = [a'] ∧ a' ≠ .sseUp := by
  cases a <;> exact ⟨_, rfl, by decide⟩

/-- The bytes of the slot of one eightbyte that is not an upper half, and has none. -/
theorem eightbyteSlot_bytes {classes : List Class} {index : ℕ} {class_ : Class} (hclass : class_ ≠ .sseUp)
    (hup : class_ = .sse → classes[index + 1]? ≠ some .sseUp) :
    ∃ a stop, eightbyteSlot s classes index class_ = some a ∧ a.bytes = Set.Ico (index * 8) stop ∧
      min s.size (index * 8 + 8) ≤ stop ∧ stop ≤ index * 8 + 8 := by
  unfold eightbyteSlot
  have hword : word32 (min (s.size - index * 8) 8) 8 = min (s.size - index * 8) 8 :=
    word32_of_lt (lt_of_le_of_lt (min_le_right _ _) (by norm_num))
  cases class_ with
  | sseUp => exact absurd rfl hclass
  | sse =>
    dsimp only
    rw [if_neg (hup rfl)]
    split_ifs with hbytes
    · exact ⟨_, _, rfl, rfl, by rw [Format.bytes]; omega, by rw [Format.bytes]; omega⟩
    · exact ⟨_, _, rfl, rfl, by rw [Format.bytes]; omega, by rw [Format.bytes]⟩
  | _ =>
    dsimp only
    rw [hword]
    exact ⟨_, _, rfl, rfl, by omega, by omega⟩

/-- An object of at most sixteen bytes is all there in the slots of its eightbytes. -/
theorem eightbytes_allThere (hs : s.Laid) (hlimit : limit ≤ 16)
    (h : eightbytes s limit = some slots) : s.AllThere slots := by
  unfold eightbytes at h
  split_ifs at h with hsize
  obtain ⟨classes, hclasses, h⟩ := Option.bind_eq_some_iff.1 h
  split_ifs at h
  have hlength : classes.length = divCeil s.size 8 := by
    rw [mergePieces_length _ _ _ hclasses, List.length_replicate]
  rw [divCeil] at hlength
  obtain rfl := Option.some.inj h
  match classes, hlength with
  | [], hlength =>
    rw [List.length_nil] at hlength
    exact hs.allThere List.Pairwise.nil fun b hb => absurd hb (by omega)
  | [a], hlength =>
    -- one eightbyte, which holds the whole object
    obtain ⟨a', hsettle, ha⟩ := settle_one a
    obtain ⟨low, stop, hlow, hbytes, hmin, -⟩ := @eightbyteSlot_bytes s [a'] 0 a' ha (fun _ => by simp)
    have hslots : (((List.range [a].length).foldl settleAt [a]).zipIdx.filterMap fun c =>
        eightbyteSlot s ((List.range [a].length).foldl settleAt [a]) c.2 c.1) = [low] := by
      rw [List.length_singleton, hsettle, List.zipIdx_cons, List.zipIdx_nil]
      exact List.filterMap_cons_some hlow
    rw [hslots]
    refine hs.allThere (List.pairwise_singleton _ _) fun b hb => ⟨low, List.mem_cons_self, ?_⟩
    rw [List.length_singleton] at hlength
    rw [hbytes]
    constructor <;> omega
  | [a, b], hlength =>
    obtain ⟨a', b', hsettle, ha, hb⟩ := settle_pair a b
    rw [List.length_cons, List.length_singleton] at hlength
    have hzip : ([a', b'].zipIdx : List (Class × ℕ)) = [(a', 0), (b', 1)] := rfl
    rw [List.length_cons, List.length_singleton, hsettle, hzip]
    by_cases hup : b' = .sseUp
    · -- one sixteen byte value in one register
      obtain rfl := hb hup
      subst hup
      have hslots : ([(Class.sse, 0), (Class.sseUp, 1)].filterMap fun c =>
          eightbyteSlot s [.sse, .sseUp] c.2 c.1) = [.float 0 .quad] := rfl
      rw [hslots]
      refine hs.allThere (List.pairwise_singleton _ _) fun b hb => ⟨_, List.mem_cons_self, ?_⟩
      rw [Slot.bytes, Format.bytes]
      constructor <;> omega
    · obtain ⟨low, stop, hlow, hbytes, hmin, hstop⟩ := @eightbyteSlot_bytes s [a', b'] 0 a' ha fun _ h =>
        hup (Option.some.inj h)
      obtain ⟨high, stop', hhigh, hbytes', hmin', -⟩ := @eightbyteSlot_bytes s [a', b'] 1 b' hup fun _ => by simp
      have hslots : ([(a', 0), (b', 1)].filterMap fun c => eightbyteSlot s [a', b'] c.2 c.1) = [low, high] := by
        simp only [List.filterMap_cons, hlow, hhigh, List.filterMap_nil]
      rw [hslots]
      refine hs.allThere (List.pairwise_pair.2 ?_) fun b hb => ?_
      · rw [Slot.Apart, hbytes, hbytes']
        exact Set.disjoint_left.2 fun b hb hb' => absurd hb'.1 (by have := hb.2; omega)
      · by_cases hlt : b < 8
        · refine ⟨low, List.mem_cons_self, ?_⟩
          rw [hbytes]
          constructor <;> omega
        · refine ⟨high, List.mem_cons_of_mem _ List.mem_cons_self, ?_⟩
          rw [hbytes']
          constructor <;> omega
  | a :: b :: c :: rest, hlength =>
    rw [List.length_cons, List.length_cons, List.length_cons] at hlength
    omega

end Rucc.Abi
