import Mathlib.Data.List.TakeWhile
import Rucc.Regalloc.Active
import Rucc.Regalloc.Pressure

/-!
# What the list of a register's pieces answers

The two questions asked of a list of pieces, `touch` and `owners`, on a list whose starts and ends are both
in order, and what putting a piece in, taking one out and dropping the ones that have ended do to it.
-/

namespace Rucc.Regalloc

open Mir

variable {a : Area}

/-! ## Areas -/

/-- Pieces in order with a gap between any two, whatever the extra point. -/
structure Area.Apart (a : Area) : Prop where
  apart : a.pieces.Pairwise fun r r' => r.stop + 1 < r'.start
  nonempty : ∀ r ∈ a.pieces, r.start ≤ r.stop

/-- An area with its pieces in order and apart, whatever point it is stretched over. -/
structure Area.WellFormed (a : Area) : Prop where
  apart : a.pieces.Pairwise fun r r' => r.stop + 1 < r'.start
  nonempty : ∀ r ∈ a.pieces, r.start ≤ r.stop
  some : a.pieces ≠ []

theorem Area.Stored.wellFormed {bound : ℕ} (h : a.Stored bound) (hne : a.pieces ≠ []) :
    a.WellFormed := ⟨h.laid.apart, h.laid.nonempty, hne⟩

theorem Area.stretch_spec (a : Area) (piece : Range) :
    (a.stretch piece).stop = piece.stop ∧ (a.stretch piece).start ≤ piece.start ∧
      piece.start ≤ (a.stretch piece).start + 1 := by
  unfold Area.stretch
  split
  · split_ifs with h
    · exact ⟨rfl, by dsimp only; omega, by dsimp only; omega⟩
    · exact ⟨rfl, le_rfl, by omega⟩
  · exact ⟨rfl, le_rfl, by omega⟩

theorem Area.WellFormed.extend (h : a.WellFormed) (point : ℕ) : (a.extend point).WellFormed :=
  ⟨h.apart, h.nonempty, h.some⟩

/-- Pieces one after another, none empty. -/
structure InOrder (l : List Range) : Prop where
  apart : l.Pairwise fun r r' => r.stop < r'.start
  nonempty : ∀ r ∈ l, r.start ≤ r.stop

theorem Area.Apart.inOrder (h : a.Apart) : InOrder a.all := by
  constructor
  · refine List.pairwise_map.mpr (h.apart.imp fun {r r'} hr => ?_)
    have h₁ := a.stretch_spec r
    have h₂ := a.stretch_spec r'
    omega
  · intro r hr
    obtain ⟨piece, hpiece, rfl⟩ := List.mem_map.mp hr
    have := h.nonempty piece hpiece
    have := a.stretch_spec piece
    omega

theorem Area.WellFormed.inOrder (h : a.WellFormed) : InOrder a.all :=
  Area.Apart.inOrder ⟨h.apart, h.nonempty⟩

theorem InOrder.tail {r : Range} {l : List Range} (h : InOrder (r :: l)) : InOrder l :=
  ⟨(List.pairwise_cons.mp h.apart).2, fun r' hr' => h.nonempty r' (List.mem_cons_of_mem _ hr')⟩

theorem InOrder.after {r : Range} {l : List Range} (h : InOrder (r :: l)) {r' : Range} (hr' : r' ∈ r :: l) :
    r.start ≤ r'.start := by
  have hfirst := h.nonempty r List.mem_cons_self
  rcases List.mem_cons.mp hr' with rfl | hr'
  · exact le_rfl
  · have := (List.pairwise_cons.mp h.apart).1 r' hr'
    omega

theorem overlaps_iff (one two : Range) : one.overlaps two = true ↔ one.start ≤ two.stop ∧ two.start ≤ one.stop := by
  simp [Range.overlaps]

/-- The walk along two lists of pieces finds a pair that touches if there is one. -/
theorem touch_iff {fuel : ℕ} {mine theirs : List Range} (hmine : InOrder mine) (htheirs : InOrder theirs)
    (hfuel : mine.length + theirs.length ≤ fuel) :
    Area.touch fuel mine theirs = true ↔ ∃ one ∈ mine, ∃ two ∈ theirs, one.overlaps two = true := by
  induction fuel generalizing mine theirs with
  | zero =>
    obtain rfl : mine = [] := List.length_eq_zero_iff.mp (by omega)
    simp [Area.touch]
  | succ fuel ih =>
    cases mine with
    | nil => simp [Area.touch]
    | cons one mine =>
      cases theirs with
      | nil => simp [Area.touch]
      | cons two theirs =>
        rw [List.length_cons, List.length_cons] at hfuel
        have hone := hmine.nonempty one List.mem_cons_self
        have htwo := htheirs.nonempty two List.mem_cons_self
        rw [Area.touch]
        split_ifs with hover hless
        · exact ⟨fun _ => ⟨one, List.mem_cons_self, two, List.mem_cons_self, hover⟩, fun _ => rfl⟩
        · rw [ih hmine.tail htheirs (by rw [List.length_cons]; omega)]
          constructor
          · rintro ⟨r, hr, rest⟩
            exact ⟨r, List.mem_cons_of_mem _ hr, rest⟩
          · rintro ⟨r, hr, r', hr', hrr⟩
            rcases List.mem_cons.mp hr with rfl | hr
            · have := htheirs.after hr'
              rw [overlaps_iff] at hover hrr
              omega
            · exact ⟨r, hr, r', hr', hrr⟩
        · rw [ih hmine htheirs.tail (by rw [List.length_cons]; omega)]
          constructor
          · rintro ⟨r, hr, r', hr', hrr⟩
            exact ⟨r, hr, r', List.mem_cons_of_mem _ hr', hrr⟩
          · rintro ⟨r, hr, r', hr', hrr⟩
            rcases List.mem_cons.mp hr' with rfl | hr'
            · have := hmine.after hr
              rw [overlaps_iff] at hover hrr
              omega
            · exact ⟨r, hr, r', hr', hrr⟩

/-- Two values are both live somewhere when a piece of one touches a piece of the other. -/
theorem Area.overlaps_iff {other : Area} (ha : a.WellFormed) (hother : other.WellFormed) :
    a.overlaps other = true ↔ ∃ one ∈ a.all, ∃ two ∈ other.all, one.overlaps two = true :=
  touch_iff ha.inOrder hother.inOrder (by simp [Area.all, Area.count])

/-! ## A list in order -/

namespace Pieces

variable {e : Entry} {l : List Reg} {area : Area}

/-- The entry of a piece. -/
def entry (piece : Range) (reg : Reg) : Entry := ⟨piece.start, piece.stop, reg⟩

/-- The order entries are kept in. -/
def Before (e e' : Entry) : Prop := toLex (e.start, e.stop) ≤ toLex (e'.start, e'.stop)

theorem Before.start_le {e' : Entry} (h : Before e e') : e.start ≤ e'.start := by
  rcases Prod.Lex.le_iff.mp h with h | h
  · exact h.le
  · exact h.1.le

/-- The starts are in order, and so are the ends unless the list says that they are not. -/
structure Ordered (p : Pieces) : Prop where
  sorted : p.list.Pairwise Before
  ends : p.broken = false → p.list.Pairwise fun e e' => e.stop ≤ e'.stop

variable {p : Pieces} {piece : Range} {reg : Reg}

theorem insert_perm : (p.insert piece reg).list.Perm (entry piece reg :: p.list) := by
  have h : (p.list.takeWhile (upTo piece) ++ entry piece reg :: p.list.dropWhile (upTo piece)).Perm
      (entry piece reg :: (p.list.takeWhile (upTo piece) ++ p.list.dropWhile (upTo piece))) :=
    List.perm_middle
  rwa [List.takeWhile_append_dropWhile] at h

theorem insert_broken (h : (p.insert piece reg).broken = false) : p.broken = false := by
  unfold insert at h
  exact (Bool.or_eq_false_iff.mp h).1

@[simp]
theorem insert_kept : (p.insert piece reg).kept = p.kept := rfl

/-- An entry put in goes between the ones that are in front of it and the ones that are not. -/
theorem Ordered.insert (h : p.Ordered) : (p.insert piece reg).Ordered := by
  have hsplit : p.list.takeWhile (upTo piece) ++ p.list.dropWhile (upTo piece) = p.list :=
    List.takeWhile_append_dropWhile
  have hfront (e : Entry) (he : e ∈ p.list.takeWhile (upTo piece)) : Before e (entry piece reg) := by
    have hle : toLex (e.start, e.stop) ≤ toLex (piece.start, piece.stop) := by
      simpa [upTo] using List.mem_takeWhile_imp he
    exact hle
  have hback (e : Entry) (he : e ∈ p.list.dropWhile (upTo piece)) : Before (entry piece reg) e := by
    have hsorted := h.sorted.sublist (List.dropWhile_sublist (p := upTo piece))
    have hhead := List.head?_dropWhile_not (upTo piece) p.list
    cases hdrop : p.list.dropWhile (upTo piece) with
    | nil =>
      rw [hdrop] at he
      cases he
    | cons first rest =>
      rw [hdrop] at he hsorted hhead
      have hfirst : Before (entry piece reg) first := by
        have hlt : toLex (piece.start, piece.stop) < toLex (first.start, first.stop) := by
          simpa [upTo] using hhead
        exact hlt.le
      rcases List.mem_cons.mp he with rfl | he
      · exact hfirst
      · exact le_trans hfirst (List.rel_of_pairwise_cons hsorted he)
  have hsorted := h.sorted
  rw [← hsplit, List.pairwise_append] at hsorted
  constructor
  · refine List.pairwise_append.mpr ⟨hsorted.1, List.pairwise_cons.mpr ⟨hback, hsorted.2.1⟩, ?_⟩
    intro e he e' he'
    rcases List.mem_cons.mp he' with rfl | he'
    · exact hfront e he
    · exact hsorted.2.2 e he e' he'
  · intro hbroken
    have hends := h.ends (insert_broken hbroken)
    unfold Pieces.insert at hbroken
    have hbetween := (Bool.or_eq_false_iff.mp hbroken).2
    rw [Bool.not_eq_false', Bool.and_eq_true] at hbetween
    rw [← hsplit, List.pairwise_append] at hends
    -- the neighbours of the new entry are in order with it, and the others with them
    have hfirst (e : Entry) (he : e ∈ p.list.takeWhile (upTo piece)) : e.stop ≤ piece.stop := by
      have hlast := hbetween.1
      rw [List.getLast?_eq_some_getLast (List.ne_nil_of_mem he), Option.all_some,
        decide_eq_true_eq] at hlast
      have hpair := hends.1
      have hin := he
      rw [← List.dropLast_append_getLast (List.ne_nil_of_mem he), List.pairwise_append] at hpair
      rw [← List.dropLast_append_getLast (List.ne_nil_of_mem he), List.mem_append,
        List.mem_singleton] at hin
      rcases hin with hin | heq
      · exact (hpair.2.2 e hin _ (List.mem_singleton_self _)).trans hlast
      · rw [heq]
        exact hlast
    have hrest (e : Entry) (he : e ∈ p.list.dropWhile (upTo piece)) : piece.stop ≤ e.stop := by
      cases hdrop : p.list.dropWhile (upTo piece) with
      | nil =>
        rw [hdrop] at he
        cases he
      | cons first rest =>
        have hhead := hbetween.2
        rw [hdrop, List.head?_cons, Option.all_some, decide_eq_true_eq] at hhead
        have hpair := hends.2.1
        rw [hdrop] at he hpair
        rcases List.mem_cons.mp he with rfl | he
        · exact hhead
        · exact hhead.trans (List.rel_of_pairwise_cons hpair he)
    refine List.pairwise_append.mpr ⟨hends.1, List.pairwise_cons.mpr ⟨hrest, hends.2.1⟩, ?_⟩
    intro e he e' he'
    rcases List.mem_cons.mp he' with rfl | he'
    · exact hfirst e he
    · exact hends.2.2 e he e' he'

/-- The entry of a piece is looked for among the ones that start where it does. -/
theorem eraseIdx_find (l : List Entry) (hsorted : l.Pairwise Before)
    (hfrom : ∀ e ∈ l, piece.start ≤ e.start) :
    (match (l.takeWhile fun e => e.start = piece.start).findIdx?
        fun e => e.stop = piece.stop && e.owner = reg with
      | some offset => l.eraseIdx offset
      | none => l) = l.erase (entry piece reg) := by
  induction l with
  | nil => rfl
  | cons e rest ih =>
    rw [List.pairwise_cons] at hsorted
    by_cases hstart : e.start = piece.start
    · rw [List.takeWhile_cons_of_pos (by simpa using hstart), List.findIdx?_cons]
      by_cases hfound : (e.stop = piece.stop && e.owner = reg : Bool) = true
      · have heq : e = entry piece reg := by
          rw [Bool.and_eq_true, decide_eq_true_eq, decide_eq_true_eq] at hfound
          obtain ⟨start, stop, owner⟩ := e
          exact Entry.mk.injEq .. ▸ ⟨hstart, hfound.1, hfound.2⟩
        rw [if_pos hfound, heq, List.erase_cons_head]
        rfl
      · have hne : e ≠ entry piece reg := fun heq => hfound (by rw [heq]; simp [entry])
        rw [if_neg hfound, List.erase_cons_tail (by simpa using hne),
          ← ih hsorted.2 fun e' he' => hfrom e' (List.mem_cons_of_mem _ he')]
        cases (rest.takeWhile fun e => e.start = piece.start).findIdx?
            fun e => e.stop = piece.stop && e.owner = reg with
        | none => rfl
        | some offset => rfl
    · rw [List.takeWhile_cons_of_neg (by simpa using hstart)]
      have hlt := lt_of_le_of_ne (hfrom e List.mem_cons_self) (Ne.symm hstart)
      refine (List.erase_of_not_mem fun hmem => ?_).symm
      rcases List.mem_cons.mp hmem with heq | hmem
      · exact hstart (heq ▸ rfl)
      · have := (hsorted.1 _ hmem).start_le
        simp only [entry] at this
        omega

/-- Taking a piece out is taking its entry out. -/
theorem Ordered.remove_list (h : p.Ordered) :
    (p.remove piece reg).list = p.list.erase (entry piece reg) ∧
      (p.remove piece reg).broken = p.broken ∧ (p.remove piece reg).kept = p.kept := by
  have hsplit : p.list.takeWhile (fun e => e.start < piece.start) ++
      p.list.dropWhile (fun e => e.start < piece.start) = p.list := List.takeWhile_append_dropWhile
  have hnot : entry piece reg ∉ p.list.takeWhile fun e => e.start < piece.start := fun hmem => by
    have := List.mem_takeWhile_imp hmem
    simp [entry] at this
  have hsorted := h.sorted.sublist (List.dropWhile_sublist (p := fun e : Entry => e.start < piece.start))
  have hfrom (e : Entry) (he : e ∈ p.list.dropWhile fun e => e.start < piece.start) :
      piece.start ≤ e.start := by
    have hhead := List.head?_dropWhile_not (fun e : Entry => decide (e.start < piece.start)) p.list
    cases hdrop : p.list.dropWhile fun e => e.start < piece.start with
    | nil =>
      rw [hdrop] at he
      cases he
    | cons first rest =>
      rw [hdrop] at he hsorted hhead
      have hfirst : piece.start ≤ first.start := by simpa using hhead
      rcases List.mem_cons.mp he with rfl | he
      · exact hfirst
      · exact hfirst.trans (Before.start_le (List.rel_of_pairwise_cons hsorted he))
  have herase := @eraseIdx_find piece reg _ hsorted hfrom
  have hlist : p.list.erase (entry piece reg) = p.list.takeWhile (fun e => e.start < piece.start) ++
      (p.list.dropWhile fun e => e.start < piece.start).erase (entry piece reg) := by
    conv_lhs => rw [← hsplit]
    exact List.erase_append_right _ hnot
  unfold remove
  dsimp only
  rw [hlist, ← herase]
  cases ((p.list.dropWhile fun e => e.start < piece.start).takeWhile fun e =>
      e.start = piece.start).findIdx? fun e => e.stop = piece.stop && e.owner = reg with
  | none => exact ⟨hsplit.symm, rfl, rfl⟩
  | some offset => exact ⟨rfl, rfl, rfl⟩

theorem Ordered.sublist {p' : Pieces} (h : p.Ordered) (hlist : p'.list.Sublist p.list)
    (hbroken : p'.broken = p.broken) : p'.Ordered :=
  ⟨h.sorted.sublist hlist, fun hb => (h.ends (hbroken ▸ hb)).sublist hlist⟩

theorem Ordered.remove (h : p.Ordered) : (p.remove piece reg).Ordered := by
  obtain ⟨hlist, hbroken, -⟩ := @Ordered.remove_list p piece reg h
  exact h.sublist (by rw [hlist]; exact List.erase_sublist) hbroken

theorem Ordered.dropBefore (h : p.Ordered) (point : ℕ) : (p.dropBefore point).Ordered := by
  unfold Pieces.dropBefore
  split_ifs
  · exact h
  · exact h.sublist (List.dropWhile_sublist _) rfl

/-- What satisfies a test that fails from some place on is what is in front of that place. -/
theorem mem_takeWhile_iff {α : Type} {l : List α} {q : α → Bool}
    (h : l.Pairwise fun a b => q b = true → q a = true) {a : α} :
    a ∈ l.takeWhile q ↔ a ∈ l ∧ q a = true := by
  induction l with
  | nil => simp
  | cons b rest ih =>
    rw [List.pairwise_cons] at h
    by_cases hq : q b = true
    · rw [List.takeWhile_cons_of_pos hq, List.mem_cons, List.mem_cons, ih h.2]
      constructor
      · rintro (rfl | ⟨hmem, ha⟩)
        · exact ⟨Or.inl rfl, hq⟩
        · exact ⟨Or.inr hmem, ha⟩
      · rintro ⟨rfl | hmem, ha⟩
        · exact Or.inl rfl
        · exact Or.inr ⟨hmem, ha⟩
    · rw [List.takeWhile_cons_of_neg hq]
      refine iff_of_false List.not_mem_nil ?_
      rintro ⟨hmem, ha⟩
      rcases List.mem_cons.mp hmem with rfl | hmem
      · exact hq ha
      · exact hq (h.1 a hmem ha)

/-- With the ends in order, what is dropped is what ends before the point. -/
theorem Ordered.mem_dropBefore (h : p.Ordered) (hbroken : p.broken = false) {point : ℕ} :
    e ∈ (p.dropBefore point).list ↔ e ∈ p.list ∧ point ≤ e.stop := by
  have hends := h.ends hbroken
  unfold Pieces.dropBefore
  rw [hbroken, if_neg Bool.false_ne_true]
  dsimp only
  generalize p.list = l at hends
  induction l with
  | nil => simp
  | cons first rest ih =>
    rw [List.pairwise_cons] at hends
    by_cases hlt : first.stop < point
    · rw [List.dropWhile_cons_of_pos (by simpa using hlt)]
      refine (ih hends.2).trans ?_
      rw [List.mem_cons]
      constructor
      · exact fun ⟨hmem, hle⟩ => ⟨Or.inr hmem, hle⟩
      · rintro ⟨rfl | hmem, hle⟩
        · omega
        · exact ⟨hmem, hle⟩
    · rw [List.dropWhile_cons_of_neg (by simpa using hlt)]
      refine ⟨fun hmem => ⟨hmem, ?_⟩, fun hmem => hmem.1⟩
      rcases List.mem_cons.mp hmem with rfl | hmem
      · omega
      · have := hends.1 e hmem
        omega

@[simp]
theorem dropBefore_kept (point : ℕ) : (p.dropBefore point).kept = p.kept := by
  unfold dropBefore
  split_ifs <;> rfl

@[simp]
theorem dropBefore_broken (point : ℕ) : (p.dropBefore point).broken = p.broken := by
  unfold dropBefore
  split_ifs <;> rfl

/-! ## The two questions -/

theorem Ordered.mem_below (h : p.Ordered) : e ∈ p.below piece ↔ e ∈ p.list ∧ e.start ≤ piece.stop := by
  unfold below
  rw [List.mem_reverse, mem_takeWhile_iff (h.sorted.imp fun hb => ?_), decide_eq_true_eq]
  intro hle
  have := hb.start_le
  rw [decide_eq_true_eq] at hle ⊢
  omega

theorem Ordered.below_pairwise (h : p.Ordered) (hbroken : p.broken = false) :
    (p.below piece).Pairwise fun e e' => e'.stop ≤ e.stop :=
  List.pairwise_reverse.mpr ((h.ends hbroken).sublist (List.takeWhile_sublist _))

/-- The last entry of another value is the one that reaches furthest. -/
theorem find_any_iff {l : List Entry} (h : l.Pairwise fun e e' => e'.stop ≤ e.stop) (q : Entry → Bool) (point : ℕ) :
    ((l.find? q).any fun last => point ≤ last.stop) = true ↔
      ∃ e ∈ l, q e = true ∧ point ≤ e.stop := by
  induction l with
  | nil => simp
  | cons first rest ih =>
    rw [List.pairwise_cons] at h
    by_cases hq : q first = true
    · rw [List.find?_cons_of_pos hq, Option.any_some, decide_eq_true_eq]
      refine ⟨fun hle => ⟨first, List.mem_cons_self, hq, hle⟩, ?_⟩
      rintro ⟨e, he, -, hle⟩
      rcases List.mem_cons.mp he with rfl | he
      · exact hle
      · exact hle.trans (h.1 e he)
    · rw [List.find?_cons_of_neg hq, ih h.2]
      constructor
      · exact fun ⟨e, he, hqe, hle⟩ => ⟨e, List.mem_cons_of_mem _ he, hqe, hle⟩
      · rintro ⟨e, he, hqe, hle⟩
        rcases List.mem_cons.mp he with rfl | he
        · exact absurd hqe hq
        · exact ⟨e, he, hqe, hle⟩

/-- The list says that another value's piece touches the area when there is one in it. -/
theorem Ordered.touch_iff (h : p.Ordered) (hbroken : p.broken = false) (area : Area) (except : Option Reg) :
    p.touch area except = true ↔ ∃ piece ∈ area.all, ∃ e ∈ p.list, some e.owner ≠ except ∧
      e.start ≤ piece.stop ∧ piece.start ≤ e.stop := by
  unfold touch
  rw [List.any_eq_true]
  refine exists_congr fun piece => and_congr_right fun _ => ?_
  rw [find_any_iff (h.below_pairwise hbroken)]
  refine exists_congr fun e => ?_
  rw [h.mem_below, decide_eq_true_eq]
  tauto

theorem bits_injective : Function.Injective bits := by
  rintro (n | n) (m | m) h
  · exact congrArg _ (Prod.mk.inj h).2
  · exact absurd (Prod.mk.inj h).1 Nat.zero_ne_one
  · exact absurd (Prod.mk.inj h).1 Nat.one_ne_zero
  · exact congrArg _ (Prod.mk.inj h).2

instance : Std.Antisymm fun one other : Reg => bits one ≤ bits other :=
  ⟨fun _ _ h₁ h₂ => bits_injective (le_antisymm h₁ h₂)⟩

instance : Std.Total fun one other : Reg => bits one ≤ bits other := ⟨fun _ _ => le_total _ _⟩

instance : IsTrans Reg fun one other => bits one ≤ bits other := ⟨fun _ _ _ => le_trans⟩

/-- The values the list names are the ones with a piece that touches the area. -/
theorem Ordered.mem_owners (h : p.Ordered) (hl : p.owners area = some l) {reg : Reg} :
    reg ∈ l ↔ ∃ piece ∈ area.all, ∃ e ∈ p.list, e.owner = reg ∧ e.start ≤ piece.stop ∧
      piece.start ≤ e.stop := by
  unfold owners at hl
  split_ifs at hl with hbroken
  rw [Bool.not_eq_true] at hbroken
  obtain rfl := Option.some.inj hl
  rw [(List.pairwise_insertionSort _ _).destutter_eq_dedup, List.mem_dedup, List.mem_insertionSort,
    List.mem_flatMap]
  refine exists_congr fun piece => and_congr_right fun _ => ?_
  rw [List.mem_map]
  refine exists_congr fun e => ?_
  rw [mem_takeWhile_iff ((h.below_pairwise hbroken).imp fun hb hle => ?_), h.mem_below,
    decide_eq_true_eq]
  · tauto
  · rw [decide_eq_true_eq] at hle ⊢
    exact hle.trans hb

/-- They are named once each and in order. -/
theorem owners_sorted (hl : p.owners area = some l) : l.Pairwise fun one other => bits one < bits other := by
  unfold owners at hl
  split_ifs at hl
  obtain rfl := Option.some.inj hl
  have hle := List.pairwise_insertionSort (fun one other : Reg => bits one ≤ bits other)
    (area.all.flatMap fun piece =>
      ((p.below piece).takeWhile fun e => piece.start ≤ e.stop).map Entry.owner)
  rw [hle.destutter_eq_dedup]
  have hnodup := List.nodup_dedup ((area.all.flatMap fun piece =>
    ((p.below piece).takeWhile fun e => piece.start ≤ e.stop).map Entry.owner).insertionSort
      fun one other => bits one ≤ bits other)
  refine (hnodup.and (hle.sublist (List.dedup_sublist _))).imp fun {one other} hb => ?_
  exact lt_of_le_of_ne hb.2 fun heq => hb.1 (bits_injective heq)

end Pieces

end Rucc.Regalloc
