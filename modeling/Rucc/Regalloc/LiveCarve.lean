import Rucc.Regalloc.LiveFlow

/-!
# The pieces a value is live over

Each block is noted at every point it says a value is live at and contributes the stretch around
those points; neighbouring stretches are joined. `Live.of_exact` puts the three parts together.
-/

namespace Rucc.Regalloc

open Mir Buckets

variable {v b p k : ℕ} {f : Func} {liveIn liveOut : Rows}

/-! ## The stretch around a block's points -/

/-- The smallest stretch around the points with a property, or nothing when there are none. -/
def Around (P : ℕ → Prop) : Option Range → Prop
  | none => ∀ p, ¬ P p
  | some r => P r.start ∧ P r.stop ∧ ∀ p, P p → r.start ≤ p ∧ p ≤ r.stop

theorem Around.congr {P Q : ℕ → Prop} {o : Option Range} (h : Around P o) (hiff : ∀ p, P p ↔ Q p) : Around Q o := by
  have heq : P = Q := funext fun p => propext (hiff p)
  rwa [heq] at h

/-- One more point. -/
theorem Around.extend {P : ℕ → Prop} {r : Range} (h : Around P (some r)) (point : ℕ) :
    Around (fun p => P p ∨ p = point) (some (r.extend point)) := by
  obtain ⟨hstart, hstop, hall⟩ := h
  have hrange := hall r.start hstart
  refine ⟨?_, ?_, ?_⟩
  · rcases Nat.le_total r.start point with hle | hle
    · left
      simpa [Range.extend, hle] using hstart
    · right
      simp [Range.extend, hle]
  · rcases Nat.le_total r.stop point with hle | hle
    · right
      simp [Range.extend, hle]
    · left
      simpa [Range.extend, hle] using hstop
  · rintro p (hp | rfl)
    · have := hall p hp
      simp only [Range.extend]
      omega
    · simp only [Range.extend]
      omega

/-- What a list of notes says of a value. -/
def NotedAt (l : List (Reg × ℕ)) (v p : ℕ) : Prop := (.virtualReg v, p) ∈ l

/-- The block being carved, after some notes. -/
structure Noting (n : ℕ) (l : List (Reg × ℕ)) (here : Here) : Prop where
  stretch : ∀ v, Around (fun p => v < n ∧ NotedAt l v p) (here.stretch v)
  touched : ∀ v, here.stretch v ≠ none → v ∈ here.touched
  nodup : here.touched.Nodup
  set : ∀ v ∈ here.touched, here.stretch v ≠ none

theorem Noting.note {n : ℕ} {l : List (Reg × ℕ)} {here : Here} (h : Noting n l here) (reg : Reg)
    (point : ℕ) : Noting n (l ++ [(reg, point)]) (note n here reg point) := by
  have hother (v : ℕ) (hv : ¬ (v < n ∧ reg = .virtualReg v)) :
      Around (fun p => v < n ∧ NotedAt (l ++ [(reg, point)]) v p) (here.stretch v) := by
    apply (h.stretch v).congr
    intro p
    unfold NotedAt
    rw [List.mem_append, List.mem_singleton, Prod.mk.injEq]
    constructor
    · exact fun ⟨hlt, hmem⟩ => ⟨hlt, Or.inl hmem⟩
    · rintro ⟨hlt, hmem | ⟨heq, -⟩⟩
      · exact ⟨hlt, hmem⟩
      · exact absurd ⟨hlt, heq.symm⟩ hv
  have hself (number : ℕ) (hlt : number < n) (p : ℕ) :
      ((number < n ∧ NotedAt l number p) ∨ p = point) ↔
        number < n ∧ NotedAt (l ++ [(.virtualReg number, point)]) number p := by
    unfold NotedAt
    rw [List.mem_append, List.mem_singleton, Prod.mk.injEq]
    tauto
  unfold Regalloc.note
  cases reg with
  | physical reg =>
    exact ⟨fun v => hother v (by simp), h.touched, h.nodup, h.set⟩
  | virtualReg number =>
    by_cases hlt : number < n
    · simp only [if_pos hlt]
      cases hslot : here.stretch number with
      | some range =>
        dsimp only
        have haround := h.stretch number
        rw [hslot] at haround
        constructor
        · intro v
          dsimp only
          by_cases hv : v = number
          · subst hv
            rw [Function.update_self]
            exact (haround.extend point).congr (hself v hlt)
          · rw [Function.update_of_ne hv]
            apply hother
            rintro ⟨-, heq⟩
            cases heq
            exact hv rfl
        · intro v hv
          dsimp only at hv ⊢
          apply h.touched
          by_cases heq : v = number
          · rw [heq, hslot]
            simp
          · rwa [Function.update_of_ne heq] at hv
        · exact h.nodup
        · intro v hv
          dsimp only at hv ⊢
          by_cases heq : v = number
          · simp [heq]
          · rw [Function.update_of_ne heq]
            exact h.set v hv
      | none =>
        dsimp only
        have haround := h.stretch number
        rw [hslot] at haround
        constructor
        · intro v
          dsimp only
          by_cases hv : v = number
          · subst hv
            rw [Function.update_self]
            refine ⟨(hself v hlt point).mp (Or.inr rfl), (hself v hlt point).mp (Or.inr rfl), ?_⟩
            intro p hp
            rcases (hself v hlt p).mpr hp with hold | rfl
            · exact absurd hold (haround p)
            · exact ⟨le_rfl, le_rfl⟩
          · rw [Function.update_of_ne hv]
            apply hother
            rintro ⟨-, heq⟩
            cases heq
            exact hv rfl
        · intro v hv
          dsimp only at hv ⊢
          rw [List.mem_append, List.mem_singleton]
          by_cases heq : v = number
          · exact Or.inr heq
          · rw [Function.update_of_ne heq] at hv
            exact Or.inl (h.touched v hv)
        · dsimp only
          rw [List.nodup_append]
          refine ⟨h.nodup, List.nodup_singleton _, ?_⟩
          intro v hv w hw heq
          rw [List.mem_singleton] at hw
          apply h.set v hv
          rw [heq, hw, hslot]
        · intro v hv
          dsimp only at hv ⊢
          rw [List.mem_append, List.mem_singleton] at hv
          by_cases heq : v = number
          · simp [heq]
          · rw [Function.update_of_ne heq]
            exact h.set v (hv.resolve_right heq)
    · simp only [if_neg hlt]
      refine ⟨fun v => hother v ?_, h.touched, h.nodup, h.set⟩
      rintro ⟨hv, heq⟩
      cases heq
      exact hlt hv

theorem Noting.foldl {n : ℕ} (l : List (Reg × ℕ)) {here : Here} (h : Noting n [] here) :
    Noting n l (l.foldl (fun here n' => Regalloc.note n here n'.1 n'.2) here) := by
  induction l using List.reverseRecOn with
  | nil => exact h
  | append_singleton l x ih =>
    rw [List.foldl_append, List.foldl_cons, List.foldl_nil]
    exact ih.note x.1 x.2

/-! ## Joining stretches -/

/-- A stretch put after the pieces there are, joined to the last when it begins where that one
stopped. -/
def joined (l : List Range) (piece : Range) : List Range :=
  match l.getLast? with
  | some previous =>
    if previous.stop + 1 = piece.start then l.dropLast ++ [⟨previous.start, piece.stop⟩]
    else l ++ [piece]
  | none => l ++ [piece]

/-- The same for a block that may have no stretch. -/
def joinedTo (l : List Range) : Option Range → List Range
  | some piece => joined l piece
  | none => l

/-- The pieces of a value in the order they were found. -/
def Found.of (found : Found) (v : ℕ) : List Range :=
  (found.pieces.filter (fun x => decide (x.1 = v))).map Prod.snd

/-- The note of where a value's last piece is agrees with the pieces. -/
def Found.Last (found : Found) (v : ℕ) : Prop :=
  match found.last v with
  | none => found.of v = []
  | some i => ∃ before piece after, found.pieces = before ++ (v, piece) :: after ∧
      before.length = i ∧ ∀ x ∈ after, x.1 ≠ v

theorem filter_eq_nil_of_ne {l : List (ℕ × Range)} (h : ∀ x ∈ l, x.1 ≠ v) :
    l.filter (fun x => decide (x.1 = v)) = [] := by
  rw [List.filter_eq_nil_iff]
  intro x hx
  simpa using h x hx

/-- Putting a piece at the end of the list. -/
theorem Found.push (found : Found) (number : ℕ) (piece : Range) (h : ∀ v, found.Last v) :
    let found' : Found := ⟨found.pieces ++ [(number, piece)],
      Function.update found.last number (some found.pieces.length)⟩
    (∀ v, found'.Last v) ∧ found'.of number = found.of number ++ [piece] ∧
      ∀ v, v ≠ number → found'.of v = found.of v := by
  refine ⟨?_, by simp [Found.of], ?_⟩
  · intro v
    unfold Found.Last
    dsimp only
    by_cases hv : v = number
    · subst hv
      rw [Function.update_self]
      exact ⟨found.pieces, piece, [], rfl, rfl, by simp⟩
    · rw [Function.update_of_ne hv]
      have hlast := h v
      unfold Found.Last at hlast
      cases hi : found.last v with
      | none =>
        rw [hi] at hlast
        simpa [Found.of, Ne.symm hv] using hlast
      | some i =>
        rw [hi] at hlast
        obtain ⟨before, p, after, heq, hlen, hafter⟩ := hlast
        refine ⟨before, p, after ++ [(number, piece)], by simp [heq], hlen, ?_⟩
        intro x hx
        rcases List.mem_append.mp hx with hx | hx
        · exact hafter x hx
        · rw [List.mem_singleton] at hx
          rw [hx]
          exact Ne.symm hv
  · intro v hv
    simp [Found.of, Ne.symm hv]

/-- Changing the last piece of a value in place. -/
theorem Found.replace (found : Found) {number : ℕ} {before after : List (ℕ × Range)}
    {previous piece : Range} (heq : found.pieces = before ++ (number, previous) :: after)
    (hi : found.last number = some before.length) (hafter : ∀ x ∈ after, x.1 ≠ number)
    (h : ∀ v, found.Last v) :
    let found' : Found := { found with pieces := found.pieces.set before.length (number, piece) }
    (∀ v, found'.Last v) ∧ found'.of number = (found.of number).dropLast ++ [piece] ∧
      ∀ v, v ≠ number → found'.of v = found.of v := by
  have hset : found.pieces.set before.length (number, piece) =
      before ++ (number, piece) :: after := by
    rw [heq]
    simp
  dsimp only
  rw [hset]
  refine ⟨?_, ?_, ?_⟩
  · intro v
    have hlast := h v
    unfold Found.Last at hlast ⊢
    dsimp only
    by_cases hv : v = number
    · subst hv
      rw [hi]
      exact ⟨before, piece, after, rfl, rfl, hafter⟩
    · cases hj : found.last v with
      | none =>
        rw [hj] at hlast
        simpa [Found.of, heq, Ne.symm hv] using hlast
      | some j =>
        rw [hj] at hlast
        obtain ⟨before', p, after', heq', hlen, hafter'⟩ := hlast
        -- The other value's last piece is on one side of the one that changes or on the other.
        rw [heq] at heq'
        rcases List.append_eq_append_iff.mp heq' with ⟨mid, hb, ha⟩ | ⟨mid, hb, ha⟩
        · cases mid with
          | nil =>
            rw [List.nil_append, List.cons.injEq, Prod.mk.injEq] at ha
            exact absurd ha.1.1.symm hv
          | cons x mid =>
            rw [List.cons_append, List.cons.injEq] at ha
            obtain ⟨-, ha⟩ := ha
            refine ⟨before ++ (number, piece) :: mid, p, after', by simp [ha], ?_, hafter'⟩
            rw [← hlen, hb]
            simp
        · cases mid with
          | nil =>
            rw [List.nil_append, List.cons.injEq, Prod.mk.injEq] at ha
            exact absurd ha.1.1 hv
          | cons x mid =>
            rw [List.cons_append, List.cons.injEq] at ha
            obtain ⟨hx, ha⟩ := ha
            refine ⟨before', p, mid ++ (number, piece) :: after, by simp [hb, hx], hlen, ?_⟩
            intro y hy
            rcases List.mem_append.mp hy with hy | hy
            · apply hafter'
              rw [ha]
              exact List.mem_append_left _ hy
            · rcases List.mem_cons.mp hy with rfl | hy
              · exact Ne.symm hv
              · apply hafter'
                rw [ha]
                exact List.mem_append_right _ (List.mem_cons_of_mem _ hy)
  · simp [Found.of, heq, filter_eq_nil_of_ne hafter]
  · intro v hv
    simp [Found.of, heq, Ne.symm hv]

/-- One value's stretch of the block kept. -/
theorem keep_spec (found : Found) (here : Here) {number : ℕ} {piece : Range}
    (hpiece : here.stretch number = some piece) (h : ∀ v, found.Last v) :
    (∀ v, (keep (found, here) number).1.Last v) ∧
      (keep (found, here) number).1.of number = joined (found.of number) piece ∧
      (∀ v, v ≠ number → (keep (found, here) number).1.of v = found.of v) ∧
      (keep (found, here) number).2 =
        { here with stretch := Function.update here.stretch number none } := by
  have hlast := h number
  unfold Found.Last at hlast
  unfold keep joined
  dsimp only
  rw [hpiece]
  dsimp only
  cases hi : found.last number with
  | none =>
    rw [hi] at hlast
    dsimp only at hlast
    obtain ⟨h₁, h₂, h₃⟩ := found.push number piece h
    rw [hlast] at h₂ ⊢
    exact ⟨h₁, h₂, h₃, rfl⟩
  | some i =>
    rw [hi] at hlast
    obtain ⟨before, previous, after, heq, hlen, hafter⟩ := hlast
    have hget : found.pieces[i]? = some (number, previous) := by
      rw [heq, ← hlen]
      simp
    have hof : found.of number =
        (before.filter (fun x => decide (x.1 = number))).map Prod.snd ++ [previous] := by
      simp [Found.of, heq, filter_eq_nil_of_ne hafter]
    have hgetLast : (found.of number).getLast? = some previous := by
      rw [hof, List.getLast?_concat]
    simp only [Option.bind_some, hget, Option.map_some, hgetLast]
    by_cases hjoin : previous.stop + 1 = piece.start
    · obtain ⟨h₁, h₂, h₃⟩ := @Found.replace found number before after previous
        ⟨previous.start, piece.stop⟩ heq (by rw [hi, hlen]) hafter h
      rw [hlen] at h₁ h₂ h₃
      rw [if_pos hjoin, if_pos hjoin]
      exact ⟨h₁, h₂, h₃, rfl⟩
    · obtain ⟨h₁, h₂, h₃⟩ := found.push number piece h
      rw [if_neg hjoin, if_neg hjoin]
      exact ⟨h₁, h₂, h₃, rfl⟩

/-- The stretches of a block kept: each value's is joined to what it has. -/
theorem foldl_keep (l : List ℕ) (hl : l.Nodup) (found : Found) (here : Here)
    (hset : ∀ v ∈ l, here.stretch v ≠ none) (h : ∀ v, found.Last v) :
    (∀ v, (l.foldl keep (found, here)).1.Last v) ∧
      (∀ v, (l.foldl keep (found, here)).1.of v =
        if v ∈ l then joinedTo (found.of v) (here.stretch v) else found.of v) ∧
      ∀ v, (l.foldl keep (found, here)).2.stretch v = if v ∈ l then none else here.stretch v := by
  induction l generalizing found here with
  | nil => exact ⟨h, by simp, by simp⟩
  | cons number l ih =>
    obtain ⟨piece, hpiece⟩ := Option.ne_none_iff_exists'.mp (hset number (List.mem_cons_self ..))
    obtain ⟨h₁, h₂, h₃, h₄⟩ := keep_spec found here hpiece h
    rw [List.nodup_cons] at hl
    rw [List.foldl_cons]
    generalize keep (found, here) number = s at h₁ h₂ h₃ h₄ ⊢
    obtain ⟨found', here'⟩ := s
    dsimp only at h₁ h₂ h₃ h₄
    subst h₄
    have hother (v : ℕ) (hv : v ∈ l) : v ≠ number := fun heq => hl.1 (heq ▸ hv)
    have hset' (v : ℕ) (hv : v ∈ l) : Function.update here.stretch number none v ≠ none := by
      rw [Function.update_of_ne (hother v hv)]
      exact hset v (List.mem_cons_of_mem _ hv)
    obtain ⟨ih₁, ih₂, ih₃⟩ := ih hl.2 found'
      { here with stretch := Function.update here.stretch number none } hset' h₁
    refine ⟨ih₁, ?_, ?_⟩
    · intro v
      rw [ih₂]
      by_cases hv : v = number
      · subst hv
        rw [if_neg hl.1, if_pos (List.mem_cons_self ..), h₂, hpiece]
        rfl
      · simp [hv, h₃ v hv]
    · intro v
      rw [ih₃]
      by_cases hv : v = number
      · subst hv
        simp
      · simp [hv]

/-! ## The blocks one after another -/

/-- Pieces in order, apart, none empty, and all in front of a point. -/
structure Laid (l : List Range) (bound : ℕ) : Prop where
  apart : l.Pairwise (fun r r' => r.stop + 1 < r'.start)
  nonempty : ∀ r ∈ l, r.start ≤ r.stop
  before : ∀ r ∈ l, r.stop < bound

/-- Some piece of a list covers a point. -/
def Covered (l : List Range) (p : ℕ) : Prop := ∃ r ∈ l, r.covers p = true

theorem Range.covers_iff (r : Range) (p : ℕ) : r.covers p = true ↔ r.start ≤ p ∧ p ≤ r.stop := by
  simp [Range.covers]

theorem covered_concat (l : List Range) (r : Range) (p : ℕ) :
    Covered (l ++ [r]) p ↔ Covered l p ∨ r.covers p = true := by
  simp [Covered, or_and_right, exists_or]

theorem Laid.mono {l : List Range} {bound bound' : ℕ} (h : Laid l bound) (hle : bound ≤ bound') :
    Laid l bound' :=
  ⟨h.apart, h.nonempty, fun r hr => lt_of_lt_of_le (h.before r hr) hle⟩

/-- A stretch that starts past the pieces there are is joined or put apart. -/
theorem Laid.joined {l : List Range} {bound bound' : ℕ} {piece : Range} (h : Laid l bound)
    (hstart : bound ≤ piece.start) (hle : piece.start ≤ piece.stop) (hstop : piece.stop < bound') :
    Laid (joined l piece) bound' ∧
      ∀ p, Covered (joined l piece) p ↔ Covered l p ∨ piece.covers p = true := by
  have hbound (r : Range) (hr : r ∈ l) : r.stop < piece.start :=
    lt_of_lt_of_le (h.before r hr) hstart
  unfold Regalloc.joined
  rcases List.eq_nil_or_concat' l with rfl | ⟨rest, previous, rfl⟩
  · refine ⟨⟨by simp, by simpa using hle, by simpa using hstop⟩, fun p => ?_⟩
    simp [Covered]
  · rw [List.getLast?_concat]
    dsimp only
    have hprevious := hbound previous (by simp)
    have hrange := h.nonempty previous (by simp)
    have happart := List.pairwise_append.mp h.apart
    split_ifs with hjoin
    · rw [List.dropLast_concat]
      refine ⟨⟨?_, ?_, ?_⟩, fun p => ?_⟩
      · rw [List.pairwise_append]
        refine ⟨happart.1, by simp, fun r hr r' hr' => ?_⟩
        rw [List.mem_singleton] at hr'
        subst hr'
        exact happart.2.2 r hr previous (by simp)
      · intro r hr
        rcases List.mem_append.mp hr with hr | hr
        · exact h.nonempty r (List.mem_append_left _ hr)
        · rw [List.mem_singleton] at hr
          subst hr
          dsimp only
          omega
      · intro r hr
        rcases List.mem_append.mp hr with hr | hr
        · have := hbound r (List.mem_append_left _ hr)
          omega
        · rw [List.mem_singleton] at hr
          subst hr
          exact hstop
      · -- The stretch runs on from the last piece without a gap.
        have hone : Range.covers ⟨previous.start, piece.stop⟩ p = true ↔
            previous.covers p = true ∨ piece.covers p = true := by
          rw [Range.covers_iff, Range.covers_iff, Range.covers_iff]
          dsimp only
          omega
        rw [covered_concat, covered_concat, hone, or_assoc]
    · refine ⟨⟨?_, ?_, ?_⟩, fun p => ?_⟩
      · rw [List.pairwise_append]
        refine ⟨h.apart, by simp, fun r hr r' hr' => ?_⟩
        rw [List.mem_singleton] at hr'
        subst hr'
        rcases List.mem_append.mp hr with hr' | hr'
        · have := happart.2.2 r hr' previous (by simp)
          omega
        · rw [List.mem_singleton] at hr'
          subst hr'
          omega
      · intro r hr
        rcases List.mem_append.mp hr with hr | hr
        · exact h.nonempty r hr
        · rw [List.mem_singleton] at hr
          rwa [hr]
      · intro r hr
        rcases List.mem_append.mp hr with hr | hr
        · have := hbound r hr
          omega
        · rw [List.mem_singleton] at hr
          rwa [hr]
      · exact covered_concat _ _ p

/-- The points a block is noted at for a value. -/
def Noted (f : Func) (liveIn liveOut : Rows) (v b p : ℕ) : Prop :=
  v < f.vregs ∧ NotedAt (notes f (Order.of f) liveIn liveOut b) v p

/-- The carving after some blocks of the line. -/
structure Carved (f : Func) (liveIn liveOut : Rows) (done : List ℕ) (s : Found × Here) : Prop where
  last : ∀ v, s.1.Last v
  empty : s.2 = ⟨fun _ => none, []⟩
  laid : ∀ v, Laid (s.1.of v) (Order.sizes f done)
  covered : ∀ v p, Covered (s.1.of v) p ↔ ∃ b ∈ done, ∃ p₁ p₂,
    Noted f liveIn liveOut v b p₁ ∧ Noted f liveIn liveOut v b p₂ ∧ p₁ ≤ p ∧ p ≤ p₂
  numbers : ∀ x ∈ s.1.pieces, x.1 < f.vregs

/-- A block is noted at the points it reads and writes a value at, at its start for what is live
into it and at its end for what is live out of it. -/
theorem notedAt_iff (f : Func) (liveIn liveOut : Rows) (v b p : ℕ) :
    NotedAt (notes f (Order.of f) liveIn liveOut b) v p ↔
      (v ∈ liveIn.row b ∧ p = (Order.of f).start b) ∨
        (v ∈ liveOut.row b ∧ p = (Order.of f).stop b) ∨ Writes f v b p ∨ Reads f v b p := by
  have hinst (q : ℕ) (o : Operand) (k : ℕ) :
      q ∈ pointsOf ((Order.of f).early b k) ((Order.of f).late b k) o.role ↔
        (o.role.isDef = false ∧ q = (Order.of f).early b k) ∨
          (o.role.isDef = true ∧ q = (Order.of f).late b k) ∨
          (o.role = .earlyDefine ∧ q = (Order.of f).early b k) := by
    cases o.role with
    | use => simp [pointsOf, Role.isDef]
    | define => simp [pointsOf, Role.isDef]
    | earlyDefine =>
      simp only [pointsOf, Role.isDef, List.mem_cons, List.not_mem_nil, or_false, true_and,
        Bool.true_eq_false, false_and, false_or]
      exact or_comm
  unfold NotedAt notes
  simp only [List.mem_append, List.mem_map, Prod.mk.injEq, Reg.virtualReg.injEq, List.mem_flatMap,
    List.mem_range, hinst]
  constructor
  · rintro ((((⟨w, hw, rfl, rfl⟩ | ⟨w, hw, rfl, rfl⟩) | ⟨param, hparam, hreg, rfl⟩) |
      ⟨k, hk, o, ho, q, hq, hreg, rfl⟩) | ⟨call, hcall, arg, harg, rfl, rfl⟩)
    · exact Or.inl ⟨hw, rfl⟩
    · exact Or.inr (Or.inl ⟨hw, rfl⟩)
    · exact Or.inr (Or.inr (Or.inl (Or.inl ⟨⟨param, hparam, hreg⟩, rfl⟩)))
    · rcases hq with ⟨hrole, rfl⟩ | ⟨hrole, rfl⟩ | ⟨hrole, rfl⟩
      · exact Or.inr (Or.inr (Or.inr (Or.inl ⟨k, ⟨o, ho, hreg, hrole⟩, rfl⟩)))
      · exact Or.inr (Or.inr (Or.inl (Or.inr ⟨k, Or.inl ⟨⟨o, ho, hreg, hrole⟩, rfl⟩⟩)))
      · exact Or.inr (Or.inr (Or.inl (Or.inr ⟨k, Or.inr ⟨⟨o, ho, hreg, hrole⟩, rfl⟩⟩)))
    · exact Or.inr (Or.inr (Or.inr (Or.inr ⟨⟨call, hcall, harg⟩, rfl⟩)))
  · rintro (⟨hw, rfl⟩ | ⟨hw, rfl⟩ | (⟨⟨param, hparam, hreg⟩, rfl⟩ |
      ⟨k, ⟨hdef, rfl⟩ | ⟨hdef, rfl⟩⟩) | (⟨k, huses, rfl⟩ | ⟨⟨call, hcall, harg⟩, rfl⟩))
    · exact Or.inl (Or.inl (Or.inl (Or.inl ⟨v, hw, rfl, rfl⟩)))
    · exact Or.inl (Or.inl (Or.inl (Or.inr ⟨v, hw, rfl, rfl⟩)))
    · exact Or.inl (Or.inl (Or.inr ⟨param, hparam, hreg, rfl⟩))
    · have hk := hdef.lt
      obtain ⟨o, ho, hreg, hrole⟩ := hdef
      exact Or.inl (Or.inr ⟨k, hk, o, ho, _, Or.inr (Or.inl ⟨hrole, rfl⟩), hreg, rfl⟩)
    · have hk := hdef.defines.lt
      obtain ⟨o, ho, hreg, hrole⟩ := hdef
      exact Or.inl (Or.inr ⟨k, hk, o, ho, _, Or.inr (Or.inr ⟨hrole, rfl⟩), hreg, rfl⟩)
    · have hk := huses.lt
      obtain ⟨o, ho, hreg, hrole⟩ := huses
      exact Or.inl (Or.inr ⟨k, hk, o, ho, _, Or.inl ⟨hrole, rfl⟩, hreg, rfl⟩)
    · exact Or.inr ⟨call, hcall, _, harg, rfl, rfl⟩

theorem Noted.bounds (hb : b < f.blockCount) (h : Noted f liveIn liveOut v b p) :
    (Order.of f).start b ≤ p ∧ p ≤ (Order.of f).stop b := by
  rcases (notedAt_iff f liveIn liveOut v b p).mp h.2 with ⟨-, rfl⟩ | ⟨-, rfl⟩ | hwrite | hread
  · rw [Order.stop_eq f hb]
    omega
  · rw [Order.stop_eq f hb]
    omega
  · have := hwrite.bounds hb
    omega
  · have := hread.bounds hb
    omega

/-- One block carved. -/
theorem Carved.step {f : Func} {liveIn liveOut : Rows} {done rest : List ℕ} {b : ℕ}
    {s : Found × Here} (hlayout : f.layout = done ++ b :: rest)
    (h : Carved f liveIn liveOut done s) :
    Carved f liveIn liveOut (done ++ [b]) (carveBlock f (Order.of f) liveIn liveOut s b) := by
  obtain ⟨found, here⟩ := s
  have hempty := h.empty
  dsimp only at hempty
  subst hempty
  have hb : b < f.blockCount := f.mem_layout.mp (by rw [hlayout]; simp)
  have hnoting : Noting f.vregs (notes f (Order.of f) liveIn liveOut b)
      ((notes f (Order.of f) liveIn liveOut b).foldl
        (fun here n => note f.vregs here n.1 n.2) ⟨fun _ => none, []⟩) := by
    apply Noting.foldl
    exact ⟨fun v => by simp [Around, NotedAt], by simp, by simp, by simp⟩
  unfold carveBlock
  dsimp only
  generalize (notes f (Order.of f) liveIn liveOut b).foldl
    (fun here n => note f.vregs here n.1 n.2) ⟨fun _ => none, []⟩ = here at hnoting ⊢
  obtain ⟨hlast, hof, hclear⟩ := foldl_keep here.touched hnoting.nodup found here hnoting.set h.last
  generalize here.touched.foldl keep (found, here) = t at hlast hof hclear ⊢
  -- What is not touched has no stretch, so every value is joined to its own.
  have hjoined (v : ℕ) : t.1.of v = joinedTo (found.of v) (here.stretch v) := by
    rw [hof]
    split_ifs with hv
    · rfl
    · have hnone : here.stretch v = none := by
        by_contra hne
        exact hv (hnoting.touched v hne)
      rw [hnone]
      rfl
  have hstart : (Order.of f).start b = Order.sizes f done := Order.start_eq f hlayout
  have hstop : (Order.of f).stop b + 1 = Order.sizes f (done ++ [b]) := by
    have hsize : Order.size f b = 2 * (f.block b).insts.length + 2 := rfl
    have hnil : Order.sizes f [] = 0 := rfl
    rw [Order.stop_eq f hb, hstart, Order.sizes_append, Order.sizes_cons, hsize, hnil]
    omega
  have hblock (v : ℕ) : Laid (t.1.of v) (Order.sizes f (done ++ [b])) ∧
      ∀ p, Covered (t.1.of v) p ↔ Covered (found.of v) p ∨ ∃ p₁ p₂,
        Noted f liveIn liveOut v b p₁ ∧ Noted f liveIn liveOut v b p₂ ∧ p₁ ≤ p ∧ p ≤ p₂ := by
    rw [hjoined]
    have haround := hnoting.stretch v
    cases hpiece : here.stretch v with
    | none =>
      rw [hpiece] at haround
      constructor
      · apply (h.laid v).mono
        rw [Order.sizes_append]
        exact Nat.le_add_right _ _
      · intro p
        constructor
        · exact Or.inl
        · rintro (hp | ⟨p₁, -, hp₁, -⟩)
          · exact hp
          · exact absurd hp₁ (haround p₁)
    | some piece =>
      rw [hpiece] at haround
      obtain ⟨h₁, h₂, hall⟩ := haround
      have hbounds₁ := Noted.bounds hb h₁
      have hbounds₂ := Noted.bounds hb h₂
      obtain ⟨hlaid, hcovered⟩ := @Laid.joined _ _ (Order.sizes f (done ++ [b])) piece (h.laid v)
        (by omega) (hall _ h₁).2 (by omega)
      refine ⟨hlaid, fun p => ?_⟩
      rw [joinedTo, hcovered, Range.covers_iff]
      apply or_congr Iff.rfl
      constructor
      · exact fun ⟨hp₁, hp₂⟩ => ⟨_, _, h₁, h₂, hp₁, hp₂⟩
      · rintro ⟨p₁, p₂, hn₁, hn₂, hp₁, hp₂⟩
        have := hall p₁ hn₁
        have := hall p₂ hn₂
        omega
  constructor
  · exact hlast
  · have hstretch : t.2.stretch = fun _ => none := by
      funext v
      rw [hclear]
      split_ifs with hv
      · rfl
      · by_contra hne
        exact hv (hnoting.touched v hne)
    dsimp only
    rw [hstretch]
  · exact fun v => (hblock v).1
  · intro v p
    rw [(hblock v).2, h.covered]
    constructor
    · rintro (⟨c, hc, hnoted⟩ | hnoted)
      · exact ⟨c, List.mem_append_left _ hc, hnoted⟩
      · exact ⟨b, by simp, hnoted⟩
    · rintro ⟨c, hc, hnoted⟩
      rcases List.mem_append.mp hc with hc | hc
      · exact Or.inl ⟨c, hc, hnoted⟩
      · rw [List.mem_singleton] at hc
        subst hc
        exact Or.inr hnoted
  · -- A piece of a value with no register number would be a stretch nothing noted.
    rintro ⟨v, piece⟩ hx
    have hmem : piece ∈ t.1.of v := by
      unfold Found.of
      rw [List.mem_map]
      exact ⟨(v, piece), List.mem_filter.mpr ⟨hx, by simp⟩, rfl⟩
    dsimp only
    by_contra hge
    have hcover : Covered (t.1.of v) piece.start := by
      refine ⟨piece, hmem, ?_⟩
      rw [Range.covers_iff]
      exact ⟨le_rfl, (hblock v).1.nonempty piece hmem⟩
    rcases ((hblock v).2 _).mp hcover with hold | ⟨p₁, -, hn, -⟩
    · obtain ⟨c, -, p₁, -, hn, -⟩ := (h.covered v _).mp hold
      exact hge hn.1
    · exact hge hn.1

/-! ## Reading the pieces -/

/-- The first piece that ends no earlier than a point is the only one that can cover it. -/
theorem Area.covers_iff {pieces : List Range} (h : pieces.Pairwise (fun r r' => r.stop + 1 < r'.start)) (p : ℕ) :
    (⟨pieces, none⟩ : Area).covers p = true ↔ Covered pieces p := by
  unfold Area.covers
  induction pieces with
  | nil => simp [Covered]
  | cons piece pieces ih =>
    obtain ⟨hpiece, hrest⟩ := List.pairwise_cons.mp h
    have ih := ih hrest
    have hcons : Covered (piece :: pieces) p ↔ piece.covers p = true ∨ Covered pieces p := by
      simp [Covered]
    dsimp only at ih ⊢
    rw [hcons]
    by_cases hstop : piece.stop < p
    · rw [List.dropWhile_cons_of_pos (by simpa using hstop)]
      have hnot : ¬ piece.covers p = true := by
        rw [Range.covers_iff]
        omega
      rw [or_iff_right hnot, ← ih]
      rfl
    · rw [List.dropWhile_cons_of_neg (by simpa using hstop)]
      have hnot : ¬ Covered pieces p := by
        rintro ⟨r, hr, hcovers⟩
        have := hpiece r hr
        rw [Range.covers_iff] at hcovers
        omega
      rw [or_iff_left hnot]
      rfl

/-- The pieces of every value are what was found for it. -/
theorem carve_spec (f : Func) (liveIn liveOut : Rows) (hv : v < f.vregs) :
    let pieces := slice (carve f (Order.of f) liveIn liveOut).1
      ((carve f (Order.of f) liveIn liveOut).2 v) ((carve f (Order.of f) liveIn liveOut).2 (v + 1))
    Laid pieces (Order.of f).points ∧
      ∀ p, Covered pieces p ↔ ∃ b < f.blockCount, ∃ p₁ p₂,
        Noted f liveIn liveOut v b p₁ ∧ Noted f liveIn liveOut v b p₂ ∧ p₁ ≤ p ∧ p ≤ p₂ := by
  have hloop (done rest : List ℕ) (hlayout : f.layout = done ++ rest) :
      Carved f liveIn liveOut done (done.foldl (carveBlock f (Order.of f) liveIn liveOut)
        (⟨[], fun _ => none⟩, ⟨fun _ => none, []⟩)) := by
    induction done using List.reverseRecOn generalizing rest with
    | nil =>
      exact ⟨fun v => by simp [Found.Last, Found.of], rfl,
        fun v => ⟨by simp [Found.of], by simp [Found.of], by simp [Found.of]⟩,
        fun v p => by simp [Covered, Found.of], by simp⟩
    | append_singleton done b ih =>
      rw [List.append_assoc] at hlayout
      rw [List.foldl_append, List.foldl_cons, List.foldl_nil]
      exact (ih _ hlayout).step hlayout
  have hall := hloop f.layout [] (by simp)
  have hpoints : (Order.of f).points = Order.sizes f f.layout := by
    unfold Order.of
    rw [(Order.foldl_lay f f.layout _).2]
    exact Nat.zero_add _
  unfold carve
  dsimp only
  rw [Order.of_blocks]
  generalize f.layout.foldl (carveBlock f (Order.of f) liveIn liveOut)
    (⟨[], fun _ => none⟩, ⟨fun _ => none, []⟩) = s at hall ⊢
  have hslice : slice (fun i => (scatter Prod.fst (starts f.vregs (s.1.pieces.map Prod.fst))
      (0, ⟨0, 0⟩) s.1.pieces i).2) (starts f.vregs (s.1.pieces.map Prod.fst) v)
      (starts f.vregs (s.1.pieces.map Prod.fst) (v + 1)) = s.1.of v := by
    unfold Found.of
    rw [← scatter_row Prod.fst (0, ⟨0, 0⟩) (fun k => rfl) hall.numbers hv]
    unfold slice
    rw [List.map_map]
    rfl
  rw [hslice, hpoints]
  refine ⟨hall.laid v, fun p => ?_⟩
  rw [hall.covered]
  simp only [f.mem_layout]

/-! ## Liveness is exact -/

/-- A value is live at a point of the line, by what `Live.of` answers. -/
def Live.coversAt (l : Live) (reg : Reg) (p : ℕ) : Bool :=
  match l.area reg with
  | none => false
  | some area => area.covers p

/-- Between two points of a block a value is noted at: it is live there, or it was live into the
block, is written in it and is live further on. -/
theorem noted_between_iff (honce : WrittenOnce f) (hb : b < f.blockCount) (hv : v < f.vregs)
    (hin : v ∈ liveIn.row b ↔ v < f.vregs ∧ LiveInto f v b)
    (hout : v ∈ liveOut.row b ↔ v < f.vregs ∧ LiveOutOf f v b)
    (hstart : (Order.of f).start b ≤ p) (hstop : p ≤ (Order.of f).stop b) :
    (∃ p₁ p₂, Noted f liveIn liveOut v b p₁ ∧ Noted f liveIn liveOut v b p₂ ∧ p₁ ≤ p ∧ p ≤ p₂) ↔
      LiveAt f v b p ∨ (LiveInto f v b ∧ WrittenIn f v b ∧
        ∃ q, p ≤ q ∧ q ≤ (Order.of f).stop b ∧ LiveAt f v b q) := by
  have hlive {q : ℕ} (h : Noted f liveIn liveOut v b q) : LiveAt f v b q := by
    rcases (notedAt_iff f liveIn liveOut v b q).mp h.2 with
      ⟨hmem, rfl⟩ | ⟨hmem, rfl⟩ | hwrite | hread
    · exact Or.inr (hin.mp hmem).2
    · obtain ⟨-, call, hcall, hnext⟩ := hout.mp hmem
      refine Or.inr (Wanted.leave hcall (fun w hw hwrite => ?_) hnext)
      have := (hwrite.bounds hb).2
      omega
    · exact Or.inl hwrite
    · exact Or.inr (Wanted.read hread le_rfl fun w hw hlt _ => by omega)
  -- Whatever is live has a noted point no earlier, and one no later if it did not come in.
  have hafter {q : ℕ} (hq : q ≤ (Order.of f).stop b) (h : LiveAt f v b q) :
      ∃ p₂, Noted f liveIn liveOut v b p₂ ∧ q ≤ p₂ := by
    have hnoted (p₂ : ℕ) := notedAt_iff f liveIn liveOut v b p₂
    rcases h with hwrite | hwanted
    · exact ⟨q, ⟨hv, (hnoted q).mpr (Or.inr (Or.inr (Or.inl hwrite)))⟩, le_rfl⟩
    · cases hwanted with
      | read hread hle _ => exact ⟨_, ⟨hv, (hnoted _).mpr (Or.inr (Or.inr (Or.inr hread)))⟩, hle⟩
      | leave hcall _ hnext =>
        exact ⟨_, ⟨hv, (hnoted _).mpr
          (Or.inr (Or.inl ⟨hout.mpr ⟨hv, _, hcall, hnext⟩, rfl⟩))⟩, hq⟩
  have hinto (h : LiveInto f v b) : Noted f liveIn liveOut v b ((Order.of f).start b) :=
    ⟨hv, (notedAt_iff f liveIn liveOut v b _).mpr (Or.inl ⟨hin.mpr ⟨hv, h⟩, rfl⟩)⟩
  constructor
  · rintro ⟨p₁, p₂, h₁, h₂, hle₁, hle₂⟩
    have hbounds₁ := h₁.bounds hb
    have hbounds₂ := h₂.bounds hb
    by_cases hapart : LiveInto f v b ∧ WrittenIn f v b
    · exact Or.inr ⟨hapart.1, hapart.2, p₂, hle₂, hbounds₂.2, hlive h₂⟩
    · exact Or.inl (LiveAt.between honce hb hapart hbounds₁.1 (hlive h₁) hle₁ hle₂ (hlive h₂))
  · rintro (h | ⟨hcome, -, q, hle, hq, h⟩)
    · obtain ⟨p₂, h₂, hle₂⟩ := hafter hstop h
      by_cases hwrite : ∃ w, w ≤ p ∧ Writes f v b w
      · obtain ⟨w, hw, hwrite⟩ := hwrite
        exact ⟨w, p₂, ⟨hv, (notedAt_iff f liveIn liveOut v b w).mpr
          (Or.inr (Or.inr (Or.inl hwrite)))⟩, h₂, hw, hle₂⟩
      · have hwanted : Wanted f v b p := by
          rcases h with hnow | hwanted
          · exact absurd ⟨p, le_rfl, hnow⟩ hwrite
          · exact hwanted
        have hcome : LiveInto f v b :=
          hwanted.back hstart fun w _ hlt hw => hwrite ⟨w, hlt.le, hw⟩
        exact ⟨_, p₂, hinto hcome, h₂, hstart, hle₂⟩
    · obtain ⟨p₂, h₂, hle₂⟩ := hafter hq h
      exact ⟨_, p₂, hinto hcome, h₂, hstart, hle.trans hle₂⟩

/-- Blocks do not share points. -/
theorem block_unique {c : ℕ} (hb : b < f.blockCount) (hc : c < f.blockCount)
    (hb₁ : (Order.of f).start b ≤ p) (hb₂ : p ≤ (Order.of f).stop b)
    (hc₁ : (Order.of f).start c ≤ p) (hc₂ : p ≤ (Order.of f).stop c) : b = c := by
  by_contra hne
  obtain ⟨before, after, hlayout⟩ := List.append_of_mem (f.mem_layout.mpr hb)
  have hmem : c ∈ before ++ b :: after := by
    rw [← hlayout]
    exact f.mem_layout.mpr hc
  rcases List.mem_append.mp hmem with hmem | hmem
  · obtain ⟨first, middle, rfl⟩ := List.append_of_mem hmem
    have := Order.stop_lt_start f hlayout
    omega
  · rcases List.mem_cons.mp hmem with heq | hmem
    · exact hne heq.symm
    · obtain ⟨middle, last, rfl⟩ := List.append_of_mem hmem
      have := @Order.stop_lt_start f before middle last b c (by simpa using hlayout)
      omega

/-- Liveness is exact, except that a value that is live into a block and written in it as well
counts as live there up to the last point it is. -/
theorem Live.of_exact (f : Func) (honce : WrittenOnce f) {v b : ℕ} (hv : v < f.vregs)
    (hb : b < f.blockCount) :
    (v ∈ (Live.of f (Order.of f)).liveIn b ↔ LiveInto f v b) ∧
      (v ∈ (Live.of f (Order.of f)).liveOut b ↔
        ∃ call ∈ (f.block b).succs, v ∈ (Live.of f (Order.of f)).liveIn call.block) ∧
      (∀ p, (Order.of f).start b ≤ p → p ≤ (Order.of f).stop b →
        ((Live.of f (Order.of f)).coversAt (.virtualReg v) p = true ↔
          LiveAt f v b p ∨ (LiveInto f v b ∧ WrittenIn f v b ∧
            ∃ q, p ≤ q ∧ q ≤ (Order.of f).stop b ∧ LiveAt f v b q))) ∧
      ((Live.of f (Order.of f)).piecesOf (.virtualReg v)).Pairwise
        (fun r r' => r.stop + 1 < r'.start) ∧
      ∀ r ∈ (Live.of f (Order.of f)).piecesOf (.virtualReg v), r.start ≤ r.stop := by
  have hflow {c : ℕ} (hc : c < f.blockCount) := flow_spec f (b := c) (v := v) hc
  have hcarve := carve_spec f
    (flow f (Order.of f) (exposed f (Order.of f)).1 (exposed f (Order.of f)).2).1
    (flow f (Order.of f) (exposed f (Order.of f)).1 (exposed f (Order.of f)).2).2 hv
  have hin {c : ℕ} (hc : c < f.blockCount) :
      v ∈ (Live.of f (Order.of f)).liveIn c ↔ LiveInto f v c :=
    (hflow hc).1.trans (and_iff_right hv)
  have hpieces : (Live.of f (Order.of f)).piecesOf (.virtualReg v) =
      slice (Live.of f (Order.of f)).pieces ((Live.of f (Order.of f)).spans v)
        ((Live.of f (Order.of f)).spans (v + 1)) := if_pos hv
  have hlaid : Laid ((Live.of f (Order.of f)).piecesOf (.virtualReg v)) (Order.of f).points := by
    rw [hpieces]
    exact hcarve.1
  refine ⟨hin hb, ?_, ?_, hlaid.apart, hlaid.nonempty⟩
  · apply (hflow hb).2.trans
    rw [and_iff_right hv]
    constructor
    · exact fun ⟨call, hcall, h⟩ => ⟨call, hcall, (hin (f.succ_lt hcall)).mpr h⟩
    · exact fun ⟨call, hcall, h⟩ => ⟨call, hcall, (hin (f.succ_lt hcall)).mp h⟩
  · intro p hstart hstop
    have hcovers : (Live.of f (Order.of f)).coversAt (.virtualReg v) p = true ↔
        Covered ((Live.of f (Order.of f)).piecesOf (.virtualReg v)) p := by
      rw [← Area.covers_iff hlaid.apart]
      unfold Live.coversAt Live.area
      cases (Live.of f (Order.of f)).piecesOf (.virtualReg v) with
      | nil => simp [Area.covers]
      | cons piece pieces => rfl
    rw [hcovers, hpieces]
    apply (hcarve.2 p).trans
    rw [← noted_between_iff honce hb hv (hflow hb).1 (hflow hb).2 hstart hstop]
    constructor
    · rintro ⟨c, hc, p₁, p₂, h₁, h₂, hle₁, hle₂⟩
      have hbounds₁ := h₁.bounds hc
      have hbounds₂ := h₂.bounds hc
      have heq : b = c := block_unique hb hc hstart hstop (by omega) (by omega)
      subst heq
      exact ⟨p₁, p₂, h₁, h₂, hle₁, hle₂⟩
    · exact fun h => ⟨b, hb, h⟩

/-- A block that goes round to itself, reads a value, and writes it further on. -/
def spin : Func where
  classes := [0]
  blocks := [⟨[], [[⟨.virtualReg 0, 0, .use, .reg⟩], [], [⟨.virtualReg 0, 0, .define, .reg⟩]],
    [⟨0, []⟩]⟩]
  layout := [0]
  classes_lt := by decide
  layout_perm := by decide
  succs_lt := by decide

theorem spin_operand {o : Operand} (h : o ∈ spin.operands b k) :
    b = 0 ∧ ((k = 0 ∧ o = ⟨.virtualReg 0, 0, .use, .reg⟩) ∨
      (k = 2 ∧ o = ⟨.virtualReg 0, 0, .define, .reg⟩)) := by
  match b, k with
  | 0, 0 => exact ⟨rfl, Or.inl ⟨rfl, List.mem_singleton.mp h⟩⟩
  | 0, 1 => cases h
  | 0, 2 => exact ⟨rfl, Or.inr ⟨rfl, List.mem_singleton.mp h⟩⟩
  | 0, k + 3 => cases h
  | b + 1, k => cases h

theorem spin_defines (h : Defines (spin.operands b k) v) : v = 0 ∧ b = 0 ∧ k = 2 := by
  obtain ⟨o, ho, hreg, hrole⟩ := h
  obtain ⟨hb, ⟨-, rfl⟩ | ⟨hk, rfl⟩⟩ := spin_operand ho
  · cases hrole
  · cases hreg
    exact ⟨rfl, hb, hk⟩

theorem not_spin_accepts (v b : ℕ) : ¬ Accepts (spin.block b) v := by
  rintro ⟨param, hparam, -⟩
  match b with
  | 0 => cases hparam
  | b + 1 => cases hparam

theorem spin_writtenOnce : WrittenOnce spin := by
  intro v s s' h h'
  cases s with
  | params b => exact absurd h (not_spin_accepts v b)
  | inst b k =>
    cases s' with
    | params b' => exact absurd h' (not_spin_accepts v b')
    | inst b' k' =>
      obtain ⟨-, rfl, rfl⟩ := spin_defines h
      obtain ⟨-, rfl, rfl⟩ := spin_defines h'
      rfl

/-- The value is not live between where it is read and where it is written again, and the answer
covers that. -/
theorem not_exact : ¬ ∀ f : Func, WrittenOnce f → ∀ v < f.vregs, ∀ b < f.blockCount,
    ∀ p, (Order.of f).start b ≤ p → p ≤ (Order.of f).stop b →
      ((Live.of f (Order.of f)).coversAt (.virtualReg v) p = true ↔ LiveAt f v b p) := by
  intro h
  have hlive := (h spin spin_writtenOnce 0 (by decide) 0 (by decide) 3 (by decide) (by decide)).mp
    (by decide)
  have hwrite : Writes spin 0 0 6 :=
    Or.inr ⟨2, Or.inl ⟨⟨⟨.virtualReg 0, 0, .define, .reg⟩, by decide, rfl, rfl⟩, by decide⟩⟩
  rcases hlive with hnow | hwanted
  · rcases hnow with ⟨haccepts, -⟩ | ⟨k, ⟨hdef, heq⟩ | ⟨⟨o, ho, -, hrole⟩, -⟩⟩
    · exact not_spin_accepts 0 0 haccepts
    · obtain ⟨-, -, rfl⟩ := spin_defines hdef
      exact absurd heq (by decide)
    · obtain ⟨-, ⟨-, rfl⟩ | ⟨-, rfl⟩⟩ := spin_operand ho
      · cases hrole
      · cases hrole
  · cases hwanted with
    | read hread hle _ =>
      rcases hread with ⟨k, ⟨o, ho, -, hrole⟩, rfl⟩ | ⟨⟨call, hcall, harg⟩, -⟩
      · obtain ⟨-, ⟨rfl, -⟩ | ⟨-, rfl⟩⟩ := spin_operand ho
        · exact absurd hle (by decide)
        · cases hrole
      · have heq : call = ⟨0, []⟩ := List.mem_singleton.mp hcall
        rw [heq] at harg
        cases harg
    | leave _ hfree _ => exact hfree 6 (by decide) hwrite

/-- The value is live into the block by the answer exactly when it is. -/
theorem exact_spin : 0 ∈ (Live.of spin (Order.of spin)).liveIn 0 ↔ LiveInto spin 0 0 :=
  (Live.of_exact spin spin_writtenOnce (v := 0) (b := 0) (by decide) (by decide)).1

end Rucc.Regalloc
