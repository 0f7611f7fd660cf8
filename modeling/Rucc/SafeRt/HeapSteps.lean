import Rucc.SafeRt.HeapHeld

/-!
# What the calls of the arena do

One lemma for each function of the arena in a held state, and from them that every permitted operation keeps
the invariant. A call at an address in front of which words look like a live header, without there being an
instance, is `Forged`, and is not permitted.
-/

namespace Rucc.SafeRt

open Checked

variable {r : Region} {w w' : World} {size n p : ℕ} {t : Tenant}

variable {b : ℕ} {s : Arena}

/-- The end of a region is an address. -/
theorem Tiles.limit_lt (tiles : Tiles r w) : w.arena.limit < 2^64 := by
  rw [tiles.limit]
  exact r.fits

/-- The bounds of an instance, for `omega`. -/
theorem Tiles.bounds (tiles : Tiles r w) (h : w.tenant p = some t) :
    p % 16 = 0 ∧ t.size % 16 = 0 ∧ 16 ≤ t.size ∧ 0 < w.arena.base ∧ w.arena.base + (32 + 2 * t.size) ≤ p ∧
      p + t.size ≤ w.arena.next ∧ w.arena.next ≤ w.arena.limit ∧ w.arena.limit < 2^64 := by
  have hplaced := tiles.placed p t h
  have hbase := tiles.base
  have hlimit := tiles.limit
  have hhigh := tiles.high
  have hpos := r.pos
  have hlt := tiles.limit_lt
  exact ⟨hplaced.aligned, hplaced.wrote.size.mod_eq_zero, hplaced.wrote.size.granule_le, by omega,
    hplaced.low, hplaced.high, by omega, hlt⟩

/-! ## A new instance -/

/-- The block `b` is free for a payload of `size` bytes, and its aux is empty, in the arena `s` that the search
for it leaves. -/
structure Vacant (r : Region) (w : World) (size b : ℕ) (s : Arena) : Prop where
  same : s = ⟨s.mem, w.arena.plane, w.arena.versions, w.arena.instances, w.arena.id, w.arena.base, s.next,
    w.arena.limit, s.free⟩
  pos : 0 < b
  aligned : b % 16 = 0
  low : w.arena.base ≤ b
  high : b + (32 + 3 * size) ≤ s.next
  next_le : w.arena.next ≤ s.next
  next_aligned : s.next % 16 = 0
  next_high : s.next ≤ r.base + r.len
  mem : ∀ a, a < b ∨ b + 2 * size ≤ a → s.mem a = w.arena.mem a
  empty : ∀ a, b ≤ a → a < b + 2 * size → s.mem a = 0
  untouched : ∀ a, s.next ≤ a → s.mem a = 0
  finished : ∀ u, w.tenant (b + (32 + 2 * size)) = some u → u.finished = true
  apart : ∀ q u, w.tenant q = some u → q ≠ b + (32 + 2 * size) → Apart (b + (32 + 2 * size)) size q u.size
  lists : Lists s.mem s.free (Function.update w.tenant (b + (32 + 2 * size)) none)

/-- A block off a free list is vacant once its aux is cleared. -/
theorem Held.reused (held : Held r w) (hsize : ClassSize size) (hne : w.arena.free (index (size / GRANULE)) ≠ 0) :
    let b := w.arena.free (index (size / GRANULE))
    Vacant r w size b
      { w.arena with
        mem := zeroed w.arena.mem b (2 * size)
        free := Function.update w.arena.free (index (size / GRANULE)) (w.arena.mem (b + (32 + 2 * size))) } := by
  intro b
  obtain ⟨⟨u, hu, husize, hfinished⟩, hlists⟩ := held.lists.pop hsize hne
  obtain ⟨haligned, hmod, hle, hpos, hlow, hhigh, hnext, hlt⟩ := held.tiles.bounds hu
  rw [husize] at hmod hle hlow hhigh
  have hbase := held.tiles.base
  have hout : ∀ q v, w.tenant q = some v → q ≠ b + (32 + 2 * size) →
      zeroed w.arena.mem b (2 * size) q = w.arena.mem q := by
    intro q v hq hne'
    have hap := held.tiles.apart _ q u v hu hq (Ne.symm hne')
    rw [husize] at hap
    obtain ⟨-, -, hle', -, hlow', -⟩ := held.tiles.bounds hq
    unfold zeroed
    unfold Apart at hap
    exact if_neg (by omega)
  constructor
  · rfl
  · exact Nat.pos_of_ne_zero hne
  · omega
  · omega
  · dsimp only
    omega
  · exact le_rfl
  · exact held.tiles.aligned
  · exact held.tiles.high
  · intro a ha
    exact if_neg (by omega)
  · intro a hlow' hhigh'
    exact if_pos ⟨hlow', hhigh'⟩
  · intro a ha
    dsimp only at ha ⊢
    unfold zeroed
    rw [if_neg (by omega)]
    exact held.untouched a ha
  · intro v hv
    rw [hu, Option.some.injEq] at hv
    subst hv
    exact hfinished
  · intro q v hq hne'
    have hap := held.tiles.apart _ q u v hu hq (Ne.symm hne')
    rwa [husize] at hap
  · intro size' hsize'
    obtain ⟨l, hlinked, hnodup, hl⟩ := hlists size' hsize'
    refine ⟨l, hlinked.congr fun b' hb' => ?_, hnodup, hl⟩
    obtain ⟨v, hv, -⟩ := (hl b').1 hb'
    by_cases hq : b' + (32 + 2 * size') = b + (32 + 2 * size)
    · rw [hq, Function.update_self] at hv
      exact absurd hv (by simp)
    · rw [Function.update_of_ne hq] at hv
      exact hout _ v hv hq

/-- A block behind all others is vacant. -/
theorem Held.bumped (held : Held r w) (hsize : ClassSize size)
    (hroom : w.arena.next + (32 + 3 * size) ≤ w.arena.limit) :
    Vacant r w size w.arena.next { w.arena with next := w.arena.next + (32 + 3 * size) } := by
  have hbase := held.tiles.base
  have hlimit := held.tiles.limit
  have hlow := held.tiles.low
  have hpos := r.pos
  have haligned := held.tiles.aligned
  have hmod := hsize.mod_eq_zero
  have hvacant : w.tenant (w.arena.next + (32 + 2 * size)) = none := by
    by_contra hsome
    obtain ⟨u, hu⟩ := Option.ne_none_iff_exists'.1 hsome
    obtain ⟨-, -, -, -, -, hhigh, -, -⟩ := held.tiles.bounds hu
    omega
  constructor
  · rfl
  · omega
  · exact haligned
  · omega
  · dsimp only
    omega
  · dsimp only
    omega
  · dsimp only
    omega
  · dsimp only
    omega
  · intro a _
    rfl
  · intro a hlow' _
    exact held.untouched a hlow'
  · intro a ha
    dsimp only at ha
    exact held.untouched a (by omega)
  · intro u hu
    rw [hvacant] at hu
    exact absurd hu (by simp)
  · intro q u hq _
    obtain ⟨-, -, -, -, -, hhigh, -, -⟩ := held.tiles.bounds hq
    exact Or.inr (by omega)
  · have hsame : Function.update w.tenant (w.arena.next + (32 + 2 * size)) none = w.tenant := by
      rw [← hvacant, Function.update_eq_self]
    rw [hsame]
    exact held.lists

/-- A search for a block finds a vacant one or leaves the arena. -/
theorem Held.place_spec (held : Held r w) (hsize : ClassSize size) (hfit : size ≤ 2^62) :
    w.arena.place size = some (0, w.arena) ∨
      ∃ b s, w.arena.place size = some (b, s) ∧ Vacant r w size b s := by
  have hblock : block size = some (32 + 3 * size) := by
    rw [hsize.block_eq, checkedWord_of_lt (by omega)]
  have haux : aux size = some (2 * size) := by
    rw [hsize.aux_eq, checkedWord_of_lt (by omega)]
  unfold Arena.place Arena.take
  rw [hsize.classOf_eq]
  simp only [Option.bind_eq_bind, Option.bind_some]
  by_cases hfree : w.arena.free (index (size / GRANULE)) = 0
  · have hnext : w.arena.next ≤ w.arena.limit := by
      rw [held.tiles.limit]
      exact held.tiles.high
    have hlt := held.tiles.limit_lt
    rw [if_pos hfree]
    simp only [Option.bind_some, if_true, Arena.bump, hblock, checkedSub_of_le hnext, Option.bind_eq_bind]
    by_cases hroom : w.arena.limit - w.arena.next < 32 + 3 * size
    · rw [if_pos hroom]
      exact Or.inl rfl
    · rw [if_neg hroom, checkedWord_of_lt (by omega)]
      exact Or.inr ⟨_, _, rfl, held.bumped hsize (by omega)⟩
  · obtain ⟨⟨u, hu, husize, -⟩, -⟩ := held.lists.pop hsize hfree
    obtain ⟨-, -, -, -, -, hhigh, hnext, hlt⟩ := held.tiles.bounds hu
    have hlink : payloadOf (w.arena.free (index (size / GRANULE))) size
        = some (w.arena.free (index (size / GRANULE)) + (32 + 2 * size)) := by
      rw [hsize.payloadOf_eq, checkedWord_of_lt (by omega)]
      congr 1
      omega
    rw [if_neg hfree, hlink]
    simp only [Option.bind_some, if_neg hfree, haux]
    exact Or.inr ⟨_, _, rfl, held.reused hsize hfree⟩

/-- The arena with an instance of `n` bytes begun in the vacant block in front of `p`. -/
def Arena.occupied (s : Arena) (p n size : ℕ) : Arena :=
  { s with
    mem := writeHeader s.mem p (s.fresh n size)
    plane := fill s.plane p size (s.fresh n size).ver
    versions := (s.versions + 1) % 2^64
    instances := (s.instances + 1) % 2^64 }

/-- A new instance lies in a vacant block, or there is no room for it and nothing changes. -/
theorem Held.begin_spec (held : Held r w) (hsized : sized n = some size) (hfit : size ≤ 2^62) :
    w.arena.begin n = some (0, w.arena) ∨
      ∃ b s, Vacant r w size b s ∧
        w.arena.begin n = some (b + (32 + 2 * size), s.occupied (b + (32 + 2 * size)) n size) := by
  have hsize : ClassSize size := classSize_of_sized hsized
  unfold Arena.begin
  rw [hsized]
  simp only [Option.bind_eq_bind, Option.bind_some]
  obtain hplace | ⟨b, s, hplace, hvacant⟩ := held.place_spec hsize hfit
  · rw [hplace]
    exact Or.inl rfl
  · have hhigh := hvacant.high
    have hnext := hvacant.next_high
    have hfits := r.fits
    have hpayload : payloadOf b size = some (b + (32 + 2 * size)) := by
      rw [hsize.payloadOf_eq, checkedWord_of_lt (by omega)]
      congr 1
      omega
    rw [hplace, Option.bind_some, if_neg hvacant.pos.ne', hpayload]
    exact Or.inr ⟨b, s, hvacant, rfl⟩

/-- What `begin` records of a new instance. -/
def Arena.tenant (s : Arena) (n size : ℕ) : Tenant := ⟨n, s.fresh n size, false, false⟩

/-- The new instance lies where the vacant block was. -/
theorem Vacant.placed (hvacant : Vacant r w size b s) (tiles : Tiles r w) (hsized : sized n = some size) :
    Placed (s.occupied (b + (32 + 2 * size)) n size) (b + (32 + 2 * size)) (s.tenant n size) := by
  have hsize : ClassSize size := classSize_of_sized hsized
  have hround : roundUp n = size := by
    rw [sized_eq, checkedWord_eq_some] at hsized
    exact hsized.2
  have hmod := hsize.mod_eq_zero
  have haligned := hvacant.aligned
  have hlow := hvacant.low
  have hhigh := hvacant.high
  have hsame := hvacant.same
  have hbase : s.base = w.arena.base := by rw [hsame]
  have hid : s.id < 2^32 := by
    have hrid : s.id = w.arena.id := by rw [hsame]
    rw [hrid, tiles.id]
    exact r.id_lt
  constructor
  · exact ⟨hsize, hround, ⟨s.instances, rfl⟩, rfl, rfl⟩
  · omega
  · change s.base + (32 + 2 * size) ≤ b + (32 + 2 * size)
    omega
  · change b + (32 + 2 * size) + size ≤ s.next
    omega
  · exact readHeader_writeHeader (by omega) hid
  · intro _ granule hcovers
    exact (fill_eq (by omega) hmod).1 hcovers

/-- Beginning an instance keeps the invariant. -/
theorem Held.begin (held : Held r w) (hvacant : Vacant r w size b s) (hsized : sized n = some size) :
    Held r ⟨s.occupied (b + (32 + 2 * size)) n size,
      Function.update w.tenant (b + (32 + 2 * size)) (some (s.tenant n size)), w.count + 1⟩ := by
  have hsize : ClassSize size := classSize_of_sized hsized
  have hmod := hsize.mod_eq_zero
  have hplaced := hvacant.placed held.tiles hsized
  have haligned := hvacant.aligned
  have hhigh := hvacant.high
  have hsame := hvacant.same
  have hversions : s.versions = w.arena.versions := by rw [hsame]
  have hplane : s.plane = w.arena.plane := by rw [hsame]
  have hapart := hvacant.apart
  have hfinished := hvacant.finished
  have hlists := hvacant.lists
  generalize hp : b + (32 + 2 * size) = p at *
  have hwrite : ∀ a, a + 32 < p ∨ p ≤ a → (s.occupied p n size).mem a = s.mem a :=
    fun a ha => writeHeader_of_out (by omega) ha
  have hfill : ∀ granule, ¬ Covers p size granule → (s.occupied p n size).plane granule = w.arena.plane granule := by
    intro granule hcovers
    rw [← hplane]
    exact (fill_eq (by omega) hmod).2 hcovers
  constructor
  · refine held.tiles.settle _ ?_ ?_ ?_ hvacant.next_le hvacant.next_aligned hvacant.next_high hapart
      (fun a ha => ?_) hfill hplaced
    · exact (congrArg Arena.base hsame : s.base = _)
    · exact (congrArg Arena.limit hsame : s.limit = _)
    · exact (congrArg Arena.id hsame : s.id = _)
    · change a + (32 + 2 * size) < p ∨ p + size ≤ a at ha
      rw [hwrite a (by omega)]
      exact hvacant.mem a (by omega)
  · intro granule howned
    by_cases hcovers : Covers p size granule
    · refine ⟨p, s.tenant n size, ⟨?_, rfl⟩, hcovers⟩
      exact Function.update_self _ _ _
    · rw [hfill granule hcovers] at howned
      obtain ⟨q, u, hlive, hcovers'⟩ := held.owner granule howned
      have hqp : q ≠ p := by
        rintro rfl
        exact absurd (hfinished u hlive.1) (by rw [hlive.2]; decide)
      refine ⟨q, u, ⟨?_, hlive.2⟩, hcovers'⟩
      exact (Function.update_of_ne hqp _ _).trans hlive.1
  · intro a ha
    change s.next ≤ a at ha
    change (s.occupied p n size).mem a = 0
    rw [hwrite a (by omega)]
    exact hvacant.untouched a ha
  · have hkeep : Lists (s.occupied p n size).mem s.free
        (Function.update (Function.update w.tenant p none) p (some (s.tenant n size))) := by
      refine hlists.keep (fun q u hq _ => ?_) (fun u hu => ?_) rfl
      · -- the payload of another instance is outside of the header that is written
        have hqp : q ≠ p := by
          rintro rfl
          rw [Function.update_self] at hq
          exact absurd hq (by simp)
        rw [Function.update_of_ne hqp] at hq
        have hap := hapart q u hq hqp
        obtain ⟨-, -, hle, -⟩ := held.tiles.bounds hq
        unfold Apart at hap
        exact hwrite q (by omega)
      · rw [Function.update_self] at hu
        exact absurd hu (by simp)
    rwa [Function.update_idem] at hkeep
  · change (s.versions + 1) % 2^64 = (w.count + 1 + 1) % 2^64
    rw [hversions, held.versions, Nat.mod_add_mod]
  · intro hcount q u hq
    dsimp only at hcount hq
    by_cases hqp : q = p
    · rw [hqp, Function.update_self, Option.some.injEq] at hq
      subst hq
      change owned (SafeRt.begun s.versions) = true
      have hcounter : s.versions = w.count + 1 := by
        rw [hversions, held.versions]
        omega
      rw [hcounter]
      simp only [owned, SafeRt.begun, DEAD, Bool.and_eq_true, bne_iff_ne, ne_eq, beq_iff_eq]
      omega
    · rw [Function.update_of_ne hqp] at hq
      exact held.named (by omega) q u hq

/-! ## The header in front of an address -/

/-- The words in front of `p` look like the header of a live instance of this arena, or are of an allocated
one and its size is so large that the arithmetic on it overflows: that of the rounding, of the start of the
block or of the end of the payload. -/
def Forged (s : Arena) (p : ℕ) : Prop :=
  let h := readHeader s.mem p
  p % GRANULE = 0 ∧ s.base + HEADER < p ∧ p ≤ s.limit ∧ Meta.class h.info = Class.allocated.code ∧
    (7 * 2^61 < h.ext ∨ ClassSize h.ext ∧ (p < 32 + 2 * h.ext ∨ s.base + (32 + 2 * h.ext) ≤ p ∧
      (2^64 ≤ p + h.ext ∨
        p + h.ext ≤ s.limit ∧ h.allocator = s.id ∧ Meta.state h.info = State.live.code)))

/-- Where nothing is forged, no header is found. -/
theorem header_of_not_forged (hlimit : s.limit < 2^64) (h : ¬ Forged s p) :
    ∃ refusal, s.header p = some (.error refusal) := by
  unfold Arena.header
  by_cases hscreen : p % GRANULE ≠ 0 ∨ p ≤ s.base + HEADER ∨ s.limit < p
  · rw [if_pos hscreen]
    exact ⟨_, rfl⟩
  obtain ⟨hgranule, hlow, hhigh⟩ : p % GRANULE = 0 ∧ s.base + HEADER < p ∧ p ≤ s.limit := by omega
  rw [if_neg hscreen]
  dsimp only
  generalize hread : readHeader s.mem p = head at *
  by_cases hclass : Meta.class head.info = Class.allocated.code
  swap
  · rw [if_pos hclass]
    exact ⟨_, rfl⟩
  simp only [Forged, hread, hgranule, hlow, hhigh, hclass, true_and, not_or, not_and, not_lt] at h
  obtain ⟨hfit, hrest⟩ := h
  rw [if_neg (not_not.2 hclass), sized_eq, checkedWord_of_lt (roundUp_lt_iff.2 hfit)]
  simp only [Option.bind_eq_bind, Option.bind_some]
  by_cases hround : roundUp head.ext = head.ext
  swap
  · rw [if_pos (Ne.symm hround)]
    exact ⟨_, rfl⟩
  have hsize : ClassSize head.ext := classSize_iff.2 ⟨by omega, hround⟩
  obtain ⟨hblock, hrest⟩ := hrest hsize
  rw [if_neg (not_not.2 hround.symm), hsize.blockOf_eq (by omega), checkedSub_of_le hblock, Option.bind_some]
  by_cases hbase : p - (32 + 2 * head.ext) < s.base
  · rw [if_pos hbase]
    exact ⟨_, rfl⟩
  obtain ⟨hend, hrest⟩ := hrest (by omega)
  rw [if_neg hbase, checkedWord_of_lt (Nat.lt_of_not_le hend), Option.bind_some]
  split_ifs with hout hid hstate
  · exact ⟨_, rfl⟩
  · exact ⟨_, rfl⟩
  · exact ⟨_, rfl⟩
  · exact absurd (not_not.1 hstate) (hrest (by omega) (not_not.1 hid))

/-- The header in front of an instance is found while the instance is live. -/
theorem Held.header_of_tenant (held : Held r w) (h : w.tenant p = some t) :
    w.arena.header p = some (if t.finished then .error .alreadyEnded else .ok t.now) := by
  have hplaced := held.tiles.placed p t h
  obtain ⟨haligned, hmod, hle, hpos, hlow, hhigh, hnext, hlt⟩ := held.tiles.bounds h
  obtain ⟨i, hinfo⟩ := hplaced.wrote.info
  have hsize : ClassSize t.now.ext := hplaced.wrote.size
  have hsized : sized t.now.ext = some t.now.ext := hsize
  have hext : t.now.ext = t.size := rfl
  have hclass : Meta.class t.now.info = Class.allocated.code := by
    unfold Tenant.now
    dsimp only
    rw [hinfo]
    split_ifs
    · rw [Meta.class_withState, Meta.class_new]
    · exact Meta.class_new i
  have hid : t.now.allocator = w.arena.id := hplaced.wrote.allocator
  have hend : p + t.now.ext < 2^64 := by omega
  have hp : p < 2^64 := by omega
  unfold Arena.header
  rw [if_neg (by unfold GRANULE HEADER; omega), hplaced.header]
  simp only [hclass, hsized, Option.bind_eq_bind, Option.bind_some, ne_eq, not_true_eq_false, if_false,
    hsize.blockOf_eq hp,
    checkedSub_of_le (a := p) (b := 32 + 2 * t.now.ext) (by omega), checkedWord_of_lt hend, hid]
  rw [if_neg (by omega), if_neg (by omega)]
  unfold Tenant.now
  cases hfinished : t.finished with
  | false =>
    simp only [hinfo, Bool.false_eq_true, if_false, Meta.state_new, not_true_eq_false]
  | true =>
    simp only [if_true, Meta.state_withState_ended]
    rw [if_pos (by decide)]

theorem Held.header_of_live (held : Held r w) (h : w.Live p t) : w.arena.header p = some (.ok t.now) := by
  rw [held.header_of_tenant h.1, h.2]
  rfl

/-! ## The end of an instance and writes into one -/

/-- The block of an instance, as the free path computes it. -/
theorem Held.blockOf_eq (held : Held r w) (h : w.tenant p = some t) :
    blockOf p t.size = some (p - (32 + 2 * t.size)) := by
  obtain ⟨-, -, -, -, hlow, hhigh, hnext, hlt⟩ := held.tiles.bounds h
  have hsize := (held.tiles.placed p t h).wrote.size
  rw [hsize.blockOf_eq (by omega), checkedSub_of_le (by omega)]

/-- The arena with the live instance at `p` ended. -/
def Arena.vacated (s : Arena) (p : ℕ) (t : Tenant) : Arena :=
  { s with
    mem := Function.update
      (writeHeader s.mem p
        { t.now with ver := ended t.now.ver, info := Meta.withState t.now.info .ended }) p
      (s.free (index (t.size / GRANULE)))
    plane := fill s.plane p t.size (ended t.now.ver)
    free := Function.update s.free (index (t.size / GRANULE)) (p - (32 + 2 * t.size)) }

/-- A free of a live instance ends it. -/
theorem Held.end_spec (held : Held r w) (h : w.Live p t) : w.arena.end_ p = some (.ok (), w.arena.vacated p t) := by
  obtain ⟨-, -, -, -, hlow, hhigh, hnext, hlt⟩ := held.tiles.bounds h.1
  have hsize := (held.tiles.placed p t h.1).wrote.size
  have hlink : payloadOf (p - (32 + 2 * t.size)) t.size = some p := by
    rw [hsize.payloadOf_eq, checkedWord_eq_some]
    omega
  unfold Arena.end_
  rw [held.header_of_live h]
  simp only [Option.bind_eq_bind, Option.bind_some]
  have hext : t.now.ext = t.size := rfl
  rw [hext, held.blockOf_eq h.1, Option.bind_some]
  unfold Arena.put
  rw [hsize.classOf_eq]
  simp only [Option.bind_eq_bind, Option.bind_some, hlink]
  rfl

/-- Ending an instance keeps the invariant. -/
theorem Held.end_ (held : Held r w) (h : w.Live p t) :
    Held r ⟨w.arena.vacated p t, Function.update w.tenant p (some { t with finished := true }), w.count⟩ := by
  obtain ⟨haligned, hmod, hle, hpos, hlow, hhigh, hnext, hlt⟩ := held.tiles.bounds h.1
  have hplaced := held.tiles.placed p t h.1
  have hid : t.now.allocator < 2^32 := by
    have hsame : t.now.allocator = w.arena.id := hplaced.wrote.allocator
    rw [hsame, held.tiles.id]
    exact r.id_lt
  have hnow : ({ t with finished := true } : Tenant).now
      = { t.now with ver := ended t.now.ver, info := Meta.withState t.now.info .ended } := by
    unfold Tenant.now
    simp only [h.2, Bool.false_eq_true, if_false, if_true]
  have hout : ∀ a, a + 32 < p ∨ p < a → (w.arena.vacated p t).mem a = w.arena.mem a := by
    intro a ha
    have hne : a ≠ p := by omega
    exact (Function.update_of_ne hne _ _).trans (writeHeader_of_out (by omega) (by omega))
  have hfill : ∀ granule, ¬ Covers p t.size granule →
      (w.arena.vacated p t).plane granule = w.arena.plane granule :=
    fun granule hcovers => (fill_eq haligned hmod).2 hcovers
  have hother : ∀ q u, w.tenant q = some u → q ≠ p → Apart p t.size q u.size :=
    fun q u hq hne => held.tiles.apart p q t u h.1 hq hne.symm
  constructor
  · refine held.tiles.settle _ rfl rfl rfl le_rfl held.tiles.aligned held.tiles.high hother
      (fun a ha => ?_) hfill ?_
    · change a + (32 + 2 * t.size) < p ∨ p + t.size ≤ a at ha
      exact hout a (by omega)
    · constructor
      · exact ⟨hplaced.wrote.size, hplaced.wrote.asked, hplaced.wrote.info, hplaced.wrote.allocator,
          hplaced.wrote.slack⟩
      · exact haligned
      · exact hplaced.low
      · exact hplaced.high
      · rw [hnow]
        have hkeep : ∀ mem : ℕ → ℕ, ∀ v, readHeader (Function.update mem p v) p = readHeader mem p :=
          fun mem v => readHeader_congr (by omega) fun a _ ha => Function.update_of_ne (by omega) _ _
        exact (hkeep _ _).trans (readHeader_writeHeader (by omega) hid)
      · intro hlive
        exact absurd hlive.symm Bool.false_ne_true
  · intro granule howned
    by_cases hcovers : Covers p t.size granule
    · have hfilled : (w.arena.vacated p t).plane granule = ended t.now.ver :=
        (fill_eq haligned hmod).1 hcovers
      change owned ((w.arena.vacated p t).plane granule) = true at howned
      rw [hfilled, not_owned_ended] at howned
      exact absurd howned (by decide)
    · change owned ((w.arena.vacated p t).plane granule) = true at howned
      rw [hfill granule hcovers] at howned
      obtain ⟨q, u, hlive, hcovers'⟩ := held.owner granule howned
      have hqp : q ≠ p := by
        rintro rfl
        obtain rfl := Option.some.inj (hlive.1.symm.trans h.1)
        exact hcovers hcovers'
      refine ⟨q, u, ⟨?_, hlive.2⟩, hcovers'⟩
      exact (Function.update_of_ne hqp _ _).trans hlive.1
  · intro a ha
    change w.arena.next ≤ a at ha
    exact (hout a (by omega)).trans (held.untouched a ha)
  · refine held.lists.push hplaced.wrote.size (by omega) (by omega) h.1 h.2 (fun q u hq hfinished => ?_) ?_
    · have hqp : q ≠ p := by
        rintro rfl
        obtain rfl := Option.some.inj (hq.symm.trans h.1)
        exact absurd hfinished (by rw [h.2]; decide)
      have hap := hother q u hq hqp
      obtain ⟨-, -, hle', -⟩ := held.tiles.bounds hq
      unfold Apart at hap
      exact hout q (by omega)
    · exact Function.update_self _ _ _
  · exact held.versions
  · intro hcount q u hq
    dsimp only at hcount hq
    by_cases hqp : q = p
    · rw [hqp, Function.update_self, Option.some.injEq] at hq
      subst hq
      exact held.named hcount p t h.1
    · rw [Function.update_of_ne hqp] at hq
      exact held.named hcount q u hq

/-- A change inside the block of a live instance keeps the invariant when its header is as it should be. -/
theorem Held.inside (held : Held r w) (h : w.Live p t) {mem : ℕ → ℕ} {roomed : Bool}
    (hmem : ∀ a, a + (32 + 2 * t.size) < p ∨ p + t.size ≤ a → mem a = w.arena.mem a)
    (hheader : readHeader mem p = ({ t with roomed := roomed } : Tenant).now) :
    Held r ⟨{ w.arena with mem := mem }, Function.update w.tenant p (some { t with roomed := roomed }),
      w.count⟩ := by
  obtain ⟨haligned, hmod, hle, hpos, hlow, hhigh, hnext, hlt⟩ := held.tiles.bounds h.1
  have hplaced := held.tiles.placed p t h.1
  have hother : ∀ q u, w.tenant q = some u → q ≠ p → Apart p t.size q u.size :=
    fun q u hq hne => held.tiles.apart p q t u h.1 hq hne.symm
  constructor
  · refine held.tiles.settle _ rfl rfl rfl le_rfl held.tiles.aligned held.tiles.high hother hmem
      (fun _ _ => rfl) ?_
    constructor
    · exact ⟨hplaced.wrote.size, hplaced.wrote.asked, hplaced.wrote.info, hplaced.wrote.allocator,
        hplaced.wrote.slack⟩
    · exact haligned
    · exact hplaced.low
    · exact hplaced.high
    · exact hheader
    · exact hplaced.plane
  · intro granule howned
    obtain ⟨q, u, hlive, hcovers⟩ := held.owner granule howned
    by_cases hqp : q = p
    · subst hqp
      obtain rfl := Option.some.inj (hlive.1.symm.trans h.1)
      exact ⟨q, { u with roomed := roomed }, ⟨Function.update_self _ _ _, hlive.2⟩, hcovers⟩
    · refine ⟨q, u, ⟨?_, hlive.2⟩, hcovers⟩
      exact (Function.update_of_ne hqp _ _).trans hlive.1
  · intro a ha
    change w.arena.next ≤ a at ha
    exact (hmem a (by omega)).trans (held.untouched a ha)
  · refine held.lists.keep (fun q u hq hfinished => ?_) (fun u hu => ?_) h.2
    · have hqp : q ≠ p := by
        rintro rfl
        obtain rfl := Option.some.inj (hq.symm.trans h.1)
        exact absurd hfinished (by rw [h.2]; decide)
      have hap := hother q u hq hqp
      obtain ⟨-, -, hle', -⟩ := held.tiles.bounds hq
      unfold Apart at hap
      exact hmem q (by omega)
    · obtain rfl := Option.some.inj (hu.symm.trans h.1)
      exact h.2
  · exact held.versions
  · intro hcount q u hq
    dsimp only at hcount hq
    by_cases hqp : q = p
    · rw [hqp, Function.update_self, Option.some.injEq] at hq
      subst hq
      exact held.named hcount p t h.1
    · rw [Function.update_of_ne hqp] at hq
      exact held.named hcount q u hq

/-- The room of a live instance is all of it, and its slack is gone. -/
theorem Held.room_spec (held : Held r w) (h : w.Live p t) : ∃ s, w.arena.room p = some (.ok t.size, s) ∧
      Held r ⟨s, Function.update w.tenant p (some { t with roomed := true }), w.count⟩ := by
  obtain ⟨-, -, -, -, hlow, -⟩ := held.tiles.bounds h.1
  have hplaced := held.tiles.placed p t h.1
  have hid : t.now.allocator < 2^32 := by
    have hsame : t.now.allocator = w.arena.id := hplaced.wrote.allocator
    rw [hsame, held.tiles.id]
    exact r.id_lt
  have hnow : ({ t with roomed := true } : Tenant).now = { t.now with slack := 0 } := by
    unfold Tenant.now
    simp only [if_true]
  unfold Arena.room
  rw [held.header_of_live h]
  simp only [Option.bind_eq_bind, Option.bind_some]
  by_cases hslack : t.now.slack = 0
  · rw [if_neg (not_not.2 hslack)]
    refine ⟨_, rfl, held.inside h (fun _ _ => rfl) ?_⟩
    rw [hnow, hplaced.header, ← hslack]
  · rw [if_pos hslack]
    refine ⟨_, rfl, held.inside h (fun a ha => ?_) ?_⟩
    · exact writeHeader_of_out (by omega) (by omega)
    · rw [hnow]
      exact readHeader_writeHeader (by omega) hid

/-- A write into the payload or the aux of a live instance keeps the invariant. -/
theorem Held.store (held : Held r w) (h : w.Live p t) {addr word : ℕ} (haligned : addr % 8 = 0)
    (hinside : p ≤ addr ∧ addr < p + t.size ∨ p ≤ addr + (32 + 2 * t.size) ∧ addr + 32 < p) :
    Held r { w with arena := { w.arena with mem := Function.update w.arena.mem addr word } } := by
  obtain ⟨-, -, -, -, hlow, -⟩ := held.tiles.bounds h.1
  have hplaced := held.tiles.placed p t h.1
  have hkeep := @Held.inside r w p t held h (Function.update w.arena.mem addr word) t.roomed
    (fun a ha => Function.update_of_ne (by omega) _ _) ?_
  · rw [← h.1, Function.update_eq_self] at hkeep
    exact hkeep
  · rw [readHeader_congr (by omega) fun a hlow' hhigh' => Function.update_of_ne (by omega) _ _]
    exact hplaced.header

end Rucc.SafeRt
