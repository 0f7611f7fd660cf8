import Rucc.SafeRt.HeapSteps

/-!
# The arena under hostile frees

`Held.step` runs the invariant over the permitted operations, and `reachable_sound` says what it gives in
every world reached: the live instances lie apart in the region, a free is answered exactly at a live
instance, the free lists hold the ended blocks and `each` lists the live ones.

A free asked inside the payload of an instance reads a header that the program wrote. `forged_free` is a run
where such a free is answered.
-/

namespace Rucc.SafeRt

open Checked

variable {r : Region} {w w' : World} {n p : ℕ} {t : Tenant}

variable {bytes : ℕ}

/-- What the heap admits has a class size of at most a quarter of the address space. -/
theorem sized_of_needed (h : needed n = some (some bytes)) : sized n = some (roundUp n) ∧ roundUp n ≤ 2^62 := by
  have hn : n ≤ (2^64 - 1) / 4 := by
    by_contra hlt
    unfold needed at h
    rw [if_pos (Nat.lt_of_not_le hlt)] at h
    exact absurd h (by simp)
  have hcount : granules n ≤ 2^58 := by
    unfold granules divCeil GRANULE
    split_ifs <;> omega
  have hle : roundUp n ≤ 2^62 := by
    have hrounded := rounded_le hcount
    unfold roundUp GRANULE
    omega
  refine ⟨?_, hle⟩
  rw [sized_eq, checkedWord_of_lt (by omega)]

/-! ## Runs -/

/-- The operations that are not asked about an address with forged words in front of it. -/
def World.Honest (w : World) : Op → Prop
  | .begin _ => True
  | .end_ p => w.tenant p = none → ¬ Forged w.arena p
  | .room p => w.tenant p = none → ¬ Forged w.arena p
  | .store _ _ => True

/-- Where there is no live instance, a call that is not about forged words is refused. -/
theorem Held.header_of_not_live (held : Held r w) (hhonest : w.tenant p = none → ¬ Forged w.arena p)
    (hlive : ∀ t, ¬ w.Live p t) : ∃ refusal, w.arena.header p = some (.error refusal) := by
  cases htenant : w.tenant p with
  | none => exact header_of_not_forged held.tiles.limit_lt (hhonest htenant)
  | some t =>
    cases hfinished : t.finished with
    | false => exact absurd ⟨htenant, hfinished⟩ (hlive t)
    | true =>
      refine ⟨.alreadyEnded, ?_⟩
      rw [held.header_of_tenant htenant, hfinished]
      rfl

/-- A permitted operation keeps the invariant. -/
theorem Held.step {op : Op} (held : Held r w) (hlegal : w.Legal op) (hhonest : w.Honest op)
    (hstep : w.step op = some w') : Held r w' := by
  cases op with
  | begin n =>
    obtain ⟨bytes, hneeded⟩ := hlegal
    obtain ⟨hsized, hfit⟩ := sized_of_needed hneeded
    rw [World.step] at hstep
    obtain hnone | ⟨b, s, hvacant, hbegin⟩ := held.begin_spec hsized hfit
    · rw [hnone] at hstep
      simp only [Option.bind_eq_bind, Option.bind_some, if_true, Option.some.injEq] at hstep
      subst hstep
      exact held
    · have hkept := held.begin hvacant hsized
      have hplaced := hkept.tiles.placed (b + (32 + 2 * roundUp n)) (s.tenant n (roundUp n))
        (Function.update_self _ _ _)
      have hne : b + (32 + 2 * roundUp n) ≠ 0 := by omega
      rw [hbegin] at hstep
      simp only [Option.bind_eq_bind, Option.bind_some, if_neg hne, Option.some.injEq] at hstep
      subst hstep
      rw [hplaced.header]
      exact hkept
  | end_ p =>
    rw [World.step] at hstep
    by_cases hlive : ∃ t, w.Live p t
    · obtain ⟨t, hlive⟩ := hlive
      rw [held.end_spec hlive] at hstep
      simp only [Option.bind_eq_bind, Option.bind_some, hlive.1, Option.map_some, Option.some.injEq] at hstep
      subst hstep
      exact held.end_ hlive
    · obtain ⟨refusal, hheader⟩ := held.header_of_not_live hhonest (not_exists.1 hlive)
      unfold Arena.end_ at hstep
      rw [hheader] at hstep
      simp only [Option.bind_eq_bind, Option.bind_some, Option.some.injEq] at hstep
      subst hstep
      exact held
  | room p =>
    rw [World.step] at hstep
    by_cases hlive : ∃ t, w.Live p t
    · obtain ⟨t, hlive⟩ := hlive
      obtain ⟨s, hroom, hkept⟩ := held.room_spec hlive
      rw [hroom] at hstep
      simp only [Option.bind_eq_bind, Option.bind_some, hlive.1, Option.map_some, Option.some.injEq] at hstep
      subst hstep
      exact hkept
    · obtain ⟨refusal, hheader⟩ := held.header_of_not_live hhonest (not_exists.1 hlive)
      unfold Arena.room at hstep
      rw [hheader] at hstep
      simp only [Option.bind_eq_bind, Option.bind_some, Option.some.injEq] at hstep
      subst hstep
      exact held
  | store addr word =>
    obtain ⟨haligned, -, p, t, hlive, hinside⟩ := hlegal
    rw [World.step] at hstep
    obtain rfl := Option.some.inj hstep
    exact held.store hlive haligned hinside

/-- The operations a run may be made of: those of a program, none of them about forged words. -/
def World.Permitted (w : World) (op : Op) : Prop := w.Legal op ∧ w.Honest op

/-- Every world that a run of permitted operations reaches is held. -/
theorem held_of_reachable (h : World.Reachable World.Permitted r w) : Held r w := by
  induction h with
  | new => exact Held.new r
  | step _ hpermitted hstep ih => exact ih.step hpermitted.1 hpermitted.2 hstep

/-! ## The walk over the live instances -/

/-- The bytes that the header of a live instance says were asked for. -/
theorem Tenant.Wrote.asked_now {id : ℕ} (h : t.Wrote id) : t.now.asked = some t.bytes := by
  have hle : t.asked ≤ t.size := by
    rw [← h.asked]
    exact le_roundUp _
  change checkedSub t.size (if t.roomed then 0 else t.header.slack) = some t.bytes
  rw [checkedSub_eq_some, h.slack]
  unfold Tenant.bytes
  cases t.roomed with
  | true => exact ⟨Nat.zero_le _, rfl⟩
  | false =>
    by_cases hfit : t.size - t.asked < 2^32
    · rw [if_pos hfit, decide_eq_true hfit]
      exact ⟨Nat.sub_le _ _, Nat.sub_sub_self hle⟩
    · rw [if_neg hfit, decide_eq_false hfit]
      exact ⟨Nat.zero_le _, rfl⟩

/-- The walk finds an instance at the start of a live one. -/
theorem Held.starts_live (held : Held r w) (h : w.Live p t) (howned : owned t.header.ver = true) :
    w.arena.plane (p / GRANULE) = t.header.ver ∧
      w.arena.starts p t.header.ver (readHeader w.arena.mem p) = some true := by
  have hplaced := held.tiles.placed p t h.1
  obtain ⟨haligned, -, hle, -, -, hhigh, hnext, hlt⟩ := held.tiles.bounds h.1
  obtain ⟨i, hinfo⟩ := hplaced.wrote.info
  have hsized : sized t.header.ext = some t.header.ext := hplaced.wrote.size
  have hfits : p + t.header.ext < 2^64 := by
    change p + t.size < 2^64
    omega
  have hwithin : p + t.header.ext ≤ w.arena.next := hhigh
  refine ⟨hplaced.plane h.2 _ ?_, ?_⟩
  · unfold Covers GRANULE
    omega
  · rw [hplaced.header]
    unfold Arena.starts Tenant.now
    simp only [h.2, howned, hinfo, Bool.false_eq_true, if_false, Meta.class_new, Meta.state_new,
      hplaced.wrote.allocator, ne_eq, not_true_eq_false, or_self, Bool.not_true, hsized, Option.bind_eq_bind,
      Option.bind_some, checkedWord_of_lt hfits, hwithin, decide_true]

/-- The walk from an address that is not inside a live instance lists the live ones behind it. -/
theorem Held.eachFrom_spec (held : Held r w) (hcount : w.count < 2^63) (fuel addr : ℕ)
    (haligned : addr % 16 = 0) (hfuel : w.arena.next - addr < fuel)
    (houtside : ∀ p t, w.Live p t → addr ≤ p ∨ p + t.size ≤ addr) :
    ∃ l, w.arena.eachFrom fuel addr = some l ∧ l.Pairwise (fun x y => x.1 < y.1) ∧
      ∀ p a, (p, a) ∈ l ↔ addr ≤ p ∧ ∃ t, w.Live p t ∧ a = t.bytes := by
  induction fuel generalizing addr with
  | zero => exact absurd hfuel (Nat.not_lt_zero _)
  | succ fuel ih =>
    unfold Arena.eachFrom
    by_cases hend : addr < w.arena.next
    swap
    · -- every live instance is in front of the end
      rw [if_neg hend]
      refine ⟨[], rfl, List.Pairwise.nil, fun p a => ?_⟩
      simp only [List.not_mem_nil, false_iff, not_and, not_exists]
      intro hle t hlive _
      obtain ⟨-, -, hgranule, -, -, hhigh, -, -⟩ := held.tiles.bounds hlive.1
      omega
    rw [if_pos hend]
    by_cases howned : owned (w.arena.plane (addr / GRANULE)) = true
    · -- the owner starts here, since the walk is not inside of it
      obtain ⟨q, u, hlive, hcovers⟩ := held.owner _ howned
      obtain ⟨hq, hmod, hgranule, -, -, hhigh, hnext, hlt⟩ := held.tiles.bounds hlive.1
      obtain rfl : addr = q := by
        have hout := houtside q u hlive
        unfold Covers GRANULE at hcovers
        omega
      have hplaced := held.tiles.placed addr u hlive.1
      obtain ⟨hplane, hstarts⟩ := held.starts_live hlive (held.named hcount addr u hlive.1)
      have hbehind : ∀ p t, w.Live p t → addr + u.size ≤ p ∨ p + t.size ≤ addr + u.size := by
        intro p t hlive'
        by_cases hpq : p = addr
        · subst hpq
          obtain rfl := Option.some.inj (hlive.1.symm.trans hlive'.1)
          exact Or.inr le_rfl
        · have hap := held.tiles.apart addr p u t hlive.1 hlive'.1 (Ne.symm hpq)
          unfold Apart at hap
          omega
      obtain ⟨l, hl, hsorted, hmem⟩ := ih (addr + u.size) (by omega) (by omega) hbehind
      have hext : (readHeader w.arena.mem addr).ext = u.size := by
        rw [hplaced.header]
        rfl
      have hasked : (readHeader w.arena.mem addr).asked = some u.bytes := by
        rw [hplaced.header, hplaced.wrote.asked_now]
      refine ⟨(addr, u.bytes) :: l, ?_, List.pairwise_cons.2 ⟨?_, hsorted⟩, fun p a => ?_⟩
      · rw [hplane]
        simp only [hstarts, Option.bind_eq_bind, Option.bind_some, if_true, hasked, hext, hl]
      · rintro ⟨p, a⟩ hpa
        have hle := ((hmem p a).1 hpa).1
        dsimp only
        omega
      · rw [List.mem_cons, hmem p a, Prod.mk.injEq]
        constructor
        · rintro (⟨rfl, rfl⟩ | ⟨hle, t, hlive', rfl⟩)
          · exact ⟨le_rfl, u, hlive, rfl⟩
          · exact ⟨by omega, t, hlive', rfl⟩
        · rintro ⟨hle, t, hlive', rfl⟩
          by_cases hpq : p = addr
          · subst hpq
            obtain rfl := Option.some.inj (hlive.1.symm.trans hlive'.1)
            exact Or.inl ⟨rfl, rfl⟩
          · obtain ⟨-, -, hgranule', -⟩ := held.tiles.bounds hlive'.1
            have hout := hbehind p t hlive'
            have hap := held.tiles.apart addr p u t hlive.1 hlive'.1 (Ne.symm hpq)
            unfold Apart at hap
            exact Or.inr ⟨by omega, t, hlive', rfl⟩
    · have hstarts : w.arena.starts addr (w.arena.plane (addr / GRANULE)) (readHeader w.arena.mem addr)
          = some false := by
        unfold Arena.starts
        rw [if_pos (Or.inl (by simpa using howned))]
      have hnotHere : ∀ t, ¬ w.Live addr t := by
        intro t hlive
        have hnamed := held.named hcount addr t hlive.1
        rw [(held.starts_live hlive hnamed).1] at howned
        exact howned hnamed
      have hbehind : ∀ p t, w.Live p t → addr + GRANULE ≤ p ∨ p + t.size ≤ addr + GRANULE := by
        intro p t hlive
        obtain ⟨hp, -⟩ := held.tiles.bounds hlive.1
        have hout := houtside p t hlive
        have hne : p ≠ addr := by
          rintro rfl
          exact hnotHere t hlive
        unfold GRANULE
        omega
      have hstep : (addr + GRANULE) % 16 = 0 ∧ w.arena.next - (addr + GRANULE) < fuel := by
        unfold GRANULE
        omega
      obtain ⟨l, hl, hsorted, hmem⟩ := ih (addr + GRANULE) hstep.1 hstep.2 hbehind
      refine ⟨l, ?_, hsorted, fun p a => ?_⟩
      · simp only [hstarts, Option.bind_eq_bind, Option.bind_some, Bool.false_eq_true, if_false, hl]
      · rw [hmem p a]
        constructor
        · rintro ⟨hle, hlive⟩
          exact ⟨by omega, hlive⟩
        · rintro ⟨hle, t, hlive, rfl⟩
          obtain ⟨hp, -⟩ := held.tiles.bounds hlive.1
          have hne : p ≠ addr := by
            rintro rfl
            exact hnotHere t hlive
          unfold GRANULE
          exact ⟨by omega, t, hlive, rfl⟩

/-! ## What a run guarantees -/

/-- The arena is a correct allocator in this world. -/
structure World.Sound (r : Region) (w : World) : Prop where
  inside : ∀ p t, w.Live p t →
    ∃ b, blockOf p t.size = some b ∧ r.base ≤ b ∧ b < p ∧ p + t.size ≤ r.base + r.len
  apart : ∀ p q t u, w.Live p t → w.Live q u → p ≠ q → ∀ b c, blockOf p t.size = some b →
    blockOf q u.size = some c → p + t.size ≤ c ∨ q + u.size ≤ b
  headers : ∀ p t, w.tenant p = some t → readHeader w.arena.mem p = t.now
  /-- A free is answered at a live instance and refused elsewhere, and a refused one changes nothing. -/
  end_ : ∀ p, w.Honest (.end_ p) → ∃ answer s, w.arena.end_ p = some (answer, s) ∧
    ((∃ u, answer = .ok u) ↔ ∃ t, w.Live p t) ∧ ((∃ refusal, answer = .error refusal) → s = w.arena)
  extent : ∀ p, w.Honest (.end_ p) → ∃ answer, w.arena.extent p = some answer ∧
    ((∃ size, answer = .ok size) ↔ ∃ t, w.Live p t) ∧ ∀ t, w.Live p t → answer = .ok t.size
  room : ∀ p, w.Honest (.room p) → ∃ answer s, w.arena.room p = some (answer, s) ∧
    ((∃ size, answer = .ok size) ↔ ∃ t, w.Live p t) ∧ ((∃ refusal, answer = .error refusal) → s = w.arena)
  /-- A new instance is where none was live, and its aux is empty. -/
  begin : ∀ n bytes, needed n = some (some bytes) → ∃ p s, w.arena.begin n = some (p, s) ∧
    (p = 0 → s = w.arena) ∧
    (p ≠ 0 → (∀ t, ¬ w.Live p t) ∧ ∃ size b len, sized n = some size ∧ blockOf p size = some b ∧
      aux size = some len ∧ ∀ a, b ≤ a → a < b + len → s.mem a = 0)
  /-- A free list holds the ended blocks of its class, each once. -/
  lists : ∀ size c, ClassSize size → classOf size = some (some c) → c < CLASSES ∧
    ∃ l, Linked (fun b => w.arena.mem (b + (32 + 2 * size))) 0 (w.arena.free c) l ∧ l.Nodup ∧
      ∀ b, b ∈ l ↔ ∃ p t, w.tenant p = some t ∧ t.finished = true ∧ t.size = size ∧ blockOf p size = some b
  /-- The walk lists the live instances, in address order, with the bytes they are held to. -/
  each : w.count < 2^63 → ∃ l, w.arena.each = some l ∧ l.Pairwise (fun x y => x.1 < y.1) ∧
    ∀ p a, (p, a) ∈ l ↔ ∃ t, w.Live p t ∧ a = t.bytes

theorem Held.end_answer (held : Held r w) (hhonest : w.Honest (.end_ p)) : ∃ answer s,
    w.arena.end_ p = some (answer, s) ∧ ((∃ u, answer = .ok u) ↔ ∃ t, w.Live p t) ∧
    ((∃ refusal, answer = .error refusal) → s = w.arena) := by
  by_cases hlive : ∃ t, w.Live p t
  · obtain ⟨t, ht⟩ := hlive
    refine ⟨_, _, held.end_spec ht, ⟨fun _ => ⟨t, ht⟩, fun _ => ⟨(), rfl⟩⟩, ?_⟩
    rintro ⟨refusal, hrefusal⟩
    exact absurd hrefusal (by simp)
  · obtain ⟨refusal, hheader⟩ := held.header_of_not_live hhonest (not_exists.1 hlive)
    refine ⟨.error refusal, w.arena, ?_, ⟨?_, fun h => absurd h hlive⟩, fun _ => rfl⟩
    · unfold Arena.end_
      rw [hheader]
      rfl
    · rintro ⟨u, hu⟩
      exact absurd hu (by simp)

theorem Held.extent_answer (held : Held r w) (hhonest : w.Honest (.end_ p)) : ∃ answer,
    w.arena.extent p = some answer ∧ ((∃ size, answer = .ok size) ↔ ∃ t, w.Live p t) ∧
    ∀ t, w.Live p t → answer = .ok t.size := by
  unfold Arena.extent
  by_cases hlive : ∃ t, w.Live p t
  · obtain ⟨t, ht⟩ := hlive
    rw [held.header_of_live ht]
    refine ⟨.ok t.size, rfl, ⟨fun _ => ⟨t, ht⟩, fun _ => ⟨t.size, rfl⟩⟩, fun u hu => ?_⟩
    obtain rfl := Option.some.inj (hu.1.symm.trans ht.1)
    rfl
  · obtain ⟨refusal, hheader⟩ := held.header_of_not_live hhonest (not_exists.1 hlive)
    rw [hheader]
    refine ⟨.error refusal, rfl, ⟨?_, fun h => absurd h hlive⟩, fun t ht => absurd ⟨t, ht⟩ hlive⟩
    rintro ⟨size, hsize⟩
    exact absurd hsize (by simp)

theorem Held.room_answer (held : Held r w) (hhonest : w.Honest (.room p)) : ∃ answer s,
    w.arena.room p = some (answer, s) ∧ ((∃ size, answer = .ok size) ↔ ∃ t, w.Live p t) ∧
    ((∃ refusal, answer = .error refusal) → s = w.arena) := by
  by_cases hlive : ∃ t, w.Live p t
  · obtain ⟨t, ht⟩ := hlive
    obtain ⟨s, hroom, -⟩ := held.room_spec ht
    refine ⟨_, _, hroom, ⟨fun _ => ⟨t, ht⟩, fun _ => ⟨t.size, rfl⟩⟩, ?_⟩
    rintro ⟨refusal, hrefusal⟩
    exact absurd hrefusal (by simp)
  · obtain ⟨refusal, hheader⟩ := held.header_of_not_live hhonest (not_exists.1 hlive)
    refine ⟨.error refusal, w.arena, ?_, ⟨?_, fun h => absurd h hlive⟩, fun _ => rfl⟩
    · unfold Arena.room
      rw [hheader]
      rfl
    · rintro ⟨size, hsize⟩
      exact absurd hsize (by simp)

theorem Held.begin_answer (held : Held r w) (h : needed n = some (some bytes)) :
    ∃ p s, w.arena.begin n = some (p, s) ∧ (p = 0 → s = w.arena) ∧
    (p ≠ 0 → (∀ t, ¬ w.Live p t) ∧ ∃ size b len, sized n = some size ∧ blockOf p size = some b ∧
      aux size = some len ∧ ∀ a, b ≤ a → a < b + len → s.mem a = 0) := by
  obtain ⟨hsized, hfit⟩ := sized_of_needed h
  obtain hnone | ⟨b, s, hvacant, hbegin⟩ := held.begin_spec hsized hfit
  · exact ⟨0, w.arena, hnone, fun _ => rfl, fun hne => absurd rfl hne⟩
  have hsize : ClassSize (roundUp n) := classSize_of_sized hsized
  have hhigh := hvacant.high
  have hnext := hvacant.next_high
  have hfits := r.fits
  refine ⟨_, _, hbegin, fun hzero => by omega, fun _ => ⟨fun t hlive => ?_, roundUp n, b, 2 * roundUp n, hsized,
    ?_, ?_, fun a hlow ha => ?_⟩⟩
  · exact absurd (hvacant.finished t hlive.1) (by rw [hlive.2]; decide)
  · rw [hsize.blockOf_eq (by omega), checkedSub_eq_some]
    omega
  · rw [hsize.aux_eq, checkedWord_of_lt (by omega)]
  · exact (writeHeader_of_out (by omega) (by omega)).trans (hvacant.empty a hlow ha)

/-- What holds of a held world. -/
theorem Held.sound (held : Held r w) : w.Sound r where
  inside p t h := by
    obtain ⟨-, -, -, -, hlow, hhigh, hnext, -⟩ := held.tiles.bounds h.1
    have hbase := held.tiles.base
    have hlimit := held.tiles.limit
    exact ⟨_, held.blockOf_eq h.1, by omega, by omega, by omega⟩
  apart p q t u h h' hne b c hb hc := by
    have hap := held.tiles.apart p q t u h.1 h'.1 hne
    rw [held.blockOf_eq h.1, Option.some.injEq] at hb
    rw [held.blockOf_eq h'.1, Option.some.injEq] at hc
    unfold Apart at hap
    omega
  headers p t h := (held.tiles.placed p t h).header
  end_ p hhonest := held.end_answer hhonest
  extent p hhonest := held.extent_answer hhonest
  room p hhonest := held.room_answer hhonest
  begin n bytes h := held.begin_answer h
  lists size c hsize hc := by
    rw [hsize.classOf_eq, Option.some.injEq, Option.some.injEq] at hc
    subst hc
    obtain ⟨l, hlinked, hnodup, hl⟩ := held.lists size hsize
    refine ⟨hsize.index_lt, l, hlinked, hnodup, fun b => ?_⟩
    rw [hl b]
    constructor
    · rintro ⟨t, ht, hsame, hfinished⟩
      refine ⟨_, t, ht, hfinished, hsame, ?_⟩
      rw [← hsame, held.blockOf_eq (hsame ▸ ht), Option.some.injEq]
      omega
    · rintro ⟨p, t, ht, hfinished, hsame, hb⟩
      obtain ⟨-, -, -, -, hlow, -⟩ := held.tiles.bounds ht
      rw [← hsame, held.blockOf_eq ht, Option.some.injEq] at hb
      refine ⟨t, ?_, hsame, hfinished⟩
      have hp : b + (32 + 2 * size) = p := by omega
      rw [hp]
      exact ht
  each hcount := by
    have hbase := held.tiles.base
    have haligned := r.aligned
    have hfirst : divCeil (w.arena.base + HEADER) GRANULE * GRANULE = r.base + 32 := by
      rw [hbase]
      unfold divCeil HEADER GRANULE at *
      omega
    unfold Arena.each
    rw [hfirst]
    have houtside : ∀ p t, w.Live p t → r.base + 32 ≤ p ∨ p + t.size ≤ r.base + 32 := by
      intro p t hlive
      obtain ⟨-, -, -, -, hlow, -⟩ := held.tiles.bounds hlive.1
      omega
    obtain ⟨l, hl, hsorted, hmem⟩ := held.eachFrom_spec hcount (w.arena.next - w.arena.base + 1) (r.base + 32)
      (by unfold GRANULE at haligned; omega) (by omega) houtside
    refine ⟨l, hl, hsorted, fun p a => ?_⟩
    rw [hmem p a]
    constructor
    · exact fun h => h.2
    · rintro ⟨t, hlive, rfl⟩
      obtain ⟨-, -, -, -, hlow, -⟩ := held.tiles.bounds hlive.1
      exact ⟨by omega, t, hlive, rfl⟩

/-- The arena is a correct allocator in every world that a run reaches in which nothing is asked about forged
words. -/
theorem reachable_sound (h : World.Reachable World.Permitted r w) : w.Sound r :=
  (held_of_reachable h).sound

/-- A region of 64 KiB. -/
def small : Region := ⟨4096, 65536, 1, by decide, by decide, by decide, by decide⟩

theorem reachable_sound_begun : ∃ (w : World) (t : Tenant), w.Live 4256 t ∧ t.bytes = 50 ∧ w.Sound small := by
  have h1 := @World.Reachable.step World.Permitted small _ _ (.begin 50) .new ⟨⟨_, rfl⟩, trivial⟩ rfl
  exact ⟨_, _, ⟨rfl, rfl⟩, rfl, reachable_sound h1⟩

/-- The program begins an instance of 64 bytes, at 4256, and writes a header into it. The free of the address
behind that header is answered, and the next instance of 16 bytes lies inside the live one. -/
theorem forged_free :
    (∃ w, World.Reachable World.Legal small w ∧ w.tenant 4288 = none ∧
      ∃ s, w.arena.end_ 4288 = some (.ok (), s)) ∧
    ∃ w t, World.Reachable World.Legal small w ∧ w.Live 4256 t ∧ t.size = 64 ∧
      ∃ s, w.arena.begin 16 = some (4288, s) := by
  have h1 := @World.Reachable.step World.Legal small _ _ (.begin 64) .new ⟨_, rfl⟩ rfl
  have h2 := @World.Reachable.step World.Legal small _ _ (.store 4256 16) h1
    ⟨by decide, by decide, 4256, _, ⟨rfl, rfl⟩, Or.inl (by decide)⟩ rfl
  have h3 := @World.Reachable.step World.Legal small _ _ (.store 4272 2) h2
    ⟨by decide, by decide, 4256, _, ⟨rfl, rfl⟩, Or.inl (by decide)⟩ rfl
  have h4 := @World.Reachable.step World.Legal small _ _ (.store 4280 1) h3
    ⟨by decide, by decide, 4256, _, ⟨rfl, rfl⟩, Or.inl (by decide)⟩ rfl
  have h5 := @World.Reachable.step World.Legal small _ _ (.end_ 4288) h4 trivial rfl
  exact ⟨⟨_, h4, rfl, _, rfl⟩, _, _, h5, ⟨rfl, rfl⟩, rfl, _, rfl⟩

end Rucc.SafeRt
