import Rucc.Lib.Linked
import Rucc.SafeRt.HeapSizes

/-!
# Runs of the arena

An `Op` is a call of the program or a write of its own into a live instance, and a `World` is an arena with
the record of the instances its calls were told of: a `Tenant` is what the last answer of `begin` at an
address was about. The record is made of the answers alone.

`Held` is the invariant of the runs. `Tiles` says where the instances lie and what is in front of them, and
is kept by any change to the block of one instance (`Tiles.settle`). The rest of `Held` is about the plane,
the memory nobody has had yet and the free lists.
-/

namespace Rucc.SafeRt

open Checked

variable {granule p : ℕ} {mem : ℕ → ℕ} {h : Header} {s' : Arena}

/-- How much region one instance of `n` bytes needs, or nothing if it does not fit in a `usize`. -/
def needed (n : ℕ) : Option (Option ℕ) :=
  if (2^64 - 1) / 4 < n then some none
  else do
    let bytes ← block (← sized n)
    some (some bytes)

/-- An instance, as the answers about it tell. -/
structure Tenant where
  /-- How many bytes were asked for. -/
  asked : ℕ
  /-- The header when `begin` answered. -/
  header : Header
  /-- Whether `room` was answered. -/
  roomed : Bool
  /-- Whether `end` was answered. -/
  finished : Bool

/-- The bytes given to an instance. -/
def Tenant.size (t : Tenant) : ℕ := t.header.ext

/-- What the header of an instance is now: as `begin` wrote it, the slack and the ended state apart. -/
def Tenant.now (t : Tenant) : Header where
  ext := t.header.ext
  ver := if t.finished then ended t.header.ver else t.header.ver
  info := if t.finished then Meta.withState t.header.info .ended else t.header.info
  allocator := t.header.allocator
  slack := if t.roomed then 0 else t.header.slack

/-- The bytes an instance is held to: those asked for, or all it was given when the program asked for the
room or the rounding does not fit in 32 bits. -/
def Tenant.bytes (t : Tenant) : ℕ := if !t.roomed && t.size - t.asked < 2^32 then t.asked else t.size

/-- A region an arena can be over. -/
structure Region where
  base : ℕ
  len : ℕ
  id : ℕ
  aligned : base % GRANULE = 0
  pos : 0 < base
  fits : base + len < 2^64
  id_lt : id < 2^32

/-- An arena and the instances its answers were about, each at the address of its payload. -/
structure World where
  arena : Arena
  tenant : ℕ → Option Tenant
  /-- How many instances were begun. -/
  count : ℕ

/-- What happens to an arena. -/
inductive Op
  | begin (n : ℕ)
  | end_ (p : ℕ)
  | room (p : ℕ)
  /-- The program writes a word of memory. -/
  | store (addr word : ℕ)

namespace World

def new (r : Region) : World := ⟨Arena.new r.base r.len r.id, fun _ => none, 0⟩

/-- The instance at `p` is begun and not ended. -/
def Live (w : World) (p : ℕ) (t : Tenant) : Prop := w.tenant p = some t ∧ t.finished = false

/-- What one operation does, or nothing when it overflows. -/
def step (w : World) : Op → Option World
  | .begin n => do
    let (p, s) ← w.arena.begin n
    if p = 0 then some { w with arena := s }
    else some ⟨s, Function.update w.tenant p (some ⟨n, readHeader s.mem p, false, false⟩), w.count + 1⟩
  | .end_ p => do
    match ← w.arena.end_ p with
    | (.ok _, s) =>
      let tenant := (w.tenant p).map fun t => { t with finished := true }
      some { w with arena := s, tenant := Function.update w.tenant p tenant }
    | (.error _, s) => some { w with arena := s }
  | .room p => do
    match ← w.arena.room p with
    | (.ok _, s) =>
      let tenant := (w.tenant p).map fun t => { t with roomed := true }
      some { w with arena := s, tenant := Function.update w.tenant p tenant }
    | (.error _, s) => some { w with arena := s }
  | .store addr word => some { w with arena := { w.arena with mem := Function.update w.arena.mem addr word } }

/-- What the program may do: ask for a size the heap admits, ask about any address, and write into the
payload and the aux of a live instance. -/
def Legal (w : World) : Op → Prop
  | .begin n => ∃ bytes, needed n = some (some bytes)
  | .end_ _ => True
  | .room _ => True
  | .store addr word => addr % 8 = 0 ∧ word < 2^64 ∧ ∃ p t, w.Live p t ∧
      (p ≤ addr ∧ addr < p + t.size ∨ p ≤ addr + (32 + 2 * t.size) ∧ addr + 32 < p)

/-- The worlds that runs of permitted operations reach. -/
inductive Reachable (permitted : World → Op → Prop) (r : Region) : World → Prop
  | new : Reachable permitted r (World.new r)
  | step {w w' : World} {op : Op} :
      Reachable permitted r w → permitted w op → w.step op = some w' → Reachable permitted r w'

end World

/-! ## Headers -/

theorem divCeil_granule {n : ℕ} (h : n % 16 = 0) : divCeil n GRANULE = n / 16 := by
  unfold divCeil GRANULE
  omega

/-- A granule is one of those of the range. -/
def Covers (lo len granule : ℕ) : Prop := lo ≤ granule * 16 ∧ granule * 16 < lo + len

/-- The granules of an aligned range are filled and no others. -/
theorem fill_eq {plane : ℕ → ℕ} {lo len version : ℕ} (hlo : lo % 16 = 0) (hlen : len % 16 = 0) :
    (Covers lo len granule → fill plane lo len version granule = version) ∧
    (¬ Covers lo len granule → fill plane lo len version granule = plane granule) := by
  unfold Covers fill
  rw [divCeil_granule hlen]
  unfold GRANULE
  constructor
  · intro h
    exact if_pos (by omega)
  · intro h
    exact if_neg (by omega)

theorem readHeader_congr {mem' : ℕ → ℕ} (hp : 32 ≤ p)
    (h : ∀ a, p ≤ a + 32 → a < p → mem' a = mem a) : readHeader mem' p = readHeader mem p := by
  unfold readHeader
  rw [h (p - 32) (by omega) (by omega), h (p - 24) (by omega) (by omega), h (p - 16) (by omega) (by omega),
    h (p - 8) (by omega) (by omega)]

theorem readHeader_writeHeader (hp : 32 ≤ p) (hid : h.allocator < 2^32) :
    readHeader (writeHeader mem p h) p = h := by
  have h1 : p - 24 ≠ p - 32 := by omega
  have h2 : p - 16 ≠ p - 32 ∧ p - 16 ≠ p - 24 := by omega
  have h3 : p - 8 ≠ p - 32 ∧ p - 8 ≠ p - 24 ∧ p - 8 ≠ p - 16 := by omega
  have hlow : (h.allocator + h.slack * 2^32) % 2^32 = h.allocator := by omega
  have hhigh : (h.allocator + h.slack * 2^32) / 2^32 = h.slack := by omega
  unfold readHeader writeHeader
  simp only [h1, h2, h3, if_true, if_false, hlow, hhigh]

/-- A header takes the 32 bytes in front of its payload and nothing else. -/
theorem writeHeader_of_out {a : ℕ} (hp : 32 ≤ p) (ha : a + 32 < p ∨ p ≤ a) : writeHeader mem p h a = mem a := by
  unfold writeHeader
  rw [if_neg (by omega), if_neg (by omega), if_neg (by omega), if_neg (by omega)]

theorem Meta.class_new (i : ℕ) : Meta.class (Meta.new .allocated (READ + WRITE) i) = Class.allocated.code := by
  unfold Meta.class Meta.new Class.code State.code READ WRITE
  dsimp only
  omega

theorem Meta.state_new (i : ℕ) : Meta.state (Meta.new .allocated (READ + WRITE) i) = State.live.code := by
  unfold Meta.state Meta.new Class.code State.code READ WRITE
  dsimp only
  omega

theorem Meta.class_withState {m : ℕ} (s : State) : Meta.class (Meta.withState m s) = Meta.class m := by
  unfold Meta.class Meta.withState Meta.state
  omega

theorem Meta.state_withState_ended (m : ℕ) : Meta.state (Meta.withState m .ended) = State.ended.code := by
  unfold Meta.withState Meta.state State.code
  dsimp only
  omega

theorem ended_odd (version : ℕ) : ended version % 2 = 1 := by
  unfold ended
  omega

theorem not_owned_ended (version : ℕ) : owned (ended version) = false := by
  have hodd := ended_odd version
  simp [owned, hodd]

/-! ## The invariant -/

/-- The header `begin` wrote for an instance of an arena with this identity. -/
structure Tenant.Wrote (t : Tenant) (id : ℕ) : Prop where
  size : ClassSize t.size
  asked : roundUp t.asked = t.size
  info : ∃ i, t.header.info = Meta.new .allocated (READ + WRITE) i
  allocator : t.header.allocator = id
  slack : t.header.slack = if t.size - t.asked < 2^32 then t.size - t.asked else 0

/-- An instance lies in the part of the region that was handed out, behind its header, and the plane says
that it owns its granules while it is live. -/
structure Placed (s : Arena) (p : ℕ) (t : Tenant) : Prop where
  wrote : t.Wrote s.id
  aligned : p % 16 = 0
  low : s.base + (32 + 2 * t.size) ≤ p
  high : p + t.size ≤ s.next
  header : readHeader s.mem p = t.now
  plane : t.finished = false → ∀ granule, Covers p t.size granule → s.plane granule = t.header.ver

/-- The block of an instance of `size` bytes at `p` and that of one of `size'` bytes at `q` are disjoint. -/
def Apart (p size q size' : ℕ) : Prop := p + size + (32 + 2 * size') ≤ q ∨ q + size' + (32 + 2 * size) ≤ p

theorem Apart.symm {size q size' : ℕ} (h : Apart p size q size') : Apart q size' p size := Or.symm h

/-- The blocks of the instances lie in the region, apart from each other. -/
structure Tiles (r : Region) (w : World) : Prop where
  base : w.arena.base = r.base
  limit : w.arena.limit = r.base + r.len
  id : w.arena.id = r.id
  aligned : w.arena.next % 16 = 0
  low : r.base ≤ w.arena.next
  high : w.arena.next ≤ r.base + r.len
  placed : ∀ p t, w.tenant p = some t → Placed w.arena p t
  apart : ∀ p q t u, w.tenant p = some t → w.tenant q = some u → p ≠ q → Apart p t.size q u.size

/-- The free list of each class holds its ended blocks, each once. -/
def Lists (mem free : ℕ → ℕ) (tenant : ℕ → Option Tenant) : Prop :=
  ∀ size, ClassSize size → ∃ l, Linked (fun b => mem (b + (32 + 2 * size))) 0 (free (index (size / GRANULE))) l ∧
    l.Nodup ∧ ∀ b, b ∈ l ↔ ∃ t, tenant (b + (32 + 2 * size)) = some t ∧ t.size = size ∧ t.finished = true

/-- The invariant of the runs. -/
structure Held (r : Region) (w : World) : Prop where
  tiles : Tiles r w
  /-- A granule somebody owns is one of a live instance. -/
  owner : ∀ granule, owned (w.arena.plane granule) = true → ∃ p t, w.Live p t ∧ Covers p t.size granule
  /-- The memory nobody has had yet is as it was. -/
  untouched : ∀ a, w.arena.next ≤ a → w.arena.mem a = 0
  lists : Lists w.arena.mem w.arena.free w.tenant
  versions : w.arena.versions = (w.count + 1) % 2^64
  /-- Before the counter has run out, the version of an instance is that of an owner. -/
  named : w.count < 2^63 → ∀ p t, w.tenant p = some t → owned t.header.ver = true

theorem Held.new (r : Region) : Held r (World.new r) where
  tiles :=
    { base := rfl
      limit := rfl
      id := rfl
      aligned := r.aligned
      low := le_rfl
      high := Nat.le_add_right _ _
      placed := fun p t h => by simp [World.new] at h
      apart := fun p q t u h => by simp [World.new] at h }
  owner := fun granule h => by simp [World.new, Arena.new, owned] at h
  untouched := fun a _ => rfl
  lists := fun size _ => ⟨[], rfl, List.nodup_nil, fun b => by simp [World.new]⟩
  versions := rfl
  named := fun _ p t h => by simp [World.new] at h

/-! ## What a change to one block keeps -/

variable {t : Tenant}

/-- An instance stays placed when its header and its granules stay. -/
theorem Placed.congr {s : Arena} (h : Placed s p t) (hid : s'.id = s.id)
    (hbase : s'.base = s.base) (hnext : s.next ≤ s'.next)
    (hmem : ∀ a, p ≤ a + 32 → a < p → s'.mem a = s.mem a)
    (hplane : ∀ granule, Covers p t.size granule → s'.plane granule = s.plane granule) : Placed s' p t where
  wrote := by
    rw [hid]
    exact h.wrote
  aligned := h.aligned
  low := by
    rw [hbase]
    exact h.low
  high := h.high.trans hnext
  header := by
    have hlow := h.low
    rw [readHeader_congr (by omega) hmem]
    exact h.header
  plane := fun hlive granule hcovers => by
    rw [hplane granule hcovers]
    exact h.plane hlive granule hcovers

/-- Two instances apart share no granule. -/
theorem Apart.not_covers {size q size' : ℕ} (h : Apart p size q size')
    (hcovers : Covers q size' granule) : ¬ Covers p size granule := by
  unfold Apart Covers at *
  omega

/-- A change to the block of one instance, which may be a new one, keeps the other ones. -/
theorem Tiles.settle {r : Region} {w : World} (tiles : Tiles r w) (n : ℕ)
    (hbase : s'.base = w.arena.base) (hlimit : s'.limit = w.arena.limit) (hid : s'.id = w.arena.id)
    (hnext : w.arena.next ≤ s'.next) (haligned : s'.next % 16 = 0) (hhigh : s'.next ≤ r.base + r.len)
    (hapart : ∀ q u, w.tenant q = some u → q ≠ p → Apart p t.size q u.size)
    (hmem : ∀ a, a + (32 + 2 * t.size) < p ∨ p + t.size ≤ a → s'.mem a = w.arena.mem a)
    (hplane : ∀ granule, ¬ Covers p t.size granule → s'.plane granule = w.arena.plane granule)
    (hplaced : Placed s' p t) :
    Tiles r ⟨s', Function.update w.tenant p (some t), n⟩ := by
  have hother : ∀ q u, Function.update w.tenant p (some t) q = some u →
      q = p ∧ u = t ∨ q ≠ p ∧ w.tenant q = some u := by
    intro q u hq
    by_cases hqp : q = p
    · subst hqp
      rw [Function.update_self, Option.some.injEq] at hq
      exact Or.inl ⟨rfl, hq.symm⟩
    · rw [Function.update_of_ne hqp] at hq
      exact Or.inr ⟨hqp, hq⟩
  constructor
  · exact hbase.trans tiles.base
  · exact hlimit.trans tiles.limit
  · exact hid.trans tiles.id
  · exact haligned
  · exact tiles.low.trans hnext
  · exact hhigh
  · intro q u hq
    obtain ⟨rfl, rfl⟩ | ⟨hqp, hq⟩ := hother q u hq
    · exact hplaced
    · have hap := hapart q u hq hqp
      have hold := tiles.placed q u hq
      refine hold.congr hid hbase hnext (fun a hlow hhigh => ?_) fun granule hcovers => ?_
      · have := hold.low
        apply hmem
        unfold Apart at hap
        omega
      · exact hplane granule (hap.not_covers hcovers)
  · intro q q' u u' hq hq' hne
    rcases hother q u hq with ⟨hqp, hut⟩ | ⟨hqp, hold⟩
    · rcases hother q' u' hq' with ⟨hqp', -⟩ | ⟨hqp', hold'⟩
      · exact absurd (hqp.trans hqp'.symm) hne
      · rw [hqp, hut]
        exact hapart q' u' hold' hqp'
    · rcases hother q' u' hq' with ⟨hqp', hut'⟩ | ⟨hqp', hold'⟩
      · rw [hqp', hut']
        exact (hapart q u hold hqp).symm
      · exact tiles.apart q q' u u' hold hold' hne

/-! ## The free lists -/

namespace Lists

variable {mem mem' free : ℕ → ℕ} {tenant : ℕ → Option Tenant} {p : ℕ} {t : Tenant}

/-- What is written elsewhere than into ended payloads leaves the lists, and so does an instance that is not
ended. -/
theorem keep (h : Lists mem free tenant) (hmem : ∀ q u, tenant q = some u → u.finished = true → mem' q = mem q)
    (hold : ∀ u, tenant p = some u → u.finished = false) (ht : t.finished = false) :
    Lists mem' free (Function.update tenant p (some t)) := by
  intro size hsize
  obtain ⟨l, hlinked, hnodup, hl⟩ := h size hsize
  refine ⟨l, hlinked.congr fun b hb => ?_, hnodup, fun b => ?_⟩
  · obtain ⟨u, hu, -, hfinished⟩ := (hl b).1 hb
    exact hmem _ u hu hfinished
  · rw [hl b]
    by_cases hbp : b + (32 + 2 * size) = p
    · rw [hbp, Function.update_self]
      constructor
      · rintro ⟨u, hu, -, hfinished⟩
        exact absurd hfinished (by rw [hold u hu]; decide)
      · rintro ⟨u, hu, -, hfinished⟩
        obtain rfl := Option.some.inj hu
        exact absurd hfinished (by rw [ht]; decide)
    · rw [Function.update_of_ne hbp]

/-- The block at the head of a list is that of an ended instance, and the list goes on behind it. -/
theorem pop (h : Lists mem free tenant) {size : ℕ} (hsize : ClassSize size)
    (hne : free (index (size / GRANULE)) ≠ 0) :
    (∃ u, tenant (free (index (size / GRANULE)) + (32 + 2 * size)) = some u ∧ u.size = size ∧
      u.finished = true) ∧
    Lists mem
      (Function.update free (index (size / GRANULE)) (mem (free (index (size / GRANULE)) + (32 + 2 * size))))
      (Function.update tenant (free (index (size / GRANULE)) + (32 + 2 * size)) none) := by
  obtain ⟨l, hlinked, hnodup, hl⟩ := h size hsize
  obtain ⟨rest, rfl, hrest⟩ := hlinked.pop hne
  generalize hb : free (index (size / GRANULE)) = b at *
  obtain ⟨hfresh, hnodup⟩ := List.nodup_cons.1 hnodup
  have hhead := (hl b).1 List.mem_cons_self
  refine ⟨hhead, fun size' hsize' => ?_⟩
  by_cases hsame : size' = size
  · subst hsame
    refine ⟨rest, ?_, hnodup, fun b' => ?_⟩
    · rw [Function.update_self]
      exact hrest
    · by_cases hbb : b' = b
      · subst hbb
        simp only [Function.update_self, hfresh, reduceCtorEq, false_and, exists_false]
      · have hne' : b' + (32 + 2 * size') ≠ b + (32 + 2 * size') := by omega
        rw [Function.update_of_ne hne', ← hl b', List.mem_cons]
        simp only [hbb, false_or]
  · -- another class keeps its list, on which the block is not
    have hindex : index (size' / GRANULE) ≠ index (size / GRANULE) := by
      intro heq
      refine hsame (hsize'.eq_of_classOf hsize ?_)
      rw [hsize'.classOf_eq, hsize.classOf_eq, heq]
    obtain ⟨l, hlinked', hnodup', hl'⟩ := h size' hsize'
    refine ⟨l, ?_, hnodup', fun b' => ?_⟩
    · rw [Function.update_of_ne hindex]
      exact hlinked'
    · rw [hl' b']
      by_cases hq : b' + (32 + 2 * size') = b + (32 + 2 * size)
      · rw [hq, Function.update_self]
        obtain ⟨u, hu, husize, -⟩ := hhead
        constructor
        · rintro ⟨u', hu', husize', -⟩
          rw [hu, Option.some.injEq] at hu'
          subst hu'
          exact absurd (husize'.symm.trans husize) hsame
        · rintro ⟨u', hu', -⟩
          exact absurd hu' (by simp)
      · rw [Function.update_of_ne hq]

/-- The block of an instance that ends goes in front of the list of its class. -/
theorem push (h : Lists mem free tenant) {b : ℕ} (hsize : ClassSize t.size) (hb : b ≠ 0)
    (hp : b + (32 + 2 * t.size) = p) (hold : tenant p = some t) (hlive : t.finished = false)
    (hmem : ∀ q u, tenant q = some u → u.finished = true → mem' q = mem q)
    (hlink : mem' p = free (index (t.size / GRANULE))) :
    Lists mem' (Function.update free (index (t.size / GRANULE)) b)
      (Function.update tenant p (some { t with finished := true })) := by
  intro size' hsize'
  obtain ⟨l, hlinked, hnodup, hl⟩ := h size' hsize'
  have hagree : ∀ b' ∈ l, mem' (b' + (32 + 2 * size')) = mem (b' + (32 + 2 * size')) := by
    intro b' hb'
    obtain ⟨u, hu, -, hfinished⟩ := (hl b').1 hb'
    exact hmem _ u hu hfinished
  by_cases hsame : size' = t.size
  · subst hsame
    have hfresh : b ∉ l := by
      intro hmem
      obtain ⟨u, hu, -, hfinished⟩ := (hl b).1 hmem
      rw [hp, hold, Option.some.injEq] at hu
      subst hu
      rw [hlive] at hfinished
      exact absurd hfinished (by decide)
    refine ⟨b :: l, ?_, List.nodup_cons.2 ⟨hfresh, hnodup⟩, fun b' => ?_⟩
    · rw [Function.update_self]
      refine hlinked.push hb ?_ hagree
      rw [hp]
      exact hlink
    · by_cases hbb : b' = b
      · subst hbb
        rw [hp, Function.update_self]
        simp only [List.mem_cons_self, true_iff]
        exact ⟨_, rfl, rfl, rfl⟩
      · have hne' : b' + (32 + 2 * t.size) ≠ p := by omega
        rw [Function.update_of_ne hne', ← hl b', List.mem_cons]
        simp only [hbb, false_or]
  · have hindex : index (size' / GRANULE) ≠ index (t.size / GRANULE) := by
      intro heq
      refine hsame (hsize'.eq_of_classOf hsize ?_)
      rw [hsize'.classOf_eq, hsize.classOf_eq, heq]
    refine ⟨l, ?_, hnodup, fun b' => ?_⟩
    · rw [Function.update_of_ne hindex]
      exact hlinked.congr hagree
    · rw [hl b']
      by_cases hq : b' + (32 + 2 * size') = p
      · rw [hq, Function.update_self, hold]
        constructor
        · rintro ⟨u, hu, -, hfinished⟩
          obtain rfl := Option.some.inj hu
          exact absurd hfinished (by rw [hlive]; decide)
        · rintro ⟨u, hu, husize, -⟩
          obtain rfl := Option.some.inj hu
          exact absurd husize.symm hsame
      · rw [Function.update_of_ne hq]

end Lists

end Rucc.SafeRt
