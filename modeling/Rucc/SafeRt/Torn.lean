import Rucc.SafeRt.HeapRuns
import Rucc.SafeRt.Relocate

/-!
# Torn stores

`pair` and `torn` of `cap.rs`. A store of a pointer stamps the word and the slot beside it, and a load reports when
the two stamps differ. `Thread` is the heap of one thread with the epoch plane, and an `Act` is what the thread does.

A pair stamps the slot only where the capability it was given locates it. So the two stamps are equal in every run
whose stores go through capabilities that do, and `spare_torn` is a run in which one of them does not.
-/

namespace Rucc.SafeRt.Torn

open Checked
open Epoch (Stamp Clock NONE EPOCH_GRANULE)
open Relocate (Walk relocate erase)

variable {len n dst src addr at_ : ℕ} {walk : Walk} {into from_ dest : Cap} {w' : World}

/-- Whether a pointer word and the slot beside it came from different stores. -/
def torn (word paired : Stamp) : Bool := word ≠ NONE && paired ≠ NONE && word ≠ paired

/-- Bits of the packed word that a slot keeps. -/
def META : ℕ := 21

/-- Bits that the displacement and the extent get. -/
def BOUND : ℕ := 21

/-- The flag that says that the two numbers did not fit. -/
def IN_HEADER : ℕ := 2^(META + 2 * BOUND)

/-- The largest displacement or extent a slot can hold. -/
def EXACT : ℕ := 2^BOUND - 1

/-- The slot for a capability, given the pointer that is stored in the word. Its fields do not overlap. -/
def slotOfCap (cap : Cap) (addr : ℕ) : Slot :=
  if cap.isBottom then Slot.EMPTY
  else
    let info := cap.info % 2^META
    let off := (addr + 2^64 - cap.lo) % 2^64
    if EXACT < off ∨ EXACT < cap.ext then ⟨cap.ver, info + IN_HEADER⟩
    else ⟨cap.ver, info + off * 2^META + cap.ext * 2^(META + BOUND)⟩

/-- `aux_slot::store`: the memory with the slot written, if the word has one. -/
def auxStore (mem : ℕ → ℕ) (container : Cap) (at_ value : ℕ) (cap : Cap) : Option (ℕ → ℕ) :=
  (addressOf container at_).map fun slot => writeSlot mem slot (slotOfCap cap value)

/-- The header of a live instance, as `recover.rs` believes it. -/
def believed (s : Arena) (payload version : ℕ) : Option Header :=
  let header := readHeader s.mem payload
  if payload < s.base + HEADER ∨ header.ver ≠ version ∨ header.ext = 0 ∨ header.ext % GRANULE ≠ 0 ∨
      Meta.class header.info ≠ Class.allocated.code ∨ Meta.state header.info ≠ State.live.code ∨
      s.limit < payload + header.ext then none
  else match blockOf payload header.ext with
    | some block => if block < s.base then none else some header
    | none => none

/-- The flag of an instance whose aux may be incomplete. -/
def HANDED : ℕ := 8

/-- The packed word with a flag set. -/
def withFlag (info flag : ℕ) : ℕ := info - Meta.flags info * 2^13 + (Meta.flags info ||| flag) * 2^13

/-- The memory with the flag in the header of an instance. -/
def markHanded (s : Arena) (payload version : ℕ) : ℕ → ℕ :=
  match believed s payload version with
  | some header => writeHeader s.mem payload { header with info := withFlag header.info HANDED }
  | none => s.mem

/-- The heap of one thread, with the epoch plane and the thread's clock. -/
structure Thread where
  world : World
  epochs : ℕ → Stamp
  clock : Clock

/-- What the thread does. A capability that the runtime recovers on the way is given with the act. -/
inductive Act
  | alloc (n : ℕ)
  | dealloc (p : ℕ)
  | room (p : ℕ)
  /-- The program writes a word of memory. -/
  | write (addr word : ℕ)
  /-- `cap::store` and `cap::pair`, after the program stored the pointer `value` at `at_`. -/
  | store (dest cap recovered : Cap) (at_ value : ℕ)
  | copy (into from_ : Cap) (dst src len : ℕ)
  | erase (into : Cap) (addr len : ℕ)
  /-- `cap::torn`, after the program loaded the pointer at `at_`. -/
  | load (dest : Cap) (at_ : ℕ)

/-- Whether an address is in the region. -/
def covering (s : Arena) (addr : ℕ) : Bool := s.base ≤ addr && addr < s.limit

/-- One stamp in the plane. -/
def stampAt (epochs : ℕ → Stamp) (addr : ℕ) (stamp : Stamp) : ℕ → Stamp :=
  Function.update epochs (addr / EPOCH_GRANULE) stamp

/-- A fresh instance forgets the stamps of its block. -/
def begun (s : Arena) (epochs : ℕ → Stamp) (payload block : ℕ) : ℕ → Stamp :=
  if covering s payload then Epoch.fill epochs payload (min block (s.limit - payload)) NONE else epochs

namespace Thread

/-- An instance that ends leaves the thread's stamp over its block. -/
def over_ (s : Thread) (payload block : ℕ) : Thread :=
  if covering s.world.arena payload then
    let (stamp, clock) := s.clock.tick
    if stamp = NONE then { s with clock := clock }
    else { s with
      epochs := Epoch.fill s.epochs payload (min block (s.world.arena.limit - payload)) stamp
      clock := clock }
  else s

/-- The capability of the pointer goes into the slot that the capability of the object locates, else into the one that
the recovered one does. -/
def capStore (s : Thread) (dest cap recovered : Cap) (at_ value : ℕ) : ℕ → ℕ :=
  match auxStore s.world.arena.mem dest at_ value cap with
  | some mem => mem
  | none => match auxStore s.world.arena.mem recovered at_ value cap with
    -- the capability goes into the table for words without a slot
    | none => s.world.arena.mem
    | some mem =>
      if cap.isBottom && covering s.world.arena at_ then
        markHanded { s.world.arena with mem := mem } recovered.lo recovered.ver
      else mem

/-- The recording half: one stamp on the word, and on the slot if the capability locates it. -/
def pair (s : Thread) (dest : Cap) (at_ : ℕ) : Thread :=
  if covering s.world.arena at_ then
    let (stamp, clock) := s.clock.tick
    if stamp = NONE then { s with clock := clock }
    else
      let epochs := stampAt s.epochs at_ stamp
      match addressOf dest at_ with
      | none => { s with epochs := epochs, clock := clock }
      | some slot => { s with epochs := stampAt epochs slot stamp, clock := clock }
  else s

/-- The reading half: whether a load reports. -/
def reports (s : Thread) (dest : Cap) (at_ : ℕ) : Bool :=
  covering s.world.arena at_ && match addressOf dest at_ with
    | none => false
    | some slot => torn (s.epochs (at_ / EPOCH_GRANULE)) (s.epochs (slot / EPOCH_GRANULE))

/-- The thread with other memory. -/
def withMem (s : Thread) (mem : ℕ → ℕ) : Thread :=
  { s with world := { s.world with arena := { s.world.arena with mem := mem } } }

/-- The memory, the plane and the clock that a walk over the aux works on. -/
def toWalk (s : Thread) : Walk := ⟨s.world.arena.mem, s.epochs, s.clock, none⟩

/-- The thread after a walk. -/
def walked (s : Thread) (walk : Walk) : Thread := { s.withMem walk.mem with epochs := walk.epochs, clock := walk.clock }

/-- What one act does, or nothing when an operation of the arena overflows. -/
def step (s : Thread) : Act → Option Thread
  | .alloc n => do
    let (p, _) ← s.world.arena.begin n
    let world ← s.world.step (.begin n)
    if p = 0 then some { s with world := world }
    else some { s with world := world, epochs := begun world.arena s.epochs p (← sized n) }
  | .dealloc p => do
    let extent ← s.world.arena.extent p
    let (ended, _) ← s.world.arena.end_ p
    let world ← s.world.step (.end_ p)
    match ended, extent with
    | .ok _, .ok block => some ({ s with world := world }.over_ p block)
    | _, _ => some { s with world := world }
  | .room p => (s.world.step (.room p)).map fun world => { s with world := world }
  | .write addr word => (s.world.step (.store addr word)).map fun world => { s with world := world }
  | .store dest cap recovered at_ value => some ((s.withMem (s.capStore dest cap recovered at_ value)).pair dest at_)
  | .copy into from_ dst src len => some (s.walked (relocate into from_ dst src len s.toWalk))
  | .erase into addr len => some (s.walked (erase into addr len s.toWalk))
  | .load _ _ => some s

/-- What is recovered from an address: the capability of the live instance it is in, or where there is none one without
an aux. -/
def Found (w : World) (c : Cap) (addr : ℕ) : Prop :=
  (∃ i t, w.Live i.lo t ∧ i.ext = t.bytes ∧ i.size = t.size ∧ Recovered c addr (some i)) ∨
    Bare c ∧ ∀ p t, w.Live p t → addr < p ∨ p + t.size ≤ addr

/-- What a program may do. A pointer is stored inside a live instance or outside of the region, where a word has no
slot. -/
def Legal (s : Thread) : Act → Prop
  | .alloc n => s.world.Legal (.begin n)
  | .dealloc p => s.world.Honest (.end_ p)
  | .room p => s.world.Honest (.room p)
  | .write addr word => s.world.Legal (.store addr word)
  | .store dest _ recovered at_ _ => at_ < 2^64 ∧ Found s.world recovered at_ ∧
      if covering s.world.arena at_ then ∃ p t, s.world.Live p t ∧ p ≤ at_ ∧ at_ + 8 ≤ p + t.size
      else addressOf dest at_ = none
  | .copy into from_ dst src _ => Found s.world into dst ∧ Found s.world from_ src
  | .erase into addr _ => Found s.world into addr
  | .load _ _ => True

/-- Where the slot of a word of an instance of `size` bytes is. -/
def slotAt (p size w : ℕ) : ℕ := p - 32 - 2 * size + (w - p) / 8 * 16

/-- A word of a live instance. -/
def WordOf (w : World) (p : ℕ) (t : Tenant) (word : ℕ) : Prop :=
  w.Live p t ∧ word % 8 = 0 ∧ p ≤ word ∧ word + 8 ≤ p + t.size

/-- Of a word of the region a store's capability locates the slot, and a load's the slot or none. -/
def Located (s : Thread) : Act → Prop
  | .store dest _ _ at_ _ => covering s.world.arena at_ = true →
      ∃ p t, WordOf s.world p t at_ ∧ addressOf dest at_ = some (slotAt p t.size at_)
  | .load dest at_ => ∀ slot, covering s.world.arena at_ = true → addressOf dest at_ = some slot →
      ∃ p t, WordOf s.world p t at_ ∧ slot = slotAt p t.size at_
  | _ => True

/-- A thread that has done nothing yet. -/
def new (r : Region) (number : ℕ) : Thread := ⟨World.new r, fun _ => NONE, Clock.new number⟩

/-- The states of the runs whose acts are permitted. -/
inductive Reachable (permitted : Thread → Act → Prop) (r : Region) (number : ℕ) : Thread → Prop
  | new : Reachable permitted r number (Thread.new r number)
  | step {s s' : Thread} {act : Act} :
      Reachable permitted r number s → permitted s act → s.step act = some s' → Reachable permitted r number s'

end Thread

open Thread (slotAt WordOf Found)

/-! ## The invariant -/

/-- No word of a live instance has a stamp other than that of its slot. -/
def Paired (w : World) (epochs : ℕ → Stamp) : Prop :=
  ∀ p t word, WordOf w p t word →
    torn (epochs (word / EPOCH_GRANULE)) (epochs (slotAt p t.size word / EPOCH_GRANULE)) = false

variable {r : Region} {w : World} {epochs : ℕ → Stamp} {p word : ℕ} {t : Tenant}

theorem torn_self (stamp : Stamp) : torn stamp stamp = false := by
  unfold torn
  rw [decide_eq_false (by simp : ¬ stamp ≠ stamp), Bool.and_false]

theorem torn_none (stamp : Stamp) : torn NONE stamp = false := rfl

/-- Where a word of a live instance and its slot are, for `omega`. -/
theorem WordOf.bounds (held : Held r w) (h : WordOf w p t word) : word % 8 = 0 ∧ p ≤ word ∧ word + 8 ≤ p + t.size ∧
    p % 16 = 0 ∧ slotAt p t.size word % 16 = 0 ∧ p ≤ slotAt p t.size word + (32 + 2 * t.size) ∧
      slotAt p t.size word + 48 ≤ p ∧ slotAt p t.size word = p - 32 - 2 * t.size + (word - p) / 8 * 16 := by
  obtain ⟨hlive, hmod, hlo, hhi⟩ := h
  obtain ⟨haligned, hsize, -, -, hlow, -⟩ := held.tiles.bounds hlive.1
  unfold slotAt
  omega

/-- Two words of live instances are one, or neither they nor their slots share a granule. -/
theorem WordOf.eq_or (held : Held r w) (h : WordOf w p t word) {q word' : ℕ} {u : Tenant} (h' : WordOf w q u word') :
    (p = q ∧ t = u ∧ word = word') ∨ (word' / EPOCH_GRANULE ≠ word / EPOCH_GRANULE ∧
      word' / EPOCH_GRANULE ≠ slotAt p t.size word / EPOCH_GRANULE ∧
      slotAt q u.size word' / EPOCH_GRANULE ≠ word / EPOCH_GRANULE ∧
      slotAt q u.size word' / EPOCH_GRANULE ≠ slotAt p t.size word / EPOCH_GRANULE) := by
  have hw := WordOf.bounds held h
  have hw' := WordOf.bounds held h'
  by_cases hsame : p = q
  · subst hsame
    obtain rfl := Option.some.inj (h.1.1.symm.trans h'.1.1)
    by_cases hword : word = word'
    · exact Or.inl ⟨rfl, rfl, hword⟩
    · right
      unfold EPOCH_GRANULE
      omega
  · have happart := held.tiles.apart p q t u h.1.1 h'.1.1 hsame
    unfold Apart at happart
    right
    unfold EPOCH_GRANULE
    omega

/-- One stamp on a word and on its slot. -/
theorem Paired.stamped (held : Held r w) (hpaired : Paired w epochs) (h : WordOf w p t word) (stamp : Stamp) :
    Paired w (stampAt (stampAt epochs word stamp) (slotAt p t.size word) stamp) := by
  intro q u word' h'
  unfold stampAt
  rcases WordOf.eq_or held h h' with ⟨rfl, rfl, rfl⟩ | ⟨h1, h2, h3, h4⟩
  · have hapart := WordOf.bounds held h
    rw [Function.update_self, Function.update_of_ne (by unfold EPOCH_GRANULE; omega), Function.update_self, torn_self]
  · rw [Function.update_of_ne h2, Function.update_of_ne h1, Function.update_of_ne h4, Function.update_of_ne h3]
    exact hpaired q u word' h'

/-- A stamp on the block of an instance that is not live. -/
theorem Paired.filled (held : Held r w) (hpaired : Paired w epochs) {payload : ℕ} (stamp : Stamp)
    (happart : ∀ q u, w.Live q u → Apart payload len q u.size) (hpayload : payload % 8 = 0) (hn : n ≤ len)
    (hlen : len % 8 = 0) : Paired w (Epoch.fill epochs payload n stamp) := by
  intro q u word' h'
  have hout {granule : ℕ} (h : granule < payload / 8 ∨ payload / 8 + len / 8 ≤ granule) :
      Epoch.fill epochs payload n stamp granule = epochs granule := by
    refine if_neg fun htouches => ?_
    unfold Epoch.touches Epoch.granules at htouches
    unfold EPOCH_GRANULE at htouches
    split at htouches <;> omega
  have hw := WordOf.bounds held h'
  have hap := happart q u h'.1
  unfold Apart at hap
  unfold EPOCH_GRANULE
  rw [hout (by omega), hout (by omega)]
  exact hpaired q u word' h'

/-- A write into the aux of a live instance keeps the world held. -/
theorem Held.writeSlot (held : Held r w) (h : WordOf w p t word) (value : Slot) : Held r { w with
    arena := { w.arena with mem := writeSlot w.arena.mem (slotAt p t.size word) value } } := by
  obtain ⟨-, -, -, -, hmod, hlow, hhigh, -⟩ := WordOf.bounds held h
  have hfirst := @Held.store r w p t held h.1 (slotAt p t.size word) value.ver (by omega) (Or.inr ⟨hlow, by omega⟩)
  exact @Held.store r _ p t hfirst h.1 (slotAt p t.size word + 8) value.packed (by omega) (Or.inr ⟨by omega, by omega⟩)

/-! ## Walks over the aux -/

/-- The world with the memory that a walk has. -/
def withMem (w : World) (mem : ℕ → ℕ) : World := { w with arena := { w.arena with mem := mem } }

/-- A walk keeps the world held and the stamps paired. -/
def Kept (r : Region) (w : World) (walk : Walk) : Prop := Held r (withMem w walk.mem) ∧ Paired w walk.epochs

theorem Kept.stamp {walk : Walk} (h : Kept r w walk) (hword : WordOf w p t word) :
    Kept r w (walk.stamp word (slotAt p t.size word)) := by
  refine ⟨h.1, ?_⟩
  rcases walk.stamp_epochs word (slotAt p t.size word) with hsame | ⟨stamp, hstamped⟩
  · rw [hsame]
    exact h.2
  · rw [hstamped]
    exact Paired.stamped h.1 h.2 hword stamp

theorem Kept.writeSlot {walk : Walk} (h : Kept r w walk) (hword : WordOf w p t word) (value : Slot) :
    Kept r w { walk with mem := writeSlot walk.mem (slotAt p t.size word) value } :=
  ⟨Held.writeSlot h.1 hword value, h.2⟩

theorem Kept.walkFrom {step : Walk → ℕ → Walk} (at_ after : ℕ) (h : Kept r w walk)
    (hstep : ∀ walk word, word < after → Kept r w walk → Kept r w (step walk word)) :
    Kept r w (Relocate.walkFrom step at_ after walk) := by
  fun_induction Relocate.walkFrom step at_ after walk with
  | case1 at_ walk hlt ih => exact ih (hstep walk at_ hlt h)
  | case2 at_ walk hge => exact h

/-- A capability that was recovered locates the slots of words of live instances and no others. -/
theorem Thread.Found.addressOf {c : Cap} {addr slot : ℕ} (hfound : Found w c addr) (hword : word < 2^64)
    (hslot : addressOf c word = some slot) : ∃ p t, WordOf w p t word ∧ slot = slotAt p t.size word := by
  rcases hfound with ⟨i, t, hlive, hext, hsize, hdescribes, -⟩ | ⟨hbare, -⟩
  · rw [addressOf_eq hdescribes hword] at hslot
    split at hslot
    · rename_i hhas
      have hle := i.ext_le
      obtain ⟨hmod, hlo, hhi⟩ := hhas
      refine ⟨i.lo, t, ⟨hlive, hmod, hlo, by omega⟩, ?_⟩
      rw [← Option.some.inj hslot, Instance.slot, hsize, slotAt]
    · cases hslot
  · rw [addressOf_bare hbare] at hslot
    cases hslot

theorem Kept.moveWord (hinto : Found w into dst)
    (h : Kept r w walk) (hword : word < 2^64) : Kept r w (Relocate.moveWord into from_ dst src len walk word) := by
  cases hslot : addressOf into word with
  | none =>
    unfold Relocate.moveWord
    rw [hslot]
    exact h
  | some slot =>
    obtain ⟨p, t, hof, rfl⟩ := hinto.addressOf hword hslot
    obtain ⟨now, hnow⟩ := Relocate.moveWord_eq into from_ dst src len hslot
    rw [hnow]
    split
    · exact (h.writeSlot hof now).stamp hof
    · exact h.writeSlot hof now

theorem Kept.eraseWord (hinto : Found w into addr) (h : Kept r w walk)
    (hword : word < 2^64) : Kept r w (Relocate.eraseWord into walk word) := by
  unfold Relocate.eraseWord
  cases hslot : addressOf into word with
  | none => exact h
  | some slot =>
    obtain ⟨p, t, hof, rfl⟩ := hinto.addressOf hword hslot
    dsimp only
    split
    · exact (h.writeSlot hof _).stamp hof
    · exact h

theorem Kept.relocate (hinto : Found w into dst)
    (h : Kept r w walk) : Kept r w (Relocate.relocate into from_ dst src len walk) := by
  have hafter := Relocate.after_lt dst len
  unfold Relocate.relocate
  split_ifs
  · exact h
  · exact h
  · exact Kept.walkFrom _ _ h fun walk word hlt hkept => hkept.moveWord hinto (by omega)

theorem Kept.erase (hinto : Found w into addr) (h : Kept r w walk) :
    Kept r w (Relocate.erase into addr len walk) := by
  have hafter := Relocate.after_lt addr len
  unfold Relocate.erase
  split_ifs
  · exact h
  · exact h
  · exact Kept.walkFrom _ _ h fun walk word hlt hkept => hkept.eraseWord hinto (by omega)

/-! ## Acts -/

/-- The invariant of the runs. -/
def Inv (r : Region) (s : Thread) : Prop := Held r s.world ∧ Paired s.world s.epochs

theorem Inv.new (r : Region) (number : ℕ) : Inv r (Thread.new r number) :=
  ⟨Held.new r, fun _ _ _ _ => torn_none _⟩

variable {s : Thread}

/-- A pair whose capability locates the slot keeps the stamps equal. -/
theorem Inv.pair (h : Inv r s) (hlocated : covering s.world.arena at_ = true →
    ∃ p t, WordOf s.world p t at_ ∧ addressOf dest at_ = some (slotAt p t.size at_)) : Inv r (s.pair dest at_) := by
  unfold Thread.pair
  by_cases hcovers : covering s.world.arena at_ = true
  · obtain ⟨p, t, hword, hslot⟩ := hlocated hcovers
    rw [if_pos hcovers, hslot]
    dsimp only
    split
    · exact h
    · exact ⟨h.1, Paired.stamped h.1 h.2 hword _⟩
  · rw [if_neg hcovers]
    exact h

/-- A word of a live instance is one of the region. -/
theorem WordOf.covering (held : Held r w) (h : WordOf w p t word) : covering w.arena word = true := by
  obtain ⟨-, hlo, hhi, -⟩ := WordOf.bounds held h
  obtain ⟨-, -, -, -, hlow, hhigh, hnext, -⟩ := held.tiles.bounds h.1.1
  unfold Torn.covering
  rw [Bool.and_eq_true, decide_eq_true_eq, decide_eq_true_eq]
  omega

/-- A store's capability goes into the slot of its word, or nowhere. -/
theorem Inv.capStore (h : Inv r s) {cap recovered : Cap} {value : ℕ}
    (hlegal : s.Legal (.store dest cap recovered at_ value))
    (hlocated : s.Located (.store dest cap recovered at_ value)) :
    Inv r (s.withMem (s.capStore dest cap recovered at_ value)) := by
  obtain ⟨hat, hfound, hdest⟩ := hlegal
  unfold Thread.capStore auxStore
  by_cases hcovers : covering s.world.arena at_ = true
  · obtain ⟨p, t, hword, hslot⟩ := hlocated hcovers
    rw [hslot]
    exact ⟨Held.writeSlot h.1 hword _, h.2⟩
  · rw [if_neg hcovers] at hdest
    have hnone : addressOf recovered at_ = none := by
      cases hslot : addressOf recovered at_ with
      | none => rfl
      | some slot =>
        obtain ⟨p, t, hword, -⟩ := hfound.addressOf hat hslot
        exact absurd (WordOf.covering h.1 hword) hcovers
    rw [hdest, hnone]
    exact h

/-- Stamps stay paired where no instance becomes live. -/
theorem Paired.of_live (hpaired : Paired w epochs)
    (hlive : ∀ q u, w'.Live q u → ∃ u', w.Live q u' ∧ u'.size = u.size) : Paired w' epochs := by
  intro q u word h
  obtain ⟨u', hlive', hsize⟩ := hlive q u h.1
  have hbefore := hpaired q u' word ⟨hlive', h.2.1, h.2.2.1, hsize ▸ h.2.2.2⟩
  rwa [hsize] at hbefore

/-- What begins an instance makes it live where none was, and changes no other. -/
theorem begin_tenant {arena : Arena} (hbegin : w.arena.begin n = some (p, arena))
    (hstep : w.step (.begin n) = some w') : (p = 0 ∧ w'.tenant = w.tenant) ∨
      (p ≠ 0 ∧ ∃ t, t.asked = n ∧ t.finished = false ∧ w'.tenant = Function.update w.tenant p (some t)) := by
  rw [World.step, hbegin] at hstep
  by_cases hzero : p = 0
  · subst hzero
    obtain rfl := Option.some.inj hstep
    exact Or.inl ⟨rfl, rfl⟩
  · simp only [Option.bind_eq_bind, Option.bind_some, if_neg hzero, Option.some.injEq] at hstep
    subst hstep
    exact Or.inr ⟨hzero, _, rfl, rfl, rfl⟩

theorem room_tenant (hstep : w.step (.room p) = some w') : w'.tenant = w.tenant ∨
    w'.tenant = Function.update w.tenant p ((w.tenant p).map fun t => { t with roomed := true }) := by
  rw [World.step] at hstep
  cases hroom : w.arena.room p with
  | none =>
    rw [hroom] at hstep
    cases hstep
  | some answer =>
    obtain ⟨answer, arena⟩ := answer
    rw [hroom] at hstep
    cases answer with
    | ok size =>
      obtain rfl := Option.some.inj hstep
      exact Or.inr rfl
    | error refusal =>
      obtain rfl := Option.some.inj hstep
      exact Or.inl rfl

variable {s' : Thread}

/-- The new instance's words have no stamps, and the others keep theirs. -/
theorem Inv.alloc (h : Inv r s) (hlegal : s.world.Legal (.begin n))
    (hstep : s.step (.alloc n) = some s') : Inv r s' := by
  obtain ⟨bytes, hneeded⟩ := hlegal
  obtain ⟨hsized, -⟩ := sized_of_needed hneeded
  obtain ⟨p, arena, hbegin, -, hvacant⟩ := h.1.begin_answer hneeded
  rw [Thread.step, hbegin] at hstep
  cases hworld : s.world.step (.begin n) with
  | none =>
    rw [hworld] at hstep
    cases hstep
  | some w' =>
    rw [hworld, hsized] at hstep
    have held := @Held.step r s.world w' (.begin n) h.1 ⟨bytes, hneeded⟩ trivial hworld
    rcases begin_tenant hbegin hworld with ⟨rfl, htenant⟩ | ⟨hne, t, hasked, hfinished, htenant⟩
    · obtain rfl := Option.some.inj hstep
      refine ⟨held, h.2.of_live fun q u hlive => ⟨u, ?_, rfl⟩⟩
      unfold World.Live at hlive ⊢
      rwa [htenant] at hlive
    · simp only [Option.bind_eq_bind, Option.bind_some, if_neg hne, Option.some.injEq] at hstep
      subst hstep
      have hnew : w'.tenant p = some t := by rw [htenant, Function.update_self]
      have hsize : roundUp n = t.size := hasked ▸ (held.tiles.placed p t hnew).wrote.asked
      obtain ⟨haligned, hmod, hpos, -, hlow, hhigh, hnext, -⟩ := held.tiles.bounds hnew
      have hcovers : covering w'.arena p = true := by
        unfold covering
        rw [Bool.and_eq_true, decide_eq_true_eq, decide_eq_true_eq]
        omega
      have hnone : ∀ u, ¬ s.world.Live p u := (hvacant hne).1
      have hbefore {q : ℕ} (u : Tenant) (hqp : q ≠ p) : w'.Live q u ↔ s.world.Live q u := by
        unfold World.Live
        rw [htenant, Function.update_of_ne hqp]
      have hkept : Paired s.world (Epoch.fill s.epochs p t.size NONE) := by
        refine Paired.filled h.1 h.2 NONE (fun q u hlive => ?_) (by omega) le_rfl (by omega)
        have hqp : q ≠ p := fun heq => hnone u (heq ▸ hlive)
        exact held.tiles.apart p q t u hnew ((hbefore u hqp).2 hlive).1 hqp.symm
      refine ⟨held, fun q u word hword => ?_⟩
      unfold begun
      dsimp only
      rw [if_pos hcovers, hsize, min_eq_left (by omega)]
      by_cases hqp : q = p
      · subst hqp
        obtain rfl := Option.some.inj (hword.1.1.symm.trans hnew)
        obtain ⟨-, hmod', hlo, hhi⟩ := hword
        have htouches : Epoch.touches q u.size (word / EPOCH_GRANULE) := by
          unfold Epoch.touches Epoch.granules EPOCH_GRANULE
          rw [if_neg (by omega)]
          omega
        rw [Epoch.fill, if_pos htouches]
        exact torn_none _
      · exact hkept q u word ⟨(hbefore u hqp).1 hword.1, hword.2⟩

/-- The stamp over a block that ended is on no word and no slot of a live instance. -/
theorem Inv.over (h : Inv r s) (hp : p % 8 = 0) (hlen : len % 8 = 0)
    (happart : ∀ q u, s.world.Live q u → Apart p len q u.size) : Inv r (s.over_ p len) := by
  unfold Thread.over_
  split
  · dsimp only
    split
    · exact h
    · exact ⟨h.1, Paired.filled h.1 h.2 _ happart hp (min_le_left _ _) hlen⟩
  · exact h

/-- A free ends the instance or is refused. -/
theorem Inv.dealloc (h : Inv r s) (hhonest : s.world.Honest (.end_ p))
    (hstep : s.step (.dealloc p) = some s') : Inv r s' := by
  obtain ⟨extent, hextent, -, hsize⟩ := h.1.extent_answer hhonest
  rw [Thread.step, hextent] at hstep
  by_cases hlive : ∃ t, s.world.Live p t
  · obtain ⟨t, hlive⟩ := hlive
    obtain ⟨haligned, hmod, -⟩ := h.1.tiles.bounds hlive.1
    obtain rfl := hsize t hlive
    have hworld : s.world.step (.end_ p) = some ⟨s.world.arena.vacated p t,
        Function.update s.world.tenant p (some { t with finished := true }), s.world.count⟩ := by
      rw [World.step, h.1.end_spec hlive]
      simp only [Option.bind_eq_bind, Option.bind_some, hlive.1, Option.map_some]
    rw [h.1.end_spec hlive, hworld] at hstep
    obtain rfl := Option.some.inj hstep
    have hother {q : ℕ} {u : Tenant} (hq : World.Live ⟨s.world.arena.vacated p t,
        Function.update s.world.tenant p (some { t with finished := true }), s.world.count⟩ q u) :
        q ≠ p ∧ s.world.Live q u := by
      obtain ⟨htenant, hfinished⟩ := hq
      have hqp : q ≠ p := by
        rintro rfl
        dsimp only at htenant
        rw [Function.update_self, Option.some.injEq] at htenant
        subst htenant
        cases hfinished
      dsimp only at htenant
      rw [Function.update_of_ne hqp] at htenant
      exact ⟨hqp, htenant, hfinished⟩
    have hended : Inv r { s with world := ⟨s.world.arena.vacated p t,
        Function.update s.world.tenant p (some { t with finished := true }), s.world.count⟩ } :=
      ⟨h.1.end_ hlive, h.2.of_live fun q u hq => ⟨u, (hother hq).2, rfl⟩⟩
    refine hended.over (by omega) (by omega) fun q u hq => ?_
    exact h.1.tiles.apart p q t u hlive.1 (hother hq).2.1 (hother hq).1.symm
  · obtain ⟨refusal, hheader⟩ := h.1.header_of_not_live hhonest (not_exists.1 hlive)
    have hend : s.world.arena.end_ p = some (.error refusal, s.world.arena) := by
      unfold Arena.end_
      rw [hheader]
      rfl
    have hworld : s.world.step (.end_ p) = some s.world := by
      rw [World.step, hend]
      rfl
    rw [hend, hworld] at hstep
    obtain rfl := Option.some.inj hstep
    exact h

theorem Inv.room (h : Inv r s) (hhonest : s.world.Honest (.room p))
    (hstep : s.step (.room p) = some s') : Inv r s' := by
  obtain ⟨w', hworld, rfl⟩ := Option.map_eq_some_iff.1 hstep
  refine ⟨@Held.step r s.world w' (.room p) h.1 trivial hhonest hworld, h.2.of_live fun q u hlive => ?_⟩
  rcases room_tenant hworld with hsame | hroomed
  · refine ⟨u, ?_, rfl⟩
    unfold World.Live at hlive ⊢
    rwa [hsame] at hlive
  · obtain ⟨htenant, hfinished⟩ := hlive
    dsimp only at htenant
    rw [hroomed] at htenant
    by_cases hqp : q = p
    · subst hqp
      rw [Function.update_self, Option.map_eq_some_iff] at htenant
      obtain ⟨t, ht, rfl⟩ := htenant
      exact ⟨t, ⟨ht, hfinished⟩, rfl⟩
    · rw [Function.update_of_ne hqp] at htenant
      exact ⟨u, ⟨htenant, hfinished⟩, rfl⟩

/-- What the program may do keeps the invariant when its stores go through capabilities that locate their slots. -/
theorem Inv.step {s s' : Thread} {act : Act} (h : Inv r s) (hlegal : s.Legal act) (hlocated : s.Located act)
    (hstep : s.step act = some s') : Inv r s' := by
  cases act with
  | alloc n => exact h.alloc hlegal hstep
  | dealloc p => exact h.dealloc hlegal hstep
  | room p => exact h.room hlegal hstep
  | write addr value =>
    rw [Thread.step] at hstep
    obtain ⟨w', hworld, rfl⟩ := Option.map_eq_some_iff.1 hstep
    refine ⟨@Held.step r s.world w' (.store addr value) h.1 hlegal trivial hworld, ?_⟩
    obtain rfl := Option.some.inj hworld
    exact h.2
  | store dest cap recovered at_ value =>
    obtain rfl := Option.some.inj hstep
    exact (h.capStore hlegal hlocated).pair hlocated
  | copy into from_ dst src len =>
    obtain rfl := Option.some.inj hstep
    exact Kept.relocate hlegal.1 ⟨h.1, h.2⟩
  | erase into addr len =>
    obtain rfl := Option.some.inj hstep
    exact Kept.erase hlegal ⟨h.1, h.2⟩
  | load dest at_ =>
    obtain rfl := Option.some.inj hstep
    exact h

/-- The acts of a run in which every store goes through a capability that locates the slot of its word, and loads are of
words of live instances. -/
def Permitted (s : Thread) (act : Act) : Prop := s.Legal act ∧ s.Located act

theorem inv_of_reachable {number : ℕ} (h : Thread.Reachable Permitted r number s) : Inv r s := by
  induction h with
  | new => exact Inv.new r number
  | step _ hpermitted hstep ih => exact ih.step hpermitted.1 hpermitted.2 hstep

/-- No load of such a run reports a torn store. -/
theorem never_torn {number : ℕ} {s : Thread} (h : Thread.Reachable Permitted r number s) {dest : Cap} {at_ : ℕ}
    (hload : Permitted s (.load dest at_)) : s.reports dest at_ = false := by
  have hinv := inv_of_reachable h
  unfold Thread.reports
  cases hcovers : covering s.world.arena at_ with
  | false => rfl
  | true =>
    cases hslot : addressOf dest at_ with
    | none => rfl
    | some slot =>
      obtain ⟨p, t, hword, rfl⟩ := hload.2 slot hcovers hslot
      exact hinv.2 p t at_ hword

/-- The capability of the first instance that is begun in the region, of 64 bytes. -/
def firstCap : Cap := ⟨4256, 64, 2, Meta.new .allocated (READ + WRITE) 1⟩

theorem sized_first : sized 64 = some 64 := by decide

/-- That instance. -/
def first : Instance := ⟨4256, 64, 64, sized_first, by decide, by decide, by decide⟩

theorem first_recovered : Recovered firstCap 4256 (some first) :=
  ⟨⟨rfl, rfl, rfl, by decide, by decide⟩, by decide, by decide⟩

/-- A capability that locates no slot. -/
def spareCap : Cap := ⟨0, 0, DEAD, 0⟩

theorem never_torn_stored : ∃ s, Thread.Reachable Permitted small 1 s ∧ s.epochs 532 ≠ NONE ∧
    s.reports firstCap 4256 = false := by
  have h1 := @Thread.Reachable.step Permitted small 1 _ _ (.alloc 64) .new ⟨⟨_, rfl⟩, trivial⟩ rfl
  have h2 := @Thread.Reachable.step Permitted small 1 _ _ (.store firstCap firstCap firstCap 4256 4256) h1
    ⟨⟨by decide, Or.inl ⟨first, _, ⟨rfl, rfl⟩, rfl, rfl, first_recovered⟩, ⟨4256, _, ⟨rfl, rfl⟩, by decide, by decide⟩⟩,
      fun _ => ⟨4256, _, ⟨⟨rfl, rfl⟩, by decide, by decide, by decide⟩, rfl⟩⟩ rfl
  refine ⟨_, h2, ?_, never_torn h2 ⟨trivial, fun slot _ hslot =>
    ⟨4256, _, ⟨⟨rfl, rfl⟩, by decide, by decide, by decide⟩, ?_⟩⟩⟩
  · decide
  · exact (Option.some.inj hslot).symm

/-- A store through a capability that locates the slot, one through a capability that does not and a load through the
first: it reports, although one thread did all of it. -/
theorem spare_torn : ∃ s, Thread.Reachable Thread.Legal small 1 s ∧ s.Legal (.load firstCap 4256) ∧
    s.reports firstCap 4256 = true := by
  have h1 := @Thread.Reachable.step Thread.Legal small 1 _ _ (.alloc 64) .new ⟨_, rfl⟩ rfl
  have h2 := @Thread.Reachable.step Thread.Legal small 1 _ _ (.store firstCap firstCap firstCap 4256 4256) h1
    ⟨by decide, Or.inl ⟨first, _, ⟨rfl, rfl⟩, rfl, rfl, first_recovered⟩, 4256, _, ⟨rfl, rfl⟩, by decide, by decide⟩
    rfl
  have h3 := @Thread.Reachable.step Thread.Legal small 1 _ _ (.store spareCap firstCap firstCap 4256 4256) h2
    ⟨by decide, Or.inl ⟨first, _, ⟨rfl, rfl⟩, rfl, rfl, first_recovered⟩, 4256, _, ⟨rfl, rfl⟩, by decide, by decide⟩
    rfl
  exact ⟨_, h3, trivial, rfl⟩

end Rucc.SafeRt.Torn
