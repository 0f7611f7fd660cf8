import Rucc.SafeRt.AuxSlot
import Rucc.SafeRt.Epoch
import Rucc.SafeRt.PlaneChecks

/-!
# What a copy and a byte-wise write do to the aux

`relocate` and `erase` of `check.rs`. Both walk the words of the destination upwards. A word that the copy covers
gets the slot of the word it came from, as the aux is when the walk gets there, and one that it covers in part loses
its slot. So what was moved is what was there before unless the walk reads a slot that it has already written.
-/

namespace Rucc.SafeRt.Relocate

open Epoch (Stamp Clock NONE EPOCH_GRANULE)
open TypePlane (Types UNTYPED put_of_mem put_of_not_mem)
open InitPlane (Init)
open PlaneChecks (wrappingAdd)

/-- The memory with the aux in it, the epoch plane and this thread's clock. A walk takes at most one stamp. -/
structure Walk where
  mem : ℕ → ℕ
  epochs : ℕ → Stamp
  clock : Clock
  taken : Option Stamp

/-- Records the writer of a pointer word on the word and on the slot beside it. -/
def restamped (epochs : ℕ → Stamp) (word slot : ℕ) (stamp : Stamp) : ℕ → Stamp :=
  Function.update (Function.update epochs (word / EPOCH_GRANULE) stamp) (slot / EPOCH_GRANULE) stamp

/-- A changed word is stamped, with the stamp that the walk took or with a new one. -/
def Walk.stamp (s : Walk) (word slot : ℕ) : Walk :=
  let (stamp, clock) := match s.taken with
    | some stamp => (stamp, s.clock)
    | none => s.clock.tick
  { s with
    epochs := if stamp = NONE then s.epochs else restamped s.epochs word slot stamp
    clock := clock
    taken := some stamp }

/-- The words from `at` on, below an address that starts one. -/
def walkFrom (word : Walk → ℕ → Walk) (at_ after : ℕ) (s : Walk) : Walk :=
  if at_ < after then walkFrom word (at_ + WORD) after (word s at_) else s
termination_by after - at_
decreasing_by
  unfold WORD
  omega

section

variable (into from_ : Cap) (dst src len : ℕ)

/-- Whether the copy covers the word at `at`, in the sums of `u64`. -/
def whole (at_ : ℕ) : Bool := dst ≤ at_ && (at_ + WORD) % 2^64 ≤ (dst + len) % 2^64

/-- The slot that the word at `at` gets, if there is one to give. -/
def carried (at_ : ℕ) : Option ℕ := if whole dst len at_ then addressOf from_ ((src + (at_ - dst)) % 2^64) else none

/-- One word of `relocate`. The region that holds `dst` is the one whose capability was recovered, so there is one
to stamp. -/
def moveWord (s : Walk) (at_ : ℕ) : Walk :=
  match addressOf into at_ with
  | none => s
  | some slot =>
    let held := readSlot s.mem slot
    let now := match carried from_ dst src len at_ with
      | some had => readSlot s.mem had
      | none => Slot.EMPTY
    let s := { s with mem := writeSlot s.mem slot now }
    if held ≠ Slot.EMPTY ∨ now ≠ Slot.EMPTY then s.stamp at_ slot else s

/-- The first word that a range reaches. -/
def first (dst : ℕ) : ℕ := dst / WORD * WORD

/-- The first word past a range, in the sums of `u64`. -/
def after (dst len : ℕ) : ℕ := ((dst + len) % 2^64 + (WORD - 1)) % 2^64 / WORD * WORD

/-- The judgement a copy makes about the pointers it moved. `into` and `from` were recovered from the two addresses.
For a destination without an aux it is the table beside it that is told, which is no part of this. -/
def relocate (s : Walk) : Walk :=
  if len < WORD then s
  else if Meta.class into.info ≠ Class.allocated.code then s
  else walkFrom (moveWord into from_ dst src len) (first dst) (after dst len) { s with taken := none }

theorem moveWord_eq {s : Walk} {at_ slot : ℕ} (h : addressOf into at_ = some slot) :
    ∃ now, moveWord into from_ dst src len s at_ = if readSlot s.mem slot ≠ Slot.EMPTY ∨ now ≠ Slot.EMPTY then
        { s with mem := writeSlot s.mem slot now }.stamp at_ slot
      else { s with mem := writeSlot s.mem slot now } := by
  refine ⟨match carried from_ dst src len at_ with
    | some had => readSlot s.mem had
    | none => Slot.EMPTY, ?_⟩
  unfold moveWord
  rw [h]

/-- One word of `erase`. -/
def eraseWord (s : Walk) (at_ : ℕ) : Walk :=
  match addressOf into at_ with
  | none => s
  | some slot =>
    if readSlot s.mem slot ≠ Slot.EMPTY then { s with mem := writeSlot s.mem slot Slot.EMPTY }.stamp at_ slot else s

/-- The judgement a byte-wise write makes about the pointers it wrote over. -/
def erase (addr len : ℕ) (s : Walk) : Walk :=
  if len = 0 then s
  else if Meta.class into.info ≠ Class.allocated.code then s
  else walkFrom (eraseWord into) (first addr) (after addr len) { s with taken := none }

end

@[simp]
theorem Walk.stamp_mem (s : Walk) (word slot : ℕ) : (s.stamp word slot).mem = s.mem := rfl

/-- One stamp on a word and its slot, or none where the thread has none to give. -/
theorem Walk.stamp_epochs (s : Walk) (word slot : ℕ) : (s.stamp word slot).epochs = s.epochs ∨
    ∃ stamp, (s.stamp word slot).epochs = restamped s.epochs word slot stamp := by
  unfold Walk.stamp
  generalize (match s.taken with | some stamp => (stamp, s.clock) | none => s.clock.tick) = taken
  obtain ⟨stamp, clock⟩ := taken
  dsimp only
  by_cases hnone : stamp = NONE
  · exact Or.inl (if_pos hnone)
  · exact Or.inr ⟨stamp, if_neg hnone⟩

/-! ## The words of a range -/

/-- A range has bytes of the word at `w`. -/
def Touches (dst len w : ℕ) : Prop := 0 < len ∧ w < dst + len ∧ dst < w + 8

/-- How many words a walk looks at. -/
def count (dst len : ℕ) : ℕ := (after dst len - first dst) / 8

section Range

variable {dst len k w : ℕ}

theorem first_mod (dst : ℕ) : first dst % 8 = 0 := Nat.mul_mod_left _ _

theorem after_mod (dst len : ℕ) : after dst len % 8 = 0 := Nat.mul_mod_left _ _

theorem after_lt (dst len : ℕ) : after dst len + 8 ≤ 2^64 := by
  unfold after WORD
  omega

theorem lt_after (hk : k < count dst len) : first dst + 8 * k + 8 ≤ after dst len := by
  have hfirst := first_mod dst
  have hafter := after_mod dst len
  unfold count at hk
  omega

/-- Every word that is walked has bytes of the range. -/
theorem touches_of_walked (hdst : dst < 2^64) (hlen : len < 2^64) (hpos : 0 < len) (hk : k < count dst len) :
    Touches dst len (first dst + 8 * k) := by
  have hlt := lt_after hk
  unfold Touches
  unfold after first WORD at *
  omega

/-- A word with bytes of the range is walked unless it is past where the walk ends. -/
theorem walked_of_touches (h : Touches dst len w) (hmod : w % 8 = 0) (hlt : w < after dst len) :
    ∃ k < count dst len, first dst + 8 * k = w := by
  have hafter := after_mod dst len
  refine ⟨(w - first dst) / 8, ?_, ?_⟩
  · unfold count
    unfold Touches first WORD at *
    omega
  · unfold Touches first WORD at *
    omega

/-- Of a word that is walked the sums say whether the range covers it. -/
theorem whole_walked (hdst : dst < 2^64) (hlen : len < 2^64) (hk : k < count dst len) :
    whole dst len (first dst + 8 * k) = decide (dst ≤ first dst + 8 * k ∧ first dst + 8 * k + 8 ≤ dst + len) := by
  have hlt := lt_after hk
  have hafter := after_lt dst len
  unfold whole
  rw [← Bool.decide_and, decide_eq_decide]
  unfold after first WORD at *
  omega

end Range

/-! ## Walks over the slots of an instance -/

section Pass

variable (i : Instance) (value : (ℕ → ℕ) → ℕ → Slot)

/-- The slot of a word gets a value that may depend on the memory. -/
def pass (mem : ℕ → ℕ) (w : ℕ) : ℕ → ℕ := if i.HasSlot w then writeSlot mem (i.slot w) (value mem w) else mem

/-- The `n` words from one on, upwards. -/
def passes (first n : ℕ) (mem : ℕ → ℕ) : ℕ → ℕ := (List.range' first n 8).foldl (pass i value) mem

variable {i value} {mem : ℕ → ℕ} {first n : ℕ}

theorem passes_succ (first n : ℕ) (mem : ℕ → ℕ) :
    passes i value first (n + 1) mem = passes i value (first + 8) n (pass i value mem first) := rfl

theorem passes_concat (first n : ℕ) (mem : ℕ → ℕ) :
    passes i value first (n + 1) mem = pass i value (passes i value first n mem) (first + 8 * n) := by
  unfold passes
  rw [List.range'_concat, List.foldl_append, List.foldl_cons, List.foldl_nil]

/-- What is no slot of a word on the way stays. -/
theorem passes_frame {a : ℕ} (h : ∀ k < n, i.HasSlot (first + 8 * k) →
    a ≠ i.slot (first + 8 * k) ∧ a ≠ i.slot (first + 8 * k) + 8) : passes i value first n mem a = mem a := by
  induction n with
  | zero => rfl
  | succ n ih =>
    rw [passes_concat, pass]
    split
    · rename_i hslot
      obtain ⟨hne, hne'⟩ := h n (Nat.lt_succ_self n) hslot
      rw [writeSlot_of_ne hne hne', ih fun k hk => h k (by omega)]
    · exact ih fun k hk => h k (by omega)

/-- A slot that no word on the way has stays. -/
theorem passes_other {w : ℕ} (hw : i.HasSlot w) (h : ∀ k < n, first + 8 * k ≠ w) :
    readSlot (passes i value first n mem) (i.slot w) = readSlot mem (i.slot w) := by
  have hne (k : ℕ) (hk : k < n) (hslot : i.HasSlot (first + 8 * k)) := Instance.slot_ne hw hslot (h k hk).symm
  refine readSlot_congr (passes_frame fun k hk hslot => ?_) (passes_frame fun k hk hslot => ?_)
  · exact ⟨(hne k hk hslot).1, (hne k hk hslot).2.1⟩
  · exact ⟨(hne k hk hslot).2.2.1, (hne k hk hslot).2.2.2⟩

/-- A word on the way has the value it got when the walk was there. -/
theorem passes_at {k : ℕ} (hk : k < n) (hw : i.HasSlot (first + 8 * k)) :
    readSlot (passes i value first n mem) (i.slot (first + 8 * k)) =
      value (passes i value first k mem) (first + 8 * k) := by
  induction n with
  | zero => omega
  | succ n ih =>
    rcases Nat.lt_or_eq_of_le (Nat.le_of_lt_succ hk) with hlt | rfl
    · rw [← ih hlt, passes_concat, pass]
      split
      · rename_i hslot
        obtain ⟨h1, h2, h3, h4⟩ := Instance.slot_ne hw hslot (by omega)
        exact readSlot_congr (writeSlot_of_ne h1 h2) (writeSlot_of_ne h3 h4)
      · rfl
    · rw [passes_concat, pass, if_pos hw, readSlot_writeSlot]

/-- The slot of a word stays as it is once the walk is past the word. -/
theorem passes_kept {k m : ℕ} (hk : k < m) (hm : m ≤ n) (hw : i.HasSlot (first + 8 * k)) :
    readSlot (passes i value first m mem) (i.slot (first + 8 * k)) =
      readSlot (passes i value first n mem) (i.slot (first + 8 * k)) :=
  (passes_at hk hw).trans (passes_at (hk.trans_le hm) hw).symm

end Pass

/-- A walk does to the memory what its words do. -/
theorem walkFrom_mem {i : Instance} {value : (ℕ → ℕ) → ℕ → Slot} {word : Walk → ℕ → Walk} {dst len : ℕ}
    (s : Walk) (hword : ∀ s, ∀ k < count dst len,
    (word s (first dst + 8 * k)).mem = pass i value s.mem (first dst + 8 * k)) :
    (walkFrom word (first dst) (after dst len) s).mem = passes i value (first dst) (count dst len) s.mem := by
  have hfrom (at_ n : ℕ) (hat : at_ % 8 = 0) (hn : n = (after dst len - at_) / 8)
      (hword : ∀ s, ∀ k < n, (word s (at_ + 8 * k)).mem = pass i value s.mem (at_ + 8 * k)) (s : Walk) :
      (walkFrom word at_ (after dst len) s).mem = passes i value at_ n s.mem := by
    have hafter := after_mod dst len
    induction n generalizing at_ s with
    | zero =>
      rw [walkFrom, if_neg (by omega)]
      rfl
    | succ n ih =>
      have hnow := hword s 0 (Nat.succ_pos n)
      rw [Nat.mul_zero, Nat.add_zero] at hnow
      rw [walkFrom, if_pos (by omega), passes_succ, ← hnow]
      refine ih (at_ + 8) (by omega) (by omega) (fun s k hk => ?_) _
      have hnext := hword s (k + 1) (by omega)
      rwa [show at_ + 8 * (k + 1) = at_ + 8 + 8 * k by ring] at hnext
  exact hfrom (first dst) _ (first_mod dst) rfl hword s

/-! ## A copy -/

section Copy

variable {into from_ : Cap} {dst src len : ℕ} {i : Instance} {source : Option Instance} {s : Walk}

variable {w : ℕ} {value : (ℕ → ℕ) → ℕ → Slot} {mem : ℕ → ℕ}

/-- What the slot of a word of the destination is to be: that of the word it came from where the copy covers it, and
empty where it does not or where there is none. -/
def given (source : Option Instance) (dst src len : ℕ) (mem : ℕ → ℕ) (w : ℕ) : Slot :=
  if dst ≤ w ∧ w + 8 ≤ dst + len then
    match slotOf source (src + (w - dst)) with
    | some had => readSlot mem had
    | none => Slot.EMPTY
  else Slot.EMPTY

theorem moveWord_mem (hinto : Recovered into dst (some i)) (hfrom : Recovered from_ src source)
    (hw : w < 2^64) (hwhole : whole dst len w = decide (dst ≤ w ∧ w + 8 ≤ dst + len)) :
    (moveWord into from_ dst src len s w).mem = pass i (given source dst src len) s.mem w := by
  obtain ⟨hdescribes, hlo, -⟩ := hinto
  unfold moveWord pass
  rw [addressOf_eq hdescribes hw]
  by_cases hslot : i.HasSlot w
  · rw [if_pos hslot, if_pos hslot]
    have hgiven : (match carried from_ dst src len w with
        | some had => readSlot s.mem had
        | none => Slot.EMPTY) = given source dst src len s.mem w := by
      unfold carried given
      rw [hwhole]
      by_cases hcovers : dst ≤ w ∧ w + 8 ≤ dst + len
      · have hext := i.ext_le
        have hend := hslot.2.2
        rw [if_pos (decide_eq_true hcovers), if_pos hcovers, hfrom.addressOf_add i (by omega)]
      · rw [if_neg (by rw [decide_eq_true_eq]; exact hcovers), if_neg hcovers]
    dsimp only
    rw [hgiven]
    split
    · exact Walk.stamp_mem _ _ _
    · rfl
  · rw [if_neg hslot, if_neg hslot]

theorem relocate_mem (hinto : Recovered into dst (some i)) (hfrom : Recovered from_ src source) (hdst : dst < 2^64)
    (hlen : len < 2^64) (hshort : 8 ≤ len) : (relocate into from_ dst src len s).mem =
      passes i (given source dst src len) (first dst) (count dst len) s.mem := by
  unfold relocate
  rw [if_neg (by unfold WORD; omega), if_neg (not_not.2 hinto.1.allocated)]
  refine walkFrom_mem _ fun s k hk => ?_
  have hlt := lt_after hk
  have hafter := after_lt dst len
  exact moveWord_mem hinto hfrom (by omega) (whole_walked hdst hlen hk)

/-- The instance the source is in is that of the destination or one apart from it. -/
def Separate (i : Instance) (source : Option Instance) : Prop :=
  ∀ j, source = some j → j = i ∨ Apart i.lo i.size j.lo j.size

/-- A word of the destination whose slot is read for a word above it that the copy covers. -/
def ReadLater (i : Instance) (source : Option Instance) (dst src len w : ℕ) : Prop :=
  ∃ w', i.HasSlot w' ∧ w < w' ∧ w' < after dst len ∧ dst ≤ w' ∧ w' + 8 ≤ dst + len ∧ source = some i ∧
    src + (w' - dst) = w

/-- A word of the destination that is not walked, or whose slot is read after it was written. -/
def Missed (i : Instance) (source : Option Instance) (dst src len w : ℕ) : Prop :=
  len < 8 ∨ after dst len ≤ w ∨ ReadLater i source dst src len w

/-- Every word of the destination has the slot it is to have and nothing else is changed. -/
structure Moves (i : Instance) (dst len : ℕ) (value : ℕ → Slot) (mem mem' : ℕ → ℕ) : Prop where
  slot : ∀ w, Touches dst len w → i.HasSlot w → readSlot mem' (i.slot w) = value w
  frame : ∀ a, (∀ w, Touches dst len w → i.HasSlot w → a ≠ i.slot w ∧ a ≠ i.slot w + 8) → mem' a = mem a

/-- A word that is read for another gives it its slot. -/
theorem given_read {w' : ℕ} (hslot : i.HasSlot w) (hle : dst ≤ w') (hcover : w' + 8 ≤ dst + len)
    (hsame : source = some i) (hread : src + (w' - dst) = w) (mem : ℕ → ℕ) :
    given source dst src len mem w' = readSlot mem (i.slot w) := by
  unfold given
  rw [if_pos ⟨hle, hcover⟩, hread, hsame, slotOf, if_pos hslot]

/-- The source's slot of a word is that of an earlier word of the walk or has not been written yet. -/
theorem readSlot_source {first k a slot : ℕ} (hsource : Separate i source)
    (hslot : slotOf source a = some slot) : (∃ k' < k, source = some i ∧ i.HasSlot (first + 8 * k') ∧
      a = first + 8 * k') ∨ readSlot (passes i value first k mem) slot = readSlot mem slot := by
  cases source with
  | none => cases hslot
  | some j =>
    rw [slotOf] at hslot
    by_cases hhas : j.HasSlot a
    · rw [if_pos hhas, Option.some.injEq] at hslot
      subst hslot
      rcases hsource j rfl with rfl | happart
      · by_cases hwalked : ∃ k' < k, first + 8 * k' = a
        · obtain ⟨k', hk', rfl⟩ := hwalked
          exact Or.inl ⟨k', hk', rfl, hhas, rfl⟩
        · exact Or.inr (passes_other hhas fun k' hk' heq => hwalked ⟨k', hk', heq⟩)
      · right
        have hne (k' : ℕ) (h : i.HasSlot (first + 8 * k')) := Instance.slot_apart happart h hhas
        refine readSlot_congr (passes_frame fun k' _ h => ?_) (passes_frame fun k' _ h => ?_)
        · exact ⟨(hne k' h).1.symm, (hne k' h).2.2.1.symm⟩
        · exact ⟨(hne k' h).2.1.symm, (hne k' h).2.2.2.symm⟩
    · rw [if_neg hhas] at hslot
      cases hslot

/-- The slot that is given to a word of the walk is the one of the memory before the walk, if those it reads that were
written have not changed. -/
theorem given_passes {first k : ℕ} (hsource : Separate i source)
    (hkept : dst ≤ w → w + 8 ≤ dst + len → source = some i → ∀ k' < k, i.HasSlot (first + 8 * k') →
      src + (w - dst) = first + 8 * k' → readSlot (passes i value first k mem) (i.slot (first + 8 * k')) =
        readSlot mem (i.slot (first + 8 * k'))) :
    given source dst src len (passes i value first k mem) w = given source dst src len mem w := by
  unfold given
  split
  · rename_i hcovers
    cases hslot : slotOf source (src + (w - dst)) with
    | none => rfl
    | some slot =>
      rcases readSlot_source hsource hslot with ⟨k', hk', hsome, hhas, ha⟩ | hsame
      · have hkeep := hkept hcovers.1 hcovers.2 hsome k' hk' hhas ha
        rw [hsome, slotOf, ha, if_pos hhas, Option.some.injEq] at hslot
        exact hslot ▸ hkeep
      · exact hsame
  · rfl

/-- A copy moves the slots as they were before it when the slots that it misses are already as they are to be. -/
theorem relocate_iff (hinto : Recovered into dst (some i)) (hfrom : Recovered from_ src source)
    (hsource : Separate i source) (hdst : dst < 2^64) (hlen : len < 2^64) :
    Moves i dst len (given source dst src len s.mem) s.mem (relocate into from_ dst src len s).mem ↔
      ∀ w, Touches dst len w → i.HasSlot w → Missed i source dst src len w →
        readSlot s.mem (i.slot w) = given source dst src len s.mem w := by
  rcases lt_or_ge len 8 with hshort | hlong
  · have hsame : relocate into from_ dst src len s = s := if_pos hshort
    rw [hsame]
    exact ⟨fun h w htouches hslot _ => h.slot w htouches hslot,
      fun h => ⟨fun w htouches hslot => h w htouches hslot (Or.inl hshort), fun _ _ => rfl⟩⟩
  · rw [relocate_mem hinto hfrom hdst hlen hlong]
    have hpos : 0 < len := by omega
    constructor
    · rintro ⟨hmoved, -⟩ w htouches hslot hmissed
      rcases hmissed with hshort | hpast | ⟨w', hslot', hlt, hend, hle, hcover, hsame, hread⟩
      · omega
      · -- the walk ends before this word
        rw [← hmoved w htouches hslot]
        refine (passes_other hslot fun k hk heq => ?_).symm
        have hbefore := lt_after hk
        omega
      · -- both words are walked, and the upper one got what the lower one had then, which is what it has in the end
        have htouches' : Touches dst len w' := ⟨hpos, by omega, by omega⟩
        obtain ⟨k, hk, rfl⟩ := walked_of_touches htouches hslot.1 (by omega)
        obtain ⟨k', hk', rfl⟩ := walked_of_touches htouches' hslot'.1 hend
        have hfinal := hmoved _ htouches' hslot'
        rw [passes_at hk' hslot', given_read hslot hle hcover hsame hread, given_read hslot hle hcover hsame hread,
          passes_kept (by omega : k < k') hk'.le hslot, hmoved _ htouches hslot] at hfinal
        exact hfinal.symm
    · intro hkept
      have hwalk (n : ℕ) (hn : n ≤ count dst len) : ∀ k < n, i.HasSlot (first dst + 8 * k) →
          readSlot (passes i (given source dst src len) (first dst) n s.mem) (i.slot (first dst + 8 * k)) =
            given source dst src len s.mem (first dst + 8 * k) := by
        induction n with
        | zero => exact fun k hk => absurd hk (Nat.not_lt_zero _)
        | succ n ih =>
          intro k hk hslot
          have hbefore := ih (Nat.le_of_succ_le hn)
          rcases Nat.lt_or_eq_of_le (Nat.le_of_lt_succ hk) with hlt | rfl
          · rw [← passes_kept hlt (Nat.le_succ n) hslot]
            exact hbefore k hlt hslot
          · rw [passes_at (Nat.lt_succ_self k) hslot]
            refine given_passes hsource fun hle hcover hsame k' hk' hslot' hread => ?_
            rw [hbefore k' hk' hslot']
            have hend := lt_after (by omega : k < count dst len)
            exact (hkept _ (touches_of_walked hdst hlen hpos (by omega)) hslot' (Or.inr (Or.inr
              ⟨_, hslot, by omega, by omega, hle, hcover, hsame, hread⟩))).symm
      refine ⟨fun w htouches hslot => ?_, fun a hother => ?_⟩
      · rcases lt_or_ge w (after dst len) with hlt | hge
        · obtain ⟨k, hk, rfl⟩ := walked_of_touches htouches hslot.1 hlt
          exact hwalk _ le_rfl k hk hslot
        · rw [← hkept w htouches hslot (Or.inr (Or.inl hge))]
          refine passes_other hslot fun k hk heq => ?_
          have hbefore := lt_after hk
          omega
      · exact passes_frame fun k hk hslot => hother _ (touches_of_walked hdst hlen hpos hk) hslot

end Copy

/-! ## A byte-wise write -/

section Erase

variable {into : Cap} {addr len : ℕ} {i : Instance} {s : Walk}

theorem eraseWord_mem (hinto : Recovered into addr (some i)) {w : ℕ} (hw : w < 2^64) :
    (eraseWord into s w).mem = pass i (fun _ _ => Slot.EMPTY) s.mem w := by
  unfold eraseWord pass
  rw [addressOf_eq hinto.1 hw]
  by_cases hslot : i.HasSlot w
  · rw [if_pos hslot, if_pos hslot]
    dsimp only
    split
    · rfl
    · rename_i hempty
      exact (writeSlot_self (not_not.1 hempty)).symm
  · rw [if_neg hslot, if_neg hslot]

/-- A write empties every slot that it reaches, where the words that the walk does not reach have none. -/
theorem erase_iff (hinto : Recovered into addr (some i)) (haddr : addr < 2^64) (hlen : len < 2^64) :
    Moves i addr len (fun _ => Slot.EMPTY) s.mem (erase into addr len s).mem ↔
      ∀ w, Touches addr len w → i.HasSlot w → after addr len ≤ w → readSlot s.mem (i.slot w) = Slot.EMPTY := by
  rcases Nat.eq_zero_or_pos len with rfl | hpos
  · have hsame : erase into addr 0 s = s := if_pos rfl
    rw [hsame]
    exact iff_of_true ⟨fun w htouches => absurd htouches.1 (lt_irrefl _), fun _ _ => rfl⟩
      fun w htouches => absurd htouches.1 (lt_irrefl _)
  · have hmem : (erase into addr len s).mem =
        passes i (fun _ _ => Slot.EMPTY) (first addr) (count addr len) s.mem := by
      unfold erase
      rw [if_neg hpos.ne', if_neg (not_not.2 hinto.1.allocated)]
      refine walkFrom_mem _ fun s k hk => eraseWord_mem hinto ?_
      have hlt := lt_after hk
      have hafter := after_lt addr len
      omega
    rw [hmem]
    have hother {w : ℕ} (hslot : i.HasSlot w) (hge : after addr len ≤ w) :
        readSlot (passes i (fun _ _ => Slot.EMPTY) (first addr) (count addr len) s.mem) (i.slot w) =
          readSlot s.mem (i.slot w) := by
      refine passes_other hslot fun k hk heq => ?_
      have hbefore := lt_after hk
      omega
    constructor
    · intro h w htouches hslot hge
      rw [← hother hslot hge]
      exact h.slot w htouches hslot
    · intro h
      refine ⟨fun w htouches hslot => ?_, fun a hframe => ?_⟩
      · rcases lt_or_ge w (after addr len) with hlt | hge
        · obtain ⟨k, hk, rfl⟩ := walked_of_touches htouches hslot.1 hlt
          exact passes_at hk hslot
        · rw [hother hslot hge]
          exact h w htouches hslot hge
      · exact passes_frame fun k hk hslot => hframe _ (touches_of_walked haddr hlen hpos hk) hslot

end Erase

/-! ## The planes of a copy -/

/-- Whether an address is in the region. -/
def holds (r : PlaneChecks.Region) (addr : ℕ) : Bool := r.base ≤ addr && addr < r.stop

/-- The type plane after a copy. -/
def carry (r : PlaneChecks.Region) (dst src len : ℕ) : Types :=
  let len := r.clipped dst len
  if holds r src && holds r (wrappingAdd src (len - 1)) then r.types.copy dst src len else r.types.set dst len UNTYPED

/-- The init plane after a copy. -/
def spread (r : PlaneChecks.Region) (dst src len : ℕ) : Init :=
  let len := r.clipped dst len
  if holds r src && holds r (wrappingAdd src (len - 1)) then r.init.copy dst src len else r.init.set dst len

section Planes

variable {t t' : Types} {bytes : ℕ → ℕ} {dst src len : ℕ}

/-- What the bytes of a destination are to say. -/
def moved (bytes : ℕ → ℕ) (dst src len a : ℕ) : ℕ :=
  if dst ≤ a ∧ a < dst + len then bytes (src + (a - dst)) else bytes a

/-- The plane says what a map of bytes says, or nothing where the side table has run out. -/
def Says (t : Types) (bytes : ℕ → ℕ) : Prop := ∀ a, t.read a = bytes a ∨ t.read a = UNTYPED ∧ t.side.refused = true

theorem Says.of_false (h : Says t bytes) (hrefused : t.side.refused = false) (a : ℕ) : t.read a = bytes a := by
  rcases h a with ha | ⟨-, hfull⟩
  · exact ha
  · rw [hrefused] at hfull
    cases hfull

theorem Stored.refused {lo hi ty : ℕ} (h : t.Stored t' lo hi ty) (hfull : t.side.refused = true) :
    t'.side.refused = true := by
  rw [← Bool.not_eq_false]
  intro hrefused
  have hbefore := (h.exact hrefused).1
  rw [hfull] at hbefore
  cases hbefore

/-- A store of one type keeps to what a map of bytes says after it. -/
theorem Says.stored {lo hi ty : ℕ} (h : Says t bytes) (hstored : t.Stored t' lo hi ty) :
    Says t' (TypePlane.put lo hi ty bytes) := by
  intro a
  cases hrefused : t'.side.refused with
  | false =>
    obtain ⟨hbefore, hexact⟩ := hstored.exact hrefused
    left
    rw [hexact, funext (h.of_false hbefore)]
  | true =>
    rcases hstored.thin a with ha | ha
    · rw [ha]
      unfold TypePlane.put
      split
      · exact Or.inl rfl
      · exact (h a).imp_right fun ha => ⟨ha.1, rfl⟩
    · exact Or.inr ⟨ha, rfl⟩

theorem copy_succ (t : Types) (dst src k : ℕ) :
    t.copy dst src (k + 1) = (t.copy dst src k).set (dst + k) 1 ((t.copy dst src k).read (src + k)) := by
  unfold Types.copy
  rw [List.range_succ, List.foldl_append, List.foldl_cons, List.foldl_nil]

/-- A byte of the destination that is read for one above it says already what it is to say. -/
def Settled (bytes : ℕ → ℕ) (dst src len : ℕ) : Prop :=
  ∀ i < len, dst ≤ src + i → src < dst → bytes (src + i) = bytes (src + (src + i - dst))

theorem moved_succ (bytes : ℕ → ℕ) (dst src k : ℕ) :
    TypePlane.put (dst + k) (dst + k + 1) (bytes (src + k)) (moved bytes dst src k) = moved bytes dst src (k + 1) := by
  funext a
  unfold TypePlane.put moved
  split_ifs <;> first | rfl | omega | (congr 1; omega)

/-- A copy upwards moves the types of the source when what it overwrites before it reads it does not change. -/
theorem copy_says (hgood : t.Good) (h : Settled t.read dst src len) :
    Says (t.copy dst src len) (moved t.read dst src len) := by
  have hrun (k : ℕ) (hk : k ≤ len) : Says (t.copy dst src k) (moved t.read dst src k) := by
    induction k with
    | zero => exact fun a => Or.inl (if_neg (by omega)).symm
    | succ k ih =>
      have hbefore := ih (Nat.le_of_succ_le hk)
      have hstored := Types.set_one_stored (Types.copy_good hgood dst src k) (dst + k)
        ((t.copy dst src k).read (src + k))
      have hread : moved t.read dst src k (src + k) = t.read (src + k) := by
        unfold moved
        split
        · rename_i hin
          exact (h k hk hin.1 (by omega)).symm
        · rfl
      rw [copy_succ]
      rcases hbefore (src + k) with hsays | ⟨huntyped, hfull⟩
      · rw [hread] at hsays
        rw [← moved_succ, ← hsays]
        exact hbefore.stored hstored
      · -- what is read says nothing, and the table had run out before
        have hsays := hbefore.stored hstored
        rw [huntyped] at hsays
        have hstill := Stored.refused hstored hfull
        rw [huntyped] at hstill
        intro a
        rcases hsays a with ha | ha
        · by_cases hat : dst + k ≤ a ∧ a < dst + k + 1
          · rw [put_of_mem hat.1 hat.2] at ha
            exact Or.inr ⟨by rwa [huntyped], by rwa [huntyped]⟩
          · rw [put_of_not_mem hat] at ha
            rw [← moved_succ, put_of_not_mem hat, huntyped]
            exact Or.inl ha
        · rw [huntyped]
          exact Or.inr ha
  exact hrun len le_rfl

/-- A store of one byte takes at most one entry of the side table. -/
theorem set_one_room (a ty : ℕ) (hroom : t.side.next < t.side.room) :
    (t.set a 1 ty).side.refused = t.side.refused ∧ (t.set a 1 ty).side.room = t.side.room ∧
      (t.set a 1 ty).side.next ≤ t.side.next + 1 := by
  have hlt := TypePlane.lt_next a
  have hpart : t.set a 1 ty = t.part a (a + 1) ty := by
    unfold Types.set
    rw [Types.setFrom, if_pos (Nat.lt_succ_self a), min_eq_right hlt, if_neg, Types.setFrom, if_neg (lt_irrefl _)]
    rintro ⟨hmod, hnext⟩
    unfold TypePlane.next TypePlane.GRANULE at hnext
    unfold TypePlane.GRANULE at hmod
    omega
  rw [hpart]
  unfold Types.part
  split
  · exact ⟨rfl, rfl, Nat.le_succ _⟩
  · split
    · exact ⟨rfl, rfl, Nat.le_succ _⟩
    · rw [TypePlane.Side.take, if_pos hroom]
      exact ⟨rfl, rfl, le_rfl⟩

/-- The side table has an entry left for every byte of a copy. -/
structure Room (t : Types) (len : ℕ) : Prop where
  refused : t.side.refused = false
  next : t.side.next + len ≤ t.side.room

theorem copy_room (h : Room t len) (k : ℕ) (hk : k ≤ len) : (t.copy dst src k).side.refused = false ∧
    (t.copy dst src k).side.room = t.side.room ∧ (t.copy dst src k).side.next ≤ t.side.next + k := by
  induction k with
  | zero => exact ⟨h.refused, rfl, le_rfl⟩
  | succ k ih =>
    obtain ⟨hrefused, hroom, hnext⟩ := ih (Nat.le_of_succ_le hk)
    have hleft := h.next
    obtain ⟨hrefused', hroom', hnext'⟩ := set_one_room (dst + k) ((t.copy dst src k).read (src + k))
      (by omega : (t.copy dst src k).side.next < (t.copy dst src k).side.room)
    rw [copy_succ, hrefused', hroom']
    exact ⟨hrefused, hroom, by omega⟩

/-- What a copy writes at a byte it keeps to the end, and it is what the byte it read said then. -/
theorem copy_read (hgood : t.Good) (h : Room t len) {i : ℕ} (hi : i < len) :
    (t.copy dst src len).read (dst + i) = (t.copy dst src i).read (src + i) := by
  have hstep (k : ℕ) (hk : k < len) (a : ℕ) : (t.copy dst src (k + 1)).read a =
      TypePlane.put (dst + k) (dst + k + 1) ((t.copy dst src k).read (src + k)) (t.copy dst src k).read a := by
    have hstored := Types.set_one_stored (Types.copy_good hgood dst src k) (dst + k)
      ((t.copy dst src k).read (src + k))
    rw [← copy_succ] at hstored
    exact (hstored.exact (copy_room h (k + 1) hk).1).2 a
  have hrun (k : ℕ) (hlow : i < k) (hk : k ≤ len) :
      (t.copy dst src k).read (dst + i) = (t.copy dst src i).read (src + i) := by
    induction k with
    | zero => omega
    | succ k ih =>
      rw [hstep k hk]
      rcases Nat.lt_or_eq_of_le (Nat.le_of_lt_succ hlow) with hlt | rfl
      · rw [put_of_not_mem (by omega)]
        exact ih hlt (by omega)
      · exact put_of_mem le_rfl (Nat.lt_succ_self _)
  exact hrun len hi le_rfl

theorem says_copy_iff (hgood : t.Good) (h : Room t len) :
    Says (t.copy dst src len) (moved t.read dst src len) ↔ Settled t.read dst src len := by
  refine ⟨fun hsays i hi hle hlt => ?_, copy_says hgood⟩
  have hexact := hsays.of_false (copy_room h len le_rfl).1
  obtain ⟨j, hj⟩ := Nat.exists_eq_add_of_le hle
  have hlow : j < i := by omega
  -- the byte that is read has been written, and is as it is in the end
  have hroom : Room t i := ⟨h.refused, by have hnext := h.next; omega⟩
  have hfinal := hexact (dst + i)
  rw [copy_read hgood h hi, hj, copy_read hgood hroom hlow, ← copy_read hgood h (by omega : j < len), hexact] at hfinal
  unfold moved at hfinal
  rw [if_pos (by omega), if_pos (by omega), Nat.add_sub_cancel_left, Nat.add_sub_cancel_left] at hfinal
  rw [hj, Nat.add_sub_cancel_left, hfinal, ← hj]

end Planes

/-! ## The judgements of a copy -/

theorem carry_eq {r : PlaneChecks.Region} {dst src len : ℕ} (hbase : r.base ≤ src) (hstop : src < r.stop)
    (hend : src + r.clipped dst len ≤ r.stop) : carry r dst src len = r.types.copy dst src (r.clipped dst len) ∧
      spread r dst src len = r.init.copy dst src (r.clipped dst len) := by
  have hmax := r.stop_le
  have hsum : wrappingAdd src (r.clipped dst len - 1) = src + (r.clipped dst len - 1) :=
    PlaneChecks.Region.wrappingAdd_eq (by omega)
  have hholds : (holds r src && holds r (wrappingAdd src (r.clipped dst len - 1))) = true := by
    unfold holds
    rw [hsum, Bool.and_eq_true, Bool.and_eq_true, Bool.and_eq_true, decide_eq_true_eq, decide_eq_true_eq,
      decide_eq_true_eq, decide_eq_true_eq]
    omega
  exact ⟨if_pos hholds, if_pos hholds⟩

/-- What a copy and a byte-wise write leave in the aux and in the two planes: each is as the bytes of a `memmove` are
when the slots and the bytes that the walk misses, or reads after it has written them, are already as they are to be.
The init plane is so always. -/
theorem moves_iff {into from_ : Cap} {i : Instance} {source : Option Instance} {dst src len : ℕ} (s : Walk)
    (hinto : Recovered into dst (some i)) (hfrom : Recovered from_ src source) (hsource : Separate i source)
    (hdst : dst < 2^64) (hlen : len < 2^64) (entries : ℕ → ℕ → ℕ) (room : ℕ) (ops : List Types.Op)
    (r : PlaneChecks.Region) (htypes : r.types = ops.foldl Types.step (Types.new (TypePlane.Side.map entries room)))
    {onto src' n : ℕ} (hbase : r.base ≤ src') (hstop : src' < r.stop) (hend : src' + r.clipped onto n ≤ r.stop) :
    (Moves i dst len (given source dst src len s.mem) s.mem (relocate into from_ dst src len s).mem ↔
      ∀ w, Touches dst len w → i.HasSlot w → Missed i source dst src len w →
        readSlot s.mem (i.slot w) = given source dst src len s.mem w) ∧
    (Moves i dst len (fun _ => Slot.EMPTY) s.mem (erase into dst len s).mem ↔
      ∀ w, Touches dst len w → i.HasSlot w → after dst len ≤ w → readSlot s.mem (i.slot w) = Slot.EMPTY) ∧
    (Settled r.types.read onto src' (r.clipped onto n) →
      Says (carry r onto src' n) (moved r.types.read onto src' (r.clipped onto n))) ∧
    (Room r.types (r.clipped onto n) → (Says (carry r onto src' n) (moved r.types.read onto src' (r.clipped onto n)) ↔
      Settled r.types.read onto src' (r.clipped onto n))) ∧
    ∀ a, (spread r onto src' n).read a =
      if onto ≤ a ∧ a < onto + r.clipped onto n then r.init.read (src' + (a - onto)) else r.init.read a := by
  have hgood : r.types.Good := by
    rw [htypes]
    exact Types.run_good entries room ops
  obtain ⟨hcarry, hspread⟩ := @carry_eq r onto src' n hbase hstop hend
  rw [hcarry, hspread]
  exact ⟨relocate_iff hinto hfrom hsource hdst hlen, erase_iff hinto hdst hlen, copy_says hgood, says_copy_iff hgood,
    Init.copy_read onto src' (r.clipped onto n)⟩

/-- An instance of 64 bytes. -/
def block : Instance where
  lo := 4096
  ext := 64
  size := 64
  sized_ext := by decide
  aligned := by decide
  front := by decide
  fits := by decide

/-- The capability of the instance. -/
def blockCap : Cap := ⟨4096, 64, 2, Meta.new .allocated (READ + WRITE) 1⟩

theorem block_recovered (addr : ℕ) (hlo : 4096 ≤ addr) (hhi : addr < 4160) : Recovered blockCap addr (some block) :=
  ⟨⟨rfl, rfl, rfl, by decide, by decide⟩, hlo, hhi⟩

/-- Only the first word of the instance has a capability beside it. -/
def blockWalk : Walk where
  mem := fun a => if a = 3936 then 2 else 0
  epochs := fun _ => NONE
  clock := Clock.new 1
  taken := none

theorem moves_iff_block :
    Moves block 4104 8 (given (some block) 4104 4096 8 blockWalk.mem) blockWalk.mem
      (relocate blockCap blockCap 4104 4096 8 blockWalk).mem ∧
    Says (carry PlaneChecks.Region.page 4108 4096 8) (moved PlaneChecks.Region.page.types.read 4108 4096 8) := by
  have hclipped : PlaneChecks.Region.page.clipped 4108 8 = 8 := if_pos (by decide : 8 < 8192 - 4108)
  have h := moves_iff blockWalk (block_recovered 4104 (by decide) (by decide))
    (block_recovered 4096 (by decide) (by decide)) (fun j hj => Or.inl (Option.some.inj hj).symm)
    (by decide : 4104 < 2^64) (by decide : 8 < 2^64) (fun _ _ => UNTYPED) 16 [] PlaneChecks.Region.page rfl
    (le_rfl : 4096 ≤ 4096) (by decide : 4096 < 8192)
    (by omega : 4096 + PlaneChecks.Region.page.clipped 4108 8 ≤ 8192)
  have hsettled : Settled PlaneChecks.Region.page.types.read 4108 4096 8 := by
    intro i hi hle hlt
    omega
  rw [hclipped] at h
  refine ⟨h.1.2 fun w htouches hslot hmissed => ?_, h.2.2.1 hsettled⟩
  rcases hmissed with hshort | hpast | ⟨w', hslot', hlt, hend, -⟩
  · exact absurd hshort (by decide)
  · have hafter : after 4104 8 = 4112 := by norm_num [after, WORD]
    unfold Touches at htouches
    omega
  · have hafter : after 4104 8 = 4112 := by norm_num [after, WORD]
    have hmod := hslot.1
    have hmod' := hslot'.1
    unfold Touches at htouches
    omega

/-- A copy of four bytes leaves the slot of the word that it covers in part, one of two words to a word above gives
both of them the slot of the first, one of two bytes does that with a type, and the walk of a length that wraps reaches
no word. -/
theorem block_not_moved :
    ¬ Moves block 4096 4 (given (some block) 4096 4128 4 blockWalk.mem) blockWalk.mem
      (relocate blockCap blockCap 4096 4128 4 blockWalk).mem ∧
    ¬ Moves block 4104 16 (given (some block) 4104 4096 16 blockWalk.mem) blockWalk.mem
      (relocate blockCap blockCap 4104 4096 16 blockWalk).mem ∧
    ¬ Moves block 4096 (2^64 - 4096) (fun _ => Slot.EMPTY) blockWalk.mem
      (erase blockCap 4096 (2^64 - 4096) blockWalk).mem ∧
    let t := (Types.new (TypePlane.Side.map (fun _ _ => UNTYPED) 16)).set 4096 8 5
    ¬ Says (t.copy 4104 4103 2) (moved t.read 4104 4103 2) := by
  have hsource : Separate block (some block) := fun j hj => Or.inl (Option.some.inj hj).symm
  refine ⟨?_, ?_, ?_, ?_⟩
  · rw [relocate_iff (block_recovered 4096 (by decide) (by decide)) (block_recovered 4128 (by decide) (by decide))
      hsource (by decide) (by decide)]
    intro h
    exact absurd (h 4096 (by unfold Touches; decide) (by decide) (Or.inl (by decide))) (by decide)
  · rw [relocate_iff (block_recovered 4104 (by decide) (by decide)) (block_recovered 4096 (by decide) (by decide))
      hsource (by decide) (by decide)]
    intro h
    have hread : ReadLater block (some block) 4104 4096 16 4104 :=
      ⟨4112, by decide, by decide, by decide, by decide, by decide, rfl, rfl⟩
    exact absurd (h 4104 (by unfold Touches; decide) (by decide) (Or.inr (Or.inr hread))) (by decide)
  · rw [erase_iff (block_recovered 4096 (by decide) (by decide)) (by decide) (by decide)]
    intro h
    exact absurd (h 4096 (by unfold Touches; decide) (by decide) (by decide)) (by decide)
  · intro t
    have hgood : t.Good := (Types.set_stored (Types.new_good _ _) 4096 8 (by decide)).good
    have ht : t = (Types.new (TypePlane.Side.map (fun _ _ => UNTYPED) 16)).setSlot 4096 5 := by
      change Types.setFrom _ 4096 (4096 + 8) 5 = _
      rw [Types.setFrom, if_pos (by decide), if_pos (by decide), Types.setFrom, if_neg (by decide)]
      rfl
    rw [says_copy_iff hgood ⟨by rw [ht]; rfl, by rw [ht]; decide⟩]
    intro h
    have hread := h 1 (by decide) (by decide) (by decide)
    rw [ht] at hread
    exact absurd hread (by decide)

end Rucc.SafeRt.Relocate
