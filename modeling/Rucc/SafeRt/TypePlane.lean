import Mathlib.Data.Nat.Bitwise
import Mathlib.Tactic

/-!
# The type plane

The plane of `types.rs`: for every byte of the program the type it was last stored through. Eight bytes are a
granule and share a slot, which holds their type, or, once they have disagreed, the number of an entry of the side
table with a type for each of them. A granule keeps its entry, and one that has to disagree and gets none says
nothing from then on, which is what `UNTYPED` is.

Addresses are numbers: every range the plane is asked about lies in what is mapped, so no sum of an address and a
length wraps.
-/

namespace Rucc.SafeRt.TypePlane

variable {index at_ a lo hi ty : ℕ} {bytes : ℕ → ℕ}

/-- The type of a byte nothing has stored through. -/
def UNTYPED : ℕ := 0

/-- The type of a byte stored through a character lvalue. -/
def CHARACTER : ℕ := 1

/-- Whether reading bytes that say `stored` as a `wanted` is permitted. -/
def compatible (wanted stored : ℕ) : Bool :=
  stored == UNTYPED || stored == CHARACTER || wanted == CHARACTER || wanted == stored

/-- How many bytes of program memory one slot covers. -/
def GRANULE : ℕ := 8

/-- How many bytes of program a long range is read in. -/
def RUN : ℕ := GRANULE * 8

/-- Set in a slot whose granule's bytes do not all say the same thing. -/
def HETEROGENEOUS : ℕ := 2^31

/-- The largest identifier a slot can hold, and the largest side entry index. -/
def LIMIT : ℕ := HETEROGENEOUS - 1

/-- The largest id the compiler may number a type with. -/
def LAST_INTERNED : ℕ := LIMIT

/-- Where the granule after that of an address starts. -/
def next (at_ : ℕ) : ℕ := (at_ / GRANULE + 1) * GRANULE

theorem lt_next (at_ : ℕ) : at_ < next at_ := by
  unfold next GRANULE
  omega

/-- The table of per byte entries for the granules whose bytes disagree. Whether it has ever answered none is only
remembered here. -/
structure Side where
  room : ℕ
  next : ℕ
  entries : ℕ → ℕ → ℕ
  refused : Bool

namespace Side

/-- A table whose room is mapped and of which nothing has been handed out. -/
def map (entries : ℕ → ℕ → ℕ) (room : ℕ) : Side := ⟨min room LIMIT, 0, entries, false⟩

/-- Takes an entry nobody else has, or none when the table is full. -/
def take (s : Side) : Option ℕ × Side :=
  if s.next < s.room then (some s.next, { s with next := s.next + 1 }) else (none, { s with refused := true })

/-- One type over `count` bytes of an entry. -/
def write (s : Side) (index first count ty : ℕ) : Side :=
  { s with entries := fun i k => if i = index ∧ first ≤ k ∧ k < first + count then ty else s.entries i k }

end Side

/-- The shadow the plane lives in, by granules, and the side table beside it. -/
structure Types where
  slots : ℕ → ℕ
  side : Side

namespace Types

/-- A plane that nothing has been stored through. -/
def new (side : Side) : Types := ⟨fun _ => UNTYPED, side⟩

/-- The slot for an address. -/
def slot (t : Types) (addr : ℕ) : ℕ := t.slots (addr / GRANULE)

/-- A slot written. -/
def setSlot (t : Types) (addr value : ℕ) : Types :=
  { t with slots := Function.update t.slots (addr / GRANULE) value }

/-- The type the byte at `addr` was last stored through. -/
def read (t : Types) (addr : ℕ) : ℕ :=
  if t.slot addr &&& HETEROGENEOUS = 0 then t.slot addr
  else t.side.entries (t.slot addr &&& LIMIT) (addr % GRANULE)

/-! ## What an access asks -/

/-- The bytes of an entry, one at a time. -/
def entryEach (t : Types) (index at_ stop wanted : ℕ) : Bool :=
  (List.range' at_ (stop - at_)).all fun at_ => compatible wanted (t.side.entries index (at_ % GRANULE))

/-- The granule at a time walk over `[at, stop)`. -/
def each (t : Types) (at_ stop wanted : ℕ) : Bool :=
  if at_ < stop then
    if t.slot at_ &&& HETEROGENEOUS = 0 then
      if compatible wanted (t.slot at_) then t.each (next at_) stop wanted else false
    else if t.entryEach (t.slot at_ &&& LIMIT) at_ (min (next at_) stop) wanted then
      t.each (min (next at_) stop) stop wanted
    else false
  else true
termination_by stop - at_
decreasing_by
  all_goals
    have := lt_next at_
    omega

/-- Whether an access of `len` bytes at `lo` through a `wanted` is permitted. -/
def allows (t : Types) (lo len wanted : ℕ) : Bool :=
  if wanted = CHARACTER then true else t.each lo (lo + len) wanted

/-- Whether the granule `at` is in holds one type that an access through `wanted` may read, from its slot alone. -/
def plain (t : Types) (at_ wanted : ℕ) : Bool :=
  t.slot at_ &&& HETEROGENEOUS == 0 && compatible wanted (t.slot at_)

/-- The slots of a column, `left` of them from the one of access `k` on. -/
def columnFrom (t : Types) (stride wanted slot k : ℕ) : ℕ → ℕ
  | 0 => k
  | left + 1 =>
    if t.slots slot &&& HETEROGENEOUS ≠ 0 ∨ compatible wanted (t.slots slot) = false then k
    else t.columnFrom stride wanted (slot + stride) (k + 1) left

/-- How many of `count` accesses, one every `step` bytes from `lo`, `plain` says yes to before the first it does
not. -/
def column (t : Types) (lo step count wanted : ℕ) : ℕ :=
  t.columnFrom (step / GRANULE) wanted (lo / GRANULE) 0 count

/-- Two slots as the word that is loaded for them. -/
def word (t : Types) (at_ k : ℕ) : ℕ :=
  t.slots (at_ / GRANULE + 2 * k) + t.slots (at_ / GRANULE + 2 * k + 1) * 2^32

/-- Whether every slot of the run of granules from `at` on says exactly `slot`. -/
def agrees (t : Types) (at_ slot : ℕ) : Bool :=
  let pair := slot * 0x100000001
  (t.word at_ 0 ^^^ pair) ||| (t.word at_ 1 ^^^ pair) ||| (t.word at_ 2 ^^^ pair) ||| (t.word at_ 3 ^^^ pair) == 0

/-- Where the runs that keep saying `slot` end. -/
def runs (t : Types) (at_ stop slot : ℕ) : ℕ :=
  if stop - at_ ≥ RUN ∧ t.agrees at_ slot then t.runs (at_ + RUN) stop slot else at_
termination_by stop - at_
decreasing_by
  simp only [RUN, GRANULE] at *
  omega

theorem le_runs (t : Types) (at_ stop slot : ℕ) : at_ ≤ t.runs at_ stop slot := by
  fun_induction runs t at_ stop slot with
  | case1 at_ _ ih => exact (Nat.le_add_right _ _).trans ih
  | case2 => exact le_rfl

/-- The walk of `sweep`, from `at` on. -/
def sweepFrom (t : Types) (at_ stop wanted : ℕ) : Bool :=
  if at_ < stop then
    if at_ % GRANULE = 0 ∧ stop - at_ ≥ RUN then
      if compatible wanted (t.slot at_) && t.agrees at_ (t.slot at_) then
        t.sweepFrom (t.runs (at_ + RUN) stop (t.slot at_)) stop wanted
      else t.each at_ (at_ + RUN) wanted && t.sweepFrom (at_ + RUN) stop wanted
    else if at_ % GRANULE = 0 then t.each at_ stop wanted
    else t.each at_ (min (next at_) stop) wanted && t.sweepFrom (min (next at_) stop) stop wanted
  else true
termination_by stop - at_
decreasing_by
  · have := t.le_runs (at_ + RUN) stop (t.slot at_)
    simp only [RUN, GRANULE] at *
    omega
  · simp only [RUN, GRANULE] at *
    omega
  · have := lt_next at_
    omega

/-- `allows` for a long range. -/
def sweep (t : Types) (lo len wanted : ℕ) : Bool :=
  if wanted = CHARACTER then true else t.sweepFrom lo (lo + len) wanted

/-! ## What a store writes -/

/-- One type over a granule the caller owns the whole of. -/
def whole (t : Types) (at_ ty : ℕ) : Types :=
  if t.slot at_ &&& HETEROGENEOUS = 0 then t.setSlot at_ ty
  else { t with side := t.side.write (t.slot at_ &&& LIMIT) 0 GRANULE ty }

/-- An entry filled with what the granule of `at` says, and after that named by its slot. -/
def filled (t : Types) (at_ index : ℕ) (side : Side) : Types :=
  { t with side := side.write index 0 GRANULE (t.slot at_) }.setSlot at_ (HETEROGENEOUS ||| index)

/-- One type over `[at, stop)`, which is part of one granule. -/
def part (t : Types) (at_ stop ty : ℕ) : Types :=
  if t.slot at_ &&& HETEROGENEOUS ≠ 0 then
    { t with side := t.side.write (t.slot at_ &&& LIMIT) (at_ % GRANULE) (stop - at_) ty }
  else if t.slot at_ = ty then t
  else match t.side.take with
    | (none, side) => { t with side := side }.setSlot at_ UNTYPED
    | (some index, side) =>
      let t := t.filled at_ index side
      { t with side := t.side.write index (at_ % GRANULE) (stop - at_) ty }

/-- The walk of `set`, from `at` on. -/
def setFrom (t : Types) (at_ stop ty : ℕ) : Types :=
  if at_ < stop then
    if at_ % GRANULE = 0 ∧ min (next at_) stop = next at_ then (t.whole at_ ty).setFrom (min (next at_) stop) stop ty
    else (t.part at_ (min (next at_) stop) ty).setFrom (min (next at_) stop) stop ty
  else t
termination_by stop - at_
decreasing_by
  all_goals
    have := lt_next at_
    omega

/-- The judgement a store makes: `[lo, lo + len)` was stored through a `ty`. -/
def set (t : Types) (lo len ty : ℕ) : Types := t.setFrom lo (lo + len) ty

/-- The bytes at `dst` now say whatever the bytes at `src` say, one after the other from the lowest. -/
def copy (t : Types) (dst src len : ℕ) : Types :=
  (List.range len).foldl (fun t i => t.set (dst + i) 1 (t.read (src + i))) t

end Types

/-! ## Slots -/

theorem and_flag_of_lt {slot : ℕ} (h : slot < HETEROGENEOUS) : slot &&& HETEROGENEOUS = 0 := by
  rw [HETEROGENEOUS, Nat.and_two_pow, Nat.testBit_lt_two_pow h]
  rfl

theorem flag_or_and_flag (index : ℕ) : (HETEROGENEOUS ||| index) &&& HETEROGENEOUS ≠ 0 := by
  have hbit : (2^31 ||| index).testBit 31 = true := by
    rw [Nat.testBit_or, Nat.testBit_two_pow_self, Bool.true_or]
  rw [HETEROGENEOUS, Nat.and_two_pow, hbit]
  decide

theorem flag_or (h : index ≤ LIMIT) : HETEROGENEOUS ||| index = HETEROGENEOUS + index := by
  have hor := @Nat.two_pow_add_eq_or_of_lt 31 index (by unfold LIMIT HETEROGENEOUS at h; omega) 1
  rw [mul_one] at hor
  exact hor.symm

theorem flag_or_and_limit (h : index ≤ LIMIT) : (HETEROGENEOUS ||| index) &&& LIMIT = index := by
  rw [flag_or h]
  unfold LIMIT HETEROGENEOUS at *
  rw [Nat.and_two_pow_sub_one_eq_mod]
  omega

theorem granule_eq (hle : at_ ≤ a) (hlt : a < next at_) : a / GRANULE = at_ / GRANULE := by
  unfold next GRANULE at *
  omega

theorem next_le_of_ne (hle : at_ ≤ a) (hne : a / GRANULE ≠ at_ / GRANULE) : next at_ ≤ a := by
  by_contra hlt
  exact hne (granule_eq hle (not_le.1 hlt))

/-- One type over a range of a map of bytes. -/
def put (lo hi ty : ℕ) (bytes : ℕ → ℕ) : ℕ → ℕ := fun a => if lo ≤ a ∧ a < hi then ty else bytes a

theorem put_of_mem (hlo : lo ≤ a) (hhi : a < hi) : put lo hi ty bytes a = ty :=
  if_pos ⟨hlo, hhi⟩

theorem put_of_not_mem (h : ¬ (lo ≤ a ∧ a < hi)) : put lo hi ty bytes a = bytes a :=
  if_neg h

/-- Two ranges that are next to each other. -/
theorem put_put {mid : ℕ} (hlo : lo ≤ mid) (hhi : mid ≤ hi) :
    put mid hi ty (put lo mid ty bytes) = put lo hi ty bytes := by
  funext a
  unfold put
  split_ifs <;> first | rfl | omega

namespace Types

variable {t t' t'' : Types}

variable {index a at_ stop wanted lo hi ty value first count : ℕ}

/-- Where a slot has the flag, its entry has been handed out, and to no other granule. -/
structure Good (t : Types) : Prop where
  room : t.side.room ≤ LIMIT
  next : t.side.next ≤ t.side.room
  slot : ∀ g, t.slots g < HETEROGENEOUS ∨ ∃ index < t.side.next, t.slots g = HETEROGENEOUS ||| index
  apart : ∀ g g', ¬ t.slots g < HETEROGENEOUS → t.slots g = t.slots g' → g = g'

theorem Good.index_le (h : t.Good) (hlt : index < t.side.next) : index ≤ LIMIT :=
  hlt.le.trans (h.next.trans h.room)

theorem not_lt_flag (h : index ≤ LIMIT) : ¬ HETEROGENEOUS ||| index < HETEROGENEOUS := by
  rw [flag_or h]
  omega

theorem read_of_plain (h : t.slot a < HETEROGENEOUS) : t.read a = t.slot a :=
  if_pos (and_flag_of_lt h)

theorem read_of_entry (h : t.slot a = HETEROGENEOUS ||| index) (hle : index ≤ LIMIT) :
    t.read a = t.side.entries index (a % GRANULE) := by
  unfold read
  rw [h, if_neg (flag_or_and_flag index), flag_or_and_limit hle]

/-- What is read in a granule depends on its slot and on the entry the slot names. -/
theorem read_congr (h : t.Good) (hslot : t'.slot a = t.slot a)
    (hentry : ∀ index < t.side.next, t.slot a = HETEROGENEOUS ||| index →
      t'.side.entries index (a % GRANULE) = t.side.entries index (a % GRANULE)) : t'.read a = t.read a := by
  rcases h.slot (a / GRANULE) with hplain | ⟨index, hlt, hindex⟩
  · rw [read_of_plain hplain, read_of_plain (hslot.trans_lt hplain), hslot]
  · rw [read_of_entry hindex (h.index_le hlt), read_of_entry (hslot.trans hindex) (h.index_le hlt),
      hentry index hlt hindex]

/-! ## Accesses -/

theorem entryEach_iff : t.entryEach index at_ stop wanted = true ↔
    ∀ a, at_ ≤ a → a < stop → compatible wanted (t.side.entries index (a % GRANULE)) = true := by
  unfold entryEach
  rw [List.all_eq_true]
  simp only [List.mem_range'_1]
  exact ⟨fun hall a hle hlt => hall a ⟨hle, by omega⟩, fun hall a ha => hall a ha.1 (by omega)⟩

/-- The walk permits an access when every byte of it does. -/
theorem each_iff (at_ stop wanted : ℕ) : t.each at_ stop wanted = true ↔
    ∀ a, at_ ≤ a → a < stop → compatible wanted (t.read a) = true := by
  fun_induction each t at_ stop wanted with
  | case1 at_ hlt hplain hcompatible ih =>
    rw [ih]
    refine ⟨fun hall a hle hstop => ?_, fun hall a hle hstop => hall a ((lt_next at_).le.trans hle) hstop⟩
    by_cases hsame : a / GRANULE = at_ / GRANULE
    · have hslot : t.slot a = t.slot at_ := congrArg t.slots hsame
      rwa [read, if_pos (hslot ▸ hplain), hslot]
    · exact hall a (next_le_of_ne hle hsame) hstop
  | case2 at_ hlt hplain hcompatible =>
    refine iff_of_false (by simp) fun hall => hcompatible ?_
    have hfirst := hall at_ le_rfl hlt
    rwa [read, if_pos hplain] at hfirst
  | case3 at_ hlt hplain hentry ih =>
    rw [ih]
    rw [entryEach_iff] at hentry
    have hbefore := lt_next at_
    refine ⟨fun hall a hle hstop => ?_, fun hall a hle hstop => hall a (by omega) hstop⟩
    by_cases hsame : a / GRANULE = at_ / GRANULE
    · have hslot : t.slot a = t.slot at_ := congrArg t.slots hsame
      have hin : a < TypePlane.next at_ := by
        unfold TypePlane.next GRANULE at *
        omega
      rw [read, if_neg (hslot ▸ hplain), hslot]
      exact hentry a hle (lt_min hin hstop)
    · exact hall a ((min_le_left _ _).trans (next_le_of_ne hle hsame)) hstop
  | case4 at_ hlt hplain hentry =>
    refine iff_of_false (by simp) fun hall => hentry ?_
    rw [entryEach_iff]
    intro a hle hstop
    have hslot : t.slot a = t.slot at_ := congrArg t.slots (granule_eq hle (hstop.trans_le (min_le_left _ _)))
    have hbyte := hall a hle (hstop.trans_le (min_le_right _ _))
    rwa [read, if_neg (hslot ▸ hplain), hslot] at hbyte
  | case5 at_ hge => exact iff_of_true rfl fun a hle hstop => absurd (hle.trans_lt hstop) hge

theorem compatible_character (stored : ℕ) : compatible CHARACTER stored = true := by
  simp [compatible]

/-- An access is permitted when every byte of it says so. -/
theorem allows_iff (lo len wanted : ℕ) : t.allows lo len wanted = true ↔
    ∀ a, lo ≤ a → a < lo + len → compatible wanted (t.read a) = true := by
  unfold allows
  split
  · rename_i hchar
    exact iff_of_true rfl fun a _ _ => hchar ▸ compatible_character _
  · exact each_iff lo (lo + len) wanted

/-- A slot that says one type says it for all of its granule. -/
theorem plain_spec (h : t.plain at_ wanted = true) (hsame : a / GRANULE = at_ / GRANULE) :
    compatible wanted (t.read a) = true := by
  unfold plain at h
  rw [Bool.and_eq_true, beq_iff_eq] at h
  have hslot : t.slot a = t.slot at_ := congrArg t.slots hsame
  rw [read, if_pos (hslot ▸ h.1), hslot]
  exact h.2

/-! ## Runs of granules -/

theorem Good.slot_lt (h : t.Good) (g : ℕ) : t.slots g < 2^32 := by
  rcases h.slot g with hplain | ⟨index, hlt, hindex⟩
  · unfold HETEROGENEOUS at hplain
    omega
  · have hle := h.index_le hlt
    rw [hindex, flag_or hle]
    unfold LIMIT HETEROGENEOUS at *
    omega

/-- A run agrees with a slot when each of its eight slots is that one. -/
theorem agrees_slot_iff (h : t.Good) {slot : ℕ} (hslot : slot < 2^32) :
    t.agrees at_ slot = true ↔ ∀ k < 8, t.slots (at_ / GRANULE + k) = slot := by
  have hword (k : ℕ) : t.word at_ k ^^^ slot * 0x100000001 = 0 ↔
      t.slots (at_ / GRANULE + 2 * k) = slot ∧ t.slots (at_ / GRANULE + 2 * k + 1) = slot := by
    have hlow := h.slot_lt (at_ / GRANULE + 2 * k)
    rw [Nat.xor_eq_zero_iff, word]
    omega
  unfold agrees
  dsimp only
  rw [beq_iff_eq, Nat.or_eq_zero_iff, Nat.or_eq_zero_iff, Nat.or_eq_zero_iff, hword, hword, hword, hword]
  constructor
  · rintro ⟨⟨⟨⟨h0, h1⟩, h2, h3⟩, h4, h5⟩, h6, h7⟩ k hk
    interval_cases k <;> assumption
  · intro hall
    exact ⟨⟨⟨⟨hall 0 (by decide), hall 1 (by decide)⟩, hall 2 (by decide), hall 3 (by decide)⟩,
      hall 4 (by decide), hall 5 (by decide)⟩, hall 6 (by decide), hall 7 (by decide)⟩

/-- A run that agrees with a slot an access may read is permitted. Its slots are not all one side entry, since two
granules do not share one. -/
theorem agrees_spec (h : t.Good) {slot : ℕ} (hat : at_ % GRANULE = 0) (hslot : slot < 2^32)
    (hcompatible : compatible wanted slot = true) (hagrees : t.agrees at_ slot = true) (hle : at_ ≤ a)
    (hlt : a < at_ + RUN) : compatible wanted (t.read a) = true := by
  rw [agrees_slot_iff h hslot] at hagrees
  have hplain : slot < HETEROGENEOUS := by
    by_contra hflag
    have h0 := hagrees 0 (by decide)
    have h1 := hagrees 1 (by decide)
    have heq := h.apart _ _ (h0 ▸ hflag) (h0.trans h1.symm)
    omega
  have ha := hagrees (a / GRANULE - at_ / GRANULE) (by unfold RUN GRANULE at *; omega)
  rw [Nat.add_sub_cancel' (Nat.div_le_div_right hle)] at ha
  have hread : t.slot a = slot := ha
  rw [read_of_plain (hread.trans_lt hplain), hread]
  exact hcompatible

theorem runs_spec (h : t.Good) {slot : ℕ} (hslot : slot < 2^32) (hcompatible : compatible wanted slot = true)
    (at_ stop : ℕ) (hat : at_ % GRANULE = 0) : t.runs at_ stop slot % GRANULE = 0 ∧
      (at_ ≤ stop → t.runs at_ stop slot ≤ stop) ∧
      ∀ a, at_ ≤ a → a < t.runs at_ stop slot → compatible wanted (t.read a) = true := by
  fun_induction runs t at_ stop slot with
  | case1 at_ hrun ih =>
    obtain ⟨hmod, hstop, hread⟩ := ih (by unfold RUN GRANULE at *; omega)
    refine ⟨hmod, fun _ => hstop (by unfold RUN GRANULE at *; omega), fun a hle hlt => ?_⟩
    rcases lt_or_ge a (at_ + RUN) with hin | hout
    · exact agrees_spec h hat hslot hcompatible hrun.2 hle hin
    · exact hread a hout hlt
  | case2 at_ hrun => exact ⟨hat, id, fun a hle hlt => absurd (hle.trans_lt hlt) (lt_irrefl _)⟩

/-- The walk by runs answers as the walk by granules does. -/
theorem sweepFrom_iff (h : t.Good) (at_ stop wanted : ℕ) : t.sweepFrom at_ stop wanted = true ↔
    ∀ a, at_ ≤ a → a < stop → compatible wanted (t.read a) = true := by
  fun_induction sweepFrom t at_ stop wanted with
  | case1 at_ hlt hrun hagrees ih =>
    rw [Bool.and_eq_true] at hagrees
    have hslot := h.slot_lt (at_ / GRANULE)
    obtain ⟨-, -, hread⟩ := runs_spec h hslot hagrees.1 (at_ + RUN) stop (by unfold RUN GRANULE at *; omega)
    have hle := t.le_runs (at_ + RUN) stop (t.slot at_)
    rw [ih]
    refine ⟨fun hall a hfrom hstop => ?_, fun hall a hfrom hstop => hall a (by omega) hstop⟩
    rcases lt_or_ge a (at_ + RUN) with hin | hout
    · exact agrees_spec h hrun.1 hslot hagrees.1 hagrees.2 hfrom hin
    · rcases lt_or_ge a (t.runs (at_ + RUN) stop (t.slot at_)) with hin | hout'
      · exact hread a hout hin
      · exact hall a hout' hstop
  | case2 at_ hlt hrun hagrees ih =>
    rw [Bool.and_eq_true, each_iff, ih]
    refine ⟨fun ⟨hfirst, hrest⟩ a hle hstop => ?_,
      fun hall => ⟨fun a hle hin => hall a hle (by omega), fun a hle hin => hall a (by omega) hin⟩⟩
    rcases lt_or_ge a (at_ + RUN) with hin | hout
    · exact hfirst a hle hin
    · exact hrest a hout hstop
  | case3 at_ hlt hrun hat => exact each_iff at_ stop wanted
  | case4 at_ hlt hrun hat ih =>
    have hbefore := lt_next at_
    rw [Bool.and_eq_true, each_iff, ih]
    refine ⟨fun ⟨hfirst, hrest⟩ a hle hstop => ?_,
      fun hall => ⟨fun a hle hin => hall a hle (by omega), fun a hle hin => hall a (by omega) hin⟩⟩
    rcases lt_or_ge a (min (TypePlane.next at_) stop) with hin | hout
    · exact hfirst a hle hin
    · exact hrest a hout hstop
  | case5 at_ hge => exact iff_of_true rfl fun a hle hstop => absurd (hle.trans_lt hstop) hge

theorem sweep_eq_allows (h : t.Good) (lo len wanted : ℕ) : t.sweep lo len wanted = t.allows lo len wanted := by
  unfold sweep allows
  split
  · rfl
  · rw [Bool.eq_iff_iff, sweepFrom_iff h, each_iff]

/-- The accesses of a column before the first that is not answered are answered yes. -/
theorem columnFrom_spec (stride wanted slot k left : ℕ) : k ≤ t.columnFrom stride wanted slot k left ∧
    t.columnFrom stride wanted slot k left ≤ k + left ∧
      ∀ j, k + j < t.columnFrom stride wanted slot k left → t.slots (slot + j * stride) &&& HETEROGENEOUS = 0 ∧
        compatible wanted (t.slots (slot + j * stride)) = true := by
  induction left generalizing slot k with
  | zero => exact ⟨le_rfl, le_rfl, fun j hj => absurd hj (by rw [columnFrom]; omega)⟩
  | succ left ih =>
    rw [columnFrom]
    split
    · exact ⟨le_rfl, by omega, fun j hj => by omega⟩
    · rename_i hyes
      rw [not_or, not_not, Bool.not_eq_false] at hyes
      obtain ⟨hle, hge, hall⟩ := ih (slot + stride) (k + 1)
      refine ⟨by omega, by omega, fun j hj => ?_⟩
      cases j with
      | zero =>
        rw [Nat.zero_mul, Nat.add_zero]
        exact hyes
      | succ j =>
        have hnext := hall j (by omega)
        rwa [show slot + stride + j * stride = slot + (j + 1) * stride by ring] at hnext

/-! ## Stores -/

/-- What storing `ty` through a range did to the plane. Every byte says what it should or nothing, and what it should
for as long as the table has not run out. -/
structure Stored (t t' : Types) (lo hi ty : ℕ) : Prop where
  good : t'.Good
  thin : ∀ a, t'.read a = put lo hi ty t.read a ∨ t'.read a = UNTYPED
  exact : t'.side.refused = false → t.side.refused = false ∧ ∀ a, t'.read a = put lo hi ty t.read a

theorem Stored.of_bytes (hgood : t'.Good) (hside : t'.side.refused = t.side.refused)
    (h : ∀ a, t'.read a = put lo hi ty t.read a) : t.Stored t' lo hi ty :=
  ⟨hgood, fun a => Or.inl (h a), fun hrefused => ⟨hside ▸ hrefused, h⟩⟩

theorem Stored.trans {mid : ℕ} (h : t.Stored t' lo mid ty) (h' : t'.Stored t'' mid hi ty) (hlo : lo ≤ mid)
    (hhi : mid ≤ hi) : t.Stored t'' lo hi ty where
  good := h'.good
  thin a := by
    rw [← put_put hlo hhi]
    rcases h'.thin a with ha | ha
    · rw [ha]
      unfold put
      split
      · exact Or.inl rfl
      · exact h.thin a
    · exact Or.inr ha
  exact hrefused := by
    obtain ⟨hmid, ha'⟩ := h'.exact hrefused
    obtain ⟨hfirst, ha⟩ := h.exact hmid
    refine ⟨hfirst, fun a => ?_⟩
    rw [ha', ← put_put hlo hhi, funext ha]

theorem slot_setSlot : (t.setSlot at_ value).slot a = if a / GRANULE = at_ / GRANULE then value else t.slot a := by
  unfold slot setSlot
  dsimp only
  rw [Function.update_apply]

theorem setSlot_good (h : t.Good) (hvalue : value < HETEROGENEOUS) : (t.setSlot at_ value).Good where
  room := h.room
  next := h.next
  slot g := by
    unfold setSlot
    dsimp only
    rw [Function.update_apply]
    split
    · exact Or.inl hvalue
    · exact h.slot g
  apart g g' hflag heq := by
    unfold setSlot at hflag heq
    dsimp only at hflag heq
    rw [Function.update_apply] at hflag heq
    split at hflag
    · exact absurd hvalue hflag
    · rename_i hne
      rw [if_neg hne, Function.update_apply] at heq
      split at heq
      · exact absurd hvalue (heq ▸ hflag)
      · exact h.apart g g' hflag heq

/-- One type in the slot of a granule. -/
theorem read_setSlot {at_ value a : ℕ} (h : t.Good) (hvalue : value < HETEROGENEOUS) :
    (t.setSlot at_ value).read a = if a / GRANULE = at_ / GRANULE then value else t.read a := by
  split
  · rename_i hsame
    have hslot : (t.setSlot at_ value).slot a = value := slot_setSlot.trans (if_pos hsame)
    rw [read_of_plain (hslot.trans_lt hvalue), hslot]
  · rename_i hother
    exact read_congr h (slot_setSlot.trans (if_neg hother)) fun _ _ _ => rfl

theorem write_good (h : t.Good) :
    ({ t with side := t.side.write index first count ty } : Types).Good := ⟨h.room, h.next, h.slot, h.apart⟩

/-- One type over a part of the entry of a granule. -/
theorem read_write (h : t.Good) (hindex : t.slot at_ = HETEROGENEOUS ||| index)
    (hlt : index < t.side.next) : ({ t with side := t.side.write index first count ty } : Types).read a =
      if a / GRANULE = at_ / GRANULE ∧ first ≤ a % GRANULE ∧ a % GRANULE < first + count then ty else t.read a := by
  have hle := h.index_le hlt
  by_cases hsame : a / GRANULE = at_ / GRANULE
  · have hslot : t.slot a = HETEROGENEOUS ||| index := (congrArg t.slots hsame).trans hindex
    have hslot' : ({ t with side := t.side.write index first count ty } : Types).slot a = HETEROGENEOUS ||| index :=
      hslot
    rw [read_of_entry hslot hle, read_of_entry hslot' hle, Side.write]
    simp only [hsame, true_and]
  · rw [if_neg fun hin => hsame hin.1]
    refine read_congr h rfl fun index' hlt' hindex' => ?_
    have hne : index' ≠ index := by
      rintro rfl
      refine hsame (h.apart _ _ (fun hplain => not_lt_flag hle ?_) (hindex'.trans hindex.symm))
      exact hindex'.symm.trans_lt hplain
    exact if_neg fun hin => hne hin.1

/-- What the flag of a slot says. -/
theorem Good.flagged (h : t.Good) (hflag : t.slot a &&& HETEROGENEOUS ≠ 0) :
    ∃ index < t.side.next, t.slot a = HETEROGENEOUS ||| index ∧ t.slot a &&& LIMIT = index := by
  rcases h.slot (a / GRANULE) with hplain | ⟨index, hlt, hindex⟩
  · exact absurd (and_flag_of_lt hplain) hflag
  · have hslot : t.slot a = HETEROGENEOUS ||| index := hindex
    exact ⟨index, hlt, hslot, by rw [hslot, flag_or_and_limit (h.index_le hlt)]⟩

theorem Good.plain (h : t.Good) (hflag : t.slot a &&& HETEROGENEOUS = 0) : t.slot a < HETEROGENEOUS := by
  rcases h.slot (a / GRANULE) with hplain | ⟨index, -, hindex⟩
  · exact hplain
  · exact absurd hflag ((show t.slot a = _ from hindex) ▸ flag_or_and_flag index)

theorem whole_stored (h : t.Good) (hty : ty ≤ LAST_INTERNED) (hat : at_ % GRANULE = 0) :
    t.Stored (t.whole at_ ty) at_ (TypePlane.next at_) ty := by
  have hlt : ty < HETEROGENEOUS := by
    unfold LAST_INTERNED LIMIT HETEROGENEOUS at *
    omega
  have hin (a : ℕ) : a / GRANULE = at_ / GRANULE ↔ at_ ≤ a ∧ a < TypePlane.next at_ := by
    unfold TypePlane.next GRANULE at *
    omega
  unfold whole
  split
  · refine Stored.of_bytes (setSlot_good h hlt) rfl fun a => ?_
    rw [read_setSlot h hlt, put]
    simp only [hin]
  · rename_i hflag
    obtain ⟨index, hlt, hindex, hentry⟩ := h.flagged hflag
    rw [hentry]
    refine Stored.of_bytes (write_good h) rfl fun a => ?_
    have hmod : a % GRANULE < 0 + GRANULE := (Nat.mod_lt _ (by decide)).trans_eq (Nat.zero_add _).symm
    rw [read_write h hindex hlt, put]
    simp only [hin, Nat.zero_le, hmod, and_true]

theorem filled_good {at_ : ℕ} (h : t.Good) (hroom : t.side.next < t.side.room) :
    (t.filled at_ t.side.next { t.side with next := t.side.next + 1 }).Good := by
  have hle : t.side.next ≤ LIMIT := hroom.le.trans h.room
  -- the entry that is taken is in no slot yet
  have hfresh (g : ℕ) (heq : t.slots g = HETEROGENEOUS ||| t.side.next) : False := by
    rcases h.slot g with hplain | ⟨index, hlt, hindex⟩
    · exact not_lt_flag hle (heq ▸ hplain)
    · have hor := heq.symm.trans hindex
      rw [flag_or hle, flag_or (h.index_le hlt)] at hor
      omega
  refine ⟨h.room, hroom, fun g => ?_, fun g g' hflag heq => ?_⟩
  · unfold filled setSlot Side.write
    dsimp only
    rw [Function.update_apply]
    split
    · exact Or.inr ⟨t.side.next, Nat.lt_succ_self _, rfl⟩
    · exact (h.slot g).imp_right fun ⟨index, hlt, hindex⟩ => ⟨index, hlt.trans (Nat.lt_succ_self _), hindex⟩
  · unfold filled setSlot at hflag heq
    dsimp only at hflag heq
    rw [Function.update_apply] at hflag
    rw [Function.update_apply, Function.update_apply] at heq
    split at heq
    · rename_i hg
      split at heq
      · rename_i hg'
        exact hg.trans hg'.symm
      · exact absurd heq.symm (hfresh g')
    · rename_i hg
      rw [if_neg hg] at hflag
      split at heq
      · exact absurd heq (hfresh g)
      · exact h.apart g g' hflag heq

/-- Reading is the same after an entry was taken for a granule and filled. -/
theorem read_filled (h : t.Good) (hroom : t.side.next < t.side.room) (hplain : t.slot at_ < HETEROGENEOUS) :
    (t.filled at_ t.side.next { t.side with next := t.side.next + 1 }).read a = t.read a := by
  unfold filled
  have hle : t.side.next ≤ LIMIT := hroom.le.trans h.room
  by_cases hsame : a / GRANULE = at_ / GRANULE
  · have hslot : t.slot a = t.slot at_ := congrArg t.slots hsame
    rw [read_of_entry (slot_setSlot.trans (if_pos hsame)) hle, read_of_plain (hslot.trans_lt hplain), hslot]
    exact if_pos ⟨rfl, Nat.zero_le _, (Nat.mod_lt _ (by decide)).trans_eq (Nat.zero_add _).symm⟩
  · refine read_congr h (slot_setSlot.trans (if_neg hsame)) fun index hlt _ => ?_
    exact if_neg fun hin => hlt.ne hin.1

theorem part_stored {at_ stop ty : ℕ} (h : t.Good) (hlt : at_ < stop)
    (hstop : stop ≤ TypePlane.next at_) : t.Stored (t.part at_ stop ty) at_ stop ty := by
  have hin (a : ℕ) : (a / GRANULE = at_ / GRANULE ∧ at_ % GRANULE ≤ a % GRANULE ∧
      a % GRANULE < at_ % GRANULE + (stop - at_)) ↔ at_ ≤ a ∧ a < stop := by
    unfold TypePlane.next GRANULE at *
    omega
  unfold part
  split
  · rename_i hflag
    obtain ⟨index, hlt, hindex, hentry⟩ := h.flagged hflag
    rw [hentry]
    refine Stored.of_bytes (write_good h) rfl fun a => ?_
    rw [read_write h hindex hlt, put]
    simp only [hin]
  · rename_i hflag
    have hplain := h.plain (not_not.1 hflag)
    split
    · -- the granule says this everywhere already
      rename_i heq
      refine Stored.of_bytes h rfl fun a => ?_
      unfold put
      split
      · rename_i ha
        have hslot : t.slot a = ty := (congrArg t.slots (granule_eq ha.1 (ha.2.trans_le hstop))).trans heq
        rw [read_of_plain (hslot.trans_lt (heq ▸ hplain)), hslot]
      · rfl
    · unfold Side.take
      split
      · -- no entry is to be had
        rename_i side htake
        split at htake
        · cases htake
        · obtain rfl := (Prod.mk.inj htake).2
          have hgood : ({ t with side := { t.side with refused := true } } : Types).Good :=
            ⟨h.room, h.next, h.slot, h.apart⟩
          refine ⟨setSlot_good hgood (by decide), fun a => ?_, fun hrefused => by cases hrefused⟩
          rw [read_setSlot hgood (by decide)]
          split
          · exact Or.inr rfl
          · rename_i hother
            refine Or.inl (Eq.trans ?_ (put_of_not_mem fun ha =>
              hother (granule_eq ha.1 (ha.2.trans_le hstop))).symm)
            exact read_congr h rfl fun _ _ _ => rfl
      · rename_i index side htake
        split at htake
        · rename_i hroom
          obtain ⟨hindex, rfl⟩ := Prod.mk.inj htake
          obtain rfl := Option.some.inj hindex
          have hgood := @filled_good t at_ h hroom
          refine Stored.of_bytes (write_good hgood) rfl fun a => ?_
          dsimp only
          rw [read_write hgood (slot_setSlot.trans (if_pos rfl)) (Nat.lt_succ_self _), read_filled h hroom hplain, put]
          simp only [hin]
        · cases htake

theorem setFrom_stored (h : t.Good) (hty : ty ≤ LAST_INTERNED) (hle : at_ ≤ stop) :
    t.Stored (t.setFrom at_ stop ty) at_ stop ty := by
  fun_induction setFrom t at_ stop ty with
  | case1 t at_ hlt hwhole ih =>
    have hstep := whole_stored h hty hwhole.1
    rw [← hwhole.2] at hstep
    exact hstep.trans (ih hstep.good (min_le_right _ _)) (le_min (lt_next at_).le hle) (min_le_right _ _)
  | case2 t at_ hlt hwhole ih =>
    have hstep := @part_stored t at_ _ ty h (lt_min (lt_next at_) hlt) (min_le_left _ stop)
    exact hstep.trans (ih hstep.good (min_le_right _ _)) (le_min (lt_next at_).le hle) (min_le_right _ _)
  | case3 t at_ hge =>
    refine Stored.of_bytes h rfl fun a => (put_of_not_mem fun ha => ?_).symm
    exact hge (ha.1.trans_lt ha.2)

/-- A store keeps the plane in order and says what it should. -/
theorem set_stored (h : t.Good) (lo len : ℕ) (hty : ty ≤ LAST_INTERNED) :
    t.Stored (t.set lo len ty) lo (lo + len) ty := setFrom_stored h hty (Nat.le_add_right _ _)

/-- A store of one byte, which is never the whole of a granule, through whatever type. -/
theorem set_one_stored (h : t.Good) (a ty : ℕ) : t.Stored (t.set a 1 ty) a (a + 1) ty := by
  have hbefore := lt_next a
  have hone : t.set a 1 ty = t.part a (a + 1) ty := by
    unfold set
    rw [setFrom, if_pos (Nat.lt_succ_self a), if_neg (by unfold TypePlane.next GRANULE at *; omega),
      min_eq_right hbefore, setFrom, if_neg (lt_irrefl _)]
  exact hone ▸ part_stored h (Nat.lt_succ_self a) hbefore

/-- What is done to the plane, through types it has room for. -/
inductive Op
  | set (lo len ty : ℕ) (h : ty ≤ LAST_INTERNED)
  | copy (dst src len : ℕ)

/-- An operation on the plane. -/
def step (t : Types) : Op → Types
  | .set lo len ty _ => t.set lo len ty
  | .copy dst src len => t.copy dst src len

theorem copy_good (h : t.Good) (dst src len : ℕ) : (t.copy dst src len).Good := by
  unfold copy
  induction len with
  | zero => exact h
  | succ len ih =>
    rw [List.range_succ, List.foldl_append, List.foldl_cons, List.foldl_nil]
    exact (set_one_stored ih _ _).good

theorem step_good (h : t.Good) (op : Op) : (t.step op).Good := by
  cases op with
  | set lo len ty hty => exact (set_stored h lo len hty).good
  | copy dst src len => exact copy_good h dst src len

/-! ## Runs -/

/-- A store of so many bytes through a type. -/
structure Store where
  lo : ℕ
  len : ℕ
  ty : ℕ

/-- The stores of a program, one after the other. -/
def run (t : Types) (stores : List Store) : Types := stores.foldl (fun t s => t.set s.lo s.len s.ty) t

/-- What each byte was last stored through. -/
def lastStored (stores : List Store) : ℕ → ℕ :=
  stores.foldl (fun bytes s => put s.lo (s.lo + s.len) s.ty bytes) fun _ => UNTYPED

theorem new_good (entries : ℕ → ℕ → ℕ) (room : ℕ) : (new (Side.map entries room)).Good where
  room := min_le_right _ _
  next := Nat.zero_le _
  slot _ := Or.inl (by decide : UNTYPED < HETEROGENEOUS)
  apart _ _ hflag _ := absurd (by decide : UNTYPED < HETEROGENEOUS) hflag

theorem run_good (entries : ℕ → ℕ → ℕ) (room : ℕ) (ops : List Op) :
    (ops.foldl step (new (Side.map entries room))).Good := by
  induction ops using List.reverseRecOn with
  | nil => exact new_good entries room
  | append_singleton ops op ih =>
    rw [List.foldl_append, List.foldl_cons, List.foldl_nil]
    exact step_good ih op

/-- After any stores every byte says what it was last stored through or nothing. -/
theorem run_spec (entries : ℕ → ℕ → ℕ) (room : ℕ) (stores : List Store) (h : ∀ s ∈ stores, s.ty ≤ LAST_INTERNED) :
    ((new (Side.map entries room)).run stores).Good ∧
      (∀ a, ((new (Side.map entries room)).run stores).read a = lastStored stores a ∨
        ((new (Side.map entries room)).run stores).read a = UNTYPED) ∧
      (((new (Side.map entries room)).run stores).side.refused = false →
        ∀ a, ((new (Side.map entries room)).run stores).read a = lastStored stores a) := by
  induction stores using List.reverseRecOn with
  | nil =>
    have hread (a : ℕ) : (new (Side.map entries room)).read a = UNTYPED :=
      read_of_plain (by decide : UNTYPED < HETEROGENEOUS)
    exact ⟨new_good entries room, fun a => Or.inl (hread a), fun _ a => hread a⟩
  | append_singleton stores s ih =>
    obtain ⟨hgood, hthin, hexact⟩ := ih fun s' hs' => h s' (List.mem_append_left _ hs')
    have hstored := set_stored hgood s.lo s.len (h s (List.mem_append_right _ (List.mem_singleton_self s)))
    unfold run lastStored at *
    rw [List.foldl_append, List.foldl_append, List.foldl_cons, List.foldl_nil, List.foldl_cons, List.foldl_nil]
    refine ⟨hstored.good, fun a => ?_, fun hrefused a => ?_⟩
    · rcases hstored.thin a with ha | ha
      · rw [ha]
        unfold put
        split
        · exact Or.inl rfl
        · exact hthin a
      · exact Or.inr ha
    · obtain ⟨hbefore, ha⟩ := hstored.exact hrefused
      rw [ha, funext (hexact hbefore)]

/-- The plane refines a map of bytes. After any stores through types it has room for, and with any side table, a byte
says what it was last stored through, or nothing, and nothing only once the table has run out. A store leaves the
bytes it does not name, or they say nothing. An access is permitted when every byte of it permits it, a long range is
answered as a short one, a granule that says yes for all of its bytes is right, and no two granules share an entry. -/
theorem refines_bytes (entries : ℕ → ℕ → ℕ) (room : ℕ) (stores : List Store)
    (h : ∀ s ∈ stores, s.ty ≤ LAST_INTERNED) :
    let t := (new (Side.map entries room)).run stores
    (∀ a, t.read a = lastStored stores a ∨ t.read a = UNTYPED) ∧
    (t.side.refused = false → ∀ a, t.read a = lastStored stores a) ∧
    (∀ lo len ty, ty ≤ LAST_INTERNED → ∀ a, ¬ (lo ≤ a ∧ a < lo + len) →
      (t.set lo len ty).read a = t.read a ∨ (t.set lo len ty).read a = UNTYPED) ∧
    (∀ lo len wanted, t.allows lo len wanted = true ↔
      ∀ a, lo ≤ a → a < lo + len → compatible wanted (t.read a) = true) ∧
    (∀ lo len wanted, t.sweep lo len wanted = t.allows lo len wanted) ∧
    (∀ at_ wanted, t.plain at_ wanted = true → ∀ lo len, lo / GRANULE = at_ / GRANULE →
      lo + len ≤ TypePlane.next at_ → t.allows lo len wanted = true) ∧
    ∀ g g', t.slots g &&& HETEROGENEOUS ≠ 0 → t.slots g' &&& HETEROGENEOUS ≠ 0 →
      t.slots g &&& LIMIT = t.slots g' &&& LIMIT → g = g' := by
  obtain ⟨hgood, hthin, hexact⟩ := run_spec entries room stores h
  refine ⟨hthin, hexact, fun lo len ty hty a ha => ?_, allows_iff, sweep_eq_allows hgood,
    fun at_ wanted hplain lo len hsame hle => ?_, fun g g' hflag hflag' heq => ?_⟩
  · have hstored := (set_stored hgood lo len hty).thin a
    rwa [put_of_not_mem ha] at hstored
  · rw [allows_iff]
    intro a hlo hhi
    refine plain_spec hplain ?_
    unfold TypePlane.next GRANULE at *
    omega
  · obtain ⟨index, hlt, hindex, hentry⟩ := hgood.flagged (show slot _ (g * GRANULE) &&& _ ≠ 0 by
      rwa [slot, Nat.mul_div_cancel _ (by decide)])
    obtain ⟨index', hlt', hindex', hentry'⟩ := hgood.flagged (show slot _ (g' * GRANULE) &&& _ ≠ 0 by
      rwa [slot, Nat.mul_div_cancel _ (by decide)])
    rw [slot, Nat.mul_div_cancel _ (by decide)] at hindex hentry hindex' hentry'
    obtain rfl : index = index' := by rw [← hentry, ← hentry', heq]
    exact hgood.apart g g' (fun hplain => not_lt_flag (hgood.index_le hlt) (hindex.symm.trans_lt hplain))
      (hindex.trans hindex'.symm)

/-- With room for one entry a second granule that has to disagree says nothing. -/
theorem refines_bytes_midway :
    (∀ s ∈ [(⟨0, 8, 10⟩ : Store), ⟨2, 4, 11⟩, ⟨8, 8, 10⟩, ⟨12, 4, 11⟩], s.ty ≤ LAST_INTERNED) ∧
      ∀ a, ((new (Side.map (fun _ _ => 7) 1)).run [⟨0, 8, 10⟩, ⟨2, 4, 11⟩, ⟨8, 8, 10⟩, ⟨12, 4, 11⟩]).read a =
          lastStored [⟨0, 8, 10⟩, ⟨2, 4, 11⟩, ⟨8, 8, 10⟩, ⟨12, 4, 11⟩] a ∨
        ((new (Side.map (fun _ _ => 7) 1)).run [⟨0, 8, 10⟩, ⟨2, 4, 11⟩, ⟨8, 8, 10⟩, ⟨12, 4, 11⟩]).read a =
          UNTYPED := by
  have htypes : ∀ s ∈ [(⟨0, 8, 10⟩ : Store), ⟨2, 4, 11⟩, ⟨8, 8, 10⟩, ⟨12, 4, 11⟩], s.ty ≤ LAST_INTERNED := by
    simp [LAST_INTERNED, LIMIT, HETEROGENEOUS]
  exact ⟨htypes, (refines_bytes (fun _ _ => 7) 1 _ htypes).1⟩

end Types

end Rucc.SafeRt.TypePlane
