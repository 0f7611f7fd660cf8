import Rucc.SafeRt.InitPlane
import Rucc.SafeRt.TypePlane

/-!
# The checks of the two planes

`allowed`, `swept` and `stepped` of `check.rs`, for an address in a region. Sums are those of `usize`: some of them
saturate, and the one that asks whether an access is inside one granule wraps.
-/

namespace Rucc.SafeRt.PlaneChecks

open TypePlane (Types CHARACTER compatible)
open InitPlane (Init SPAN)

-- the granules of the type plane, not those of the heap
export TypePlane (GRANULE)

/-- `usize::MAX`. -/
def MAX : ℕ := 2^64 - 1

/-- `usize::saturating_add`. -/
def saturatingAdd (a b : ℕ) : ℕ := min (a + b) MAX

/-- `usize::saturating_mul`. -/
def saturatingMul (a b : ℕ) : ℕ := min (a * b) MAX

/-- `usize::wrapping_add`, which the sum is where nobody asks for more. -/
def wrappingAdd (a b : ℕ) : ℕ := (a + b) % 2^64

/-- A region with its planes, whose two ends start granules. -/
structure Region where
  types : Types
  init : Init
  base : ℕ
  stop : ℕ
  stop_le : stop ≤ MAX
  base_aligned : base % GRANULE = 0
  stop_aligned : stop % GRANULE = 0

namespace Region

variable {a k : ℕ}

/-- How many of the `size` bytes from `addr` on are inside the region. -/
def clipped (r : Region) (addr size : ℕ) : ℕ := if size < r.stop - addr then size else r.stop - addr

/-- What the planes say of the bytes of an access that are inside the region. -/
def permits (r : Region) (addr size : ℕ) (ty : Option ℕ) (init : Bool) : Bool :=
  (ty.all fun ty => r.types.allows addr (r.clipped addr size) ty) && (!init || r.init.allows addr (r.clipped addr size))

/-- Whether an access inside one granule is answered yes from the two slots of the granule. -/
def plainWhole (r : Region) (addr ty : ℕ) : Bool := (ty = CHARACTER || r.types.plain addr ty) && r.init.whole addr

/-- Both questions a read asks of the planes. A no is reported. -/
def allowed (r : Region) (addr size ty : ℕ) : Bool :=
  if wrappingAdd (addr % GRANULE) size ≤ GRANULE && r.plainWhole addr ty then true
  else r.types.allows addr (r.clipped addr size) ty && r.init.allows addr (r.clipped addr size)

/-- The plane checks over a range. -/
def swept (r : Region) (addr size : ℕ) (ty : Option ℕ) (init : Bool) : Bool :=
  (ty.all fun ty => r.types.sweep addr (r.clipped addr size) ty) && (!init || r.init.sweep addr (r.clipped addr size))

/-! ## A walk that leaves gaps -/

section Stepped

variable (r : Region) (addr span step width : ℕ) (ty : Option ℕ) (init : Bool)

/-- One access of the walk, and the address that is reported when it does not hold. -/
def ask (at_ : ℕ) : List ℕ :=
  let inside := wrappingAdd (at_ % GRANULE) width ≤ GRANULE && wrappingAdd (at_ % SPAN) width ≤ SPAN &&
    width ≤ r.stop - at_
  let quick := inside && ((ty.all fun ty => r.types.plain at_ ty) && (!init || r.init.whole at_))
  if quick || r.permits at_ width ty init then [] else [at_]

/-- The first access from `k` on that the type plane cannot answer from its slot alone. -/
def typed (count k : ℕ) : ℕ :=
  match ty with
  | some ty => k + r.types.column (addr + k * step) step (count - k) ty
  | none => count

/-- The first access from `k` on that the init plane cannot answer from its byte of shadow alone. -/
def written (count k : ℕ) : ℕ :=
  if init then k + r.init.column (addr + k * step) step (count - k) else count

/-- Where a column stands after access `k` was asked about: past it, if it stood there. -/
def after (column : ℕ → ℕ) (at_ k : ℕ) : ℕ := if at_ = k then column (k + 1) else at_

/-- The walk along the two columns. No column is past `count`, so the accesses that are left are those below it. -/
def columns (count t i : ℕ) : List ℕ :=
  if min t i < count then
    r.ask width ty init (addr + min t i * step) ++
      columns count (after (r.typed addr step ty count) t (min t i))
        (after (r.written addr step init count) i (min t i))
  else []
termination_by count - min t i
decreasing_by
  have htyped : min t i + 1 ≤ r.typed addr step ty count (min t i + 1) := by
    unfold typed
    split <;> omega
  have hwritten : min t i + 1 ≤ r.written addr step init count (min t i + 1) := by
    unfold written
    split <;> omega
  unfold after
  split_ifs <;> omega

/-- The loop goes on from an address while it is in the region and the end of the access, which saturates, is not past
that of the span. -/
def Goes (at_ : ℕ) : Prop := at_ < r.stop ∧ saturatingAdd at_ width ≤ saturatingAdd addr span

instance : DecidablePred (r.Goes addr span width) := fun _ => inferInstanceAs (Decidable (_ ∧ _))

/-- The accesses one at a time, from `at` on. -/
def rest (at_ : ℕ) : List ℕ :=
  if r.Goes addr span width at_ then
    if step = 0 then r.ask width ty init at_
    else r.ask width ty init at_ ++ rest (saturatingAdd at_ step)
  else []
termination_by r.stop - at_
decreasing_by
  have hgo : r.Goes addr span width at_ := ‹_›
  have hin := hgo.1
  have hstop := r.stop_le
  unfold saturatingAdd MAX at *
  omega

/-- How many accesses end inside both the span and the region. -/
def count : ℕ :=
  let limit := min (saturatingAdd addr span) r.stop
  if addr ≤ limit ∧ width ≤ limit - addr then (limit - addr - width) / step + 1 else 0

/-- The accesses of `width` bytes at `addr` and at every `step` along from it that still ends inside `span` bytes, and
the addresses that are reported. -/
def stepped : List ℕ :=
  if step ≠ 0 ∧ step % GRANULE = 0 ∧ step % SPAN = 0 ∧ wrappingAdd (addr % GRANULE) width ≤ GRANULE ∧
      wrappingAdd (addr % SPAN) width ≤ SPAN then
    let count := r.count addr span step width
    r.columns addr step width ty init count (r.typed addr step ty count 0) (r.written addr step init count 0) ++
      r.rest addr span step width ty init (saturatingAdd addr (saturatingMul count step))
  else r.rest addr span step width ty init addr

/-- The accesses there are, which start inside the region: all of those one every `step` bytes, or the one at
`addr`. -/
def places : List ℕ :=
  if step = 0 then [addr] else ((List.range (r.stop - addr)).map fun k => addr + k * step).filter (· < r.stop)

end Stepped

variable {r : Region} {addr span step width size : ℕ} {ty : Option ℕ} {init : Bool}

theorem clipped_le (r : Region) (addr size : ℕ) : r.clipped addr size ≤ size := by
  unfold clipped
  split <;> omega

theorem add_clipped_le (haddr : addr < r.stop) (size : ℕ) : addr + r.clipped addr size ≤ r.stop := by
  unfold clipped
  split <;> omega

/-- Every byte of an access that is inside the region holds what the access reads, and has been written. -/
def Holds (r : Region) (addr size : ℕ) (ty : Option ℕ) (init : Bool) : Prop :=
  ∀ a, addr ≤ a → a < addr + r.clipped addr size →
    (∀ wanted ∈ ty, compatible wanted (r.types.read a) = true) ∧ (init = true → r.init.read a = true)

/-- An access is permitted when every byte of it that is inside the region is. -/
theorem permits_iff : r.permits addr size ty init = true ↔ r.Holds addr size ty init := by
  unfold permits Holds
  rw [Bool.and_eq_true, Bool.or_eq_true, Bool.not_eq_true', Option.all_eq_true]
  simp only [Types.allows_iff, Init.allows_iff]
  constructor
  · intro ⟨htypes, hinit⟩ a hle hlt
    refine ⟨fun wanted hwanted => htypes wanted hwanted a hle hlt, fun hasked => ?_⟩
    exact hinit.resolve_left (by rw [hasked]; decide) a hle hlt
  · intro h
    refine ⟨fun wanted hwanted a hle hlt => (h a hle hlt).1 wanted hwanted, ?_⟩
    cases init with
    | false => exact Or.inl rfl
    | true => exact Or.inr fun a hle hlt => (h a hle hlt).2 rfl

instance : Decidable (r.Holds addr size ty init) := decidable_of_iff _ permits_iff

/-- The two slots of a granule answer for every access inside it. -/
theorem permits_of_slots (hinside : addr % GRANULE + size ≤ GRANULE)
    (htypes : ∀ wanted ∈ ty, wanted = CHARACTER ∨ r.types.plain addr wanted = true)
    (hinit : init = true → r.init.whole addr = true) : r.permits addr size ty init = true := by
  rw [permits_iff]
  intro a hle hlt
  have hclipped := r.clipped_le addr size
  have hsame : a / GRANULE = addr / GRANULE := by
    unfold GRANULE at *
    omega
  refine ⟨fun wanted hwanted => ?_, fun hasked => ?_⟩
  · rcases htypes wanted hwanted with rfl | hplain
    · exact Types.compatible_character _
    · exact Types.plain_spec hplain hsame
  · exact (Init.whole_iff addr).1 (hinit hasked) a hsame

theorem wrappingAdd_eq {b : ℕ} (h : a + b ≤ MAX) : wrappingAdd a b = a + b :=
  Nat.mod_eq_of_lt (by unfold MAX at h; omega)

/-! ## One access and a range -/

theorem permits_both (r : Region) (addr size ty : ℕ) : r.permits addr size (some ty) true =
    (r.types.allows addr (r.clipped addr size) ty && r.init.allows addr (r.clipped addr size)) := rfl

/-- The shortcut only says yes where the walk does, unless the sum it asks about wraps. -/
theorem allowed_iff (hsize : size ≤ MAX) (ty : ℕ) : r.allowed addr size ty = r.permits addr size (some ty) true ↔
    addr % GRANULE + size ≤ MAX ∨ r.plainWhole addr ty = false ∨ r.permits addr size (some ty) true = true := by
  have hmod : addr % GRANULE < 8 := Nat.mod_lt _ (by decide)
  unfold allowed
  rw [← permits_both]
  by_cases hyes : r.plainWhole addr ty = true
  · rw [hyes, Bool.and_true]
    by_cases hfits : addr % GRANULE + size ≤ MAX
    · refine iff_of_true ?_ (Or.inl hfits)
      rw [wrappingAdd_eq hfits]
      split
      · rename_i hinside
        unfold plainWhole at hyes
        rw [Bool.and_eq_true, Bool.or_eq_true, decide_eq_true_eq] at hyes
        refine (permits_of_slots (of_decide_eq_true hinside) (fun wanted hwanted => ?_) fun _ => hyes.2).symm
        obtain rfl := Option.mem_some_iff.1 hwanted
        exact hyes.1
      · rfl
    · -- the sum wraps, and what is left of it is less than a granule
      have hwrapped : wrappingAdd (addr % GRANULE) size ≤ GRANULE := by
        unfold wrappingAdd MAX GRANULE at *
        omega
      rw [if_pos (decide_eq_true hwrapped), or_iff_right hfits, or_iff_right (by decide), eq_comm]
  · rw [Bool.not_eq_true] at hyes
    rw [hyes, Bool.and_false, if_neg (by decide)]
    exact iff_of_true rfl (Or.inr (Or.inl rfl))

/-- A check over a range is the check of one access that long. -/
theorem swept_eq (hgood : r.types.Good) (addr size : ℕ) (ty : Option ℕ) (init : Bool) :
    r.swept addr size ty init = r.permits addr size ty init := by
  unfold swept permits
  rw [Init.sweep_eq_allows]
  simp only [Types.sweep_eq_allows hgood]

/-! ## One access of a walk -/

/-- An access of the walk is reported unless the planes permit it. -/
theorem ask_eq (r : Region) (addr width : ℕ) (ty : Option ℕ) (init : Bool) :
    r.ask width ty init addr = if r.permits addr width ty init then [] else [addr] := by
  have hstop := r.stop_le
  unfold ask
  dsimp only
  by_cases hslots : (ty.all fun ty => r.types.plain addr ty) && (!init || r.init.whole addr)
  · rw [hslots, Bool.and_true]
    by_cases hinside : wrappingAdd (addr % GRANULE) width ≤ GRANULE ∧ wrappingAdd (addr % SPAN) width ≤ SPAN ∧
        width ≤ r.stop - addr
    · -- neither sum wraps where the access is inside the region
      have hsum : addr % GRANULE + width ≤ GRANULE := by
        have hle := Nat.mod_le addr GRANULE
        have hmod : addr % GRANULE < 8 := Nat.mod_lt _ (by decide)
        have hone := hinside.1
        rwa [wrappingAdd_eq (by unfold MAX at *; omega)] at hone
      rw [Bool.and_eq_true, Bool.or_eq_true, Bool.not_eq_true', Option.all_eq_true] at hslots
      have hpermits : r.permits addr width ty init = true :=
        permits_of_slots hsum (fun wanted hwanted => Or.inr (hslots.1 wanted hwanted)) fun hasked =>
          hslots.2.resolve_left (by rw [hasked]; decide)
      rw [hpermits, Bool.or_true]
    · have hno : (decide (wrappingAdd (addr % GRANULE) width ≤ GRANULE) &&
          decide (wrappingAdd (addr % SPAN) width ≤ SPAN) && decide (width ≤ r.stop - addr)) = false := by
        simpa [and_assoc] using hinside
      rw [hno, Bool.false_or]
  · rw [Bool.not_eq_true] at hslots
    rw [hslots, Bool.and_false, Bool.false_or]

/-! ## The scalar loop -/

theorem Goes.of_le {at_ at' : ℕ} (h : r.Goes addr span width at') (hle : at_ ≤ at') :
    r.Goes addr span width at_ := by
  refine ⟨hle.trans_lt h.1, le_trans ?_ h.2⟩
  exact min_le_min_right _ (Nat.add_le_add_right hle _)

/-- What is asked from an address on is every access that the loop goes on from. -/
theorem rest_eq (hstep : 0 < step) (at_ n : ℕ) (hn : r.stop ≤ at_ + n) : r.rest addr span step width ty init at_ =
      (((List.range n).map fun k => at_ + k * step).filter (r.Goes addr span width)).flatMap (r.ask width ty init) := by
  induction n generalizing at_ with
  | zero =>
    rw [rest, if_neg fun h => absurd h.1 (by omega), List.range_zero, List.map_nil, List.filter_nil, List.flatMap_nil]
  | succ n ih =>
    by_cases hgo : r.Goes addr span width at_
    · rw [rest, if_pos hgo, if_neg hstep.ne', List.range_succ_eq_map, List.map_cons, Nat.zero_mul, Nat.add_zero,
        List.filter_cons_of_pos (by simpa using hgo), List.flatMap_cons, List.map_map]
      congr 1
      have htail : ((fun k => at_ + k * step) ∘ Nat.succ) = fun k => at_ + step + k * step := by
        funext k
        rw [Function.comp_apply, Nat.succ_mul]
        omega
      rw [htail]
      by_cases hfits : at_ + step ≤ MAX
      · rw [saturatingAdd, min_eq_left hfits]
        exact ih _ (by omega)
      · -- the next address saturates, and it is not in the region either way
        have hstop := r.stop_le
        rw [saturatingAdd, min_eq_right (by omega), rest, if_neg fun h => absurd h.1 (by omega),
          List.filter_eq_nil_iff.2 ?_, List.flatMap_nil]
        intro b hb
        obtain ⟨k, -, rfl⟩ := List.mem_map.1 hb
        rw [decide_eq_true_eq]
        exact fun h => absurd h.1 (by omega)
    · rw [rest, if_neg hgo, List.filter_eq_nil_iff.2 ?_, List.flatMap_nil]
      intro b hb
      obtain ⟨k, -, rfl⟩ := List.mem_map.1 hb
      rw [decide_eq_true_eq]
      exact fun h => hgo (h.of_le (Nat.le_add_right _ _))

/-! ## The columns -/

theorem column_granule (hstep : step % GRANULE = 0) (k j : ℕ) :
    (addr + (k + j) * step) / GRANULE = (addr + k * step) / GRANULE + j * (step / GRANULE) := by
  obtain ⟨stride, rfl⟩ := Nat.dvd_of_mod_eq_zero hstep
  rw [Nat.mul_div_cancel_left _ (by decide : 0 < GRANULE),
    show addr + (k + j) * (GRANULE * stride) = addr + k * (GRANULE * stride) + GRANULE * (j * stride) by ring,
    Nat.add_mul_div_left _ _ (by decide : 0 < GRANULE)]

/-- The type plane has answered yes for the accesses up to the one it stops at. -/
theorem typed_spec (hstep : step % GRANULE = 0) {count k : ℕ} (hk : k ≤ count) :
    k ≤ r.typed addr step ty count k ∧ r.typed addr step ty count k ≤ count ∧
      ∀ j, k ≤ j → j < r.typed addr step ty count k → ∀ wanted ∈ ty, r.types.plain (addr + j * step) wanted = true := by
  unfold typed
  cases ty with
  | none => exact ⟨hk, le_rfl, fun _ _ _ wanted hwanted => by cases hwanted⟩
  | some ty =>
    dsimp only
    unfold Types.column
    obtain ⟨-, hle, hall⟩ := @Types.columnFrom_spec r.types (step / GRANULE) ty ((addr + k * step) / GRANULE) 0
      (count - k)
    refine ⟨Nat.le_add_right _ _, by omega, fun j hkj hj wanted hwanted => ?_⟩
    obtain rfl := Option.mem_some_iff.1 hwanted
    have hslot := hall (j - k) (by omega)
    rw [← column_granule hstep, Nat.add_sub_cancel' hkj] at hslot
    unfold Types.plain Types.slot
    rw [hslot.1, hslot.2]
    rfl

/-- And so has the init plane. -/
theorem written_spec (hstep : step % SPAN = 0) {count k : ℕ} (hk : k ≤ count) :
    k ≤ r.written addr step init count k ∧ r.written addr step init count k ≤ count ∧
      ∀ j, k ≤ j → j < r.written addr step init count k → init = true → r.init.whole (addr + j * step) = true := by
  unfold written
  cases init with
  | false => exact ⟨hk, le_rfl, fun _ _ _ hinit => by cases hinit⟩
  | true =>
    rw [if_pos rfl]
    unfold Init.column
    obtain ⟨-, hle, hall⟩ := @Init.columnFrom_spec r.init (step / SPAN) ((addr + k * step) / SPAN) 0 (count - k)
    refine ⟨Nat.le_add_right _ _, by omega, fun j hkj hj _ => ?_⟩
    have hslot := hall (j - k) (by omega)
    have hsame := @column_granule addr step hstep k (j - k)
    rw [Nat.add_sub_cancel' hkj] at hsame
    unfold Init.whole Init.slot
    rw [show SPAN = GRANULE from rfl, hsame]
    exact beq_iff_eq.2 hslot

/-- A column that is past what was asked about has answered yes up to where it stands. -/
theorem after_spec {column : ℕ → ℕ} {yes : ℕ → Prop} {at_ count : ℕ} (hk : k ≤ at_) (hat : at_ ≤ count)
    (hyes : ∀ j, k ≤ j → j < at_ → yes j)
    (hcolumn : k + 1 ≤ column (k + 1) ∧ column (k + 1) ≤ count ∧ ∀ j, k + 1 ≤ j → j < column (k + 1) → yes j) :
    k + 1 ≤ after column at_ k ∧ after column at_ k ≤ count ∧
      ∀ j, k + 1 ≤ j → j < after column at_ k → yes j := by
  unfold after
  split
  · exact hcolumn
  · exact ⟨by omega, hat, fun j hj hlt => hyes j (by omega) hlt⟩

/-- The accesses that both planes answer yes for from their slots are not reported. -/
theorem skipped (hstep : step % GRANULE = 0) (hinside : addr % GRANULE + width ≤ GRANULE) {first n : ℕ}
    (htypes : ∀ j, first ≤ j → j < first + n → ∀ wanted ∈ ty, r.types.plain (addr + j * step) wanted = true)
    (hinit : ∀ j, first ≤ j → j < first + n → init = true → r.init.whole (addr + j * step) = true) :
    ((List.range' first n).map fun k => addr + k * step).flatMap (r.ask width ty init) = [] := by
  rw [List.flatMap_eq_nil_iff]
  intro at_ hat
  obtain ⟨j, hj, rfl⟩ := List.mem_map.1 hat
  rw [List.mem_range'_1] at hj
  have hmod : (addr + j * step) % GRANULE = addr % GRANULE := by
    rw [Nat.add_mod, Nat.mul_mod, hstep, Nat.mul_zero, Nat.zero_mod, Nat.add_zero, Nat.mod_mod]
  rw [ask_eq, permits_of_slots (hmod ▸ hinside) (fun wanted hwanted => Or.inr (htypes j hj.1 hj.2 wanted hwanted))
    (hinit j hj.1 hj.2), if_pos rfl]

/-- The walk along the columns asks about every access that one of them cannot answer, so what it reports is what
asking about each of them would. -/
theorem columns_eq (hstep : step % GRANULE = 0) {count : ℕ} (hinside : addr % GRANULE + width ≤ GRANULE)
    (t i first : ℕ) (ht : t ≤ count) (hi : i ≤ count) (hfirst : first ≤ min t i)
    (htypes : ∀ j, first ≤ j → j < t → ∀ wanted ∈ ty, r.types.plain (addr + j * step) wanted = true)
    (hinit : ∀ j, first ≤ j → j < i → init = true → r.init.whole (addr + j * step) = true) :
    r.columns addr step width ty init count t i =
      ((List.range' first (count - first)).map fun k => addr + k * step).flatMap (r.ask width ty init) := by
  have hskip := skipped hstep hinside (fun j hj hlt => htypes j hj (by omega : j < t))
    fun j hj (hlt : j < first + (min t i - first)) => hinit j hj (by omega)
  fun_induction columns r addr step width ty init count t i generalizing first with
  | case1 t i hlt ih =>
    -- the accesses before the next one that is asked about are answered yes by both planes
    have hsplit : List.range' first (count - first) = List.range' first (min t i - first) ++
        min t i :: List.range' (min t i + 1) (count - (min t i + 1)) := by
      have hone : count - min t i = count - (min t i + 1) + 1 := by omega
      rw [← List.range'_succ, ← hone]
      have happend := @List.range'_append_1 first (min t i - first) (count - min t i)
      rw [Nat.add_sub_cancel' hfirst] at happend
      rw [happend]
      congr 1
      omega
    rw [hsplit, List.map_append, List.flatMap_append, hskip, List.nil_append, List.map_cons, List.flatMap_cons]
    congr 1
    obtain ⟨hle, hge, hall⟩ := after_spec (min_le_left t i) ht (fun j hj => htypes j (hfirst.trans hj))
      (@typed_spec r addr step ty hstep count (min t i + 1) hlt)
    obtain ⟨hle', hge', hall'⟩ := after_spec (min_le_right t i) hi (fun j hj => hinit j (hfirst.trans hj))
      (@written_spec r addr step init hstep count (min t i + 1) hlt)
    refine ih _ hge hge' (le_min hle hle') hall hall' ?_
    exact skipped hstep hinside (fun j hj hlt => hall j hj (by omega)) fun j hj hlt => hall' j hj (by omega)
  | case2 t i hge => rw [show count - first = min t i - first by omega, hskip]

/-! ## The walk -/

theorem permits_zero (r : Region) (addr : ℕ) (ty : Option ℕ) (init : Bool) : r.permits addr 0 ty init = true := by
  rw [permits_iff]
  intro a hle hlt
  have hclipped := r.clipped_le addr 0
  omega

theorem flatMap_filter_of {α β : Type*} {f : α → List β} {p : α → Prop} [DecidablePred p] {l : List α}
    (h : ∀ a ∈ l, ¬ p a → f a = []) : (l.filter p).flatMap f = l.flatMap f := by
  induction l with
  | nil => rfl
  | cons a l ih =>
    have htail := ih fun b hb => h b (List.mem_cons_of_mem _ hb)
    by_cases hp : p a
    · rw [List.filter_cons_of_pos (by simpa using hp), List.flatMap_cons, List.flatMap_cons, htail]
    · rw [List.filter_cons_of_neg (by simpa using hp), List.flatMap_cons, h a List.mem_cons_self hp, htail,
        List.nil_append]

theorem flatMap_ask (r : Region) (width : ℕ) (ty : Option ℕ) (init : Bool) (l : List ℕ) :
    l.flatMap (r.ask width ty init) = l.filter fun at_ => r.permits at_ width ty init = false := by
  induction l with
  | nil => rfl
  | cons a l ih =>
    rw [List.flatMap_cons, ask_eq, ih]
    cases h : r.permits a width ty init with
    | true => rw [if_pos rfl, List.filter_cons_of_neg (by simp [h]), List.nil_append]
    | false => rw [if_neg (by decide), List.filter_cons_of_pos (by simp [h]), List.singleton_append]

/-- The accesses that the columns walk end inside both the span and the region. -/
theorem count_spec (hk : k < r.count addr span step width) :
    addr + k * step + width ≤ min (saturatingAdd addr span) r.stop := by
  unfold count at hk
  dsimp only at hk
  split at hk
  · rename_i hroom
    have hmul := Nat.div_mul_le_self (min (saturatingAdd addr span) r.stop - addr - width) step
    have hle := Nat.mul_le_mul_right step (Nat.le_of_lt_succ hk)
    omega
  · omega

/-- The walk along the columns asks nothing that the loop would not. -/
theorem stepped_eq_rest (haddr : addr < r.stop) :
    r.stepped addr span step width ty init = r.rest addr span step width ty init addr := by
  have hstop := r.stop_le
  unfold stepped
  split
  · rename_i hfast
    obtain ⟨hstep, hgranule, hspan, hinside, -⟩ := hfast
    dsimp only
    generalize hcount : r.count addr span step width = n
    obtain ⟨-, ht, htypes⟩ := @typed_spec r addr step ty hgranule n 0 (Nat.zero_le _)
    obtain ⟨-, hi, hinit⟩ := @written_spec r addr step init hspan n 0 (Nat.zero_le _)
    cases n with
    | zero =>
      rw [columns, if_neg (Nat.not_lt_zero _), List.nil_append]
      unfold saturatingMul saturatingAdd
      rw [Nat.zero_mul, Nat.zero_min, Nat.add_zero, min_eq_left (by omega)]
    | succ n =>
      have hends (k : ℕ) (hk : k < n + 1) : addr + k * step + width ≤ min (saturatingAdd addr span) r.stop :=
        count_spec (hcount ▸ hk)
      have hsum : addr % GRANULE + width ≤ GRANULE := by
        have hfirst := hends 0 (Nat.succ_pos n)
        have hmod := Nat.mod_le addr GRANULE
        rwa [wrappingAdd_eq (by omega)] at hinside
      rw [columns_eq hgranule hsum _ _ 0 ht hi (Nat.zero_le _) htypes hinit, Nat.sub_zero, ← List.range_eq_range',
        rest_eq (Nat.pos_of_ne_zero hstep) addr (n + 1 + (r.stop - addr)) (by omega), @List.range_add (n + 1),
        List.map_append, List.filter_append, List.flatMap_append]
      congr 1
      · -- the loop goes on from all of these, but for an access of no bytes at the end of the region
        refine (flatMap_filter_of fun at_ hat hstops => ?_).symm
        obtain ⟨k, hk, rfl⟩ := List.mem_map.1 hat
        have hend := hends k (List.mem_range.1 hk)
        rcases lt_or_ge (addr + k * step) r.stop with hlt | hge
        · refine absurd ⟨hlt, ?_⟩ hstops
          unfold saturatingAdd at *
          omega
        · rw [show width = 0 by omega, ask_eq, permits_zero, if_pos rfl]
      · rw [List.map_map]
        rcases le_or_gt (addr + (n + 1) * step) MAX with hfits | hover
        · unfold saturatingMul
          rw [min_eq_left (by omega), saturatingAdd, min_eq_left hfits,
            rest_eq (Nat.pos_of_ne_zero hstep) _ (r.stop - addr) (by omega)]
          congr 3
          funext k
          rw [Function.comp_apply, Nat.add_assoc, ← Nat.add_mul]
        · -- the next address saturates, and no access is left in the region
          have hnext : saturatingAdd addr (saturatingMul (n + 1) step) = MAX := by
            unfold saturatingAdd saturatingMul
            omega
          rw [hnext, rest, if_neg fun h => absurd h.1 (by omega), List.filter_eq_nil_iff.2 ?_, List.flatMap_nil]
          intro b hb
          obtain ⟨k, -, rfl⟩ := List.mem_map.1 hb
          rw [decide_eq_true_eq, Function.comp_apply, Nat.add_mul]
          exact fun h => absurd h.1 (by omega)
  · rfl

theorem places_eq (hstep : 0 < step) : ((r.places addr step).filter (r.Goes addr span width)) =
    ((List.range (r.stop - addr)).map fun k => addr + k * step).filter (r.Goes addr span width) := by
  unfold places
  rw [if_neg hstep.ne', List.filter_filter]
  refine List.filter_congr fun a _ => ?_
  rw [Bool.and_eq_left_iff_imp, decide_eq_true_eq, decide_eq_true_eq]
  exact fun h => h.1

theorem mem_places (haddr : addr < r.stop) (ha : a ∈ r.places addr step) : addr ≤ a ∧ a < r.stop := by
  unfold places at ha
  split at ha
  · obtain rfl := List.mem_singleton.1 ha
    exact ⟨le_rfl, haddr⟩
  · obtain ⟨hmem, hlt⟩ := List.mem_filter.1 ha
    obtain ⟨k, -, rfl⟩ := List.mem_map.1 hmem
    exact ⟨Nat.le_add_right _ _, of_decide_eq_true hlt⟩

/-- What is reported is every access that the loop goes on from and that does not hold, once each and in order. -/
theorem stepped_eq (haddr : addr < r.stop) : r.stepped addr span step width ty init =
    ((r.places addr step).filter (r.Goes addr span width)).filter fun a => ¬ r.Holds a width ty init := by
  have hreported (l : List ℕ) : l.flatMap (r.ask width ty init) = l.filter fun a => ¬ r.Holds a width ty init := by
    rw [flatMap_ask]
    refine List.filter_congr fun a _ => ?_
    rw [decide_eq_decide, ← permits_iff, Bool.not_eq_true]
  rw [stepped_eq_rest haddr, ← hreported]
  rcases Nat.eq_zero_or_pos step with rfl | hstep
  · rw [rest, if_pos rfl, places, if_pos rfl]
    split
    · rename_i hgo
      rw [List.filter_cons_of_pos (by simpa using hgo), List.filter_nil, List.flatMap_singleton]
    · rename_i hstops
      rw [List.filter_cons_of_neg (by simpa using hstops), List.filter_nil, List.flatMap_nil]
  · rw [rest_eq hstep addr (r.stop - addr) (by omega), places_eq hstep]

/-- The end of the span is where the loop says it is, unless it saturates. -/
theorem stepped_eq_iff (haddr : addr < r.stop) : r.stepped addr span step width ty init =
    ((r.places addr step).filter (· - addr + width ≤ span)).filter (fun a => ¬ r.Holds a width ty init) ↔
      addr + span < MAX ∨ ∀ a ∈ r.places addr step, ¬ a - addr + width ≤ span → r.Holds a width ty init := by
  have hmem {a : ℕ} (ha : a ∈ r.places addr step) := mem_places haddr ha
  rw [stepped_eq haddr, List.filter_filter, List.filter_filter]
  rcases lt_or_ge (addr + span) MAX with hfits | hover
  · refine iff_of_true (List.filter_congr fun a ha => ?_) (Or.inl hfits)
    have hin := hmem ha
    congr 1
    rw [decide_eq_decide]
    unfold Goes saturatingAdd
    omega
  · rw [or_iff_right hover.not_gt]
    constructor
    · intro h a ha hpast
      by_contra hno
      have hgo : r.Goes addr span width a := by
        have hin := hmem ha
        unfold Goes saturatingAdd
        omega
      have hasked := congrArg (a ∈ ·) h
      simp only [List.mem_filter, Bool.and_eq_true, decide_eq_true_eq] at hasked
      exact hpast (hasked.mp ⟨ha, hno, hgo⟩).2.2
    · intro h
      refine List.filter_congr fun a ha => ?_
      by_cases hholds : r.Holds a width ty init
      · simp [hholds]
      · have hends : a - addr + width ≤ span := not_not.1 fun hpast => hholds (h a ha hpast)
        have hgo : r.Goes addr span width a := by
          have hin := hmem ha
          unfold Goes saturatingAdd
          omega
        rw [decide_eq_true hends, decide_eq_true hgo]

/-! ## What is looked at -/

/-- Regions whose planes say the same inside of them. -/
structure Same (r r' : Region) : Prop where
  base : r'.base = r.base
  stop : r'.stop = r.stop
  slot : ∀ a, r.base ≤ a → a < r.stop → r'.types.slot a = r.types.slot a
  side : r'.types.side = r.types.side
  shadow : ∀ a, r.base ≤ a → a < r.stop → r'.init.slot a = r.init.slot a

/-- The walk along the columns is taken. -/
def Fast (addr step width : ℕ) : Prop :=
  step ≠ 0 ∧ step % GRANULE = 0 ∧ step % SPAN = 0 ∧ wrappingAdd (addr % GRANULE) width ≤ GRANULE ∧
    wrappingAdd (addr % SPAN) width ≤ SPAN

/-- Every question that a check asks of a plane is about slots of the region, so what is past its two ends does not
change the answer. -/
structure Inside (r : Region) (addr span step width : ℕ) (ty : Option ℕ) (init : Bool) : Prop where
  slots : ∀ r', r.Same r' → ∀ at_ ty, r.base ≤ at_ → at_ < r.stop →
    r'.types.plain at_ ty = r.types.plain at_ ty ∧ r'.init.whole at_ = r.init.whole at_
  allows : ∀ r', r.Same r' → ∀ at_ size ty, r.base ≤ at_ → at_ < r.stop →
    r'.types.allows at_ (r'.clipped at_ size) ty = r.types.allows at_ (r.clipped at_ size) ty ∧
      r'.init.allows at_ (r'.clipped at_ size) = r.init.allows at_ (r.clipped at_ size)
  sweep : ∀ r', r.Same r' → ∀ at_ size ty, r.base ≤ at_ → at_ < r.stop →
    r'.types.sweep at_ (r'.clipped at_ size) ty = r.types.sweep at_ (r.clipped at_ size) ty ∧
      r'.init.sweep at_ (r'.clipped at_ size) = r.init.sweep at_ (r.clipped at_ size)
  column : Fast addr step width → ∀ r', r.Same r' → ∀ k ≤ r.count addr span step width,
    r'.typed addr step ty (r.count addr span step width) k = r.typed addr step ty (r.count addr span step width) k ∧
      r'.written addr step init (r.count addr span step width) k =
        r.written addr step init (r.count addr span step width) k

section Looks

variable {r r' : Region} {lo hi wanted : ℕ}

variable {a len stride k left slot : ℕ}

theorem Same.clipped (h : r.Same r') (addr size : ℕ) : r'.clipped addr size = r.clipped addr size := by
  unfold Region.clipped
  rw [h.stop]

theorem Same.types_read (h : r.Same r') (hbase : r.base ≤ a) (hstop : a < r.stop) :
    r'.types.read a = r.types.read a := by
  unfold Types.read
  rw [h.slot a hbase hstop, h.side]

theorem Same.init_read (h : r.Same r') (hbase : r.base ≤ a) (hstop : a < r.stop) :
    r'.init.read a = r.init.read a := by
  unfold Init.read
  rw [h.shadow a hbase hstop]

theorem Same.each (h : r.Same r') (hlo : r.base ≤ lo) (hhi : hi ≤ r.stop) :
    r'.types.each lo hi wanted = r.types.each lo hi wanted := by
  rw [Bool.eq_iff_iff, Types.each_iff, Types.each_iff]
  refine forall_congr' fun a => forall_congr' fun hle => forall_congr' fun hlt => ?_
  rw [h.types_read (hlo.trans hle) (hlt.trans_le hhi)]

theorem Same.init_allows (h : r.Same r') (hlo : r.base ≤ lo) (hhi : lo + len ≤ r.stop) :
    r'.init.allows lo len = r.init.allows lo len := by
  rw [Bool.eq_iff_iff, Init.allows_iff, Init.allows_iff]
  refine forall_congr' fun a => forall_congr' fun hle => forall_congr' fun hlt => ?_
  rw [h.init_read (hlo.trans hle) (hlt.trans_le hhi)]

/-- The slots of a run are those of the addresses it starts granules at. -/
theorem Same.agrees (h : r.Same r') (hlo : r.base ≤ lo) (hhi : lo + TypePlane.RUN ≤ r.stop) (slot : ℕ) :
    r'.types.agrees lo slot = r.types.agrees lo slot := by
  have hslot (k : ℕ) (hk : k < 8) : r'.types.slots (lo / GRANULE + k) = r.types.slots (lo / GRANULE + k) := by
    have hsame := h.slot (lo + GRANULE * k) (by omega) (by unfold TypePlane.RUN GRANULE at *; omega)
    unfold Types.slot at hsame
    rwa [Nat.add_mul_div_left _ _ (by decide : 0 < GRANULE)] at hsame
  have hword (k : ℕ) (hk : k < 4) : r'.types.word lo k = r.types.word lo k := by
    unfold Types.word
    rw [hslot _ (by omega), Nat.add_assoc, hslot _ (by omega)]
  unfold Types.agrees
  rw [hword 0 (by decide), hword 1 (by decide), hword 2 (by decide), hword 3 (by decide)]

theorem Same.runs (h : r.Same r') (hlo : r.base ≤ lo) (hhi : hi ≤ r.stop) (slot : ℕ) :
    r'.types.runs lo hi slot = r.types.runs lo hi slot := by
  fun_induction Types.runs r.types lo hi slot with
  | case1 lo hrun ih =>
    rw [Types.runs, h.agrees hlo (by unfold TypePlane.RUN GRANULE at *; omega), if_pos hrun, ih (by omega)]
  | case2 lo hrun =>
    rw [Types.runs, if_neg fun hrun' => hrun ⟨hrun'.1, ?_⟩]
    exact h.agrees hlo (by unfold TypePlane.RUN GRANULE at *; omega) slot ▸ hrun'.2

theorem Same.sweepFrom (h : r.Same r') (hlo : r.base ≤ lo) (hhi : hi ≤ r.stop) :
    r'.types.sweepFrom lo hi wanted = r.types.sweepFrom lo hi wanted := by
  fun_induction Types.sweepFrom r.types lo hi wanted with
  | case1 lo hlt hrun hagrees ih =>
    have hle := r.types.le_runs (lo + TypePlane.RUN) hi (r.types.slot lo)
    rw [Types.sweepFrom, if_pos hlt, if_pos hrun, h.slot lo hlo (by omega),
      h.agrees hlo (by unfold TypePlane.RUN GRANULE at *; omega), if_pos hagrees, h.runs (by omega) hhi, ih (by omega)]
  | case2 lo hlt hrun hagrees ih =>
    have hend : lo + TypePlane.RUN ≤ r.stop := by unfold TypePlane.RUN GRANULE at *; omega
    rw [Types.sweepFrom, if_pos hlt, if_pos hrun, h.slot lo hlo (by omega), h.agrees hlo hend, if_neg hagrees,
      h.each hlo hend, ih (by omega)]
  | case3 lo hlt hrun hat => rw [Types.sweepFrom, if_pos hlt, if_neg hrun, if_pos hat, h.each hlo hhi]
  | case4 lo hlt hrun hat ih =>
    have hbefore := TypePlane.lt_next lo
    rw [Types.sweepFrom, if_pos hlt, if_neg hrun, if_neg hat, h.each hlo (by omega), ih (by omega)]
  | case5 lo hge => rw [Types.sweepFrom, if_neg hge]

theorem Same.types_allows (h : r.Same r') (hlo : r.base ≤ lo) (hhi : lo + len ≤ r.stop) :
    r'.types.allows lo len wanted = r.types.allows lo len wanted := by
  unfold Types.allows
  rw [h.each hlo hhi]

theorem Same.types_sweep (h : r.Same r') (hlo : r.base ≤ lo) (hhi : lo + len ≤ r.stop) :
    r'.types.sweep lo len wanted = r.types.sweep lo len wanted := by
  unfold Types.sweep
  rw [h.sweepFrom hlo hhi]

/-- A column is decided by the slots of its accesses. -/
theorem columnFrom_congr {t t' : Types}
    (h : ∀ j < left, t'.slots (slot + j * stride) = t.slots (slot + j * stride)) :
    t'.columnFrom stride wanted slot k left = t.columnFrom stride wanted slot k left := by
  induction left generalizing slot k with
  | zero => rfl
  | succ left ih =>
    have hfirst := h 0 (Nat.succ_pos _)
    rw [Nat.zero_mul, Nat.add_zero] at hfirst
    rw [Types.columnFrom, Types.columnFrom, hfirst, ih]
    intro j hj
    have hnext := h (j + 1) (by omega)
    rwa [Nat.succ_mul, Nat.add_comm (j * stride), ← Nat.add_assoc] at hnext

theorem init_columnFrom_congr {p p' : Init}
    (h : ∀ j < left, p'.shadow (slot + j * stride) = p.shadow (slot + j * stride)) :
    p'.columnFrom stride slot k left = p.columnFrom stride slot k left := by
  induction left generalizing slot k with
  | zero => rfl
  | succ left ih =>
    have hfirst := h 0 (Nat.succ_pos _)
    rw [Nat.zero_mul, Nat.add_zero] at hfirst
    rw [Init.columnFrom, Init.columnFrom, hfirst, ih]
    intro j hj
    have hnext := h (j + 1) (by omega)
    rwa [Nat.succ_mul, Nat.add_comm (j * stride), ← Nat.add_assoc] at hnext

/-- Where every access of a column starts inside the region, both planes walk slots of the region only. -/
theorem Same.columns (h : r.Same r') {addr step n : ℕ} (hstep : step % GRANULE = 0) (hbase : r.base ≤ addr)
    (hinside : ∀ k < n, addr + k * step < r.stop) (ty : Option ℕ) (init : Bool) (hk : k ≤ n) :
    r'.typed addr step ty n k = r.typed addr step ty n k ∧
      r'.written addr step init n k = r.written addr step init n k := by
  have hslot (j : ℕ) (hj : j < n - k) : r.base ≤ addr + (k + j) * step ∧ addr + (k + j) * step < r.stop :=
    ⟨hbase.trans (Nat.le_add_right _ _), hinside _ (by omega)⟩
  constructor
  · unfold typed
    cases ty with
    | none => rfl
    | some ty =>
      refine congrArg (k + ·) (columnFrom_congr fun j hj => ?_)
      rw [← column_granule hstep]
      exact h.slot _ (hslot j hj).1 (hslot j hj).2
  · unfold written
    cases init with
    | false => rfl
    | true =>
      refine congrArg (k + ·) (init_columnFrom_congr fun j hj => ?_)
      have hsame := h.shadow _ (hslot j hj).1 (hslot j hj).2
      unfold Init.slot at hsame
      rwa [show SPAN = GRANULE from rfl, column_granule hstep] at hsame

end Looks

/-- The columns walk past the end of the region where an access of no bytes stands at it. -/
def Past (r : Region) (addr span step width : ℕ) : Prop :=
  width = 0 ∧ step ≠ 0 ∧ step % GRANULE = 0 ∧ step ∣ r.stop - addr ∧ r.stop ≤ addr + span

theorem count_lt_stop (haddr : addr < r.stop) (hfast : Fast addr step width)
    (hpast : ¬ r.Past addr span step width) (hk : k < r.count addr span step width) :
    addr + k * step < r.stop := by
  have hend := count_spec hk
  have hstop := r.stop_le
  by_contra hge
  have heq : r.stop - addr = k * step := by omega
  refine hpast ⟨by omega, hfast.1, hfast.2.1, heq ▸ Nat.dvd_mul_left step k, ?_⟩
  unfold saturatingAdd at hend
  omega

theorem past_count (haddr : addr < r.stop) (hpast : r.Past addr span step width) :
    ∃ k < r.count addr span step width, r.count addr span step width = k + 1 ∧ addr + k * step = r.stop := by
  obtain ⟨rfl, hstep, -, ⟨k, hk⟩, hspan⟩ := hpast
  have hstop := r.stop_le
  have hlimit : min (saturatingAdd addr span) r.stop = r.stop := by
    unfold saturatingAdd
    omega
  have hcount : r.count addr span step 0 = k + 1 := by
    unfold count
    dsimp only
    rw [hlimit, if_pos ⟨haddr.le, Nat.zero_le _⟩, Nat.sub_zero, hk,
      Nat.mul_div_cancel_left _ (Nat.pos_of_ne_zero hstep)]
  exact ⟨k, hcount ▸ Nat.lt_succ_self k, hcount, by rw [Nat.mul_comm, ← hk]; omega⟩

theorem typed_last (r : Region) (addr step ty k : ℕ) :
    r.typed addr step (some ty) (k + 1) k = if r.types.plain (addr + k * step) ty then k + 1 else k := by
  unfold typed Types.column
  dsimp only
  rw [Nat.add_sub_cancel_left, Types.columnFrom, Types.columnFrom, ← Types.slot, Types.plain]
  by_cases hplain : r.types.slot (addr + k * step) &&& TypePlane.HETEROGENEOUS = 0
  · cases hcompatible : compatible ty (r.types.slot (addr + k * step)) with
    | false => simp [hplain]
    | true => simp [hplain]
  · simp [hplain]

theorem written_last (r : Region) (addr step k : ℕ) :
    r.written addr step true (k + 1) k = if r.init.whole (addr + k * step) then k + 1 else k := by
  unfold written Init.column
  rw [if_pos rfl, Nat.add_sub_cancel_left, Init.columnFrom, Init.columnFrom, ← Init.slot, Init.whole]
  by_cases hzero : r.init.slot (addr + k * step) = 0#8
  · simp [hzero]
  · simp [hzero]

/-- The region with other slots past its end, which answer otherwise. -/
def beyond (r : Region) (ty : ℕ) : Region := { r with
  types := r.types.setSlot r.stop (if r.types.plain r.stop ty then TypePlane.HETEROGENEOUS else TypePlane.UNTYPED)
  init := r.init.setSlot r.stop (if r.init.whole r.stop then 255#8 else 0#8) }

theorem beyond_same (r : Region) (ty : ℕ) : r.Same (r.beyond ty) := by
  have hother {a : ℕ} (ha : a < r.stop) : a / GRANULE ≠ r.stop / GRANULE := by
    have hstop := r.stop_aligned
    unfold GRANULE at *
    omega
  exact ⟨rfl, rfl, fun a _ ha => Types.slot_setSlot.trans (if_neg (hother ha)), rfl,
    fun a _ ha => Init.slot_setSlot.trans (if_neg (hother ha))⟩

theorem beyond_plain (r : Region) (ty : ℕ) : (r.beyond ty).types.plain r.stop ty = !r.types.plain r.stop ty := by
  have hslot : (r.beyond ty).types.slot r.stop = _ := Types.slot_setSlot.trans (if_pos rfl)
  rw [Types.plain, hslot]
  cases r.types.plain r.stop ty with
  | false => rfl
  | true => rfl

theorem beyond_whole (r : Region) (ty : ℕ) : (r.beyond ty).init.whole r.stop = !r.init.whole r.stop := by
  have hslot : (r.beyond ty).init.slot r.stop = _ := Init.slot_setSlot.trans (if_pos rfl)
  rw [Init.whole, hslot]
  cases r.init.whole r.stop with
  | false => rfl
  | true => rfl

/-- Nothing outside of the region is looked at, but by a column that walks past its end. -/
theorem inside_iff (hbase : r.base ≤ addr) (haddr : addr < r.stop) : r.Inside addr span step width ty init ↔
    r.Past addr span step width → ty = none ∧ init = false := by
  constructor
  · intro h hpast
    have hfast : Fast addr step width := by
      have hmod : addr % GRANULE < 8 := Nat.mod_lt _ (by decide)
      obtain ⟨rfl, hstep, hgranule, -⟩ := hpast
      have hsum : wrappingAdd (addr % GRANULE) 0 ≤ GRANULE := by
        rw [wrappingAdd_eq (by unfold MAX; omega)]
        exact hmod.le
      exact ⟨hstep, hgranule, hgranule, hsum, hsum⟩
    obtain ⟨k, hk, hcount, hstop⟩ := past_count haddr hpast
    constructor
    · cases ty with
      | none => rfl
      | some ty =>
        obtain ⟨htyped, -⟩ := h.column hfast _ (r.beyond_same ty) k hk.le
        rw [hcount, typed_last, typed_last, hstop, beyond_plain] at htyped
        cases hplain : r.types.plain r.stop ty <;> simp [hplain] at htyped
    · cases init with
      | false => rfl
      | true =>
        obtain ⟨-, hwritten⟩ := h.column hfast _ (r.beyond_same CHARACTER) k hk.le
        rw [hcount, written_last, written_last, hstop, beyond_whole] at hwritten
        cases hwhole : r.init.whole r.stop <;> simp [hwhole] at hwritten
  · intro h
    have hend {at_ : ℕ} (size : ℕ) (hat : at_ < r.stop) := add_clipped_le hat size
    refine ⟨fun r' hsame at_ ty hlo hhi => ?_, fun r' hsame at_ size ty hlo hhi => ?_,
      fun r' hsame at_ size ty hlo hhi => ?_, fun hfast r' hsame k hk => ?_⟩
    · rw [Types.plain, Types.plain, Init.whole, Init.whole, hsame.slot at_ hlo hhi, hsame.shadow at_ hlo hhi]
      exact ⟨rfl, rfl⟩
    · rw [hsame.clipped]
      exact ⟨hsame.types_allows hlo (hend size hhi), hsame.init_allows hlo (hend size hhi)⟩
    · rw [hsame.clipped, Init.sweep_eq_allows, Init.sweep_eq_allows]
      exact ⟨hsame.types_sweep hlo (hend size hhi), hsame.init_allows hlo (hend size hhi)⟩
    · by_cases hpast : r.Past addr span step width
      · obtain ⟨rfl, rfl⟩ := h hpast
        exact ⟨rfl, rfl⟩
      · exact hsame.columns hfast.2.1 hbase (fun k hk => count_lt_stop haddr hfast hpast hk) ty init hk

/-! ## The checks -/

theorem allowed_iff_holds (hsize : size ≤ MAX) (ty : ℕ) :
    (r.allowed addr size ty = true ↔ r.Holds addr size (some ty) true) ↔
      addr % GRANULE + size ≤ MAX ∨ r.plainWhole addr ty = false ∨ r.Holds addr size (some ty) true := by
  rw [← permits_iff, ← Bool.eq_iff_iff, allowed_iff hsize]

/-- What the checks of a region report is what the bytes of the region say of the accesses, and nothing outside of the
region is looked at: that is so for everything that was done to the planes and for every access, unless a sum of the
code wraps or saturates, or an access of no bytes at the end of the region is walked to.
The three parts of the condition are, in this order, about the shortcut of `allowed`, about the end of the span of
`stepped`, and about what `column` looks at. -/
theorem checks_ask_iff (entries : ℕ → ℕ → ℕ) (room : ℕ) (typeOps : List Types.Op) (initOps : List Init.Op)
    (r : Region) (htypes : r.types = typeOps.foldl Types.step (Types.new (TypePlane.Side.map entries room)))
    (hinit : r.init = initOps.foldl Init.step Init.new) (addr size span step width : ℕ) (hbase : r.base ≤ addr)
    (haddr : addr < r.stop) (hsize : size ≤ MAX) (ty : ℕ) (wanted : Option ℕ) (init : Bool) :
    (r.init.Reads (initOps.foldl Init.written fun _ => true) ∧
      (r.allowed addr size ty = true ↔ r.Holds addr size (some ty) true) ∧
      (r.swept addr size wanted init = true ↔ r.Holds addr size wanted init) ∧
      r.stepped addr span step width wanted init =
        ((r.places addr step).filter (· - addr + width ≤ span)).filter (fun a => ¬ r.Holds a width wanted init) ∧
      r.Inside addr span step width wanted init) ↔
    ((addr % GRANULE + size ≤ MAX ∨ r.plainWhole addr ty = false ∨ r.Holds addr size (some ty) true) ∧
      (addr + span < MAX ∨ ∀ a ∈ r.places addr step, ¬ a - addr + width ≤ span → r.Holds a width wanted init) ∧
      (r.Past addr span step width → wanted = none ∧ init = false)) := by
  have hgood : r.types.Good := by
    rw [htypes]
    exact Types.run_good entries room typeOps
  have hswept : r.swept addr size wanted init = true ↔ r.Holds addr size wanted init := by
    rw [swept_eq hgood, permits_iff]
  have hreads : r.init.Reads (initOps.foldl Init.written fun _ => true) := by
    rw [hinit]
    exact Init.run_reads initOps
  rw [and_iff_right hreads, allowed_iff_holds hsize, and_iff_right hswept, stepped_eq_iff haddr,
    inside_iff hbase haddr]

/-- A page of storage of which the first eight bytes have been written. -/
def page : Region where
  types := Types.new (TypePlane.Side.map (fun _ _ => TypePlane.UNTYPED) 16)
  init := [Init.Op.forget 4096 4096, Init.Op.set 4096 8].foldl Init.step Init.new
  base := 4096
  stop := 8192
  stop_le := by decide
  base_aligned := by decide
  stop_aligned := by decide

theorem page_read (a : ℕ) : page.init.read a = (decide (4096 ≤ a ∧ a < 4104) || !decide (4096 ≤ a ∧ a < 8192)) := by
  have hread := congrFun (Init.run_read [Init.Op.forget 4096 4096, Init.Op.set 4096 8]) a
  refine hread.trans ?_
  rw [List.foldl_cons, List.foldl_cons, List.foldl_nil, Init.written, Init.written, Bool.and_true]

theorem page_unwritten {addr size : ℕ} (ty : Option ℕ) (hsize : 4096 ≤ size) (haddr : 4096 ≤ addr)
    (hin : addr < 8184) : ¬ page.Holds addr size ty true := by
  intro h
  have hlast := (h 8191 (by omega) (by unfold clipped page; dsimp only; split <;> omega)).2 rfl
  rw [page_read] at hlast
  exact absurd hlast (by decide)

theorem checks_ask_iff_page : page.init.Reads (fun a => decide (4096 ≤ a ∧ a < 4104) || !decide (4096 ≤ a ∧ a < 8192)) ∧
    (page.allowed 4100 4 CHARACTER = true ↔ page.Holds 4100 4 (some CHARACTER) true) ∧
    (page.swept 4100 4 none true = true ↔ page.Holds 4100 4 none true) ∧
    page.stepped 4100 64 8 4 none true =
      ((page.places 4100 8).filter (· - 4100 + 4 ≤ 64)).filter (fun a => ¬ page.Holds a 4 none true) ∧
    page.Inside 4100 64 8 4 none true := by
  have h := (checks_ask_iff (fun _ _ => TypePlane.UNTYPED) 16 [] [Init.Op.forget 4096 4096, Init.Op.set 4096 8] page rfl
    rfl 4100 4 64 8 4 (by decide) (by decide) (by decide) CHARACTER none true).2
    ⟨Or.inl (by decide), Or.inl (by decide), fun hpast => absurd hpast.1 (by decide)⟩
  have hread : page.init.read = _ := Init.run_read [Init.Op.forget 4096 4096, Init.Op.set 4096 8]
  refine ⟨?_, h.2⟩
  rw [← funext page_read, hread]
  exact h.1

/-- The shortcut says yes to an access that runs over unwritten bytes, the walk goes on past a span that ends at the top
of the address space, and a column looks at the slot past the region. -/
theorem page_misasked :
    (page.allowed 4097 MAX CHARACTER = true ∧ ¬ page.Holds 4097 MAX (some CHARACTER) true) ∧
    page.stepped 4104 MAX 8 MAX none true ≠
      ((page.places 4104 8).filter (· - 4104 + MAX ≤ MAX)).filter (fun a => ¬ page.Holds a MAX none true) ∧
    ¬ page.Inside 4096 4096 8 0 none true := by
  refine ⟨⟨?_, page_unwritten _ (by decide) (by decide) (by decide)⟩, ?_, ?_⟩
  · have hwhole : page.init.whole 4097 = true := by
      rw [Init.whole_iff]
      intro a ha
      rw [page_read, Bool.or_eq_true]
      refine Or.inl (decide_eq_true ?_)
      unfold SPAN at ha
      omega
    unfold allowed plainWhole
    rw [hwhole]
    rfl
  · rw [ne_eq, stepped_eq_iff (by decide), not_or]
    refine ⟨by decide, fun hall => ?_⟩
    refine page_unwritten none (by decide) (by decide) (by decide) (hall 4112 ?_ (by decide))
    exact List.mem_filter.2 ⟨List.mem_map.2 ⟨1, List.mem_range.2 (by decide), rfl⟩, by decide⟩
  · rw [inside_iff (by decide) (by decide)]
    exact fun h => absurd (h ⟨rfl, by decide, by decide, ⟨512, rfl⟩, le_rfl⟩).2 (by decide)

end Region

end Rucc.SafeRt.PlaneChecks
