import Mathlib.Tactic

/-!
# The init plane

The plane of `init.rs`: a bit for every byte of the program, which is set while nothing has written the byte since it
became storage. Eight of them are a byte of shadow, and a fresh shadow says that everything counts as written.

What a long walk, a short one and the look at one byte of shadow answer is what the bits of the bytes they name say,
and every operation leaves the bits as a map of bytes would have them. A copy whose ranges overlap is one of them:
it goes backwards where the destination is above the source.
-/

namespace Rucc.SafeRt.InitPlane

/-- How many bytes of program one byte of shadow answers for. -/
def SPAN : ℕ := 8

/-- How many bytes of program one word of shadow answers for. -/
def RUN : ℕ := SPAN * 8

/-- The bit the byte at `addr` gets. -/
def bit (addr : ℕ) : BitVec 8 := 1#8 <<< (addr % SPAN)

/-- The first address past the run of eight holding `addr`. -/
def next (addr : ℕ) : ℕ := (addr / SPAN + 1) * SPAN

/-- The bits from `first` on and below `past`. -/
def between (first past : ℕ) : BitVec 8 :=
  let above := if past ≥ SPAN then 0#8 else 255#8 <<< past
  let below := 1#8 <<< first - 1#8
  ~~~(above ||| below)

/-- The bits of one shadow byte that `[at, stop)` covers, which is a run inside a single eight. -/
def mask (at_ stop : ℕ) : BitVec 8 := between (at_ % SPAN) (stop - at_ + at_ % SPAN)

theorem lt_next (addr : ℕ) : addr < next addr := by
  unfold next SPAN
  omega

theorem mod_lt (addr : ℕ) : addr % SPAN < 8 := Nat.mod_lt _ (by decide)

/-- The shadow the plane lives in. -/
structure Init where
  shadow : ℕ → BitVec 8

namespace Init

variable {x m : BitVec 8} {a at_ stop : ℕ}

/-- A fresh shadow. -/
def new : Init := ⟨fun _ => 0#8⟩

/-- The byte of shadow for an address. -/
def slot (p : Init) (addr : ℕ) : BitVec 8 := p.shadow (addr / SPAN)

/-- A byte of shadow written. -/
def setSlot (p : Init) (addr : ℕ) (bits : BitVec 8) : Init := ⟨Function.update p.shadow (addr / SPAN) bits⟩

/-- Whether the byte at `addr` counts as written. -/
def read (p : Init) (addr : ℕ) : Bool := p.slot addr &&& bit addr == 0#8

/-! ## What an access asks -/

/-- The shadow byte at a time walk, over `[at, stop)`. -/
def bytes (p : Init) (at_ stop : ℕ) : Bool :=
  if at_ < stop then
    if p.slot at_ &&& mask at_ (min (next at_) stop) ≠ 0#8 then false
    else p.bytes (min (next at_) stop) stop
  else true
termination_by stop - at_
decreasing_by
  have := lt_next at_
  omega

/-- Whether every byte of `[lo, lo + len)` has been written since it became storage. -/
def allows (p : Init) (lo len : ℕ) : Bool := p.bytes lo (lo + len)

/-- Whether every byte the shadow byte for `at` answers for has been written. -/
def whole (p : Init) (at_ : ℕ) : Bool := p.slot at_ == 0#8

/-- The bytes of shadow of a column, `left` of them from the one of access `k` on. -/
def columnFrom (p : Init) (stride slot k : ℕ) : ℕ → ℕ
  | 0 => k
  | left + 1 => if p.shadow slot ≠ 0#8 then k else p.columnFrom stride (slot + stride) (k + 1) left

/-- How many of `count` accesses, one every `step` bytes from `lo`, `whole` says yes to before the first it does
not. -/
def column (p : Init) (lo step count : ℕ) : ℕ := p.columnFrom (step / SPAN) (lo / SPAN) 0 count

/-- The word of shadow that is loaded for a run. -/
def word (p : Init) (at_ : ℕ) : ℕ :=
  ∑ k ∈ Finset.range 8, (p.shadow (at_ / SPAN + k)).toNat * 2^(8 * k)

/-- The words of shadow of `sweep`, from `at` on, and the walk over what is left. -/
def sweepFrom (p : Init) (at_ stop : ℕ) : Bool :=
  if stop - at_ ≥ RUN then
    if p.word at_ ≠ 0 then false else p.sweepFrom (at_ + RUN) stop
  else p.bytes at_ stop
termination_by stop - at_
decreasing_by
  simp only [RUN, SPAN] at *
  omega

/-- `allows` for a long range. -/
def sweep (p : Init) (lo len : ℕ) : Bool :=
  if lo % SPAN ≠ 0 then
    let head := min (next lo) (lo + len)
    if p.bytes lo head then p.sweepFrom head (lo + len) else false
  else p.sweepFrom lo (lo + len)

/-! ## What is written -/

/-- One answer over `[at, stop)`, which is inside a single eight, and is stored whole where it is all of it. -/
def fillEight (p : Init) (at_ stop : ℕ) (fresh : Bool) : Init :=
  if at_ % SPAN = 0 ∧ stop = next at_ then p.setSlot at_ (if fresh then 255#8 else 0#8)
  else p.setSlot at_ (if fresh then p.slot at_ ||| mask at_ stop else p.slot at_ &&& ~~~mask at_ stop)

/-- One answer over every byte from `at` on. -/
def fillFrom (p : Init) (at_ stop : ℕ) (fresh : Bool) : Init :=
  if at_ < stop then (p.fillEight at_ (min (next at_) stop) fresh).fillFrom (min (next at_) stop) stop fresh else p
termination_by stop - at_
decreasing_by
  have := lt_next at_
  omega

/-- One answer over every byte of a range. -/
def fill (p : Init) (lo len : ℕ) (fresh : Bool) : Init := p.fillFrom lo (lo + len) fresh

/-- `[lo, lo + len)` holds what a store wrote. -/
def set (p : Init) (lo len : ℕ) : Init := p.fill lo len false

/-- `[lo, lo + len)` is storage nothing has written yet. -/
def forget (p : Init) (lo len : ℕ) : Init := p.fill lo len true

/-- One answer over one byte. -/
def one (p : Init) (addr : ℕ) (fresh : Bool) : Init :=
  p.setSlot addr (if fresh then p.slot addr ||| bit addr else p.slot addr &&& ~~~bit addr)

/-- A copy carries the answer for the bytes it read to the bytes it wrote. -/
def copy (p : Init) (dst src len : ℕ) : Init :=
  let step := fun (p : Init) i => p.one (dst + i) (!p.read (src + i))
  -- backwards when the destination is above the source
  if dst > src then (List.range len).reverse.foldl step p else (List.range len).foldl step p

variable {p : Init}

/-! ## Bits -/

theorem getLsbD_between : ∀ first < 8, ∀ past < 9, ∀ i < 8,
    (between first past).getLsbD i = decide (first ≤ i ∧ i < past) := by decide

theorem bit_eq (a : ℕ) : bit a = between (a % SPAN) (a % SPAN + 1) := by
  have hall : ∀ k < 8, 1#8 <<< k = between k (k + 1) := by decide
  exact hall _ (mod_lt a)

/-- Two bytes of shadow have no bit in common where every bit of the one is clear in the other. -/
theorem and_eq_zero_iff : x &&& m = 0#8 ↔ ∀ i < 8, m.getLsbD i = true → x.getLsbD i = false := by
  constructor
  · intro h i _ hm
    have hbit : (x &&& m).getLsbD i = (0#8).getLsbD i := by rw [h]
    rwa [BitVec.getLsbD_and, hm, Bool.and_true, BitVec.getLsbD_zero] at hbit
  · intro h
    refine BitVec.eq_of_getLsbD_eq fun i hi => ?_
    rw [BitVec.getLsbD_and, BitVec.getLsbD_zero, Bool.and_eq_false_iff]
    cases hm : m.getLsbD i with
    | false => exact Or.inr rfl
    | true => exact Or.inl (h i hi hm)

/-- A byte of the program counts as written when its bit is clear. -/
theorem read_eq (a : ℕ) : p.read a = !(p.slot a).getLsbD (a % SPAN) := by
  have hlt := mod_lt a
  rw [read, Bool.eq_iff_iff, beq_iff_eq, and_eq_zero_iff, bit_eq, Bool.not_eq_true']
  constructor
  · intro h
    refine h _ hlt ?_
    rw [getLsbD_between _ hlt _ (by omega) _ hlt]
    exact decide_eq_true (by omega)
  · intro h i hi hbit
    rw [getLsbD_between _ hlt _ (by omega) _ hi, decide_eq_true_eq] at hbit
    obtain rfl : i = a % SPAN := by omega
    exact h

/-! ## Accesses -/

/-- The bits of a mask are those of the bytes it covers. -/
theorem getLsbD_mask {at_ stop a : ℕ} (hlt : at_ < stop) (hstop : stop ≤ next at_) (hsame : a / SPAN = at_ / SPAN) :
    (mask at_ stop).getLsbD (a % SPAN) = decide (at_ ≤ a ∧ a < stop) := by
  unfold mask
  rw [getLsbD_between _ (mod_lt at_) _ (by unfold next SPAN at *; omega) _ (mod_lt a), decide_eq_decide]
  unfold next SPAN at *
  omega

theorem slot_congr (hsame : a / SPAN = at_ / SPAN) : p.slot a = p.slot at_ := congrArg p.shadow hsame

theorem eight_eq (hle : at_ ≤ a) (hlt : a < next at_) : a / SPAN = at_ / SPAN := by
  unfold next SPAN at *
  omega

theorem and_mask_iff (hlt : at_ < stop) (hstop : stop ≤ next at_) :
    p.slot at_ &&& mask at_ stop = 0#8 ↔ ∀ a, at_ ≤ a → a < stop → p.read a = true := by
  rw [and_eq_zero_iff]
  constructor
  · intro h a hle hin
    have hsame := eight_eq hle (hin.trans_le hstop)
    rw [read_eq, slot_congr hsame, h _ (mod_lt a), Bool.not_false]
    rw [getLsbD_mask hlt hstop hsame]
    exact decide_eq_true ⟨hle, hin⟩
  · intro h i hi hmask
    have ha : (at_ / SPAN * SPAN + i) % SPAN = i ∧ (at_ / SPAN * SPAN + i) / SPAN = at_ / SPAN := by
      unfold SPAN
      omega
    have hbit := @getLsbD_mask at_ stop _ hlt hstop ha.2
    rw [ha.1, hmask] at hbit
    have hin := of_decide_eq_true hbit.symm
    have hread := h _ hin.1 hin.2
    rwa [read_eq, slot_congr ha.2, ha.1, Bool.not_eq_true'] at hread

/-- The walk says yes when every byte counts as written. -/
theorem bytes_iff (at_ stop : ℕ) : p.bytes at_ stop = true ↔ ∀ a, at_ ≤ a → a < stop → p.read a = true := by
  fun_induction bytes p at_ stop with
  | case1 at_ hlt hbits =>
    rw [ne_eq, and_mask_iff (lt_min (lt_next at_) hlt) (min_le_left _ _)] at hbits
    refine iff_of_false (by decide) fun h => hbits fun a hle hin => h a hle (hin.trans_le (min_le_right _ _))
  | case2 at_ hlt hbits ih =>
    rw [ne_eq, not_not, and_mask_iff (lt_min (lt_next at_) hlt) (min_le_left _ _)] at hbits
    have hbefore := lt_next at_
    rw [ih]
    refine ⟨fun h a hle hstop => ?_, fun h a hle hstop => h a (by omega) hstop⟩
    rcases lt_or_ge a (min (InitPlane.next at_) stop) with hin | hout
    · exact hbits a hle hin
    · exact h a hout hstop
  | case3 at_ hge => exact iff_of_true rfl fun a hle hstop => absurd (hle.trans_lt hstop) hge

theorem allows_iff (lo len : ℕ) :
    p.allows lo len = true ↔ ∀ a, lo ≤ a → a < lo + len → p.read a = true := bytes_iff lo (lo + len)

/-- A byte of shadow that is zero says that all of its eight bytes are written. -/
theorem whole_iff (at_ : ℕ) : p.whole at_ = true ↔ ∀ a, a / SPAN = at_ / SPAN → p.read a = true := by
  unfold whole
  rw [beq_iff_eq]
  constructor
  · intro h a hsame
    rw [read_eq, slot_congr hsame, h, BitVec.getLsbD_zero, Bool.not_false]
  · intro h
    refine BitVec.eq_of_getLsbD_eq fun i hi => ?_
    have ha : (at_ / SPAN * SPAN + i) % SPAN = i ∧ (at_ / SPAN * SPAN + i) / SPAN = at_ / SPAN := by
      unfold SPAN
      omega
    have hread := h _ ha.2
    rwa [read_eq, slot_congr ha.2, ha.1, Bool.not_eq_true', ← BitVec.getLsbD_zero] at hread

/-- A word of shadow is zero when all of its bytes are. -/
theorem word_eq_zero_iff (hat : at_ % SPAN = 0) :
    p.word at_ = 0 ↔ ∀ a, at_ ≤ a → a < at_ + RUN → p.read a = true := by
  unfold word
  rw [Finset.sum_eq_zero_iff]
  have hbyte (k : ℕ) : (p.shadow (at_ / SPAN + k)).toNat * 2^(8 * k) = 0 ↔ p.whole (at_ + SPAN * k) = true := by
    have hdiv : (at_ + SPAN * k) / SPAN = at_ / SPAN + k := Nat.add_mul_div_left _ _ (by decide)
    rw [Nat.mul_eq_zero, or_iff_left (Nat.two_pow_pos _).ne', whole, slot, hdiv, beq_iff_eq, BitVec.toNat_eq]
    rfl
  simp only [hbyte, Finset.mem_range, whole_iff]
  constructor
  · intro h a hle hlt
    refine h (a / SPAN - at_ / SPAN) (by unfold RUN SPAN at *; omega) a ?_
    unfold SPAN at *
    omega
  · intro h k hk a ha
    exact h a (by unfold SPAN at *; omega) (by unfold RUN SPAN at *; omega)

theorem sweepFrom_iff (at_ stop : ℕ) (hat : at_ % SPAN = 0 ∨ stop ≤ at_) :
    p.sweepFrom at_ stop = true ↔ ∀ a, at_ ≤ a → a < stop → p.read a = true := by
  fun_induction sweepFrom p at_ stop with
  | case1 at_ hrun hword =>
    have hmod : at_ % SPAN = 0 := hat.resolve_right (by unfold RUN SPAN at hrun; omega)
    rw [ne_eq, word_eq_zero_iff hmod] at hword
    exact iff_of_false (by decide) fun h => hword fun a hle hlt => h a hle (by omega)
  | case2 at_ hrun hword ih =>
    have hmod : at_ % SPAN = 0 := hat.resolve_right (by unfold RUN SPAN at hrun; omega)
    rw [ne_eq, not_not, word_eq_zero_iff hmod] at hword
    rw [ih (Or.inl (by unfold RUN SPAN at *; omega))]
    refine ⟨fun h a hle hstop => ?_, fun h a hle hstop => h a (by omega) hstop⟩
    rcases lt_or_ge a (at_ + RUN) with hin | hout
    · exact hword a hle hin
    · exact h a hout hstop
  | case3 at_ hrun => exact bytes_iff at_ stop

/-- A long range is answered as a short one. -/
theorem sweep_eq_allows (lo len : ℕ) : p.sweep lo len = p.allows lo len := by
  rw [Bool.eq_iff_iff, allows_iff]
  unfold sweep
  split
  · have hbefore := lt_next lo
    have haligned : min (InitPlane.next lo) (lo + len) % SPAN = 0 ∨ lo + len ≤ min (InitPlane.next lo) (lo + len) := by
      unfold InitPlane.next SPAN
      omega
    dsimp only
    split
    · rename_i hhead
      rw [bytes_iff] at hhead
      rw [sweepFrom_iff _ _ haligned]
      refine ⟨fun h a hle hstop => ?_, fun h a hle hstop => h a (by omega) hstop⟩
      rcases lt_or_ge a (min (InitPlane.next lo) (lo + len)) with hin | hout
      · exact hhead a hle hin
      · exact h a hout hstop
    · rename_i hhead
      rw [bytes_iff] at hhead
      exact iff_of_false (by decide) fun h => hhead fun a hle hin => h a hle (hin.trans_le (min_le_right _ _))
  · rename_i hat
    exact sweepFrom_iff _ _ (Or.inl (not_not.1 hat))

/-! ## What is written -/

theorem slot_setSlot {bits : BitVec 8} :
    (p.setSlot at_ bits).slot a = if a / SPAN = at_ / SPAN then bits else p.slot a := by
  unfold slot setSlot
  dsimp only
  rw [Function.update_apply]

/-- One byte of shadow written, where a set of the bytes it answers for gets one answer. -/
theorem read_setSlot {at_ a : ℕ} {bits : BitVec 8} {fresh : Bool} {named : ℕ → Prop} [DecidablePred named]
    (hin : ∀ a, named a → a / SPAN = at_ / SPAN)
    (hbits : ∀ a, a / SPAN = at_ / SPAN →
      bits.getLsbD (a % SPAN) = if named a then fresh else (p.slot at_).getLsbD (a % SPAN)) :
    (p.setSlot at_ bits).read a = if named a then !fresh else p.read a := by
  rw [read_eq, slot_setSlot]
  split
  · rename_i hsame
    rw [hbits a hsame, read_eq, slot_congr hsame]
    split
    · rfl
    · rfl
  · rename_i hother
    rw [if_neg fun hnamed => hother (hin a hnamed), read_eq]

/-- Where a mask has a bit it is set or cleared, and where it has none it stays. -/
theorem getLsbD_masked {fresh : Bool} {i : ℕ} (hi : i < 8) :
    (if fresh then x ||| m else x &&& ~~~m).getLsbD i = if m.getLsbD i = true then fresh else x.getLsbD i := by
  cases fresh with
  | true =>
    rw [if_pos rfl, BitVec.getLsbD_or]
    cases m.getLsbD i <;> simp
  | false =>
    rw [if_neg (by decide), BitVec.getLsbD_and, BitVec.getLsbD_not]
    cases m.getLsbD i <;> simp [hi]

theorem fillEight_read (hlt : at_ < stop) (hstop : stop ≤ InitPlane.next at_) (fresh : Bool) (a : ℕ) :
    (p.fillEight at_ stop fresh).read a = if at_ ≤ a ∧ a < stop then !fresh else p.read a := by
  have hin (a : ℕ) (ha : at_ ≤ a ∧ a < stop) : a / SPAN = at_ / SPAN := eight_eq ha.1 (ha.2.trans_le hstop)
  unfold fillEight
  split
  · rename_i hwhole
    refine read_setSlot hin fun a hsame => ?_
    have hnamed : at_ ≤ a ∧ a < stop := by
      unfold InitPlane.next SPAN at *
      omega
    have hbyte : ∀ i < 8, (255#8).getLsbD i = true := by decide
    rw [if_pos hnamed]
    cases fresh with
    | false => exact BitVec.getLsbD_zero
    | true => exact hbyte _ (mod_lt a)
  · refine read_setSlot hin fun a hsame => ?_
    rw [getLsbD_masked (mod_lt a), getLsbD_mask hlt hstop hsame]
    simp only [decide_eq_true_eq]

theorem fillFrom_read (at_ stop : ℕ) (fresh : Bool) (a : ℕ) :
    (p.fillFrom at_ stop fresh).read a = if at_ ≤ a ∧ a < stop then !fresh else p.read a := by
  fun_induction fillFrom p at_ stop fresh with
  | case1 p at_ hlt ih =>
    have hbefore := lt_next at_
    rw [ih, fillEight_read (lt_min hbefore hlt) (min_le_left _ _)]
    split_ifs <;> first | rfl | omega
  | case2 p at_ hge => exact (if_neg fun ha => hge (ha.1.trans_lt ha.2)).symm

/-- A fill gives every byte it names the answer, and no other byte another one. -/
theorem fill_read (lo len : ℕ) (fresh : Bool) (a : ℕ) :
    (p.fill lo len fresh).read a = if lo ≤ a ∧ a < lo + len then !fresh else p.read a := fillFrom_read _ _ _ _

theorem one_read (addr : ℕ) (fresh : Bool) (a : ℕ) :
    (p.one addr fresh).read a = if a = addr then !fresh else p.read a := by
  unfold one
  refine @read_setSlot p addr a _ fresh (fun a => a = addr) _ (fun a ha => ha ▸ rfl) fun a hsame => ?_
  have hlt := mod_lt addr
  rw [getLsbD_masked (mod_lt a), bit_eq, getLsbD_between _ hlt _ (by omega) _ (mod_lt a)]
  simp only [decide_eq_true_eq]
  refine if_congr ?_ rfl rfl
  unfold SPAN at *
  omega

/-- A byte of the destination has the answer that the byte it came from had before the copy, whether the two ranges
overlap or not. -/
theorem copy_read (dst src len a : ℕ) : (p.copy dst src len).read a =
    if dst ≤ a ∧ a < dst + len then p.read (src + (a - dst)) else p.read a := by
  unfold copy
  dsimp only
  split
  · rename_i habove
    -- what is still to be copied lies below what was written
    have hrun (k : ℕ) (p : Init) : ((List.range k).reverse.foldl
        (fun (p : Init) i => p.one (dst + i) (!p.read (src + i))) p).read a =
          if dst ≤ a ∧ a < dst + k then p.read (src + (a - dst)) else p.read a := by
      induction k generalizing p with
      | zero => exact (if_neg (by omega)).symm
      | succ k ih =>
        rw [List.range_succ, List.reverse_append, List.reverse_singleton, List.singleton_append, List.foldl_cons, ih,
          one_read, one_read, Bool.not_not]
        split_ifs <;> first | rfl | omega | (congr 1; omega)
    exact hrun len p
  · rename_i hbelow
    -- what is still to be copied lies above what was written
    have hrun (k : ℕ) : ∀ a, ((List.range k).foldl
        (fun (p : Init) i => p.one (dst + i) (!p.read (src + i))) p).read a =
          if dst ≤ a ∧ a < dst + k then p.read (src + (a - dst)) else p.read a := by
      induction k with
      | zero => exact fun a => (if_neg (by omega)).symm
      | succ k ih =>
        intro a
        rw [List.range_succ, List.foldl_append, List.foldl_cons, List.foldl_nil, one_read, Bool.not_not, ih a,
          ih (src + k)]
        split_ifs <;> first | rfl | omega | (congr 1; omega)
    exact hrun len a

/-! ## Runs -/

/-- What is done to the plane. -/
inductive Op
  | set (lo len : ℕ)
  | forget (lo len : ℕ)
  | copy (dst src len : ℕ)

/-- An operation on the plane. -/
def step (p : Init) : Op → Init
  | .set lo len => p.set lo len
  | .forget lo len => p.forget lo len
  | .copy dst src len => p.copy dst src len

/-- The same operation on a map of the bytes that were written. -/
def written (bytes : ℕ → Bool) : Op → ℕ → Bool
  | .set lo len, a => decide (lo ≤ a ∧ a < lo + len) || bytes a
  | .forget lo len, a => !decide (lo ≤ a ∧ a < lo + len) && bytes a
  | .copy dst src len, a => if dst ≤ a ∧ a < dst + len then bytes (src + (a - dst)) else bytes a

theorem step_read (op : Op) (a : ℕ) : (p.step op).read a = written p.read op a := by
  cases op with
  | set lo len =>
    refine (fill_read lo len false a).trans ?_
    unfold written
    split <;> simp [*]
  | forget lo len =>
    refine (fill_read lo len true a).trans ?_
    unfold written
    split <;> simp [*]
  | copy dst src len => exact copy_read dst src len a

/-- After any operations on a fresh shadow every byte counts as what a map of bytes says of it. -/
theorem run_read (ops : List Op) : (ops.foldl step new).read = ops.foldl written fun _ => true := by
  induction ops using List.reverseRecOn with
  | nil => exact funext fun a => by rw [List.foldl_nil, read_eq]; exact congrArg not BitVec.getLsbD_zero
  | append_singleton ops op ih =>
    rw [List.foldl_append, List.foldl_append, List.foldl_cons, List.foldl_nil, List.foldl_cons, List.foldl_nil, ← ih]
    exact funext (step_read op)

/-! ## Columns -/

/-- The accesses of a column before the first that is not answered are answered yes. -/
theorem columnFrom_spec (stride slot k left : ℕ) : k ≤ p.columnFrom stride slot k left ∧
    p.columnFrom stride slot k left ≤ k + left ∧
      ∀ j, k + j < p.columnFrom stride slot k left → p.shadow (slot + j * stride) = 0#8 := by
  induction left generalizing slot k with
  | zero => exact ⟨le_rfl, le_rfl, fun j hj => absurd hj (by rw [columnFrom]; omega)⟩
  | succ left ih =>
    rw [columnFrom]
    split
    · exact ⟨le_rfl, by omega, fun j hj => by omega⟩
    · rename_i hzero
      obtain ⟨hle, hge, hall⟩ := ih (slot + stride) (k + 1)
      refine ⟨by omega, by omega, fun j hj => ?_⟩
      cases j with
      | zero =>
        rw [Nat.zero_mul, Nat.add_zero]
        exact not_not.1 hzero
      | succ j =>
        have hnext := hall j (by omega)
        rwa [show slot + stride + j * stride = slot + (j + 1) * stride by ring] at hnext

theorem le_columnFrom_iff (stride slot k left n : ℕ) (hn : n ≤ left) :
    k + n ≤ p.columnFrom stride slot k left ↔ ∀ j < n, p.shadow (slot + j * stride) = 0#8 := by
  induction left generalizing slot k n with
  | zero =>
    obtain rfl := Nat.le_zero.1 hn
    exact iff_of_true le_rfl fun j hj => absurd hj (Nat.not_lt_zero _)
  | succ left ih =>
    cases n with
    | zero => exact iff_of_true (columnFrom_spec stride slot k (left + 1)).1 fun j hj => absurd hj (Nat.not_lt_zero _)
    | succ n =>
      have hnext (j : ℕ) : slot + stride + j * stride = slot + (j + 1) * stride := by ring
      rw [columnFrom]
      split
      · rename_i hbits
        refine iff_of_false (by omega) fun hall => hbits ?_
        have hfirst := hall 0 (Nat.succ_pos _)
        rwa [Nat.zero_mul, Nat.add_zero] at hfirst
      · rename_i hzero
        rw [show k + (n + 1) = k + 1 + n by omega, ih _ _ _ (by omega), Nat.forall_lt_succ_left', Nat.zero_mul,
          Nat.add_zero]
        simp only [hnext]
        exact (and_iff_right (not_not.1 hzero)).symm

/-- A column is as long as its accesses are answered yes. -/
theorem le_column_iff {lo step n : ℕ} (hstep : step % SPAN = 0) (count : ℕ) (hn : n ≤ count) :
    n ≤ p.column lo step count ↔ ∀ k < n, p.whole (lo + k * step) = true := by
  have hslot (k : ℕ) : p.slot (lo + k * step) = p.shadow (lo / SPAN + k * (step / SPAN)) := by
    obtain ⟨stride, rfl⟩ := Nat.dvd_of_mod_eq_zero hstep
    rw [slot, Nat.mul_div_cancel_left _ (by decide : 0 < SPAN), Nat.mul_left_comm,
      Nat.add_mul_div_left _ _ (by decide : 0 < SPAN)]
  have hcolumn := @le_columnFrom_iff p (step / SPAN) (lo / SPAN) 0 count n hn
  rw [Nat.zero_add] at hcolumn
  rw [column, hcolumn]
  simp only [whole, hslot, beq_iff_eq]

/-- A plane answers as a map of the bytes that were written. -/
structure Reads (p : Init) (bytes : ℕ → Bool) : Prop where
  read : p.read = bytes
  allows : ∀ lo len, p.allows lo len = true ↔ ∀ a, lo ≤ a → a < lo + len → bytes a = true
  sweep : ∀ lo len, p.sweep lo len = true ↔ ∀ a, lo ≤ a → a < lo + len → bytes a = true
  whole : ∀ at_, p.whole at_ = true ↔ ∀ a, a / SPAN = at_ / SPAN → bytes a = true
  column : ∀ lo step count, step % SPAN = 0 → p.column lo step count ≤ count ∧ ∀ n ≤ count,
    (n ≤ p.column lo step count ↔ ∀ k < n, ∀ a, a / SPAN = (lo + k * step) / SPAN → bytes a = true)

theorem run_reads (ops : List Op) : (ops.foldl step new).Reads (ops.foldl written fun _ => true) := by
  rw [← run_read]
  generalize ops.foldl step new = p
  refine ⟨rfl, allows_iff, fun lo len => by rw [sweep_eq_allows, allows_iff], whole_iff, fun lo step count hstep => ?_⟩
  have hlen := (@columnFrom_spec p (step / SPAN) (lo / SPAN) 0 count).2.1
  rw [Nat.zero_add] at hlen
  refine ⟨hlen, fun n hn => (le_column_iff hstep count hn).trans ?_⟩
  simp only [whole_iff]

end Init

end Rucc.SafeRt.InitPlane
