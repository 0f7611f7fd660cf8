import Rucc.SafeRt.Heap

/-!
# The size classes

A class size is a number of granules that is at most four, or one of the four multiples of a power of two
between four and seven times it. `rounded` is the rounding of `sized` in exact arithmetic: it is idempotent
(`rounded_rounded`), never rounds down (`le_rounded`), and the list a class belongs to tells it from every
other one (`index_injOn`).
-/

namespace Rucc.SafeRt

open Checked

variable {a b j q k n size : ℕ}

theorem le_divCeil_mul (hb : 0 < b) : a ≤ divCeil a b * b := by
  have hdiv := Nat.div_add_mod (a + b - 1) b
  have hmod := Nat.mod_lt (a + b - 1) hb
  unfold divCeil
  rw [mul_comm]
  omega

theorem divCeil_mul_lt (hb : 0 < b) : divCeil a b * b < a + b := by
  have hdiv := Nat.div_add_mod (a + b - 1) b
  unfold divCeil
  rw [mul_comm]
  omega

theorem divCeil_mul_self (hb : 0 < b) : divCeil (a * b) b = a := by
  unfold divCeil
  have hsum : a * b + b - 1 = b * a + (b - 1) := by
    rw [mul_comm a b]
    omega
  rw [hsum, Nat.mul_add_div hb, Nat.div_eq_of_lt (by omega), add_zero]

/-! ## The rounding in exact arithmetic -/

/-- A class count of granules for `count` of them. -/
def rounded (count : ℕ) : ℕ :=
  if count ≤ STEPS then count
  else divCeil count (2^(magnitude count - 2)) * 2^(magnitude count - 2)

/-- The granules that hold `n` bytes, of which there is at least one. -/
def granules (n : ℕ) : ℕ := if n = 0 then 1 else divCeil n GRANULE

/-- The class size for `n` bytes. -/
def roundUp (n : ℕ) : ℕ := rounded (granules n) * GRANULE

/-- A count above four lies between four and eight times a power of two, which its magnitude names. -/
theorem magnitude_spec {count : ℕ} (h : STEPS < count) :
    ∃ j, magnitude count = j + 2 ∧ 4 * 2^j ≤ count ∧ count < 8 * 2^j := by
  have hne : count ≠ 0 := by omega
  have hlow : 2^magnitude count ≤ count := Nat.log2_self_le hne
  have hhigh : count < 2^(magnitude count + 1) := Nat.lt_log2_self
  have htwo : 2 ≤ magnitude count := by
    by_contra hlt
    have hpow : 2^(magnitude count + 1) ≤ 2^2 := Nat.pow_le_pow_right (by norm_num) (by omega)
    unfold STEPS at h
    omega
  obtain ⟨j, hj⟩ : ∃ j, magnitude count = j + 2 := ⟨magnitude count - 2, by omega⟩
  rw [hj] at hlow hhigh
  have hfour : 2^(j + 2) = 4 * 2^j := by ring
  have height : 2^(j + 2 + 1) = 8 * 2^j := by ring
  exact ⟨j, hj, by omega, by omega⟩

/-- The magnitude of a count between four and eight times a power of two. -/
theorem magnitude_eq {count : ℕ} (hlow : 4 * 2^j ≤ count) (hhigh : count < 8 * 2^j) : magnitude count = j + 2 := by
  have hpos : 0 < 2^j := Nat.two_pow_pos j
  have hfour : 2^(j + 2) = 4 * 2^j := by ring
  have height : 2^(j + 2 + 1) = 8 * 2^j := by ring
  exact (Nat.log2_eq_iff (by omega)).2 ⟨by omega, by omega⟩

theorem le_rounded (count : ℕ) : count ≤ rounded count := by
  unfold rounded
  split_ifs with h
  · exact le_rfl
  · exact le_divCeil_mul (Nat.two_pow_pos _)

/-- What a count above four is rounded to. -/
theorem rounded_spec {count : ℕ} (h : STEPS < count) :
    ∃ j q, 4 ≤ q ∧ q ≤ 8 ∧ rounded count = q * 2^j ∧ 4 * 2^j ≤ count ∧ count < 8 * 2^j := by
  obtain ⟨j, hj, hlow, hhigh⟩ := magnitude_spec h
  have hpos : 0 < 2^j := Nat.two_pow_pos j
  have hup : count ≤ divCeil count (2^j) * 2^j := le_divCeil_mul hpos
  have hdown : divCeil count (2^j) * 2^j < count + 2^j := divCeil_mul_lt hpos
  refine ⟨j, divCeil count (2^j), ?_, ?_, ?_, hlow, hhigh⟩
  · exact Nat.le_of_mul_le_mul_right (hlow.trans hup) hpos
  · have hlt : divCeil count (2^j) * 2^j < 9 * 2^j := by omega
    exact Nat.le_of_lt_succ (Nat.lt_of_mul_lt_mul_right hlt)
  · unfold rounded
    rw [if_neg (by omega), hj, Nat.add_sub_cancel]

/-- A multiple between four and seven of a power of two is a class count. -/
theorem rounded_of_multiple (hlow : 4 ≤ q) (hhigh : q < 8) : rounded (q * 2^j) = q * 2^j := by
  have hmagnitude : magnitude (q * 2^j) = j + 2 :=
    magnitude_eq (Nat.mul_le_mul_right _ hlow) (Nat.mul_lt_mul_of_pos_right hhigh (Nat.two_pow_pos j))
  unfold rounded
  rw [hmagnitude, Nat.add_sub_cancel, divCeil_mul_self (Nat.two_pow_pos j)]
  exact ite_self _

/-- A class count above three is a multiple between four and seven of a power of two. -/
theorem multiple_of_class {count : ℕ} (h : rounded count = count) (hlow : 4 ≤ count) :
    ∃ j q, 4 ≤ q ∧ q < 8 ∧ count = q * 2^j := by
  rcases Nat.eq_or_lt_of_le hlow with heq | hlt
  · exact ⟨0, 4, le_rfl, by norm_num, by omega⟩
  obtain ⟨j, q, hq, -, heq, -, hhigh⟩ := rounded_spec hlt
  rw [h] at heq
  rw [heq] at hhigh
  exact ⟨j, q, hq, Nat.lt_of_mul_lt_mul_right hhigh, heq⟩

/-- Rounding a class count changes nothing. -/
theorem rounded_rounded (count : ℕ) : rounded (rounded count) = rounded count := by
  by_cases h : count ≤ STEPS
  · have hself : rounded count = count := if_pos h
    rw [hself, hself]
  · obtain ⟨j, q, hlow, hhigh, heq, -, -⟩ := rounded_spec (Nat.lt_of_not_le h)
    rw [heq]
    rcases Nat.eq_or_lt_of_le hhigh with rfl | hlt
    · -- eight times a power of two is four times the next one
      have hnext : 8 * 2^j = 4 * 2^(j + 1) := by ring
      rw [hnext]
      exact rounded_of_multiple le_rfl (by norm_num)
    · exact rounded_of_multiple hlow hlt

/-- Rounding a count up to seven eighths of a power of two stays below it. -/
theorem rounded_lt_iff {count : ℕ} : rounded count < 2^60 ↔ count ≤ 7 * 2^57 := by
  constructor
  · intro hlt
    by_contra hcon
    have hcount : count < 2^60 := (le_rounded count).trans_lt hlt
    have hmagnitude : magnitude count = 57 + 2 := magnitude_eq (by omega) (by omega)
    have hup := le_divCeil_mul (a := count) (b := 2^57) (by norm_num)
    unfold rounded at hlt
    unfold STEPS at hlt
    rw [if_neg (by omega), hmagnitude, Nat.add_sub_cancel] at hlt
    omega
  · intro hle
    by_cases h : count ≤ STEPS
    · unfold rounded
      rw [if_pos h]
      omega
    obtain ⟨j, q, -, hq, heq, hlow, hhigh⟩ := rounded_spec (Nat.lt_of_not_le h)
    rw [heq]
    rcases Nat.lt_or_ge j 57 with hj | hj
    · have hpow : 2^j ≤ 2^56 := Nat.pow_le_pow_right (by norm_num) (by omega)
      calc q * 2^j ≤ 8 * 2^56 := Nat.mul_le_mul hq hpow
        _ < 2^60 := by norm_num
    · have hj57 : j = 57 := by
        by_contra hne
        have hpow : 2^58 ≤ 2^j := Nat.pow_le_pow_right (by norm_num) (by omega)
        omega
      subst hj57
      have hup : rounded count < count + 2^57 := by
        have hmagnitude : magnitude count = 57 + 2 := magnitude_eq hlow hhigh
        unfold rounded
        rw [if_neg h, hmagnitude, Nat.add_sub_cancel]
        exact divCeil_mul_lt (by norm_num)
      omega

/-- Counts of at most a quarter of the address space stay there. -/
theorem rounded_le {count : ℕ} (h : count ≤ 2^58) : rounded count ≤ 2^58 := by
  by_cases hsmall : count ≤ STEPS
  · have hself : rounded count = count := if_pos hsmall
    omega
  obtain ⟨j, q, -, hq, heq, hlow, hhigh⟩ := rounded_spec (Nat.lt_of_not_le hsmall)
  rcases Nat.lt_or_ge j 56 with hj | hj
  · have hpow : 2^j ≤ 2^55 := Nat.pow_le_pow_right (by norm_num) (by omega)
    rw [heq]
    calc q * 2^j ≤ 8 * 2^55 := Nat.mul_le_mul hq hpow
      _ = 2^58 := by norm_num
  · -- the count is the power of two itself
    have hpow : 2^56 ≤ 2^j := Nat.pow_le_pow_right (by norm_num) hj
    have hcount : count = 4 * 2^56 := by omega
    have hself : rounded (4 * 2^56) = 4 * 2^56 := rounded_of_multiple le_rfl (by norm_num)
    rw [hcount, hself]
    norm_num

theorem granules_pos (n : ℕ) : 0 < granules n := by
  unfold granules divCeil GRANULE
  split_ifs <;> omega

theorem le_granules (n : ℕ) : n ≤ granules n * GRANULE := by
  unfold granules divCeil GRANULE
  split_ifs <;> omega

theorem granules_mul (hk : 0 < k) : granules (k * GRANULE) = k := by
  unfold granules
  rw [if_neg (by unfold GRANULE; omega), divCeil_mul_self (by norm_num [GRANULE])]

theorem le_roundUp (n : ℕ) : n ≤ roundUp n :=
  (le_granules n).trans (Nat.mul_le_mul_right _ (le_rounded _))

theorem roundUp_pos (n : ℕ) : GRANULE ≤ roundUp n := by
  have hpos : 0 < rounded (granules n) := (granules_pos n).trans_le (le_rounded _)
  exact Nat.le_mul_of_pos_left _ hpos

/-- Rounding a class size changes nothing, which the free path depends on. -/
theorem roundUp_roundUp (n : ℕ) : roundUp (roundUp n) = roundUp n := by
  have hpos : 0 < rounded (granules n) := (granules_pos n).trans_le (le_rounded _)
  unfold roundUp
  rw [granules_mul hpos, rounded_rounded]

theorem roundUp_lt_iff : roundUp n < 2^64 ↔ n ≤ 7 * 2^61 := by
  have hcount : roundUp n < 2^64 ↔ rounded (granules n) < 2^60 := by
    unfold roundUp GRANULE
    omega
  rw [hcount, rounded_lt_iff]
  unfold granules divCeil GRANULE
  split_ifs <;> omega

/-- `sized` is the exact rounding, and overflows when that does not fit. -/
theorem sized_eq (n : ℕ) : sized n = checkedWord (roundUp n) := by
  have hpos : 0 < GRANULE := by norm_num [GRANULE]
  have hmono : granules n * GRANULE ≤ roundUp n := Nat.mul_le_mul_right _ (le_rounded _)
  have hwant : (if n = 0 then some GRANULE else payload n) = checkedWord (granules n * GRANULE) := by
    unfold granules payload
    split_ifs <;> rfl
  unfold sized
  rw [hwant]
  by_cases hfit : granules n * GRANULE < 2^64
  · rw [checkedWord_of_lt hfit]
    simp only [Option.bind_eq_bind, Option.bind_some, Nat.mul_div_cancel _ hpos]
    by_cases hsmall : granules n ≤ STEPS
    · have hround : roundUp n = granules n * GRANULE := by
        unfold roundUp rounded
        rw [if_pos hsmall]
      rw [if_pos hsmall, hround, checkedWord_of_lt hfit]
    · have hround : roundUp n = divCeil (granules n) (2^(magnitude (granules n) - 2))
          * 2^(magnitude (granules n) - 2) * GRANULE := by
        unfold roundUp rounded
        rw [if_neg hsmall]
      rw [if_neg hsmall, hround]
      generalize divCeil (granules n) (2^(magnitude (granules n) - 2)) * 2^(magnitude (granules n) - 2) = r
      by_cases hr : r < 2^64
      · rw [checkedWord_of_lt hr, Option.bind_some]
      · have hbig : 2^64 ≤ r * GRANULE := by
          unfold GRANULE
          omega
        rw [checkedWord_eq_none.2 (by omega), checkedWord_eq_none.2 hbig, Option.bind_none]
  · rw [checkedWord_eq_none.2 (by omega), checkedWord_eq_none.2 (by omega)]
    rfl

/-! ## Class sizes -/

/-- A size that a payload can have. -/
def ClassSize (size : ℕ) : Prop := sized size = some size

instance (size : ℕ) : Decidable (ClassSize size) := inferInstanceAs (Decidable (_ = _))

theorem classSize_iff : ClassSize size ↔ size < 2^64 ∧ roundUp size = size := by
  unfold ClassSize
  rw [sized_eq, checkedWord_eq_some]
  constructor
  · rintro ⟨hlt, heq⟩
    exact ⟨by omega, heq⟩
  · rintro ⟨hlt, heq⟩
    exact ⟨by omega, heq⟩

/-- What `sized` answers is a class size. -/
theorem classSize_of_sized (h : sized n = some size) : ClassSize size := by
  rw [sized_eq, checkedWord_eq_some] at h
  obtain ⟨hlt, rfl⟩ := h
  exact classSize_iff.2 ⟨hlt, roundUp_roundUp n⟩

namespace ClassSize

variable {size size' : ℕ}

theorem lt (h : ClassSize size) : size < 2^64 := (classSize_iff.1 h).1

/-- A class size is a class count of granules. -/
theorem count (h : ClassSize size) : ∃ k, size = k * GRANULE ∧ 0 < k ∧ rounded k = k := by
  have heq := (classSize_iff.1 h).2
  refine ⟨rounded (granules size), heq.symm, ?_, rounded_rounded _⟩
  exact (granules_pos size).trans_le (le_rounded _)

theorem granule_le (h : ClassSize size) : 16 ≤ size := by
  have hle := roundUp_pos size
  rw [(classSize_iff.1 h).2] at hle
  exact hle

theorem mod_eq_zero (h : ClassSize size) : size % 16 = 0 := by
  obtain ⟨k, rfl, -, -⟩ := h.count
  exact Nat.mul_mod_left k 16

/-- The payload of a class size is the class size. -/
theorem payload_eq (h : ClassSize size) : payload size = some size := by
  obtain ⟨k, hk, -, -⟩ := h.count
  have hlt := h.lt
  unfold payload
  rw [hk, divCeil_mul_self (by norm_num [GRANULE]), ← hk, checkedWord_of_lt hlt]

/-- The aux of a class size is twice as long. -/
theorem aux_eq (h : ClassSize size) : aux size = checkedWord (2 * size) := by
  have hmod := h.mod_eq_zero
  unfold aux
  rw [h.payload_eq]
  simp only [Option.bind_eq_bind, Option.bind_some]
  congr 1
  unfold divCeil WORD AUX_PER_WORD
  omega

theorem block_eq (h : ClassSize size) : block size = checkedWord (32 + 3 * size) := by
  have hlt := h.lt
  unfold block
  rw [h.aux_eq, h.payload_eq]
  unfold checkedWord HEADER
  simp only [Option.bind_eq_bind]
  split_ifs <;> grind

theorem payloadOf_eq (h : ClassSize size) (b : ℕ) : payloadOf b size = checkedWord (b + 2 * size + 32) := by
  unfold payloadOf
  rw [h.aux_eq]
  unfold checkedWord HEADER
  simp only [Option.bind_eq_bind]
  split_ifs <;> grind

/-- The block of a class size, for a payload that is an address. -/
theorem blockOf_eq (h : ClassSize size) {p : ℕ} (hp : p < 2^64) :
    blockOf p size = checkedSub p (32 + 2 * size) := by
  unfold blockOf
  rw [h.aux_eq]
  unfold checkedWord checkedSub HEADER
  simp only [Option.bind_eq_bind]
  split_ifs <;> grind

end ClassSize

/-! ## The list of a class -/

/-- The list that a class count belongs to. -/
def index (k : ℕ) : ℕ :=
  if k ≤ STEPS then k - 1
  else STEPS - 1 + (magnitude k - 2) * STEPS + (k - 2^magnitude k) / 2^(magnitude k - 2)

theorem index_of_multiple (hlow : 4 ≤ q) (hhigh : q < 8) : index (q * 2^j) = 4 * j + q - 1 := by
  have hpos : 0 < 2^j := Nat.two_pow_pos j
  have hmagnitude : magnitude (q * 2^j) = j + 2 :=
    magnitude_eq (Nat.mul_le_mul_right _ hlow) (Nat.mul_lt_mul_of_pos_right hhigh hpos)
  unfold index STEPS
  split_ifs with hsmall
  · -- only four granules are a multiple and small
    have hj : j = 0 := by
      by_contra hne
      have htwo : 2 ≤ 2^j := Nat.le_self_pow hne 2
      have hmul : 4 * 2 ≤ q * 2^j := Nat.mul_le_mul hlow htwo
      omega
    subst hj
    omega
  · rw [hmagnitude, Nat.add_sub_cancel]
    have hfour : 2^(j + 2) = 4 * 2^j := by ring
    have hwithin : q * 2^j - 2^(j + 2) = (q - 4) * 2^j := by rw [hfour, Nat.sub_mul]
    rw [hwithin, Nat.mul_div_cancel _ hpos]
    omega

/-- Two class counts on one list are the same. -/
theorem index_injOn {k' : ℕ} (hk : rounded k = k) (hk' : rounded k' = k') (hpos : 0 < k) (hpos' : 0 < k')
    (h : index k = index k') : k = k' := by
  have hsmall : ∀ i, i < 4 → index i = i - 1 := fun i hi => if_pos (by unfold STEPS; omega)
  by_cases h4 : k < 4
  · by_cases h4' : k' < 4
    · rw [hsmall k h4, hsmall k' h4'] at h
      omega
    · obtain ⟨j, q, hq, hq8, rfl⟩ := multiple_of_class hk' (by omega)
      rw [hsmall k h4, index_of_multiple hq hq8] at h
      omega
  · obtain ⟨j, q, hq, hq8, rfl⟩ := multiple_of_class hk (by omega)
    by_cases h4' : k' < 4
    · rw [hsmall k' h4', index_of_multiple hq hq8] at h
      omega
    · obtain ⟨j', q', hq', hq8', rfl⟩ := multiple_of_class hk' (by omega)
      rw [index_of_multiple hq hq8, index_of_multiple hq' hq8'] at h
      obtain ⟨rfl, rfl⟩ : j = j' ∧ q = q' := ⟨by omega, by omega⟩
      rfl

/-- The list of a class size. -/
theorem ClassSize.classOf_eq (h : ClassSize size) : classOf size = some (some (index (size / GRANULE))) := by
  have hle := h.granule_le
  have hsized : sized size = some size := h
  unfold classOf index
  rw [hsized]
  simp only [Option.bind_eq_bind, Option.bind_some, ne_eq, not_true_eq_false, if_false]
  rw [if_neg (by unfold GRANULE; omega)]
  split_ifs <;> rfl

/-- A list holds the blocks of one size only. -/
theorem ClassSize.eq_of_classOf {size' : ℕ} (h : ClassSize size) (h' : ClassSize size')
    (hclass : classOf size = classOf size') : size = size' := by
  rw [h.classOf_eq, h'.classOf_eq] at hclass
  obtain ⟨k, rfl, hpos, hk⟩ := h.count
  obtain ⟨k', rfl, hpos', hk'⟩ := h'.count
  have hgranule : 0 < GRANULE := by norm_num [GRANULE]
  simp only [Option.some.injEq, Nat.mul_div_cancel _ hgranule] at hclass
  rw [index_injOn hk hk' hpos hpos' hclass]

/-- Every class has a list. -/
theorem ClassSize.index_lt (h : ClassSize size) : index (size / GRANULE) < CLASSES := by
  obtain ⟨k, rfl, hpos, hk⟩ := h.count
  have hlt := h.lt
  have hgranule : 0 < GRANULE := by norm_num [GRANULE]
  rw [Nat.mul_div_cancel _ hgranule]
  unfold CLASSES STEPS
  by_cases h4 : k < 4
  · have hsmall : index k = k - 1 := if_pos (by unfold STEPS; omega)
    omega
  · obtain ⟨j, q, hq, hq8, rfl⟩ := multiple_of_class hk (by omega)
    rw [index_of_multiple hq hq8]
    have hj : j < 58 := by
      by_contra hge
      have hpow : 2^58 ≤ 2^j := Nat.pow_le_pow_right (by norm_num) (by omega)
      have hmul : 4 * 2^58 ≤ q * 2^j := Nat.mul_le_mul hq hpow
      unfold GRANULE at hlt
      omega
    omega

end Rucc.SafeRt
