import Mathlib.Data.List.Basic
import Mathlib.Data.List.Count
import Mathlib.Tactic

/-!
# Canonical prefix codes

A code given by the length of each symbol's codeword alone: the codewords of one length are
consecutive numbers in the order of their symbols, and those of a length begin where the shorter
ones leave off. A symbol of length zero has no codeword.
-/

namespace Rucc.Canonical

variable (lengths : List ℕ)

variable {l s m longest : ℕ}

/-- The length of a symbol's codeword. -/
def length (s : ℕ) : ℕ := lengths.getD s 0

/-- How many codewords there are of a length. -/
def used (l : ℕ) : ℕ := if l = 0 then 0 else lengths.count l

/-- The first codeword of a length, as a number. -/
def first : ℕ → ℕ
  | 0 => 0
  | l + 1 => 2 * (first l + used lengths l)

/-- How many codewords there are of lengths below one. -/
def before : ℕ → ℕ
  | 0 => 0
  | l + 1 => before l + used lengths l

/-- How many smaller symbols have codewords of the same length. -/
def rank (s : ℕ) : ℕ := (lengths.take s).count (length lengths s)

/-- The codeword of a symbol, as a number of that many bits. -/
def code (s : ℕ) : ℕ := first lengths (length lengths s) + rank lengths s

/-- The codewords up to a length are numbers of as many bits as they are long. -/
def Fits (longest : ℕ) : Prop := ∀ l ≤ longest, first lengths l + used lengths l ≤ 2^l

variable {lengths}

theorem used_of_pos (h : l ≠ 0) : used lengths l = lengths.count l := if_neg h

theorem lt_of_length_ne_zero (h : length lengths s ≠ 0) : s < lengths.length := by
  by_contra hge
  apply h
  unfold length
  rw [List.getD_eq_getElem?_getD, List.getElem?_eq_none (by omega)]
  rfl

/-- The symbols up to one hold it and the smaller ones of its length. -/
theorem take_succ (h : s < lengths.length) : lengths.take (s + 1) = lengths.take s ++ [length lengths s] := by
  unfold length
  rw [List.getD_eq_getElem?_getD, List.getElem?_eq_getElem h, Option.getD_some,
    List.take_append_getElem]

theorem rank_lt (h : length lengths s ≠ 0) : rank lengths s < used lengths (length lengths s) := by
  have hs := lt_of_length_ne_zero h
  rw [used_of_pos h]
  have hcount : (lengths.take (s + 1)).count (length lengths s) = rank lengths s + 1 := by
    rw [take_succ hs, List.count_append]
    simp [rank]
  have hle := (List.take_sublist (s + 1) lengths).count_le (length lengths s)
  omega

theorem countP_le (l : ℕ) : lengths.countP (fun n => decide (l ≤ n)) =
    lengths.count l + lengths.countP (fun n => decide (l + 1 ≤ n)) := by
  induction lengths with
  | nil => rfl
  | cons n lengths ih =>
    rw [List.countP_cons, List.countP_cons, List.count_cons, ih]
    rcases lt_trichotomy l n with hlt | rfl | hgt
    · simp [hlt, hlt.le, hlt.ne']
      omega
    · simp
      omega
    · simp [show ¬ l ≤ n by omega, show ¬ l < n by omega, hgt.ne]

/-- There are no more codewords than symbols. -/
theorem before_le (l : ℕ) : before lengths l ≤ lengths.length := by
  have h : before lengths l + lengths.countP (fun n => decide (l ≤ n)) ≤ lengths.length := by
    induction l with
    | zero =>
      rw [before, zero_add]
      exact List.countP_le_length
    | succ l ih =>
      have hused : used lengths l ≤ lengths.count l := by
        unfold used
        split_ifs
        · exact Nat.zero_le _
        · exact le_rfl
      rw [countP_le] at ih
      rw [before]
      omega
  omega

theorem before_mono (h : l ≤ m) : before lengths l ≤ before lengths m := by
  induction m, h using Nat.le_induction with
  | base => exact le_rfl
  | succ m _ ih => exact ih.trans (Nat.le_add_right _ _)

/-- The codewords of a length are past every shorter one with any bits after it. -/
theorem shifted_le_first {l m : ℕ} (h : l < m) :
    (first lengths l + used lengths l) * 2^(m - l) ≤ first lengths m := by
  induction m with
  | zero => omega
  | succ m ih =>
    rcases Nat.eq_or_lt_of_le (Nat.lt_succ_iff.mp h) with rfl | hlt
    · rw [show l + 1 - l = 1 by omega, first]
      omega
    · have hm := ih hlt
      have hpow : (2 : ℕ)^(m + 1 - l) = 2 * 2^(m - l) := by
        rw [show m + 1 - l = m - l + 1 by omega, pow_succ, mul_comm]
      rw [hpow, first]
      calc (first lengths l + used lengths l) * (2 * 2^(m - l))
          = 2 * ((first lengths l + used lengths l) * 2^(m - l)) := by ring
        _ ≤ 2 * (first lengths m + used lengths m) := by omega

/-- A codeword cut short is past every codeword of the length it is cut to. -/
theorem le_code_div (h : l < length lengths s) :
    first lengths l + used lengths l ≤ code lengths s / 2^(length lengths s - l) := by
  rw [Nat.le_div_iff_mul_le (by positivity)]
  have := @shifted_le_first lengths _ _ h
  unfold code
  omega

theorem code_lt (hfits : Fits lengths longest) (h : length lengths s ≠ 0)
    (hle : length lengths s ≤ longest) : code lengths s < 2^length lengths s := by
  have := rank_lt h
  have := hfits _ hle
  unfold code
  omega

/-! ### Zeros at the end -/

section Zeros

variable {k : ℕ} (hzeros : ∀ i, k ≤ i → length lengths i = 0)

include hzeros

theorem length_take_zeros (s : ℕ) : length (lengths.take k) s = length lengths s := by
  unfold length
  by_cases hs : s < k
  · rw [List.getD_eq_getElem?_getD, List.getElem?_take_of_lt hs, ← List.getD_eq_getElem?_getD]
  · rw [List.getD_eq_getElem?_getD, List.getElem?_eq_none, Option.getD_none]
    · exact (hzeros s (Nat.le_of_not_lt hs)).symm
    · rw [List.length_take]
      omega

theorem used_take_zeros (l : ℕ) : used (lengths.take k) l = used lengths l := by
  unfold used
  split
  · rfl
  · rename_i hl
    have hrest : (lengths.drop k).count l = 0 := by
      refine List.count_eq_zero_of_not_mem fun hmem => ?_
      obtain ⟨i, hi, heq⟩ := List.getElem_of_mem hmem
      have hzero := hzeros (k + i) (Nat.le_add_right _ _)
      rw [List.getElem_drop] at heq
      rw [List.length_drop] at hi
      unfold length at hzero
      rw [List.getD_eq_getElem?_getD, List.getElem?_eq_getElem (by omega), Option.getD_some, heq] at hzero
      exact hl hzero
    conv_rhs => rw [← List.take_append_drop k lengths, List.count_append, hrest, Nat.add_zero]

theorem first_take_zeros (l : ℕ) : first (lengths.take k) l = first lengths l := by
  induction l with
  | zero => rfl
  | succ l ih => rw [first, first, ih, used_take_zeros hzeros]

/-- Symbols at the end that have no codewords change none of the others. -/
theorem code_take_zeros {s : ℕ} (hs : length lengths s ≠ 0) : code (lengths.take k) s = code lengths s := by
  have hlt : s < k := by
    by_contra hge
    exact hs (hzeros s (Nat.le_of_not_lt hge))
  unfold code rank
  rw [length_take_zeros hzeros, first_take_zeros hzeros, List.take_take, min_eq_left hlt.le]

theorem fits_take_zeros {longest : ℕ} (h : Fits lengths longest) : Fits (lengths.take k) longest := by
  intro l hl
  rw [first_take_zeros hzeros, used_take_zeros hzeros]
  exact h l hl

end Zeros

/-- Codes that fit with no length past some bound fit up to any longer one. -/
theorem Fits.longer {n : ℕ} (h : Fits lengths m) (hshort : ∀ l ∈ lengths, l ≤ m) : Fits lengths n := by
  have hall : ∀ l, first lengths l + used lengths l ≤ 2^l := by
    intro l
    induction l with
    | zero => exact h 0 (Nat.zero_le m)
    | succ l ih =>
      obtain hle | hlt := le_or_gt (l + 1) m
      · exact h (l + 1) hle
      · have hnone : used lengths (l + 1) = 0 := by
          rw [used_of_pos (Nat.succ_ne_zero l)]
          exact List.count_eq_zero_of_not_mem fun hmem => absurd (hshort _ hmem) (by omega)
        rw [hnone, first, pow_succ]
        omega
  exact fun l _ => hall l

variable (lengths) in
/-- How many codes of a length those up to it use up. -/
def kraft (longest : ℕ) : ℕ := ∑ l ∈ Finset.Icc 1 longest, lengths.count l * 2^(longest - l)

/-- What the codes up to a length use up is the numbers up to the first one past them. -/
theorem first_add_used (l : ℕ) : first lengths l + used lengths l = kraft lengths l := by
  induction l with
  | zero => simp [first, used, kraft]
  | succ l ih =>
    have hlonger : ∑ k ∈ Finset.Icc 1 l, lengths.count k * 2^(l + 1 - k) = 2 * kraft lengths l := by
      rw [kraft, Finset.mul_sum]
      refine Finset.sum_congr rfl fun k hk => ?_
      rw [Nat.succ_sub (Finset.mem_Icc.1 hk).2, pow_succ]
      ring
    rw [kraft, Finset.sum_Icc_succ_top (by omega), hlonger, first, ih, used_of_pos (Nat.succ_ne_zero l), Nat.sub_self,
      pow_zero, mul_one]

/-- What the codes up to a length use up of a longer one is no more than all the codes up to that one do. -/
theorem kraft_mul_le (hl : l ≤ longest) : kraft lengths l * 2^(longest - l) ≤ kraft lengths longest := by
  induction longest, hl using Nat.le_induction with
  | base => rw [Nat.sub_self, pow_zero, mul_one]
  | succ longest hl ih =>
    rw [← first_add_used (longest + 1), first, first_add_used longest, Nat.succ_sub hl, pow_succ, ← mul_assoc]
    omega

/-- Codes are numbers of as many bits as they are long exactly when they use up no more than all of the code space. -/
theorem fits_iff_kraft : Fits lengths longest ↔ kraft lengths longest ≤ 2^longest := by
  constructor
  · intro h
    rw [← first_add_used]
    exact h longest le_rfl
  · intro h l hl
    have hle := (kraft_mul_le hl).trans h
    rw [first_add_used]
    rw [show longest = l + (longest - l) by omega, pow_add, show l + (longest - l) - l = longest - l by omega] at hle
    exact Nat.le_of_mul_le_mul_right hle (by positivity)

/-- Each codeword of a length is the one of some symbol. -/
theorem exists_rank {r : ℕ} (hl : l ≠ 0) (hr : r < used lengths l) : ∃ s, length lengths s = l ∧ rank lengths s = r := by
  have hprefix : ∀ m ≤ lengths.length, r < (lengths.take m).count l → ∃ s, length lengths s = l ∧ rank lengths s = r := by
    intro m
    induction m with
    | zero => exact fun _ h => by simp at h
    | succ m ih =>
      intro hm h
      by_cases hlt : r < (lengths.take m).count l
      · exact ih (by omega) hlt
      · -- the last symbol of the prefix is the one
        rw [take_succ hm, List.count_append, List.count_singleton] at h
        by_cases heq : length lengths m = l
        · refine ⟨m, heq, ?_⟩
          rw [rank, heq]
          split_ifs at h <;> omega
        · rw [if_neg (by simpa using heq)] at h
          omega
  rw [used_of_pos hl] at hr
  exact hprefix lengths.length le_rfl (by rwa [List.take_length])

theorem length_filter_range (hm : m ≤ lengths.length) (l : ℕ) :
    ((List.range m).filter (fun t => decide (length lengths t = l))).length =
      (lengths.take m).count l := by
  induction m with
  | zero => simp
  | succ m ih =>
    rw [List.range_succ, List.filter_append, List.length_append, ih (by omega),
      take_succ (by omega), List.count_append]
    by_cases heq : length lengths m = l
    · simp [heq]
    · simp [heq]

/-- Of the symbols in order, the one with a rank is found by its rank. -/
theorem getElem_rank (hs : s < lengths.length) : ((List.range lengths.length).filter (fun t =>
      decide (length lengths t = length lengths s)))[rank lengths s]? = some s := by
  have hsplit : List.range lengths.length =
      List.range s ++ s :: List.range' (s + 1) (lengths.length - s - 1) := by
    rw [List.range_eq_range', List.range_eq_range']
    have := @List.range'_append_1 0 s (lengths.length - s)
    rw [show s + (lengths.length - s) = lengths.length by omega] at this
    rw [← this, show lengths.length - s = lengths.length - s - 1 + 1 by omega, List.range'_succ]
    simp
  have hbefore := length_filter_range hs.le (length lengths s)
  rw [hsplit, List.filter_append, List.filter_cons_of_pos (by simp),
    List.getElem?_append_right (by rw [hbefore]; exact le_rfl), hbefore]
  unfold rank
  simp

end Rucc.Canonical
