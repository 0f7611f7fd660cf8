import Mathlib.Data.List.Basic
import Mathlib.Logic.Function.Basic
import Mathlib.Tactic

/-!
# Sorting a list into buckets

A list whose elements have keys below a bound is laid out end to end by key, the elements of one key
in the order they come: the keys are counted, the counts summed into where each bucket starts, and
each element put at the next place of its bucket. A vector is modelled by the function from its
indices.
-/

namespace Rucc.Buckets

variable {α : Type}

variable {row rows first last i : ℕ} {keys : List ℕ}

/-- One more at an index. -/
def bump (table : ℕ → ℕ) (i : ℕ) : ℕ → ℕ := Function.update table i (table i + 1)

/-- How many keys there are of each, one index up. -/
def tally (keys : List ℕ) : ℕ → ℕ := keys.foldl (fun table key => bump table (key + 1)) (fun _ => 0)

/-- Each entry added to the one after it, from the first up. -/
def accumulate (rows : ℕ) (table : ℕ → ℕ) : ℕ → ℕ :=
  (List.range rows).foldl
    (fun table row => Function.update table (row + 1) (table (row + 1) + table row)) table

/-- Where each bucket starts, with one more at the end for where the last one stops. -/
def starts (rows : ℕ) (keys : List ℕ) : ℕ → ℕ := accumulate rows (tally keys)

/-- An element put at the next place of its bucket. -/
def place (key : α → ℕ) (state : (ℕ → ℕ) × (ℕ → α)) (x : α) : (ℕ → ℕ) × (ℕ → α) :=
  (bump state.1 (key x), Function.update state.2 (state.1 (key x)) x)

/-- The elements put into their buckets. -/
def scatter (key : α → ℕ) (start : ℕ → ℕ) (blank : α) (xs : List α) : ℕ → α :=
  (xs.foldl (place key) (start, fun _ => blank)).2

/-- The entries of a vector from one index to another. -/
def slice (table : ℕ → α) (first last : ℕ) : List α := (List.range' first (last - first)).map table

/-! ## Where the buckets start -/

/-- How many keys are below a bound. -/
def below (keys : List ℕ) (row : ℕ) : ℕ := keys.countP (fun key => decide (key < row))

theorem foldl_tally (keys : List ℕ) (table : ℕ → ℕ) (i : ℕ) :
    keys.foldl (fun table key => bump table (key + 1)) table i =
      table i + keys.countP (fun key => decide (key + 1 = i)) := by
  induction keys generalizing table with
  | nil => simp
  | cons key keys ih =>
    rw [List.foldl_cons, ih, List.countP_cons]
    unfold bump Function.update
    by_cases h : key + 1 = i
    · subst h
      simp
      omega
    · simp [h, Ne.symm h]

theorem below_succ (keys : List ℕ) (row : ℕ) :
    below keys (row + 1) = below keys row + keys.countP (fun key => decide (key = row)) := by
  induction keys with
  | nil => rfl
  | cons key keys ih =>
    simp only [below, List.countP_cons, decide_eq_true_eq] at ih ⊢
    rw [ih]
    by_cases h₁ : key < row
    · simp [h₁, show key < row + 1 by omega, show key ≠ row by omega]
      omega
    · by_cases h₂ : key = row
      · subst h₂
        simp
        omega
      · simp [h₁, h₂, show ¬ key < row + 1 by omega]

/-- After the first `n` sums, the entries up to the `n`th are the bucket starts and the rest are
still counts. -/
theorem foldl_accumulate (keys : List ℕ) (n : ℕ) (i : ℕ) : (List.range n).foldl
      (fun table row => Function.update table (row + 1) (table (row + 1) + table row))
      (tally keys) i =
      if i ≤ n then below keys i else tally keys i := by
  have htally (i : ℕ) : tally keys i = keys.countP (fun key => decide (key + 1 = i)) := by
    unfold tally
    rw [foldl_tally]
    simp
  induction n generalizing i with
  | zero =>
    by_cases h : i = 0
    · subst h
      simp [htally, below]
    · simp [h]
  | succ n ih =>
    rw [List.range_succ, List.foldl_append, List.foldl_cons, List.foldl_nil]
    by_cases h : i = n + 1
    · subst h
      rw [Function.update_self, ih, ih, if_neg (by omega), if_pos le_rfl, if_pos le_rfl,
        below_succ, htally]
      have hcount : keys.countP (fun key => decide (key + 1 = n + 1)) =
          keys.countP (fun key => decide (key = n)) := by
        congr 1
        funext key
        simp
      omega
    · rw [Function.update_of_ne h, ih]
      by_cases hle : i ≤ n
      · rw [if_pos hle, if_pos (by omega)]
      · rw [if_neg hle, if_neg (by omega)]

/-- A bucket starts after everything with a smaller key. -/
theorem starts_eq (rows : ℕ) (keys : List ℕ) (h : row ≤ rows) : starts rows keys row = below keys row := by
  unfold starts accumulate
  rw [foldl_accumulate, if_pos h]

/-- Past the last bucket there is what was counted there. -/
theorem starts_past (h : rows < row) : starts rows keys row = keys.countP (fun key => decide (key + 1 = row)) := by
  unfold starts accumulate
  rw [foldl_accumulate, if_neg (by omega), tally, foldl_tally, Nat.zero_add]

theorem below_mono (keys : List ℕ) {row' : ℕ} (h : row ≤ row') : below keys row ≤ below keys row' := by
  unfold below
  apply List.countP_mono_left
  intro key _ hkey
  simp only [decide_eq_true_eq] at hkey ⊢
  omega

theorem below_eq_length (h : ∀ key ∈ keys, key < row) : below keys row = keys.length := by
  unfold below
  rw [List.countP_eq_length]
  intro key hkey
  simpa using h key hkey

/-! ## What ends up in a bucket -/

theorem slice_succ (table : ℕ → α) (first n : ℕ) :
    slice table first (first + (n + 1)) = slice table first (first + n) ++ [table (first + n)] := by
  unfold slice
  rw [Nat.add_sub_cancel_left, Nat.add_sub_cancel_left, List.range'_1_concat, List.map_append]
  rfl

theorem getElem_slice (table : ℕ → α) (h : first + i < last) :
    (slice table first last)[i]? = some (table (first + i)) := by
  unfold slice
  rw [List.getElem?_map, List.getElem?_range' (by omega), one_mul]
  rfl

theorem slice_update {table : ℕ → α} (x : α) (h : i < first ∨ last ≤ i) :
    slice (Function.update table i x) first last = slice table first last := by
  unfold slice
  apply List.map_congr_left
  intro j hj
  rw [List.mem_range'_1] at hj
  have hne : j ≠ i := by omega
  exact Function.update_of_ne hne x table

/-- Placing a list fills each bucket from its start, as long as the buckets have room. -/
theorem foldl_place (key : α → ℕ) (start : ℕ → ℕ) (blank : α) (xs : List α)
    (hroom : ∀ x ∈ xs, ∀ y ∈ xs, key x < key y →
      start (key x) + xs.countP (fun z => decide (key z = key x)) ≤ start (key y)) :
    (∀ k, (xs.foldl (place key) (start, fun _ => blank)).1 k =
      start k + xs.countP (fun z => decide (key z = k))) ∧
    ∀ k, slice (xs.foldl (place key) (start, fun _ => blank)).2 (start k)
      (start k + xs.countP (fun z => decide (key z = k))) =
      xs.filter (fun z => decide (key z = k)) := by
  induction xs using List.reverseRecOn with
  | nil => exact ⟨fun k => rfl, fun k => by simp [slice]⟩
  | append_singleton xs x ih =>
    have hle (k : ℕ) : xs.countP (fun z => decide (key z = k)) ≤
        (xs ++ [x]).countP (fun z => decide (key z = k)) := by
      rw [List.countP_append]
      omega
    obtain ⟨hnext, hslice⟩ := ih (fun y hy z hz hlt => by
      have := hroom y (List.mem_append_left _ hy) z (List.mem_append_left _ hz) hlt
      have := hle (key y)
      omega)
    rw [List.foldl_append, List.foldl_cons, List.foldl_nil]
    generalize xs.foldl (place key) (start, fun _ => blank) = state at hnext hslice ⊢
    have hcount (k : ℕ) : (xs ++ [x]).countP (fun z => decide (key z = k)) =
        xs.countP (fun z => decide (key z = k)) + if key x = k then 1 else 0 := by
      rw [List.countP_append, List.countP_cons, List.countP_nil]
      simp
    constructor
    · intro k
      simp only [place, bump]
      rw [hcount]
      by_cases h : key x = k
      · subst h
        rw [Function.update_self, hnext, if_pos rfl]
        omega
      · rw [Function.update_of_ne (Ne.symm h), hnext, if_neg h]
        omega
    · intro k
      simp only [place]
      rw [hcount, hnext (key x), List.filter_append]
      by_cases h : key x = k
      · -- The bucket of the new element grows by it.
        subst h
        rw [if_pos rfl, slice_succ, Function.update_self,
          slice_update x (Or.inr le_rfl), hslice]
        simp
      · rw [if_neg h, add_zero]
        -- The place is in the new element's own bucket, clear of every other one.
        rcases Nat.eq_zero_or_pos (xs.countP (fun z => decide (key z = k))) with h0 | hpos
        · have hnil : xs.filter (fun z => decide (key z = k)) = [] := by
            rw [← List.length_eq_zero_iff, ← List.countP_eq_length_filter]
            exact h0
          rw [h0, hnil]
          simp [slice, h]
        · obtain ⟨y, hy, hyk⟩ := List.countP_pos_iff.mp hpos
          rw [decide_eq_true_eq] at hyk
          have hmem : x ∈ xs ++ [x] := by simp
          have hmem' : y ∈ xs ++ [x] := List.mem_append_left _ hy
          rw [slice_update x, hslice]
          · simp [h]
          · rcases Nat.lt_or_gt_of_ne h with hlt | hgt
            · have := hroom x hmem y hmem' (by omega)
              rw [hcount, if_pos rfl, hyk] at this
              omega
            · have := hroom y hmem' x hmem (by omega)
              rw [hyk, hcount, if_neg h] at this
              omega

/-- The rows of a list put down where the keys of another list with as many of each say: each row
holds the elements of its key, in order. -/
theorem scatter_row (key : α → ℕ) (blank : α) {xs : List α} (hkeys : ∀ k, below keys k = below (xs.map key) k)
    (hrows : ∀ x ∈ xs, key x < rows) (hrow : row < rows) :
    slice (scatter key (starts rows keys) blank xs) (starts rows keys row)
      (starts rows keys (row + 1)) = xs.filter (fun x => decide (key x = row)) := by
  have hcount (k : ℕ) : below keys k + xs.countP (fun z => decide (key z = k)) =
      below keys (k + 1) := by
    rw [hkeys, hkeys, below_succ, List.countP_map]
    rfl
  have hplace := (foldl_place key (starts rows keys) blank xs (fun x hx y hy hlt => by
    have hy' := hrows y hy
    rw [starts_eq _ _ (hrows x hx).le, starts_eq _ _ hy'.le, hcount]
    exact below_mono _ hlt)).2 row
  rw [starts_eq _ _ hrow.le, hcount] at hplace
  rw [starts_eq _ _ hrow.le, starts_eq _ _ hrow]
  exact hplace

/-- Nothing is in a bucket past the last one. -/
theorem slice_past (table : ℕ → α) (hkeys : ∀ key ∈ keys, key < rows)
    (hrow : rows ≤ row) : slice table (starts rows keys row) (starts rows keys (row + 1)) = [] := by
  have hnone : starts rows keys (row + 1) = 0 := by
    rw [starts_past (by omega), List.countP_eq_zero]
    intro key hkey
    have hlt := hkeys key hkey
    simp only [decide_eq_true_eq]
    omega
  rw [hnone, slice, Nat.zero_sub, List.range'_zero, List.map_nil]

/-! ## Two passes -/

/-- Neighbouring stretches of a vector, end to end. -/
theorem map_range_eq_flatMap (table : ℕ → α) (bound : ℕ → ℕ) (hzero : bound 0 = 0)
    (hmono : ∀ k, bound k ≤ bound (k + 1)) (n : ℕ) :
    (List.range (bound n)).map table =
      (List.range n).flatMap (fun k => slice table (bound k) (bound (k + 1))) := by
  induction n with
  | zero => simp [hzero]
  | succ n ih =>
    have hsplit : bound (n + 1) = bound n + (bound (n + 1) - bound n) := by
      have := hmono n
      omega
    rw [List.range_succ, List.flatMap_append, ← ih, List.flatMap_singleton]
    rw [hsplit, List.range_add, List.map_append, List.map_map]
    congr 1
    unfold slice
    rw [Nat.add_sub_cancel_left, List.range'_eq_map_range, List.map_map]

/-- A list put down in runs of neighbouring keys first, which its rows are then put down from. -/
def runs (key : α → ℕ) (shift rows : ℕ) (blank : α) (xs : List α) : List α :=
  (List.range xs.length).map
    (scatter (fun x => key x >>> shift) (fun run => starts rows (xs.map key) (run <<< shift))
      blank xs)

theorem below_shift (keys : List ℕ) (shift k : ℕ) :
    below keys (k <<< shift) + keys.countP (fun key => decide (key >>> shift = k)) =
      below keys ((k + 1) <<< shift) := by
  have hbounds (key : ℕ) : key >>> shift = k ↔ k <<< shift ≤ key ∧ key < (k + 1) <<< shift := by
    rw [Nat.shiftRight_eq_div_pow, Nat.shiftLeft_eq, Nat.shiftLeft_eq]
    rw [Nat.div_eq_iff (by positivity)]
    have hpos : 0 < 2^shift := by positivity
    rw [Nat.add_mul]
    omega
  have hle : k <<< shift ≤ (k + 1) <<< shift := by
    rw [Nat.shiftLeft_eq, Nat.shiftLeft_eq]
    exact Nat.mul_le_mul_right _ (Nat.le_succ k)
  induction keys with
  | nil => rfl
  | cons key keys ih =>
    unfold below at ih ⊢
    rw [List.countP_cons, List.countP_cons, List.countP_cons, ← ih]
    have := hbounds key
    by_cases h₁ : key < k <<< shift
    · have h₂ : ¬ key >>> shift = k := by omega
      simp [h₁, h₂, show key < (k + 1) <<< shift by omega]
      omega
    · by_cases h₂ : key >>> shift = k
      · have h₃ : key < (k + 1) <<< shift := by omega
        simp [h₁, h₂, h₃]
        omega
      · have h₃ : ¬ key < (k + 1) <<< shift := by omega
        simp [h₁, h₂, h₃]

/-- The runs hold what the list does, the elements of one key in the same order. -/
theorem filter_runs (key : α → ℕ) (shift : ℕ) (blank : α) (xs : List α) (row : ℕ) (hrows : ∀ x ∈ xs, key x < rows) :
    (runs key shift rows blank xs).filter (fun x => decide (key x = row)) =
      xs.filter (fun x => decide (key x = row)) := by
  have hcountP (k : ℕ) : (xs.map key).countP (fun key => decide (key >>> shift = k)) =
      xs.countP (fun z => decide (key z >>> shift = k)) := by
    rw [List.countP_map]
    rfl
  have hstart (x : α) (hx : x ∈ xs) :
      starts rows (xs.map key) ((key x >>> shift) <<< shift) =
        below (xs.map key) ((key x >>> shift) <<< shift) := by
    apply starts_eq
    have := hrows x hx
    rw [Nat.shiftLeft_eq, Nat.shiftRight_eq_div_pow]
    have := Nat.div_mul_le_self (key x) (2^shift)
    omega
  have hplace := (foldl_place (fun x => key x >>> shift)
    (fun run => starts rows (xs.map key) (run <<< shift)) blank xs (fun x hx y hy hlt => by
      rw [hstart x hx, hstart y hy, ← hcountP, below_shift]
      apply below_mono
      rw [Nat.shiftLeft_eq, Nat.shiftLeft_eq]
      exact Nat.mul_le_mul_right _ hlt)).2
  -- Every run that holds anything is where the counts put it.
  have hslice (k : ℕ) : slice
      (scatter (fun x => key x >>> shift) (fun run => starts rows (xs.map key) (run <<< shift))
        blank xs) (below (xs.map key) (k <<< shift)) (below (xs.map key) ((k + 1) <<< shift)) =
      xs.filter (fun z => decide (key z >>> shift = k)) := by
    have hk := hplace k
    rw [← below_shift, hcountP]
    rcases Nat.eq_zero_or_pos (xs.countP (fun z => decide (key z >>> shift = k))) with h0 | hpos
    · have hnil : xs.filter (fun z => decide (key z >>> shift = k)) = [] := by
        rw [← List.length_eq_zero_iff, ← List.countP_eq_length_filter]
        exact h0
      rw [h0, hnil]
      simp [slice]
    · obtain ⟨y, hy, hyk⟩ := List.countP_pos_iff.mp hpos
      rw [decide_eq_true_eq] at hyk
      have := hstart y hy
      rw [hyk] at this
      rw [this] at hk
      exact hk
  have hlength : xs.length = below (xs.map key) (rows <<< shift) := by
    rw [below_eq_length, List.length_map]
    intro k hk
    obtain ⟨x, hx, rfl⟩ := List.mem_map.mp hk
    have := hrows x hx
    rw [Nat.shiftLeft_eq]
    have := Nat.le_mul_of_pos_right rows (show 0 < 2^shift by positivity)
    omega
  have hruns : runs key shift rows blank xs =
      (List.range rows).flatMap (fun k => xs.filter (fun z => decide (key z >>> shift = k))) := by
    unfold runs
    rw [hlength, map_range_eq_flatMap _ (fun k => below (xs.map key) (k <<< shift))]
    · apply List.flatMap_congr
      intro k _
      exact hslice k
    · simp [below]
    · intro k
      have := below_shift (xs.map key) shift k
      omega
  rw [hruns, List.filter_flatMap]
  -- Only the run the row is in holds anything of it.
  have hone (k : ℕ) : (xs.filter (fun z => decide (key z >>> shift = k))).filter
      (fun x => decide (key x = row)) =
      if k = row >>> shift then xs.filter (fun x => decide (key x = row)) else [] := by
    rw [List.filter_filter]
    split_ifs with h
    · apply List.filter_congr
      intro x _
      by_cases hx : key x = row
      · simp [hx, h]
      · simp [hx]
    · rw [List.filter_eq_nil_iff]
      intro x _
      simp only [Bool.and_eq_true, decide_eq_true_eq, not_and]
      rintro rfl
      exact fun heq => h heq.symm
  simp only [hone]
  by_cases hrow : row < rows
  · have hlt : row >>> shift < rows := by
      rw [Nat.shiftRight_eq_div_pow]
      exact lt_of_le_of_lt (Nat.div_le_self _ _) hrow
    obtain ⟨before, after, hsplit⟩ := List.append_of_mem (List.mem_range.mpr hlt)
    have hnodup : (before ++ (row >>> shift) :: after).Nodup := hsplit ▸ List.nodup_range
    have hother (l : List ℕ) (hl : row >>> shift ∉ l) : l.flatMap
        (fun k => if k = row >>> shift then xs.filter (fun x => decide (key x = row)) else []) =
        [] := by
      rw [List.flatMap_eq_nil_iff]
      intro k hk
      rw [if_neg]
      rintro rfl
      exact hl hk
    rw [hsplit, List.flatMap_append, List.flatMap_cons, if_pos rfl, hother, hother,
      List.nil_append, List.append_nil]
    · exact fun h => (List.nodup_cons.mp (List.nodup_append.mp hnodup).2.1).1 h
    · intro h
      exact (List.nodup_append.mp hnodup).2.2 _ h _ (List.mem_cons_self ..) rfl
  · -- No element has a key past the last row.
    have hnil : xs.filter (fun x => decide (key x = row)) = [] := by
      rw [List.filter_eq_nil_iff]
      intro x hx
      have := hrows x hx
      simp only [decide_eq_true_eq]
      omega
    rw [hnil]
    simp

/-- Two passes make the same rows as one. -/
theorem scatter_runs_row (key : α → ℕ) (shift : ℕ) (blank : α) (xs : List α)
    (hrows : ∀ x ∈ xs, key x < rows) (hrow : row < rows) :
    slice (scatter key (starts rows (xs.map key)) blank (runs key shift rows blank xs))
      (starts rows (xs.map key) row) (starts rows (xs.map key) (row + 1)) =
      xs.filter (fun x => decide (key x = row)) := by
  have hfilter (row : ℕ) := filter_runs key shift blank xs row hrows
  rw [← hfilter row]
  apply scatter_row key blank _ _ hrow
  · -- As many of each key, so as many below each bound.
    intro k
    induction k with
    | zero => simp [below]
    | succ k ih =>
      rw [below_succ, below_succ, ih, List.countP_map, List.countP_map]
      congr 1
      have hlen := congrArg List.length (hfilter k)
      rw [← List.countP_eq_length_filter, ← List.countP_eq_length_filter] at hlen
      exact hlen.symm
  · intro x hx
    have hmem : x ∈ (runs key shift rows blank xs).filter (fun y => decide (key y = key x)) :=
      List.mem_filter.mpr ⟨hx, by simp⟩
    rw [hfilter] at hmem
    exact hrows x (List.mem_filter.mp hmem).1

end Rucc.Buckets
