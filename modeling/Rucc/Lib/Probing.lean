import Mathlib.Data.List.Perm.Basic
import Mathlib.Tactic

/-!
# Open addressing

A table of slots, each vacant or taken by an entry that has a home slot. A walk looks at one slot after the
other, around the end of the table, until one stops it. Every entry stands where a walk from its home gets to
without meeting a vacant slot, which is what lets the walk for an entry give up at the first one it meets, and
a table that has a vacant slot ends every walk.
-/

namespace Rucc.Probing

variable {E : Type}

/-- The first slot from here on that stops the walk. -/
def walk (table : List E) (stop : E → Bool) : ℕ → ℕ → Option ℕ
  | 0, _ => none
  | fuel + 1, i => do
    let e ← table[i]?
    if stop e then some i else walk table stop fuel ((i + 1) % table.length)

/-- The slot this far after another, around the end. -/
def after (table : List E) (i d : ℕ) : ℕ := (i + d) % table.length

/-- The first slots from one on hold nothing that stops a walk. -/
def Clear (table : List E) (stop : E → Bool) (i d : ℕ) : Prop :=
  ∀ k < d, ∃ e, table[after table i k]? = some e ∧ stop e = false

section Walk

variable {table : List E} {stop : E → Bool}

variable {i j fuel : ℕ}

theorem after_zero (h : i < table.length) : after table i 0 = i := Nat.mod_eq_of_lt h

theorem after_succ (i d : ℕ) : after table ((i + 1) % table.length) d = after table i (d + 1) := by
  unfold after
  rw [Nat.mod_add_mod, Nat.add_assoc, Nat.add_comm 1 d]

/-- Every slot comes after any other within one round of the table. -/
theorem exists_after (hi : i < table.length) (hj : j < table.length) : ∃ d < table.length, j = after table i d := by
  unfold after
  rcases Nat.le_total i j with h | h
  · exact ⟨j - i, by omega, by rw [Nat.add_sub_cancel' h, Nat.mod_eq_of_lt hj]⟩
  · rcases Nat.eq_or_lt_of_le h with rfl | h
    · exact ⟨0, by omega, by rw [Nat.add_zero, Nat.mod_eq_of_lt hj]⟩
    · refine ⟨j + table.length - i, by omega, ?_⟩
      rw [Nat.add_sub_cancel' (by omega), Nat.add_mod_right, Nat.mod_eq_of_lt hj]

theorem Clear.cons {i d : ℕ} {e : E} (hi : i < table.length) (he : table[i]? = some e) (hs : stop e = false)
    (h : Clear table stop ((i + 1) % table.length) d) : Clear table stop i (d + 1) := by
  intro k hk
  cases k with
  | zero => exact ⟨e, by rw [after_zero hi, he], hs⟩
  | succ k =>
    obtain ⟨e', he', hs'⟩ := h k (by omega)
    exact ⟨e', by rw [← after_succ, he'], hs'⟩

/-- A walk ends at the first slot that stops it. -/
theorem walk_spec (h : walk table stop fuel i = some j) :
    ∃ d e, j = after table i d ∧ table[j]? = some e ∧ stop e = true ∧ Clear table stop i d := by
  induction fuel generalizing i with
  | zero => cases h
  | succ fuel ih =>
    rw [walk, Option.bind_eq_bind, Option.bind_eq_some_iff] at h
    obtain ⟨e, he, h⟩ := h
    have hi : i < table.length := (List.getElem?_eq_some_iff.mp he).1
    split_ifs at h with hs
    · obtain rfl := Option.some.inj h
      exact ⟨0, e, (after_zero hi).symm, he, hs, fun k hk => absurd hk (Nat.not_lt_zero k)⟩
    · obtain ⟨d, e', hj, he', hs', hclear⟩ := ih h
      rw [after_succ] at hj
      exact ⟨d + 1, e', hj, he', hs', hclear.cons hi he (by simpa using hs)⟩

/-- A walk with enough fuel gets to any slot that stops it. -/
theorem walk_isSome_of_after {d : ℕ} {e : E} (hi : i < table.length) (hd : d < fuel)
    (he : table[after table i d]? = some e) (hs : stop e = true) : (walk table stop fuel i).isSome := by
  induction fuel generalizing i d with
  | zero => omega
  | succ fuel ih =>
    rw [walk, List.getElem?_eq_getElem hi, Option.bind_eq_bind, Option.bind_some]
    split_ifs with hhere
    · rfl
    · cases d with
      | zero =>
        rw [after_zero hi, List.getElem?_eq_getElem hi] at he
        rw [Option.some.inj he] at hhere
        exact absurd hs hhere
      | succ d =>
        rw [← after_succ] at he
        exact ih (Nat.mod_lt _ (by omega)) (by omega) he

/-- A walk once around the table ends when a slot stops it. -/
theorem walk_isSome {i : ℕ} (hi : i < table.length) (h : ∃ e ∈ table, stop e = true) :
    (walk table stop table.length i).isSome := by
  obtain ⟨e, he, hs⟩ := h
  obtain ⟨j, hj, rfl⟩ := List.getElem_of_mem he
  obtain ⟨d, hd, hafter⟩ := exists_after hi hj
  exact walk_isSome_of_after hi hd (by rw [← hafter, List.getElem?_eq_getElem hj]) hs

end Walk

/-! ## Tables -/

variable (vacant : E → Bool) (home : E → ℕ)

/-- The entries of a table. -/
def entries (table : List E) : List E := table.filter fun e => !vacant e

/-- Every entry is where a walk from its home gets to over slots that are taken. -/
def Reached (table : List E) : Prop :=
  ∀ i e, table[i]? = some e → vacant e = false →
    ∃ d, i = after table (home e) d ∧ Clear table vacant (home e) d

section Table

variable {vacant home} {table : List E}

variable {e : E} {j : ℕ}

theorem mem_entries : e ∈ entries vacant table ↔ e ∈ table ∧ vacant e = false := by
  simp only [entries, List.mem_filter, Bool.not_eq_true']

/-- A table with fewer entries than slots has a vacant one. -/
theorem exists_vacant (h : (entries vacant table).length < table.length) : ∃ e ∈ table, vacant e = true := by
  by_contra hnone
  push Not at hnone
  have hall : entries vacant table = table := by
    refine List.filter_eq_self.mpr fun e he => ?_
    rw [Bool.eq_false_of_not_eq_true (hnone e he)]
    rfl
  rw [hall] at h
  exact lt_irrefl _ h

/-- An entry put into a vacant slot is one more. -/
theorem entries_set {old : E} (hj : table[j]? = some old) (hold : vacant old = true)
    (he : vacant e = false) : (entries vacant (table.set j e)).Perm (e :: entries vacant table) := by
  obtain ⟨hlt, rfl⟩ := List.getElem?_eq_some_iff.mp hj
  have hsplit : table = table.take j ++ table[j] :: table.drop (j + 1) := by
    rw [List.getElem_cons_drop, List.take_append_drop]
  have hset : table.set j e = table.take j ++ e :: table.drop (j + 1) := List.set_eq_take_cons_drop e hlt
  have hkeep : entries vacant table = entries vacant (table.take j) ++ entries vacant (table.drop (j + 1)) := by
    conv_lhs => rw [hsplit]
    unfold entries
    rw [List.filter_append, List.filter_cons_of_neg (by rw [hold]; decide)]
  rw [hset, hkeep]
  unfold entries
  rw [List.filter_append, List.filter_cons_of_pos (by rw [he]; decide)]
  exact List.perm_middle

/-- A slot taken over leaves every way there was. -/
theorem Clear.set {i d : ℕ} {stop : E → Bool} (h : Clear table stop i d) (he : stop e = false) :
    Clear (table.set j e) stop i d := by
  intro k hk
  obtain ⟨e', he', hs⟩ := h k hk
  have hafter : after (table.set j e) i k = after table i k := by
    unfold after
    rw [List.length_set]
  rw [hafter, List.getElem?_set]
  split_ifs with hj hlt
  · exact ⟨e, rfl, he⟩
  · rw [← hj, List.getElem?_eq_none (by omega)] at he'
    cases he'
  · exact ⟨e', he', hs⟩

/-- An entry put where a walk from its home ended is reached, and so is every other. -/
theorem Reached.set {d : ℕ} (h : Reached vacant home table) (he : vacant e = false)
    (hj : j = after table (home e) d) (hclear : Clear table vacant (home e) d) :
    Reached vacant home (table.set j e) := by
  intro i e' hi he'
  have hafter (a b : ℕ) : after (table.set j e) a b = after table a b := by
    unfold after
    rw [List.length_set]
  rw [List.getElem?_set] at hi
  split_ifs at hi with hij hlt
  · obtain rfl := Option.some.inj hi
    exact ⟨d, by rw [hafter, ← hij, hj], hclear.set he⟩
  · obtain ⟨d', hd', hclear'⟩ := h i e' hi he'
    exact ⟨d', by rw [hafter, ← hd'], hclear'.set he⟩

/-- What a walk for an entry stops at is the entry, unless none like it is there. -/
theorem Reached.walk {i j : ℕ} {wanted : E → Bool} (h : Reached vacant home table) {fuel : ℕ}
    (hwalk : walk table (fun e => vacant e || wanted e) fuel i = some j) :
    ∃ d e, j = after table i d ∧ table[j]? = some e ∧ Clear table vacant i d ∧
      (vacant e = false → wanted e = true) ∧
      (vacant e = true → ∀ e' ∈ entries vacant table, home e' = i → wanted e' = false) := by
  obtain ⟨d, e, hj, he, hs, hclear⟩ := walk_spec hwalk
  refine ⟨d, e, hj, he, fun k hk => ?_, fun hv => ?_, fun hv e' he' hhome => ?_⟩
  · obtain ⟨e', he', hs'⟩ := hclear k hk
    exact ⟨e', he', (Bool.or_eq_false_iff.mp hs').1⟩
  · rw [hv, Bool.false_or] at hs
    exact hs
  · obtain ⟨hmem, hv'⟩ := mem_entries.mp he'
    obtain ⟨m, hm, rfl⟩ := List.getElem_of_mem hmem
    obtain ⟨d', hd', hclear'⟩ := h m _ (List.getElem?_eq_getElem hm) hv'
    rw [hhome] at hd' hclear'
    -- the entry is before the vacant slot, since a walk from its home meets no such slot on the way to it
    rcases Nat.lt_trichotomy d' d with hlt | heq | hgt
    · obtain ⟨e'', he'', hs''⟩ := hclear d' hlt
      rw [← hd', List.getElem?_eq_getElem hm] at he''
      rw [Option.some.inj he'']
      exact (Bool.or_eq_false_iff.mp hs'').2
    · rw [hj, ← heq, ← hd', List.getElem?_eq_getElem hm] at he
      rw [Option.some.inj he, hv] at hv'
      cases hv'
    · obtain ⟨e'', he'', hs''⟩ := hclear' d hgt
      rw [← hj, he] at he''
      rw [← Option.some.inj he'', hv] at hs''
      cases hs''

end Table

/-! ## Filling a table -/

/-- An entry put into the first vacant slot from its home on. -/
def put (table : List E) (e : E) : Option (List E) :=
  (walk table vacant table.length (home e)).map fun j => table.set j e

section Fill

variable {vacant home} {table table' : List E} {e : E}

/-- What putting an entry into a table does, when there is room. -/
theorem put_spec (h : Reached vacant home table) (hhome : home e < table.length) (he : vacant e = false)
    (hroom : (entries vacant table).length < table.length) :
    ∃ table', put vacant home table e = some table' ∧ table'.length = table.length ∧
      Reached vacant home table' ∧ (entries vacant table').Perm (e :: entries vacant table) := by
  obtain ⟨j, hj⟩ := Option.isSome_iff_exists.mp (walk_isSome hhome (exists_vacant hroom))
  obtain ⟨d, old, hafter, hold, hs, hclear⟩ := walk_spec hj
  refine ⟨table.set j e, ?_, List.length_set, h.set he hafter hclear, entries_set hold hs he⟩
  rw [put, hj, Option.map_some]

/-- A table filled with entries, of which it has room for all. -/
theorem foldlM_put_spec {es : List E} (h : Reached vacant home table)
    (hes : ∀ e ∈ es, home e < table.length ∧ vacant e = false)
    (hroom : (entries vacant table).length + es.length ≤ table.length) :
    ∃ table', es.foldlM (put vacant home) table = some table' ∧ table'.length = table.length ∧
      Reached vacant home table' ∧ (entries vacant table').Perm (es ++ entries vacant table) := by
  induction es generalizing table with
  | nil => exact ⟨table, rfl, rfl, h, List.Perm.refl _⟩
  | cons e es ih =>
    rw [List.length_cons] at hroom
    obtain ⟨hhome, he⟩ := hes e List.mem_cons_self
    obtain ⟨t, ht, hlen, hreached, hperm⟩ := put_spec h hhome he (by omega)
    obtain ⟨t', ht', hlen', hreached', hperm'⟩ := ih hreached
      (fun e' he' => by rw [hlen]; exact hes e' (List.mem_cons_of_mem _ he'))
      (by rw [hperm.length_eq, List.length_cons, hlen]; omega)
    refine ⟨t', ?_, hlen'.trans hlen, hreached', hperm'.trans ?_⟩
    · rw [List.foldlM_cons, ht, Option.bind_eq_bind, Option.bind_some, ht']
    · exact (List.Perm.append_left es hperm).trans List.perm_middle

/-- A table of vacant slots has no entries, and reaches all of them. -/
theorem entries_replicate {n : ℕ} (h : vacant e = true) : entries vacant (List.replicate n e) = [] := by
  refine List.filter_eq_nil_iff.mpr fun e' he' => ?_
  rw [List.eq_of_mem_replicate he', h]
  decide

theorem reached_of_entries (h : entries vacant table = []) : Reached vacant home table := by
  intro i e hi he
  have hmem : e ∈ entries vacant table := mem_entries.mpr ⟨List.mem_of_getElem? hi, he⟩
  rw [h] at hmem
  cases hmem

end Fill

end Rucc.Probing
