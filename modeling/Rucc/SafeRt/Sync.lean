import Rucc.SafeRt.Epoch

/-!
# The tables of published clocks

The tables of `sync.rs`: fixed, open addressed, never emptied and never grown. A publication goes into the
cell that its key has, or into a free one, or takes over a cell of another key where there is neither. A
lookup finds what was published last under a key as long as no publication took its cell over, which is what
`Table.published_publish` and `Table.published_keeps` say.
-/

namespace Rucc.SafeRt.Sync

open Epoch

/-- How many bits of a key the tables are indexed by. -/
def BITS : ℕ := 10

/-- How many keys can have a clock of their own at once. -/
def EDGES : ℕ := 2^BITS

/-- How far a lookup walks before it decides the key is not in the table. -/
def PROBES : ℕ := 8

/-- One key's published clock. The key of a cell that nobody has taken is zero. -/
structure Edge where
  key : ℕ
  stamp : Stamp
  deriving DecidableEq

/-- Where a key's clock would be kept if it has one. -/
def home (key : ℕ) : ℕ := key * 0x9E3779B97F4A7C15 % 2^64 / 2^(64 - BITS)

/-- A set of published clocks. -/
structure Table where
  cells : ℕ → Edge

namespace Table

variable {steps : List ℕ} {at_ : ℕ}

/-- A table nobody has published into. -/
def new : Table := ⟨fun _ => ⟨0, NONE⟩⟩

/-- The place of the cell some steps along from where a key would start. -/
def place (key step : ℕ) : ℕ := (home key + step) % EDGES

/-- The first cell of a walk that the key has, or that is free. -/
def find (table : Table) (key : ℕ) : List ℕ → Option ℕ
  | [] => none
  | step :: rest =>
    if (table.cells (place key step)).key = key ∨ (table.cells (place key step)).key = 0 then some (place key step)
    else table.find key rest

/-- The cell a key has, or the free one it would be put in. -/
def cellOf (table : Table) (key : ℕ) : Option ℕ := table.find key (List.range PROBES)

/-- What the last publisher under a key was at. The walk stops at a cell nobody has taken. -/
def published (table : Table) (key : ℕ) : Stamp :=
  match table.cellOf key with
  | some at_ => if (table.cells at_).key = 0 then NONE else (table.cells at_).stamp
  | none => NONE

/-- The table with a stamp written down under a key. -/
def publish (table : Table) (key : ℕ) (stamp : Stamp) : Table :=
  match table.cellOf key with
  | some at_ => ⟨Function.update table.cells at_ ⟨key, stamp⟩⟩
  -- every cell of the run belongs to some other key, and the first one is taken over
  | none => ⟨Function.update table.cells (place key 0) ⟨key, stamp⟩⟩

variable {table : Table} {key key' : ℕ} {stamp : Stamp}

/-- The cell that is found has the key or is free, and every cell before it has another key. -/
theorem find_spec (h : table.find key steps = some at_) :
    (table.cells at_).key = key ∨ (table.cells at_).key = 0 := by
  induction steps with
  | nil => exact absurd h (by simp [find])
  | cons step rest ih =>
    rw [find] at h
    split at h
    · rename_i hcell
      obtain rfl := Option.some.inj h
      exact hcell
    · exact ih h

/-- A walk that finds its cell finds it in another table, where the cell is good there and the cells that the
walk passed are not. -/
theorem find_congr {table' : Table} (h : table.find key steps = some at_)
    (hat : (table'.cells at_).key = key ∨ (table'.cells at_).key = 0)
    (hother : ∀ i, ¬ ((table.cells i).key = key ∨ (table.cells i).key = 0) →
      ¬ ((table'.cells i).key = key ∨ (table'.cells i).key = 0)) :
    table'.find key steps = some at_ := by
  induction steps with
  | nil => exact absurd h (by simp [find])
  | cons step rest ih =>
    rw [find] at h ⊢
    split at h
    · obtain rfl := Option.some.inj h
      exact if_pos hat
    · rename_i hcell
      rw [if_neg (hother _ hcell)]
      exact ih h

/-- A publication that takes no cell over writes one cell. -/
theorem publish_of_cell (h : table.cellOf key = some at_) :
    table.publish key stamp = ⟨Function.update table.cells at_ ⟨key, stamp⟩⟩ := by rw [publish, h]

/-- What is published is found, where no other key's cell had to be taken over. -/
theorem published_publish (hkey : key ≠ 0) (hcell : (table.cellOf key).isSome = true) :
    (table.publish key stamp).published key = stamp := by
  obtain ⟨at_, hat⟩ := Option.isSome_iff_exists.1 hcell
  have hcells : (table.publish key stamp).cells at_ = ⟨key, stamp⟩ := by
    rw [publish_of_cell hat]
    exact Function.update_self _ _ _
  have hfound : (table.publish key stamp).cellOf key = some at_ := by
    refine find_congr hat (Or.inl (by rw [hcells])) fun i hi => ?_
    have hne : i ≠ at_ := by
      rintro rfl
      exact hi (find_spec hat)
    rw [publish_of_cell hat]
    dsimp only
    rwa [Function.update_of_ne hne]
  simp only [published, hfound, hcells, if_neg hkey]

/-- What was found under a key is found still after a publication under another one that took no cell over. -/
theorem published_keeps (hne : key' ≠ key) (hcell : (table.cellOf key').isSome = true)
    (hfound : table.published key ≠ NONE) : (table.publish key' stamp).published key = table.published key := by
  obtain ⟨at', hat'⟩ := Option.isSome_iff_exists.1 hcell
  unfold published at hfound ⊢
  cases hat : table.cellOf key with
  | none =>
    rw [hat] at hfound
    exact absurd rfl hfound
  | some at_ =>
    rw [hat] at hfound
    have hfree : (table.cells at_).key ≠ 0 := fun h => hfound (if_pos h)
    have hown : (table.cells at_).key = key := (find_spec hat).resolve_right hfree
    have hplace : at_ ≠ at' := by
      rintro rfl
      rcases find_spec hat' with hkey' | hzero
      · exact hne (hkey'.symm.trans hown)
      · exact hfree hzero
    have hkeep : (table.publish key' stamp).cells at_ = table.cells at_ := by
      rw [publish_of_cell hat']
      exact Function.update_of_ne hplace _ _
    have hagain : (table.publish key' stamp).cellOf key = some at_ := by
      refine find_congr hat (by rw [hkeep]; exact Or.inl hown) fun i hi => ?_
      rw [publish_of_cell hat']
      dsimp only
      by_cases heq : i = at'
      · -- the cell had the other key already, since it is not free
        subst heq
        rw [not_or] at hi
        rw [Function.update_self, ← (find_spec hat').resolve_right hi.2]
        exact not_or.2 hi
      · rwa [Function.update_of_ne heq]
    rw [hagain]
    dsimp only
    rw [hkeep]

end Table

end Rucc.SafeRt.Sync
