import Rucc.Base.Intern
import Rucc.Lib.SortedSets

/-!
# Hide sets

`hide.rs`: the sets of macro names a token refuses to be expanded by again. Each distinct set is stored once, as its
names in order, and a token carries the index of its set. What an operation answered before is kept by what it was
asked. The hash maps are functions from their keys, and a `none` is a panic: an index of another table, or more sets
than an index has numbers.
-/

namespace Rucc.Base

/-- Symbols are in the order they were interned in. -/
instance : LinearOrder Symbol where
  le a b := a.raw ≤ b.raw
  le_refl a := Nat.le_refl a.raw
  le_trans a b c := Nat.le_trans
  le_antisymm := by
    rintro ⟨a⟩ ⟨b⟩ hab hba
    exact congrArg Symbol.mk (Nat.le_antisymm hab hba)
  le_total a b := Nat.le_total a.raw b.raw
  toDecidableLE a b := inferInstanceAs (Decidable (a.raw ≤ b.raw))
  toDecidableEq := inferInstance

end Rucc.Base

namespace Rucc.Pp

open Base SortedSets

/-- An interned set of macro names. -/
structure HideSet where
  raw : ℕ
  deriving DecidableEq

namespace HideSet

/-- The empty set, which is index zero in every table. -/
def EMPTY : HideSet := ⟨0⟩

/-- Whether this is the empty set. -/
def isEmpty (set : HideSet) : Bool := set.raw = 0

end HideSet

/-- Which of the two set operations `merge` is performing. -/
inductive Merge where
  | union
  | intersect
  deriving DecidableEq

/-- Merges two sorted slices. -/
def merge (op : Merge) (a b : List Symbol) : List Symbol :=
  match a, b with
  | x :: a, y :: b =>
    if x < y then
      if op = .union then x :: merge op a (y :: b) else merge op a (y :: b)
    else if y < x then
      if op = .union then y :: merge op (x :: a) b else merge op (x :: a) b
    else x :: merge op a b
  | a, b => if op = .union then a ++ b else []
termination_by a.length + b.length

/-- The interning table for hide sets. -/
structure HideSets where
  /-- Every distinct set, sorted, indexed by its hide set. -/
  sets : List (List Symbol)
  /-- From contents to index. -/
  map : List Symbol → Option HideSet
  /-- What `add` answered before, by what it was asked. -/
  added : HideSet × Symbol → Option HideSet
  /-- What `union` answered before, by what it was asked. -/
  unions : HideSet × HideSet → Option HideSet

namespace HideSets

/-- A table containing only the empty set. -/
def new : HideSets := ⟨[[]], Function.update (fun _ => none) [] (some .EMPTY), fun _ => none, fun _ => none⟩

/-- The members of a set, sorted. -/
def members (s : HideSets) (set : HideSet) : Option (List Symbol) := s.sets[set.raw]?

/-- Whether a name is hidden by a set. -/
def contains (s : HideSets) (set : HideSet) (name : Symbol) : Option Bool :=
  if set.isEmpty then some false
  else do
    let sorted ← s.members set
    some (binarySearch sorted name).isOk

/-- Interns a sorted set, the existing index if it has been seen. -/
def insert (s : HideSets) (sorted : List Symbol) : Option (HideSet × HideSets) :=
  match s.map sorted with
  | some found => some (found, s)
  | none =>
    if s.sets.length < 2^32 then
      some (⟨s.sets.length⟩,
        { s with sets := s.sets ++ [sorted], map := Function.update s.map sorted (some ⟨s.sets.length⟩) })
    else none

/-- The set with a name added. -/
def add (s : HideSets) (set : HideSet) (name : Symbol) : Option (HideSet × HideSets) :=
  match s.added (set, name) with
  | some found => some (found, s)
  | none => do
    let current ← s.members set
    match binarySearch current name with
    | .ok _ => some (set, s)
    | .error index =>
      let (found, s) ← s.insert (current.take index ++ name :: current.drop index)
      some (found, { s with added := Function.update s.added (set, name) (some found) })

/-- The union of two sets. -/
def union (s : HideSets) (a b : HideSet) : Option (HideSet × HideSets) :=
  if a = b ∨ b.isEmpty then some (a, s)
  else if a.isEmpty then some (b, s)
  else
    match s.unions (a, b) with
    | some found => some (found, s)
    | none => do
      let left ← s.members a
      let right ← s.members b
      let (found, s) ← s.insert (merge .union left right)
      some (found, { s with unions := Function.update s.unions (a, b) (some found) })

/-- The intersection of two sets. -/
def intersect (s : HideSets) (a b : HideSet) : Option (HideSet × HideSets) :=
  if a = b then some (a, s)
  else if a.isEmpty ∨ b.isEmpty then some (.EMPTY, s)
  else do
    let left ← s.members a
    let right ← s.members b
    s.insert (merge .intersect left right)

end HideSets

end Rucc.Pp
