import Mathlib.Data.Int.Interval
import Mathlib.Tactic

/-!
# What may touch the same byte

The model of the part of `alias.rs` that the walk back through the memory versions asks: what a
reference says about the bytes it is to, and the layers that tell two references apart. What a layer
rests on that is not in the function itself (what the module says about its names and types, which
locals escape, what a callee does) is a field of `Alias`.
-/

namespace Rucc.Opt

/-- An instruction: its block and its place there. -/
abbrev Inst := ℕ × ℕ

/-- Where a value is defined. -/
inductive Def where
  | param (block : ℕ)
  | result (inst : Inst)
  deriving DecidableEq

/-- Where a pointer came from, as far as the function can tell. -/
inductive Origin where
  | localOf (inst : Inst)
  | global (name : ℕ)
  | unknown (value : ℕ)
  deriving DecidableEq

/-- Whether this names an object rather than an address of unknown origin. -/
def Origin.isObject : Origin → Bool
  | .localOf _ => true
  | .global _ => true
  | .unknown _ => false

/-- What `restrict` promises about an access: the scope, with zero for none, and the pointer in it. -/
structure Restrict where
  clique : ℕ
  base : ℕ
  deriving DecidableEq

/-- Whether `restrict` says these two accesses cannot touch the same byte. -/
def Restrict.disjoint (a b : Restrict) : Bool := a.clique != 0 && a.clique == b.clique && a.base != b.base

/-- One memory reference: which bytes an instruction touches and what it says about them. -/
structure Access where
  origin : Origin
  offset : Option ℤ
  size : Option ℕ
  tbaa : Option ℕ
  restrict : Restrict
  volatile : Bool
  deriving DecidableEq

/-- The half-open range of bytes this covers within its origin, when both ends are known. -/
def Access.range (a : Access) : Option (ℤ × ℤ) :=
  a.offset.bind fun offset => a.size.map fun size => (offset, offset + size)

/-- Which rule concluded that two references cannot touch the same byte. -/
inductive Reason where
  | distinct | escape | offset | tbaa | restrict | attribute | summary | plane | constant
  deriving DecidableEq

/-- What the analysis answers. -/
inductive Answer where
  | may
  | no (reason : Reason)
  deriving DecidableEq

/-- The analysis of one function: the bytes each instruction reads and writes, and what the layers rest
on. -/
structure Alias where
  reads : Inst → Option Access
  writes : Inst → Option Access
  definer : ℕ → Def
  escaped : Inst → Bool
  constant : ℕ → Bool
  oneObject : ℕ → Bool
  strictAliasing : Bool
  parent : ℕ → Option ℕ
  clobberedBy : Access → Inst → Answer

/-- How far up the tree of types a question goes. -/
def treeLimit : ℕ := 32

/-- One object, two byte ranges. -/
def byOffset (a b : Access) : Answer :=
  match a.range, b.range with
  | some (aStart, aEnd), some (bStart, bEnd) =>
    if aEnd ≤ bStart ∨ bEnd ≤ aStart then .no .offset else .may
  | _, _ => .may

namespace Alias

/-- Whether this reads bytes of a global declared `const`. -/
def invariant (al : Alias) (a : Access) : Bool :=
  !a.volatile && match a.origin with
    | .global name => al.constant name
    | _ => false

/-- Whether these two origins are two objects. -/
def distinct (al : Alias) : Origin → Origin → Bool
  | .localOf one, .localOf other => one != other
  | .localOf _, .global _ => true
  | .global _, .localOf _ => true
  | .global one, .global other => one != other && al.oneObject one && al.oneObject other
  | _, _ => false

/-- Whether this is a reference to a local whose address never leaves the function. -/
def isPrivate (al : Alias) (a : Access) : Bool :=
  match a.origin with
  | .localOf inst => !al.escaped inst
  | _ => false

/-- Whether the first is a local and the second is an argument the function was called with. -/
def freshAgainstArgument (al : Alias) : Origin → Origin → Bool
  | .localOf _, .unknown value => decide (al.definer value = .param 0)
  | _, _ => false

/-- Whether a type node is the other one or hangs below it. -/
def atOrBelow (al : Alias) (ancestor : ℕ) : ℕ → ℕ → Bool
  | 0, _ => true
  | limit + 1, node =>
    if node = ancestor then true
    else match al.parent node with
      | some up => al.atOrBelow ancestor limit up
      | none => false

/-- Whether two type nodes can describe the same byte. -/
def typesConflict (al : Alias) (one other : ℕ) : Bool :=
  al.atOrBelow other treeLimit one || al.atOrBelow one treeLimit other

/-- Whether what is known of the types of two references rules out that they touch the same byte. -/
def typesApart (al : Alias) (a b : Access) : Bool :=
  al.strictAliasing && match a.tbaa, b.tbaa with
    | some one, some other => !al.typesConflict one other
    | _, _ => false

/-- The layers, one after another. -/
def query (al : Alias) (a b : Access) : Answer :=
  if al.invariant a || al.invariant b then .no .constant
  else if a.volatile && b.volatile then .may
  else if a.origin.isObject && b.origin.isObject then
    if al.distinct a.origin b.origin then .no .distinct
    else if a.origin = b.origin then byOffset a b
    else .may
  else if al.isPrivate a || al.isPrivate b then .no .escape
  else if al.freshAgainstArgument a.origin b.origin || al.freshAgainstArgument b.origin a.origin then
    .no .distinct
  else if a.restrict.disjoint b.restrict then .no .restrict
  else if al.typesApart a b then .no .tbaa
  else if a.origin = b.origin then byOffset a b
  else .may

/-- Only two references to one origin are told apart by their offsets. -/
theorem query_offset {al : Alias} {a b : Access} (h : al.query a b = .no .offset) :
    a.origin = b.origin ∧ byOffset a b = .no .offset := by
  revert h
  unfold query
  repeat' split
  all_goals first
    | exact fun h => ⟨by assumption, h⟩
    | exact fun h => absurd h (by decide)

end Alias

/-- Offsets tell two ranges apart when one ends before the other. -/
theorem byOffset_eq {a b : Access} (h : byOffset a b = .no .offset) :
    ∃ aStart aEnd bStart bEnd, a.range = some (aStart, aEnd) ∧ b.range = some (bStart, bEnd) ∧
      (aEnd ≤ bStart ∨ bEnd ≤ aStart) := by
  unfold byOffset at h
  split at h
  · rename_i aStart aEnd bStart bEnd ha hb
    refine ⟨aStart, aEnd, bStart, bEnd, ha, hb, ?_⟩
    by_contra hnot
    rw [if_neg hnot] at h
    exact absurd h (by decide)
  · exact absurd h (by decide)

end Rucc.Opt
