import Mathlib.Data.List.Destutter
import Rucc.Regalloc.Live

/-!
# The values in flight during the linear scan

The bookkeeping of `rucc-regalloc`'s `assign.rs`: the values that have a register, by the register each is
in (`Active`), and for a register that holds more than a few a list of their pieces to ask instead of the
values (`Pieces`). A vector indexed by class or by register is the function from its indices. What a value
that loses its register is given instead is not kept here.
-/

namespace Rucc.Regalloc

open Mir

/-- What registers are put in order by: the top bit, which says that the rest is a physical register, and
then the number. -/
def bits : Reg → ℕ ×ₗ ℕ
  | .virtualReg number => toLex (0, number)
  | .physical reg => toLex (1, reg)

/-- One value waiting for a place. -/
structure Interval where
  reg : Reg
  cls : RegClass
  /-- The interval around the area, which is what the sweep reads. -/
  range : Range
  area : Area

/-- The interval of a value, with the point an instruction reads the value it is written over at. -/
def interval (f : Func) (live : Live) (reuses : ℕ → Option ℕ) (number : ℕ) : Option Interval :=
  match live.area (.virtualReg number), f.classes[number]? with
  | some area, some cls =>
    let area := (reuses number).elim area area.extend
    some ⟨.virtualReg number, cls, area.hull, area⟩
  | _, _ => none

/-- The order intervals are taken up in: by where they start, then by the value. -/
def earlier (one other : Interval) : Prop :=
  toLex (one.range.start, bits one.reg) ≤ toLex (other.range.start, bits other.reg)

instance : DecidableRel earlier := fun _ _ => inferInstanceAs (Decidable (_ ≤ _))

/-- The intervals of the values of a function, in order. -/
def intervals (f : Func) (live : Live) (reuses : ℕ → Option ℕ) : List Interval :=
  ((List.range f.vregs).filterMap (interval f live reuses)).insertionSort earlier

/-- One value that has a register, for as long as it still wants it. -/
structure Held where
  reg : Reg
  cls : RegClass
  range : Range
  area : Area
  place : PhysReg
  /-- How many values were given a register before this one. -/
  since : ℕ

/-- How many values a register can hold before its pieces are kept in a list. -/
def FEW : ℕ := 4

/-- The last point there is. -/
def POINT_MAX : ℕ := 2^32 - 1

/-! ## The list of pieces -/

/-- A piece of a value and whose it is. -/
structure Entry where
  start : ℕ
  stop : ℕ
  owner : Reg
  deriving DecidableEq

/-- The pieces of every value of one class in one register, sorted by where they start. -/
structure Pieces where
  list : List Entry
  /-- Whether a piece went in that ends before one in front of it. -/
  broken : Bool
  /-- Whether the list is kept at all. -/
  kept : Bool

namespace Pieces

/-- A list not kept. -/
def none_ : Pieces := ⟨[], false, false⟩

/-- Whether an entry goes in front of a piece that is put in: by its start, then by its end. -/
def upTo (piece : Range) (e : Entry) : Bool :=
  decide (toLex (e.start, e.stop) ≤ toLex (piece.start, piece.stop))

/-- Puts a piece in. -/
def insert (p : Pieces) (piece : Range) (reg : Reg) : Pieces :=
  let front := p.list.takeWhile (upTo piece)
  let back := p.list.dropWhile (upTo piece)
  let after := front.getLast?.all fun last => last.stop ≤ piece.stop
  let before := back.head?.all fun next => piece.stop ≤ next.stop
  { p with
    list := front ++ ⟨piece.start, piece.stop, reg⟩ :: back
    broken := p.broken || !(after && before) }

/-- Takes a piece out. -/
def remove (p : Pieces) (piece : Range) (reg : Reg) : Pieces :=
  let front := p.list.takeWhile fun e => e.start < piece.start
  let back := p.list.dropWhile fun e => e.start < piece.start
  match (back.takeWhile fun e => e.start = piece.start).findIdx?
      fun e => e.stop = piece.stop && e.owner = reg with
  | some offset => { p with list := front ++ back.eraseIdx offset }
  | none => p

/-- Lets go of the pieces that end before a point, which are the ones at the front while the ends are in
order. -/
def dropBefore (p : Pieces) (point : ℕ) : Pieces :=
  if p.broken then p else { p with list := p.list.dropWhile fun e => e.stop < point }

/-- The pieces that start no later than one ends, the last of them first. -/
def below (p : Pieces) (piece : Range) : List Entry :=
  (p.list.takeWhile fun e => e.start ≤ piece.stop).reverse

/-- Whether a piece of a value other than `except` touches the area. -/
def touch (p : Pieces) (area : Area) (except : Option Reg) : Bool :=
  area.all.any fun piece =>
    ((p.below piece).find? fun e => some e.owner ≠ except).any fun last => piece.start ≤ last.stop

/-- Every value with a piece that touches the area, each once and in order, or nothing for a list whose
ends are out of order. -/
def owners (p : Pieces) (area : Area) : Option (List Reg) :=
  if p.broken then none
  else
    let owners := area.all.flatMap fun piece =>
      ((p.below piece).takeWhile fun e => piece.start ≤ e.stop).map Entry.owner
    some ((owners.insertionSort fun one other => bits one ≤ bits other).destutter (· ≠ ·))

/-- Every piece of an area put in. -/
def insertAll (p : Pieces) (area : Area) (reg : Reg) : Pieces :=
  area.all.foldl (fun p piece => p.insert piece reg) p

/-- Every piece of an area taken out. -/
def removeAll (p : Pieces) (area : Area) (reg : Reg) : Pieces :=
  area.all.foldl (fun p piece => p.remove piece reg) p

end Pieces

/-! ## The values by register -/

/-- The values that have a register, kept by the register each is in. -/
structure Active where
  held : PhysReg → List Held
  /-- For each register, a point no value in it ends before. -/
  soonest : PhysReg → ℕ
  /-- How many values have been given a register so far. -/
  count : ℕ
  /-- The pieces of the values in each register, by class and then by register. -/
  pieces : RegClass → PhysReg → Pieces

namespace Active

/-- No value in any register. -/
def empty : Active := ⟨fun _ => [], fun _ => POINT_MAX, 0, fun _ _ => Pieces.none_⟩

/-- The pieces of one class in one register replaced. -/
def setPieces (pieces : RegClass → PhysReg → Pieces) (cls : RegClass) (slot : PhysReg) (p : Pieces) :
    RegClass → PhysReg → Pieces :=
  Function.update pieces cls (Function.update (pieces cls) slot p)

/-- Gives a value a register. The list of the register's pieces is started once it holds enough values to
be worth one, with what is already there. -/
def push (a : Active) (i : Interval) (slot : PhysReg) : Active :=
  let held := a.held slot ++ [⟨i.reg, i.cls, i.range, i.area, slot, a.count⟩]
  let pieces := a.pieces i.cls slot
  let pieces :=
    if pieces.kept then (pieces.dropBefore i.range.start).insertAll i.area i.reg
    else if FEW < held.length then
      (held.filter fun h => h.cls = i.cls).foldl (fun p h => p.insertAll h.area h.reg)
        { pieces with kept := true }
    else pieces
  { held := Function.update a.held slot held
    soonest := Function.update a.soonest slot (min (a.soonest slot) i.range.stop)
    count := a.count + 1
    pieces := setPieces a.pieces i.cls slot pieces }

/-- What the list of a register's pieces says, or nothing when it is not kept or not in order. -/
def listed (a : Active) (cls : RegClass) (slot : PhysReg) (area : Area) (except : Option Reg) :
    Option Bool :=
  let pieces := a.pieces cls slot
  if pieces.kept && !pieces.broken then some (pieces.touch area except) else none

/-- What the values in the register say. -/
def walked (a : Active) (cls : RegClass) (slot : PhysReg) (area : Area) (except : Option Reg) : Bool :=
  (a.held slot).any fun h => h.cls = cls && some h.reg ≠ except && h.area.overlaps area

/-- Whether a value of the class in the register other than `except` is live anywhere the area is. -/
def taken (a : Active) (cls : RegClass) (slot : PhysReg) (area : Area) (except : Option Reg) : Bool :=
  match if FEW < (a.held slot).length then a.listed cls slot area except else none with
  | some answer => answer
  | none => a.walked cls slot area except

/-- The values of the class in a register that touch the area, from its list of pieces, or nothing when the
list is not kept or not in order. -/
def owners (a : Active) (cls : RegClass) (slot : PhysReg) (area : Area) : Option (List Reg) :=
  let pieces := a.pieces cls slot
  if pieces.kept then pieces.owners area else none

/-- The values of an interval's class in a register that touch it, which is what taking the register for it
would cost. -/
def costing (a : Active) (i : Interval) (slot : PhysReg) : List Held :=
  let owners := if FEW < (a.held slot).length then a.owners i.cls slot i.area else none
  (a.held slot).filter fun h => h.cls = i.cls && owners.elim (h.area.overlaps i.area) fun l => h.reg ∈ l

/-- Takes the values of the class in a register that are to go. -/
def evict (a : Active) (cls : RegClass) (slot : PhysReg) (goes : Held → Bool) : Active :=
  let taken := (a.held slot).filter fun h => h.cls = cls && goes h
  let pieces := a.pieces cls slot
  { a with
    held := Function.update a.held slot ((a.held slot).filter fun h => !(h.cls = cls && goes h))
    pieces := setPieces a.pieces cls slot
      (if pieces.kept then taken.foldl (fun p h => p.removeAll h.area h.reg) pieces else pieces) }

/-- Lets go of every value whose interval ends before a point. A register whose values all end at or after
the point is not walked at all. -/
def expire (a : Active) (point : ℕ) : Active :=
  let held := fun slot =>
    if point ≤ a.soonest slot then a.held slot
    else (a.held slot).filter fun h => point ≤ h.range.stop
  { a with
    held := held
    soonest := fun slot =>
      if point ≤ a.soonest slot then a.soonest slot
      else ((held slot).map fun h => h.range.stop).min?.getD POINT_MAX }

end Active

/-! ## The scan -/

/-- The states of the values in flight over a scan of a line of intervals: how many have been taken up,
whether the last of those has been given its register, and the point it starts at. An interval is taken up
by letting go of what has ended before it. It is then left without a register, or given one, perhaps after
the values it touches there have been sent away. -/
inductive Scanned (line : List Interval) : ℕ → Bool → ℕ → Active → Prop
  | start : Scanned line 0 true 0 Active.empty
  | expire {n : ℕ} {placed : Bool} {point : ℕ} {a : Active} (h : Scanned line n placed point a)
      (hn : n < line.length) :
      Scanned line (n + 1) false (line.get ⟨n, hn⟩).range.start
        (a.expire (line.get ⟨n, hn⟩).range.start)
  | evict {n point : ℕ} {a : Active} (h : Scanned line (n + 1) false point a) (hn : n < line.length)
      (slot : PhysReg) (goes : Held → Bool) :
      Scanned line (n + 1) false point (a.evict (line.get ⟨n, hn⟩).cls slot goes)
  | push {n point : ℕ} {a : Active} (h : Scanned line (n + 1) false point a) (hn : n < line.length)
      (slot : PhysReg) :
      Scanned line (n + 1) true point (a.push (line.get ⟨n, hn⟩) slot)

end Rucc.Regalloc
