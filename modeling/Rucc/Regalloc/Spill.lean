import Rucc.Lib.U128
import Rucc.Regalloc.Pressure

/-!
# Which values go to memory before any register is handed out

The choice of `rucc-regalloc`'s `spill.rs`: the lightest values first at each point where more are live
than there is room for (`sweep`), and then each value that went weighed against the ones that would go in
its place (`trade`). A vector indexed by candidate is the function from its indices; the ordered set and
the heap are lists kept in order.
-/

namespace Rucc.Regalloc.Spill

open Mir

/-- What a result too large for its type comes to: a build stops at it, or drops what is past the top. -/
inductive Overflow where
  | panics
  | wraps
  deriving DecidableEq

/-- A result of so many bits, or nothing where the build stops. -/
def Overflow.fit : Overflow → ℕ → ℕ → Option ℕ
  | panics, bits, value => if value < 2^bits then some value else none
  | wraps, bits, value => some (value % 2^bits)

/-- One value that could go to memory. -/
structure Candidate where
  reg : Reg
  area : Area
  weight : ℕ
  cost : BitVec 128
  size : ℕ

/-- How much of the line a value is live over. -/
def size (area : Area) : ℕ := (area.all.map fun piece => piece.stop - piece.start + 1).sum

section

variable (build : Overflow)

/-- The candidate a value is, with its class, or nothing for one that is never live or goes to the stack
anyway. -/
def candidate (f : Func) (live : Live) (costs : List (BitVec 128)) (stack : List Reg) (number : ℕ) :
    Option (Option (RegClass × Candidate)) :=
  match live.area (.virtualReg number), f.classes[number]? with
  | some area, some cls =>
    if .virtualReg number ∈ stack then some none
    else do
      let cost ← costs[number]?
      let scaled ← build.fit 128 (cost.toNat * 1024)
      let length ← build.fit 32 (size area + 8)
      if length = 0 then none
      else some (some (cls, ⟨.virtualReg number, area, scaled / length, cost, size area⟩))
  | _, _ => some none

/-! ## The values of one class -/

/-- Which of two values is the lighter one, the longer of two alike, the first of two alike in both. -/
def lighter (candidates : ℕ → Candidate) (one other : ℕ) : Prop :=
  toLex ((candidates one).weight, toLex (OrderDual.toDual (candidates one).size, one)) ≤
    toLex ((candidates other).weight, toLex (OrderDual.toDual (candidates other).size, other))

instance (candidates : ℕ → Candidate) : DecidableRel (lighter candidates) := fun _ _ =>
  inferInstanceAs (Decidable (_ ≤ _))

/-- The order of the changes: by point, then by value. -/
def sooner (change other : ℕ × ℕ) : Prop := toLex change ≤ toLex other

instance : DecidableRel sooner := fun _ _ => inferInstanceAs (Decidable (_ ≤ _))

/-- What the walk along the points keeps. -/
structure Sweep where
  /-- The values live at the point being looked at, lightest first. -/
  here : List ℕ
  /-- When each value next goes in or comes out, soonest first. -/
  changes : List (ℕ × ℕ)
  /-- Which piece each value is at. -/
  piece : ℕ → ℕ
  /-- Whether each value is in `here` for its piece. -/
  inside : ℕ → Bool
  /-- The values already sent to memory. -/
  gone : ℕ → Bool
  pressure : Pressure

variable (cls : RegClass) (count : ℕ) (candidates : ℕ → Candidate)

/-- A value coming out of `here` at the end of its piece. -/
def leave (s : Sweep) (one : ℕ) : Sweep :=
  let area := (candidates one).area
  let piece := s.piece one + 1
  { s with
    here := s.here.erase one
    inside := Function.update s.inside one false
    piece := Function.update s.piece one piece
    changes :=
      if piece < area.count then s.changes.orderedInsert sooner ((area.piece piece).start, one)
      else s.changes }

/-- A value going into `here` at the start of its piece. The point after the last one of a piece is a
point number too, so there is always a change to make there. -/
def enter (s : Sweep) (one : ℕ) : Sweep :=
  { s with
    here := if one ∈ s.here then s.here else s.here.orderedInsert (lighter candidates) one
    inside := Function.update s.inside one true
    changes := s.changes.orderedInsert sooner
      ((((candidates one).area.piece (s.piece one)).stop + 1, one)) }

/-- One change taken off the heap. -/
def change (s : Sweep) (one : ℕ) : Sweep :=
  if s.gone one then s
  else if s.inside one then leave candidates s one
  else enter candidates s one

/-- The changes up to a point. -/
def advance (point : ℕ) : ℕ → Sweep → Sweep
  | 0, s => s
  | fuel + 1, s =>
    match s.changes with
    | [] => s
    | (when_, one) :: rest =>
      if when_ > point then s
      else advance point fuel (change candidates { s with changes := rest } one)

/-- The lightest values sent to memory until no more are over the room at the point. -/
def settle (point : ℕ) : List ℕ → Sweep → Sweep
  | [], s => s
  | one :: rest, s =>
    if 0 < s.pressure.excess cls point then
      settle point rest
        { s with
          here := rest
          gone := Function.update s.gone one true
          pressure := s.pressure.lift cls (candidates one).area }
    else s

/-- How many changes there are at the most: each value once more than its pieces start and end. -/
def changesOf : ℕ := ∑ one ∈ Finset.range count, (2 * (candidates one).area.count + 1)

/-- One point that was over to begin with. -/
def visit (s : Sweep) (point : ℕ) : Sweep :=
  if s.pressure.excess cls point = 0 then s
  else
    let s := advance candidates point (changesOf count candidates) s
    settle cls candidates point s.here s

/-- The walk before its first point. -/
def start (pressure : Pressure) : Sweep where
  here := []
  changes := ((List.range count).map fun one => ((candidates one).area.hull.start, one)).insertionSort sooner
  piece := fun _ => 0
  inside := fun _ => false
  gone := fun _ => false
  pressure := pressure

/-- The walk along the points of a class that are over. -/
def sweep (pressure : Pressure) : Sweep :=
  (pressure.over_ cls).foldl (visit cls count candidates) (start count candidates pressure)

/-! ## Trading a value that went for the ones beside it -/

/-- How many times `trade` may ask whether a value covers a point, for one class of one function. -/
def TRADES : ℕ := 1000000

/-- The values that would go in a value's place, what they cost, and the counts without them. -/
structure Trying where
  instead : List ℕ
  spent : ℕ
  pressure : Pressure
  work : ℕ

/-- One point that is over again: the values beside go until it is not, and the flag says that the points
are left where they are. At each turn one more value is off the point, so as many turns as it is over do. -/
def tradePoint (beside : List ℕ) (cost : BitVec 128) (point : ℕ) : ℕ → Trying → Option (Trying × Bool)
  | 0, t => some (t, false)
  | fuel + 1, t =>
    if 0 < t.pressure.excess cls point then
      match beside.find? fun other => other ∉ t.instead && (candidates other).area.covers point with
      | none => some ({ t with spent := U128.MAX, work := t.work + beside.length }, true)
      | some other => do
        let spent ← build.fit 128 (t.spent + (candidates other).cost.toNat)
        let t := ⟨t.instead ++ [other], spent, t.pressure.lift cls (candidates other).area,
          t.work + beside.length⟩
        if cost.toNat ≤ spent then some (t, true) else tradePoint beside cost point fuel t
    else some (t, false)

/-- The points that are over again, until the values beside cost as much. -/
def tradePoints (beside : List ℕ) (cost : BitVec 128) : List ℕ → Trying → Option Trying
  | [], t => some t
  | point :: rest, t => do
    let (t, broke) ← tradePoint build cls candidates beside cost point
      (t.pressure.excess cls point) t
    if broke then some t else tradePoints beside cost rest t

/-- What `trade` changes. -/
structure Trade where
  gone : ℕ → Bool
  pressure : Pressure
  work : ℕ

/-- The points of an area, in order. -/
def pointsIn (area : Area) : List ℕ :=
  area.all.flatMap fun piece => List.range' piece.start (piece.stop + 1 - piece.start)

/-- One value that went, put back where the values beside it cost less. -/
def tradeOne (ranked : List ℕ) (s : Trade) (one : ℕ) : Option Trade := do
  let value := candidates one
  let pressure := s.pressure.lower cls value.area
  let over_ := (pointsIn value.area).filter fun point => 0 < pressure.excess cls point
  let beside := if over_.isEmpty then [] else
    ranked.filter fun other => !s.gone other && (candidates other).area.overlaps value.area
  let t ← tradePoints build cls candidates beside value.cost over_ ⟨[], 0, pressure, s.work⟩
  if t.spent < value.cost.toNat then
    some ⟨t.instead.foldl (fun gone other => Function.update gone other true)
      (Function.update s.gone one false), t.pressure, t.work⟩
  else
    let pressure := t.instead.foldl (fun p other => p.lower cls (candidates other).area) t.pressure
    some ⟨s.gone, pressure.lift cls value.area, t.work⟩

/-- The values that went, heaviest first, until there has been too much asking. -/
def tradeAll (ranked : List ℕ) : List ℕ → Trade → Option Trade
  | [], s => some s
  | one :: rest, s => do
    let s ← tradeOne build cls candidates ranked s one
    if s.work > TRADES then some s else tradeAll ranked rest s

/-- Gives back to a register each value sent to memory whose place there the values beside it can take
for less, heaviest first. -/
def trade (gone : ℕ → Bool) (pressure : Pressure) : Option Trade :=
  let sent := ((List.range count).filter fun one => gone one).insertionSort
    fun one other => (candidates other).cost.toNat ≤ (candidates one).cost.toNat
  tradeAll build cls candidates ((List.range count).insertionSort (lighter candidates)) sent
    ⟨gone, pressure, 0⟩

/-! ## Every class -/

/-- The candidates of a class, by where they start, as the function from their indices. -/
def table (found : List Candidate) (one : ℕ) : Candidate :=
  (found.insertionSort fun one other => one.area.hull.start ≤ other.area.hull.start).getD one
    ⟨.physical 0, ⟨[], none⟩, 0, 0, 0⟩

/-- One class: the walk, the trades, and the values that went. -/
def chooseIn (found : List (RegClass × Candidate)) (s : Pressure × List Reg) (cls : RegClass) :
    Option (Pressure × List Reg) := do
  let candidates := (found.filter fun one => one.1 = cls).map Prod.snd
  let count := candidates.length
  let swept := sweep cls count (table candidates) s.1
  let traded ← trade build cls count (table candidates) swept.gone swept.pressure
  some (traded.pressure, s.2 ++
    ((List.range count).filter fun one => traded.gone one).map fun one => (table candidates one).reg)

/-- The values to send to memory before any register is handed out, lightest first at each point where
more are live than there is room for. The classes are taken in the order of their numbers. -/
def with_ (f : Func) (live : Live) (pressure : Pressure) (costs : List (BitVec 128)) (stack : List Reg) :
    Option (List Reg) := do
  let found ← (List.range f.vregs).mapM (candidate build f live costs stack)
  let found := found.reduceOption
  let classes := ((found.map Prod.fst).dedup).insertionSort (· ≤ ·)
  let s ← classes.foldlM (chooseIn build found) (pressure, [])
  some s.2

end

end Rucc.Regalloc.Spill
