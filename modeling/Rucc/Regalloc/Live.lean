import Mathlib.Data.List.Sort
import Rucc.Lib.Buckets
import Rucc.Regalloc.Order

/-!
# Where every value in a machine function is live

The computation of `rucc-regalloc`'s `live.rs`: what each block reads before writing (`exposed`),
which values arrive in it and leave it (`flow`), and the stretches of the line each value is live
over (`carve`). A vector indexed by block or by register is the function from its indices; the
sentinel the source fills its marks with is kept.
-/

namespace Rucc.Regalloc

open Mir Buckets

/-! ## Stretches of the line -/

/-- A stretch of the function, both ends included. -/
structure Range where
  start : ℕ
  stop : ℕ
  deriving DecidableEq

namespace Range

/-- Whether the value is live at that point. -/
def covers (r : Range) (point : ℕ) : Bool := r.start ≤ point && point ≤ r.stop

/-- Whether two values are both live anywhere. -/
def overlaps (r other : Range) : Bool := r.start ≤ other.stop && other.start ≤ r.stop

/-- The smallest stretch covering both. -/
def extend (r : Range) (point : ℕ) : Range := ⟨min r.start point, max r.stop point⟩

end Range

/-- Everywhere one value is live, and at most one more point in front of a piece. -/
structure Area where
  pieces : List Range
  also : Option ℕ

namespace Area

/-- The same area with one more point in it. -/
def extend (a : Area) (point : ℕ) : Area := { a with also := some point }

/-- One piece, stretched over the extra point when that is the one just in front of it. -/
def stretch (a : Area) (piece : Range) : Range :=
  match a.also with
  | some also => if also + 1 = piece.start then ⟨also, piece.stop⟩ else piece
  | none => piece

/-- Whether the value is live at that point: only the first piece that ends no earlier can say. -/
def covers (a : Area) (point : ℕ) : Bool :=
  match a.pieces.dropWhile (fun piece => decide (piece.stop < point)) with
  | [] => false
  | piece :: _ => (a.stretch piece).covers point

/-- The pieces themselves, in order. -/
def all (a : Area) : List Range := a.pieces.map a.stretch

/-- How many pieces there are. -/
def count (a : Area) : ℕ := a.pieces.length

/-- One piece, stretched down over the extra point when that point is the one just in front of it. -/
def piece (a : Area) (index : ℕ) : Range := a.stretch (a.pieces.getD index ⟨0, 0⟩)

/-- From the first point the value is live at to the last. -/
def hull (a : Area) : Range := ⟨(a.piece 0).start, (a.pieces.getLastD ⟨0, 0⟩).stop⟩

/-- Two lists of pieces walked together until a pair touches. Whichever piece stops first cannot reach
anything further along the other list. -/
def touch : ℕ → List Range → List Range → Bool
  | fuel + 1, one :: mine, two :: theirs =>
    if one.overlaps two then true
    else if one.stop < two.stop then touch fuel mine (two :: theirs)
    else touch fuel (one :: mine) theirs
  | _, _, _ => false

/-- Whether two values are both live somewhere, which is what stops them sharing a register. -/
def overlaps (a other : Area) : Bool := touch (a.count + other.count) a.all other.all

end Area

/-! ## A set of registers for each block -/

/-- A set of virtual registers for each block, held as the numbers in it, end to end. -/
structure Rows where
  starts : ℕ → ℕ
  numbers : ℕ → ℕ

namespace Rows

/-- The rows out of a list of which row each number goes in. -/
def gather (rows : ℕ) (pairs : List (ℕ × ℕ)) : Rows where
  starts := Buckets.starts rows (pairs.map Prod.fst)
  numbers := fun i => (scatter Prod.fst (Buckets.starts rows (pairs.map Prod.fst)) (0, 0) pairs i).2

/-- How many runs of rows `transpose` sorts a list into before the rows themselves. -/
def WAYS : ℕ := 256

/-- How many low bits of a row's index its run leaves out. -/
def shiftFor (rows : ℕ) : ℕ → ℕ → ℕ
  | 0, shift => shift
  | fuel + 1, shift => if rows > WAYS <<< shift then shiftFor rows fuel (shift + 1) else shift

/-- The same rows out of a list that comes a value at a time, sorted into runs of neighbouring rows
first. -/
def transpose (rows : ℕ) (pairs : List (ℕ × ℕ)) : Rows :=
  let shift := shiftFor rows rows 0
  if shift = 0 then gather rows pairs
  else
    { starts := Buckets.starts rows (pairs.map Prod.fst)
      numbers := fun i =>
        (scatter Prod.fst (Buckets.starts rows (pairs.map Prod.fst)) (0, 0)
          (runs Prod.fst shift rows (0, 0) pairs) i).2 }

/-- The numbers of a row. -/
def row (r : Rows) (b : ℕ) : List ℕ := slice r.numbers (r.starts b) (r.starts (b + 1))

end Rows

/-- One block's set while it is being worked out: a flag for each register, and what was set. -/
structure Building where
  vregs : ℕ
  flags : ℕ → Bool
  touched : List ℕ

namespace Building

/-- An empty set. -/
def new (vregs : ℕ) : Building := ⟨vregs, fun _ => false, []⟩

/-- The register's number, or nothing for one that is not tracked. -/
def number (s : Building) : Reg → Option ℕ
  | .virtualReg number => if number < s.vregs then some number else none
  | .physical _ => none

/-- The set with a register in it. -/
def insert (s : Building) (reg : Reg) : Building :=
  match s.number reg with
  | none => s
  | some number =>
    if s.flags number then s
    else { s with flags := Function.update s.flags number true, touched := s.touched ++ [number] }

/-- The set without a register. -/
def remove (s : Building) (reg : Reg) : Building :=
  match s.number reg with
  | none => s
  | some number => { s with flags := Function.update s.flags number false }

/-- The numbers of a list whose flag is set, each flag cleared as it is found. -/
def drain : List ℕ → (ℕ → Bool) → List ℕ × (ℕ → Bool)
  | [], flags => ([], flags)
  | number :: rest, flags =>
    let (out, flags') := drain rest (Function.update flags number false)
    (if flags number then number :: out else out, flags')

/-- What is in the set, in order, and the set emptied for the next block. -/
def take (s : Building) : List ℕ × Building :=
  let (out, flags) := drain s.touched s.flags
  (out.insertionSort (· ≤ ·), { s with flags := flags, touched := [] })

end Building

/-! ## What a block reads before writing, and what it writes -/

/-- An instruction scanned backwards: what it writes is not wanted from anybody before it, and what
it reads is. -/
def scan (s : Building × Building) (operands : List Operand) : Building × Building :=
  let s := (operands.filter (fun o => o.role.isDef)).foldl
    (fun s o => (s.1.remove o.reg, s.2.insert o.reg)) s
  ((operands.filter (fun o => !o.role.isDef)).foldl (fun reads o => reads.insert o.reg) s.1, s.2)

/-- A block scanned backwards, from the arguments it leaves with to its parameters. -/
def scanBlock (data : BlockData) (s : Building × Building) : Building × Building :=
  let reads := data.succs.foldl (fun reads call => call.args.foldl Building.insert reads) s.1
  let s := data.insts.reverse.foldl scan (reads, s.2)
  data.params.foldl (fun s param => (s.1.remove param.reg, s.2.insert param.reg)) s

/-- What `exposed` has gathered: the pairs for the two sets of rows, and the two sets to reuse. -/
structure Exposing where
  used : List (ℕ × ℕ)
  defined : List (ℕ × ℕ)
  sets : Building × Building

/-- One block's part of `exposed`. -/
def expose (f : Func) (s : Exposing) (b : ℕ) : Exposing :=
  let sets := scanBlock (f.block b) s.sets
  let (reads, left) := sets.1.take
  let (writes, left') := sets.2.take
  ⟨s.used ++ reads.map (fun number => (b, number)),
    s.defined ++ writes.map (fun number => (b, number)), (left, left')⟩

/-- What each block reads before writing, and what it writes. -/
def exposed (f : Func) (order : Order) : Rows × Rows :=
  let s := order.blocks.foldl (expose f)
    ⟨[], [], (Building.new f.vregs, Building.new f.vregs)⟩
  (Rows.gather f.blockCount s.used, Rows.gather f.blockCount s.defined)

/-! ## What arrives live in each block, and what leaves live -/

/-- The predecessors of each block, once for each edge. -/
def predecessors (f : Func) (order : Order) : ℕ → List ℕ :=
  order.blocks.foldl (fun preds b =>
    (f.block b).succs.foldl
      (fun preds call => Function.update preds call.block (preds call.block ++ [b])) preds)
    (fun _ => [])

/-- Which blocks have each value in their row, by value, end to end. -/
def byValue (vregs : ℕ) (order : Order) (rows : Rows) : Rows :=
  Rows.gather vregs (order.blocks.flatMap (fun b => (rows.row b).map (fun number => (number, b))))

/-- The mark of a block no value has reached yet. -/
def UNMARKED : ℕ := 2^32 - 1

/-- The last value each block was found live into and live out of and written in, and the pairs
found so far. -/
structure Flow where
  arrived : ℕ → ℕ
  left : ℕ → ℕ
  wrote : ℕ → ℕ
  liveIn : List (ℕ × ℕ)
  liveOut : List (ℕ × ℕ)

/-- A block the value is found live into, marked and put on the list of those to follow. -/
def arrive (value : ℕ) (s : Flow × List ℕ) (row : ℕ) : Flow × List ℕ :=
  ({ s.1 with arrived := Function.update s.1.arrived row value,
              liveIn := s.1.liveIn ++ [(row, value)] }, row :: s.2)

/-- A predecessor of a block the value is live into: the value leaves it, and arrives in it unless
it is written there. -/
def follow (value : ℕ) (s : Flow × List ℕ) (pred : ℕ) : Flow × List ℕ :=
  let s := if s.1.left pred ≠ value then
      ({ s.1 with left := Function.update s.1.left pred value,
                  liveOut := s.1.liveOut ++ [(pred, value)] }, s.2)
    else s
  if s.1.arrived pred ≠ value ∧ s.1.wrote pred ≠ value then arrive value s pred else s

/-- The walk back from the blocks that wait, through their predecessors. -/
def walk (preds : ℕ → List ℕ) (value : ℕ) : ℕ → Flow × List ℕ → Flow × List ℕ
  | 0, s => s
  | fuel + 1, s =>
    match s.2 with
    | [] => s
    | row :: rest => walk preds value fuel ((preds row).foldl (follow value) (s.1, rest))

/-- One value: its writers marked, its readers put on the list, and the walk. A block is put on the
list at most once, so there are at most as many visits as blocks. -/
def flowValue (count : ℕ) (preds : ℕ → List ℕ) (readers writers : Rows) (s : Flow) (value : ℕ) :
    Flow :=
  let wrote := (writers.row value).foldl (fun wrote row => Function.update wrote row value) s.wrote
  let s := { s with wrote := wrote }
  let s := (readers.row value).foldl
    (fun s row => if s.1.arrived row ≠ value then arrive value s row else s) (s, [])
  (walk preds value count s).1

/-- The fixpoint: what arrives live in each block, and what leaves live. -/
def flow (f : Func) (order : Order) (used defined : Rows) : Rows × Rows :=
  let s := (List.range f.vregs).foldl
    (flowValue f.blockCount (predecessors f order) (byValue f.vregs order used)
      (byValue f.vregs order defined))
    ⟨fun _ => UNMARKED, fun _ => UNMARKED, fun _ => UNMARKED, [], []⟩
  (Rows.transpose f.blockCount s.liveIn, Rows.transpose f.blockCount s.liveOut)

/-! ## The pieces -/

/-- The stretch of the block being carved each value is live over, and which values have one. -/
structure Here where
  stretch : ℕ → Option Range
  touched : List ℕ

/-- Says that a value is live at a point of the block being carved. -/
def note (vregs : ℕ) (here : Here) (reg : Reg) (point : ℕ) : Here :=
  match reg with
  | .physical _ => here
  | .virtualReg number =>
    if number < vregs then
      match here.stretch number with
      | some range =>
        { here with stretch := Function.update here.stretch number (some (range.extend point)) }
      | none => ⟨Function.update here.stretch number (some ⟨point, point⟩),
          here.touched ++ [number]⟩
    else here

/-- The points an operand is live at on account of its instruction. -/
def pointsOf (early late : ℕ) : Role → List ℕ
  | .use => [early]
  | .define => [late]
  | .earlyDefine => [early, late]

/-- Everything a block says about where values are live in it. -/
def notes (f : Func) (order : Order) (liveIn liveOut : Rows) (b : ℕ) : List (Reg × ℕ) :=
  (liveIn.row b).map (fun number => (.virtualReg number, order.start b)) ++
  (liveOut.row b).map (fun number => (.virtualReg number, order.stop b)) ++
  (f.block b).params.map (fun param => (param.reg, order.start b)) ++
  (List.range (f.block b).insts.length).flatMap (fun k =>
    (f.operands b k).flatMap (fun o =>
      (pointsOf (order.early b k) (order.late b k) o.role).map (fun point => (o.reg, point)))) ++
  (f.block b).succs.flatMap (fun call => call.args.map (fun arg => (arg, order.stop b)))

/-- The pieces found so far with whose each is, and where each value's last one is. -/
structure Found where
  pieces : List (ℕ × Range)
  last : ℕ → Option ℕ

/-- A value's stretch of a block, joined to its last piece when it begins where that one stopped. -/
def keep (s : Found × Here) (number : ℕ) : Found × Here :=
  match s.2.stretch number with
  | none => s
  | some piece =>
    let here := { s.2 with stretch := Function.update s.2.stretch number none }
    let found := s.1
    match (found.last number).bind (fun i => (found.pieces[i]?).map (fun p => (i, p))) with
    | some (i, previous) =>
      if previous.2.stop + 1 = piece.start then
        ({ found with pieces :=
            found.pieces.set i (previous.1, ⟨previous.2.start, piece.stop⟩) }, here)
      else (⟨found.pieces ++ [(number, piece)],
        Function.update found.last number (some found.pieces.length)⟩, here)
    | none => (⟨found.pieces ++ [(number, piece)],
        Function.update found.last number (some found.pieces.length)⟩, here)

/-- One block's part of `carve`. -/
def carveBlock (f : Func) (order : Order) (liveIn liveOut : Rows) (s : Found × Here) (b : ℕ) :
    Found × Here :=
  let here := (notes f order liveIn liveOut b).foldl (fun here n => note f.vregs here n.1 n.2) s.2
  let s := here.touched.foldl keep (s.1, here)
  (s.1, { s.2 with touched := [] })

/-- The pieces of every value, end to end by value, and where each value's are. -/
def carve (f : Func) (order : Order) (liveIn liveOut : Rows) : (ℕ → Range) × (ℕ → ℕ) :=
  let s := order.blocks.foldl (carveBlock f order liveIn liveOut)
    (⟨[], fun _ => none⟩, ⟨fun _ => none, []⟩)
  let start := starts f.vregs (s.1.pieces.map Prod.fst)
  (fun i => (scatter Prod.fst start (0, ⟨0, 0⟩) s.1.pieces i).2, start)

/-- What is live where. -/
structure Live where
  vregs : ℕ
  liveInRows : Rows
  liveOutRows : Rows
  pieces : ℕ → Range
  spans : ℕ → ℕ

namespace Live

/-- Works it out for a function laid out in that order. -/
def of (f : Func) (order : Order) : Live :=
  let (used, defined) := exposed f order
  let (liveIn, liveOut) := flow f order used defined
  let (pieces, spans) := carve f order liveIn liveOut
  ⟨f.vregs, liveIn, liveOut, pieces, spans⟩

/-- Every virtual register that arrives in a block already holding a value. -/
def liveIn (l : Live) (b : ℕ) : List ℕ := l.liveInRows.row b

/-- Every virtual register that is still wanted after a block. -/
def liveOut (l : Live) (b : ℕ) : List ℕ := l.liveOutRows.row b

/-- Everywhere a virtual register is live, as it is stored. -/
def piecesOf (l : Live) : Reg → List Range
  | .physical _ => []
  | .virtualReg number =>
    if number < l.vregs then slice l.pieces (l.spans number) (l.spans (number + 1)) else []

/-- Everywhere a register is live, or nothing for one the function never mentions. -/
def area (l : Live) (reg : Reg) : Option Area :=
  match l.piecesOf reg with
  | [] => none
  | pieces => some ⟨pieces, none⟩

end Live

end Rucc.Regalloc
