import Rucc.Opt.Alias
import Rucc.Opt.Cfg

/-!
# Memory SSA

The model of `memssa.rs`: the construction of the memory chain, and the budgeted walk back along it to
the write that a read sees. Of an instruction the model keeps what these two ask: what its opcode does
to memory, its flags, and whether it orders memory. A version of memory is what defines it.
-/

namespace Rucc.Opt

/-- What an opcode does to memory. -/
inductive Effect where
  | nothing | reads | writes
  deriving DecidableEq

/-- Whether an opcode touches memory. -/
def Effect.touchesMemory (e : Effect) : Bool := e != .nothing

/-- Whether an opcode writes memory, and so produces a new version of it. -/
def Effect.writesMemory (e : Effect) : Bool := e == .writes

/-- An instruction: its opcode's effect, whether it is an `asm`, two of its flags, and whether it is an
atomic or a fence. -/
structure InstData where
  effect : Effect
  asm : Bool
  nomem : Bool
  keep : Bool
  ordered : Bool
  deriving DecidableEq

/-- A block: its instructions and every edge that its terminator names. -/
structure BlockData where
  insts : List InstData
  targets : List ℕ
  deriving DecidableEq

/-- A function. -/
structure Func where
  blocks : List BlockData
  deriving DecidableEq

namespace Func

/-- The graph of the blocks. -/
def cfg (f : Func) : Cfg := ⟨f.blocks.map BlockData.targets⟩

/-- The instructions of a block. -/
def insts (f : Func) (b : ℕ) : List InstData := ((f.blocks[b]?).map BlockData.insts).getD []

/-- The edges that the terminator of a block names. -/
def targets (f : Func) (b : ℕ) : List ℕ := ((f.blocks[b]?).map BlockData.targets).getD []

/-- An instruction by its place. -/
def inst (f : Func) (i : Inst) : Option InstData := (f.insts i.1)[i.2]?

/-- Whether an instruction touches memory. -/
def touches (f : Func) (i : Inst) : Bool := (f.inst i).any fun data => data.effect.touchesMemory

/-- Whether an instruction writes memory. -/
def writes (f : Func) (i : Inst) : Bool := (f.inst i).any fun data => data.effect.writesMemory

end Func

/-- A version of memory: the one the function starts with, the parameter of a block, or what an
instruction produces. -/
inductive Version where
  | entry
  | param (block : ℕ)
  | result (inst : Inst)
  deriving DecidableEq

/-- A function on the memory chain: the blocks with a memory parameter, the version that each
instruction takes, and the version that each block ends with, which its edges carry to such blocks. -/
structure Chain where
  params : List ℕ
  memIn : Inst → Option Version
  ends : ℕ → Option Version

namespace MemSsa

/-! ## The construction -/

/-- A walk up the tree from where a join is come to from, the join noted at every block on the way. -/
def walkUp (d : Doms) (block top : ℕ) : ℕ → ℕ → (ℕ → List ℕ) → Option (ℕ → List ℕ)
  | 0, runner, frontier => if runner = top then some frontier else none
  | rounds + 1, runner, frontier =>
    if runner = top then some frontier
    else
      let frontier := if block ∈ frontier runner then frontier
        else Function.update frontier runner (frontier runner ++ [block])
      match d.immediateDominator runner with
      | none => some frontier
      | some next => walkUp d block top rounds next frontier

/-- The walks for one block, when it is a join. -/
def frontiersOf (g : Cfg) (d : Doms) (frontier : ℕ → List ℕ) (block : ℕ) : Option (ℕ → List ℕ) :=
  let preds := g.predecessors block
  if preds.length < 2 then some frontier
  else match d.immediateDominator block with
    | none => some frontier
    | some top => preds.foldlM (fun frontier pred => walkUp d block top g.size pred frontier) frontier

/-- The dominance frontier of every block. -/
def frontiers (g : Cfg) (d : Doms) : Option (ℕ → List ℕ) :=
  d.rpo.foldlM (frontiersOf g d) fun _ => []

/-- The blocks to look at, the ones to get a parameter, and the ones that have been looked at or will
be. -/
structure Placing where
  work : List ℕ
  placed : List ℕ
  seen : List ℕ

/-- One block of a frontier. -/
def place (s : Placing) (target : ℕ) : Placing :=
  if target ∈ s.placed then s
  else if target ∈ s.seen then { s with placed := target :: s.placed }
  else ⟨target :: s.work, target :: s.placed, target :: s.seen⟩

/-- The frontiers of the blocks to look at, until there are none. -/
def iterate (frontier : ℕ → List ℕ) : ℕ → Placing → Option (List ℕ)
  | rounds, s =>
    match s.work with
    | [] => some s.placed
    | block :: work =>
      match rounds with
      | 0 => none
      | rounds + 1 => iterate frontier rounds ((frontier block).foldl place { s with work := work })

/-- The blocks that need a memory parameter. -/
def iteratedFrontier (g : Cfg) (d : Doms) (defs : List ℕ) : Option (List ℕ) :=
  (frontiers g d).bind fun frontier => iterate frontier (g.size + defs.length) ⟨defs.reverse, [], defs⟩

/-- The version threaded through the instructions of a block, from one place on. -/
def threadInsts (b : ℕ) : ℕ → List InstData → Version → (Inst → Option Version) →
    Version × (Inst → Option Version)
  | _, [], current, memIn => (current, memIn)
  | at_, data :: rest, current, memIn =>
    if data.effect.touchesMemory then
      threadInsts b (at_ + 1) rest (if data.effect.writesMemory then .result (b, at_) else current)
        (Function.update memIn (b, at_) (some current))
    else threadInsts b (at_ + 1) rest current memIn

/-- One block threaded. -/
def threadBlock (f : Func) (c : Chain) (block : ℕ) (incoming : Version) : Version × Chain :=
  let current := if block ∈ c.params then .param block else incoming
  let r := threadInsts block 0 (f.insts block) current c.memIn
  (r.1, { c with memIn := r.2, ends := Function.update c.ends block (some r.1) })

/-- The operand threaded through every instruction that touches memory, down the dominator tree. -/
def thread (f : Func) (d : Doms) : ℕ → List (ℕ × Version) → Chain → Option Chain
  | _, [], c => some c
  | 0, _ :: _, _ => none
  | rounds + 1, (block, incoming) :: stack, c =>
    let r := threadBlock f c block incoming
    thread f d rounds (((d.children block).map fun child => (child, r.1)).reverse ++ stack) r.2

/-- Whether a block has an instruction that writes memory. -/
def writesIn (f : Func) (b : ℕ) : Bool := (f.insts b).any fun data => data.effect.writesMemory

/-- The blocks that define a version of memory. -/
def defs (f : Func) : List ℕ :=
  0 :: (List.range f.blocks.length).filter fun b => b ≠ 0 ∧ writesIn f b

/-- Puts a function on the memory chain, or does not when there is nothing to put on it. -/
def build (f : Func) : Option (Option Chain) :=
  if f.blocks = [] then some none
  else (Doms.new f.cfg).bind fun d =>
    -- a block nothing reaches is the caller's to delete first
    if ¬ ∀ b < f.blocks.length, b ∈ d.rpo then some none
    else if f.insts 0 = [] then some none
    else if ¬ ∃ b < f.blocks.length, (f.insts b).any fun data => data.effect.touchesMemory then some none
    else (iteratedFrontier f.cfg d (defs f)).bind fun joins =>
      (thread f d f.blocks.length [(0, .entry)] ⟨joins, fun _ => none, fun _ => none⟩).map some

/-! ## The walk -/

/-- What the walk found. -/
inductive Clobber where
  | exact (inst : Inst)
  | overlap (inst : Inst)
  | maybe (inst : Inst)
  | noClobber
  | unknown
  deriving DecidableEq

/-- What arrives at the memory parameter of a block, for each edge into it. -/
def ways (f : Func) (c : Chain) (b : ℕ) : List (Option Version) :=
  (f.cfg.predecessors b).flatMap fun p => ((f.targets p).filter (· = b)).map fun _ => c.ends p

/-- How much of the reference a write that may touch it covered. -/
def extent (reference write : Access) (i : Inst) : Clobber :=
  if reference.origin ≠ write.origin then .maybe i
  else match reference.range, write.range with
    | some want, some wrote =>
      if want = wrote then .exact i
      else if wrote.1 < want.2 ∧ want.1 < wrote.2 then .overlap i
      else .maybe i
    | _, _ => .maybe i

/-- Whether an instruction wrote the reference, and how much of it. -/
def wrote (f : Func) (al : Alias) (reference : Access) (i : Inst) : Option Clobber :=
  if al.invariant reference then none
  else if (f.inst i).any (fun data => data.asm && data.nomem) && !reference.volatile then none
  else if reference.volatile || (f.inst i).any InstData.keep then some (.maybe i)
  else if (f.inst i).any InstData.ordered then some (.maybe i)
  else match al.writes i with
    | some write =>
      match al.query reference write with
      | .no _ => none
      | .may => some (extent reference write i)
    | none =>
      match al.clobberedBy reference i with
      | .no _ => none
      | .may => some (.maybe i)

/-- Two answers from two paths into a join. -/
def combine : Option Clobber → Option Clobber → Option Clobber
  | none, other => other
  | other, none => other
  | some one, some other => if one = other then some one else some .unknown

/-- The versions a walk has been to, and what is left of its budget. -/
structure Walk where
  seen : List Version
  budget : ℕ

/-- The answers of the ways into a join, one after another until there is none. -/
def merge (walk : Version → Walk → Option (Option Clobber × Walk)) :
    Option Clobber → List (Option Version) → Walk → Option (Option Clobber × Walk)
  | answer, [], w => some (answer, w)
  | answer, none :: rest, w => merge walk answer rest w
  | answer, some incoming :: rest, w =>
    (walk incoming w).bind fun r =>
      let answer := combine answer r.1
      if answer = some .unknown then some (answer, r.2) else merge walk answer rest r.2

/-- One version of memory, and everything that reaches it. -/
def back (f : Func) (al : Alias) (c : Chain) (reference : Access) :
    ℕ → Version → Walk → Option (Option Clobber × Walk)
  | 0, _, _ => none
  | rounds + 1, version, w =>
    if version ∈ w.seen then some (none, w)
    else
      let w := { w with seen := version :: w.seen }
      match version with
      | .param b => merge (back f al c reference rounds) none (ways f c b) w
      | .entry => some (some .noClobber, w)
      | .result i =>
        if w.budget = 0 then some (some .unknown, w)
        else
          let w := { w with budget := w.budget - 1 }
          match wrote f al reference i with
          | some answer => some (some answer, w)
          | none =>
            match c.memIn i with
            | none => some (none, w)
            | some next => back f al c reference rounds next w

/-- How many versions of memory a function can have. -/
def versions (f : Func) : ℕ := 1 + f.blocks.length + (f.blocks.map fun data => data.insts.length).sum

/-- The store this load sees. -/
def clobber (f : Func) (al : Alias) (c : Chain) (limit : ℕ) (load : Inst) : Option Clobber :=
  match al.reads load, c.memIn load with
  | some reference, some version =>
    (back f al c reference (versions f + 1) version ⟨[], limit⟩).map fun r => r.1.getD .noClobber
  | _, _ => some .unknown

/-- Whether the walk to the oldest version stops at a write. -/
def stops (f : Func) (al : Alias) (reference : Access) (i : Inst) : Bool := (wrote f al reference i).isSome

/-- What the ways into a join come back to, when it is one version, leaving out the join itself. -/
def agree (walk : Version → ℕ → Version × ℕ) (version : Version) :
    Option Version → List (Option Version) → ℕ → Version × ℕ
  | agreed, [], budget => (agreed.getD version, budget)
  | _, none :: _, budget => (version, budget)
  | agreed, some incoming :: rest, budget =>
    let r := walk incoming budget
    if r.1 = version then agree walk version agreed rest r.2
    else if agreed.any (· ≠ r.1) then (version, r.2)
    else agree walk version (some r.1) rest r.2

/-- One version and the ones it comes back to. Every step takes from the budget, so there are no more
rounds than it has. -/
def settle (f : Func) (al : Alias) (c : Chain) (reference : Access) :
    ℕ → List Version → Version → ℕ → Version × ℕ
  | 0, _, version, budget => (version, budget)
  | rounds + 1, opened, version, budget =>
    if version ∈ opened ∨ budget = 0 then (version, budget)
    else match version with
      | .param b =>
        agree (settle f al c reference rounds (.param b :: opened)) (.param b) none (ways f c b) (budget - 1)
      | .entry => (.entry, budget - 1)
      | .result i =>
        if stops f al reference i then (.result i, budget - 1)
        else match c.memIn i with
          | none => (.result i, budget - 1)
          | some next => settle f al c reference rounds opened next (budget - 1)

/-- The oldest version of memory this load reads the same bytes at. -/
def settled (f : Func) (al : Alias) (c : Chain) (limit : ℕ) (load : Inst) : Option Version :=
  (al.reads load).bind fun reference => (c.memIn load).map fun version =>
    (settle f al c reference limit [] version limit).1

end MemSsa

end Rucc.Opt
