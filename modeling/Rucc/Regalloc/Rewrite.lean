import Rucc.Regalloc.Legalize

/-!
# Making an assignment true in its function

`rewrite.rs`: every operand is rewritten to the place its value was given, and the moves that the places do not already
say are collected, those around each instruction and those of each edge. `fits` asks ahead of it whether an assignment
can be written down with no more than the registers that are held back.

Blocks that leave with no edge that needs splitting are `Uncritical`.
-/

namespace Rucc.Regalloc

open Mir Legalize

/-- Where an edit goes. -/
inductive At where
  | before (inst : Inst)
  | after (inst : Inst)
  | startOf (block : ℕ)
  | endOf (block : ℕ)
  deriving DecidableEq

/-- One move the places did not already make true. -/
structure Edit where
  at_ : At
  mov : Move Place
  cls : RegClass
  deriving DecidableEq

namespace Rewrite

/-- How many edges arrive in each block. -/
def preds (f : Func) (b : ℕ) : ℕ :=
  (f.layout.flatMap fun block => (f.block block).succs.map BlockCall.block).count b

/-- No edge goes from a block with several ways out to one with several ways in. -/
def Uncritical (f : Func) : Prop :=
  ∀ b ∈ f.layout, 1 < (f.block b).succs.length → ∀ call ∈ (f.block b).succs, preds f call.block = 1

instance (f : Func) : Decidable (Uncritical f) := by
  unfold Uncritical
  infer_instance

/-! ## The moves of an edge -/

/-- The classes of some parameters, in order. -/
def classesOf (params : List Param) : List RegClass := ((params.map Param.cls).insertionSort (· ≤ ·)).dedup

/-- The moves of one class an edge makes at once. A place is an option, as nothing is what a class with no scratch
register breaks a cycle with. -/
def parallel (a : Assignment) (params : List Param) (args : List Reg) (cls : RegClass) :
    Except Stop (List (Move (Option Place))) :=
  ((params.zip args).filter fun one => one.1.cls = cls).mapM fun (param, arg) => do
    let to_ ← place a param.reg
    let from_ ← place a arg
    .ok ⟨some to_, some from_⟩

/-- The place an edge's moves of a class break cycles with. -/
def cycle (env : Env) (cls : RegClass) : Option Place := (env.scratch cls).head?.map Place.reg

/-- The moves of one class in the order they are made in. -/
def ordered (a : Assignment) (env : Env) (params : List Param) (args : List Reg) (cls : RegClass) :
    Except Stop (List (Move (Option Place))) := do
  let moves ← parallel a params args cls
  match sequence (2 * moves.length + 1) moves (cycle env cls) with
  | some order => .ok order
  | none => .error .unordered

/-- Whether the place an edge's moves break cycles with holds a value at that move of their order, which it does from
the move that fills it to the last one that reads it. -/
def busy (order : List (Move (Option Place))) (index : ℕ) (cycle : Option Place) : Bool :=
  (order.take index).any (fun mov => mov.to_ = cycle) && (order.drop index).any (fun mov => mov.from_ = cycle)

/-- The register a value goes through from one slot to another at that move of an order: the second scratch register,
or the only one while no cycle is holding it. -/
def through (env : Env) (cls : RegClass) (order : List (Move (Option Place))) (index : ℕ) : Option PhysReg :=
  (env.scratch cls)[1]? <|> (env.scratch cls).head?.filter fun _ => !busy order index (cycle env cls)

/-- What one move of an order is made with. -/
def expand (env : Env) (cls : RegClass) (order : List (Move (Option Place))) (mov : Move (Option Place)) (index : ℕ) :
    Except Stop (List (Move Place)) :=
  match mov.to_, mov.from_ with
  | some (.slot to_), some (.slot from_) =>
    match through env cls order index with
    | some at_ => .ok [⟨.reg at_, .slot from_⟩, ⟨.slot to_, .reg at_⟩]
    | none => .error (.slotToSlot cls)
  | some to_, some from_ => .ok [⟨to_, from_⟩]
  | _, _ => .error (.unbrokenCycle cls)

/-- The moves of one class of an edge. -/
def edgeClass (a : Assignment) (env : Env) (params : List Param) (args : List Reg) (at_ : At) (cls : RegClass) :
    Except Stop (List Edit) := do
  let order ← ordered a env params args cls
  let moves ← order.zipIdx.mapM fun (mov, index) => expand env cls order mov index
  .ok (moves.flatten.map fun mov => ⟨at_, mov, cls⟩)

/-- The moves one edge turns into, in the order they can be made in. -/
def edge (a : Assignment) (env : Env) (params : List Param) (args : List Reg) (at_ : At) : Except Stop (List Edit) := do
  let edits ← (classesOf params).mapM (edgeClass a env params args at_)
  .ok edits.flatten

/-- The moves one edge out of a block turns into, where the block has one edge or the one it goes to has. -/
def edgeOf (f : Func) (a : Assignment) (env : Env) (b : ℕ) (call : BlockCall) : Except Stop (List Edit) :=
  let params := (f.block call.block).params
  let single := (f.block b).succs.length = 1
  if params.length ≠ call.args.length then .error .argumentCount
  else if params = [] then .ok []
  else if single ∨ preds f call.block = 1 then
    edge a env params call.args (if single then .endOf b else .startOf call.block)
  else .error .criticalEdge

/-- The moves the edges out of a block turn into. -/
def edges (f : Func) (a : Assignment) (env : Env) (b : ℕ) : Except Stop (List Edit) := do
  let edits ← (f.block b).succs.mapM (edgeOf f a env b)
  .ok edits.flatten

/-! ## The instructions -/

/-- The stores that put away the values kept in a register an instruction destroys. -/
def savesAt (f : Func) (a : Assignment) (inst : Inst) : Moves :=
  a.saves.filterMap fun save =>
    if save.inst = inst then
      match a.place save.reg, f.classOf save.reg with
      | some (.reg at_), some cls => some (⟨.slot save.slot, .reg at_⟩, cls)
      | _, _ => none
    else none

/-- The function while it is rewritten. -/
structure Rewriting where
  operands : Inst → List Operand
  assignment : Assignment
  spare : Spare
  edits : List Edit

/-- One instruction's operands rewritten, and what has to happen on either side of it. -/
def instruction (f : Func) (env : Env) (idle : Idle) (saves : Inst → Moves) (s : Rewriting) (inst : Inst) :
    Except Stop Rewriting := do
  let (legal, scratch) ← Legalize.instruction f s.assignment env s.spare idle inst
  let back : Moves := (saves inst).map fun one => (⟨one.1.from_, one.1.to_⟩, one.2)
  .ok ⟨Function.update s.operands inst legal.operands, scratch.assignment, scratch.spare,
    s.edits ++ (saves inst ++ legal.before).map (fun one => ⟨.before inst, one.1, one.2⟩) ++
      (legal.after ++ back).map fun one => ⟨.after inst, one.1, one.2⟩⟩

/-- Moves what has to happen behind the last instruction of a block that leaves several ways to the start of every
block it goes to. -/
def behindTheEnd (f : Func) (operands : Inst → List Operand) (edits : List Edit) (b : ℕ) : Except Stop (List Edit) :=
  let succs := (f.block b).succs
  let last := (b, (f.block b).insts.length - 1)
  let behind := edits.filter fun edit => edit.at_ = .after last
  if succs.length < 2 ∨ (f.block b).insts = [] ∨ (operands last).all (fun operand => !operand.role.isDef) ∨
      behind = [] then .ok edits
  else if succs.all fun call => preds f call.block = 1 then
    .ok (edits.filter (fun edit => edit.at_ ≠ .after last) ++
      succs.flatMap fun call => behind.map fun edit => { edit with at_ := .startOf call.block })
  else .error .unsplitGoto

/-- A block once its operands are registers. No block asks for anything any more. -/
def blockOf (f : Func) (operands : Inst → List Operand) (b : ℕ) : BlockData :=
  ⟨[], (List.range (f.block b).insts.length).map fun k => operands (b, k),
    (f.block b).succs.map fun call => { call with args := [] }⟩

/-- What a rewrite leaves: the blocks, the assignment, which may have more slots, and the moves still wanted. -/
structure Rewritten where
  blocks : List BlockData
  assignment : Assignment
  edits : List Edit
  deriving DecidableEq

/-- Rewrites a function to the places it was given, and says what moves are still wanted. -/
def rewrite (f : Func) (a : Assignment) (env : Env) (order : Order) (live : Live) : Except Stop Rewritten :=
  if (f.layout.head?.all fun b => (f.block b).params = []) then do
    let idle := Idle.of f a order live
    let s ← f.allInsts.foldlM (instruction f env idle (savesAt f a))
      ⟨fun inst => f.operands inst.1 inst.2, a, [], []⟩
    let edits ← f.layout.foldlM (behindTheEnd f s.operands) s.edits
    let moves ← f.layout.mapM (edges f s.assignment env)
    .ok ⟨(List.range f.blockCount).map (blockOf f s.operands), s.assignment, edits ++ moves.flatten⟩
  else .error .entryParams

/-! ## Whether it fits -/

/-- Whether the moves of one class of an edge can be made with the registers held back. -/
def edgeFits (a : Assignment) (env : Env) (params : List Param) (args : List Reg) (cls : RegClass) :
    Except Stop Bool := do
  let order ← ordered a env params args cls
  .ok <| !order.zipIdx.any fun (mov, index) =>
    match mov.to_, mov.from_ with
    | _, none => true
    | some (.slot _), some (.slot _) => busy order index (cycle env cls)
    | _, _ => false

/-- Whether nothing is on the stack in a class that holds no register back, and every edge's moves can be made with the
registers held back. -/
def fitsOnEdges (f : Func) (a : Assignment) (env : Env) : Except Stop Bool :=
  let stacked := a.placed.any fun one => match one.2 with
    | .slot slot => a.slots[slot]?.any fun cls => (env.scratch cls).isEmpty
    | .reg _ => false
  if stacked then .ok false
  else
    f.layout.allM fun b => (f.block b).succs.allM fun call =>
      let params := (f.block call.block).params
      (classesOf (params.filter fun param => (env.scratch param.cls).length < 2)).allM
        (edgeFits a env params call.args)

/-- Whether a class holds one register back. -/
def short (env : Env) (cls : RegClass) : Bool := (env.scratch cls).length = 1

/-- How many operands of such a class are on the stack. -/
def stacked (a : Assignment) (env : Env) (operands : List Operand) : Except Stop ℕ := do
  let places ← (operands.filter fun operand => short env operand.cls).mapM fun operand => place a operand.reg
  .ok (places.countP Place.isSlot)

/-- Whether a register of such a class is named outright. -/
def named (env : Env) (operands : List Operand) : Bool :=
  operands.any fun operand => short env operand.cls &&
    (match operand.reg, operand.constraint with
      | .physical _, _ => true
      | _, .fixed _ => true
      | _, _ => false)

/-- The instructions left to ask about, until `each` says to stop. -/
def borrowersFrom {S : Type} (f : Func) (a : Assignment) (env : Env) (idle : Idle) (each : S → Inst → S × Bool) :
    List Inst → S → Assignment → Except Stop S
  | [], s, _ => .ok s
  | inst :: rest, s, copy => do
    let count ← stacked a env (f.operands inst.1 inst.2)
    if count = 0 ∨ (count = 1 ∧ named env (f.operands inst.1 inst.2) = false) then
      borrowersFrom f a env idle each rest s copy
    else do
      let (borrows, copy) ← probe f copy env idle inst
      if borrows then
        if (each s inst).2 then borrowersFrom f a env idle each rest (each s inst).1 copy else .ok (each s inst).1
      else borrowersFrom f a env idle each rest s copy

/-- Calls `each` with every instruction that would borrow a register of a class that holds only one back, until it says
to stop. -/
def borrowers {S : Type} (f : Func) (a : Assignment) (env : Env) (order : Order) (live : Live)
    (each : S → Inst → S × Bool) (s : S) : Except Stop S :=
  if a.slots.any (short env) then borrowersFrom f a env (Idle.of f a order live) each f.allInsts s a else .ok s

/-- Whether some instruction would borrow a register of a class that holds only one back. -/
def borrows (f : Func) (a : Assignment) (env : Env) (order : Order) (live : Live) : Except Stop Bool :=
  borrowers f a env order live (fun _ _ => (true, false)) false

/-- Whether the rewrite can write an assignment down with no more than the scratch registers `env` holds back. -/
def fits (f : Func) (a : Assignment) (env : Env) (order : Order) (live : Live) : Except Stop Bool := do
  if ← fitsOnEdges f a env then
    let any ← borrows f a env order live
    .ok !any
  else .ok false

end Rewrite

end Rucc.Regalloc
