import Rucc.Regalloc.Assign

/-!
# What an instruction needs around it

`legalize.rs`: for one instruction, the operands as the machine will read them and the moves on either side, in the
order they are made in. A value on the stack is read into a register held back for its class, or into one that is
borrowed, whose value waits in a slot of the frame. `probe` is the same computation asked only whether a slot was
taken. A vector indexed by class is the function from its indices, except for the slots, which are counted.
-/

namespace Rucc.Regalloc.Legalize

open Mir

/-- Moves waiting to be filed, each with the class of the value it moves. -/
abbrev Moves := List (Move Place × RegClass)

/-- The frame slots a borrowed register's value waits in, one list per class. -/
abbrev Spare := List (List ℕ)

/-- What one instruction becomes. -/
structure Legal where
  operands : List Operand
  before : Moves
  after : Moves

/-! ## What is kept in each register between instructions -/

/-- The pieces kept in one register: where each starts, in order, and the furthest point that it or any in front of it
reaches. -/
structure Lane where
  starts : List ℕ
  reach : List ℕ

/-- Where every value the assignment put in a register is kept there, by class and by register. -/
structure Idle where
  order : Order
  lanes : RegClass → PhysReg → Lane

namespace Idle

/-- The pieces of the values of a class that are in a register. -/
def pieces (f : Func) (a : Assignment) (live : Live) (cls : RegClass) (at_ : PhysReg) : List (ℕ × ℕ) :=
  a.placed.flatMap fun (reg, place) =>
    match place, f.classOf reg, live.area reg with
    | .reg here, some own, some area =>
      if own = cls ∧ here = at_ then area.all.map fun piece => (piece.start, piece.stop) else []
    | _, _, _ => []

/-- The pieces in order, with how far they reach. -/
def lane (pieces : List (ℕ × ℕ)) : Lane :=
  let sorted := pieces.insertionSort fun one other => toLex one ≤ toLex other
  ⟨sorted.map Prod.fst, (sorted.scanl (fun furthest piece => max furthest piece.2) 0).tail⟩

/-- Reads where everything went off an assignment of the function laid out by `order`. -/
def of (f : Func) (a : Assignment) (order : Order) (live : Live) : Idle :=
  ⟨order, fun cls at_ => lane (pieces f a live cls at_)⟩

/-- Whether some value is kept in the register anywhere from where the instruction reads to where it writes. -/
def holds (idle : Idle) (cls : RegClass) (at_ : PhysReg) (inst : Inst) : Bool :=
  let lane := idle.lanes cls at_
  let ahead := partitionPoint (fun i => decide (lane.starts.getD i 0 ≤ idle.order.late inst.1 inst.2))
    lane.starts.length
  0 < ahead && idle.order.early inst.1 inst.2 ≤ lane.reach.getD (ahead - 1) 0

end Idle

/-! ## The registers the instruction has named -/

/-- The registers the instruction has named for itself, each with the class it was named in. -/
structure Claimed where
  /-- The ones a value arrives in. -/
  reads : List (RegClass × PhysReg)
  /-- The ones an answer leaves in. -/
  writes : List (RegClass × PhysReg)
  /-- The ones a value arrives in only to be moved on to a fixed register. -/
  passed : List (RegClass × PhysReg)
  /-- The ones an answer is moved into behind the instruction, out of a fixed register. -/
  landed : List (RegClass × PhysReg)
  deriving DecidableEq

namespace Claimed

/-- Records a register an operand named, on the side its value travels. -/
def name (c : Claimed) (operand : Operand) (at_ : PhysReg) : Claimed :=
  if operand.role.isDef then { c with writes := c.writes ++ [(operand.cls, at_)] }
  else { c with reads := c.reads ++ [(operand.cls, at_)] }

/-- Records a register a value arrives in and is moved straight out of. -/
def pass (c : Claimed) (operand : Operand) (at_ : PhysReg) : Claimed :=
  { c with passed := c.passed ++ [(operand.cls, at_)] }

/-- Records a register an answer is moved into behind the instruction. -/
def land (c : Claimed) (operand : Operand) (at_ : PhysReg) : Claimed :=
  { c with landed := c.landed ++ [(operand.cls, at_)] }

/-- Records a register nothing may be handed for the rest of the instruction. -/
def take (c : Claimed) (cls : RegClass) (at_ : PhysReg) : Claimed :=
  { c with reads := c.reads ++ [(cls, at_)], writes := c.writes ++ [(cls, at_)] }

/-- The list for values travelling that way. -/
def side (c : Claimed) (role : Role) : List (RegClass × PhysReg) := if role.isDef then c.writes else c.reads

/-- Whether handing that register out for a value travelling that way would lose a value. -/
def clashes (c : Claimed) (role : Role) (cls : RegClass) (at_ : PhysReg) : Bool :=
  (c.side role).contains (cls, at_) || (role = .earlyDefine && c.reads.contains (cls, at_)) ||
    ((role = .earlyDefine || !role.isDef) && c.passed.contains (cls, at_))

/-- Whether the instruction names that register at all. -/
def names (c : Claimed) (cls : RegClass) (at_ : PhysReg) : Bool :=
  c.reads.contains (cls, at_) || c.writes.contains (cls, at_) || c.passed.contains (cls, at_) ||
    c.landed.contains (cls, at_)

/-- Whether the instruction names that register only as one an answer is moved into behind it. -/
def onlyLands (c : Claimed) (cls : RegClass) (at_ : PhysReg) : Bool :=
  c.landed.contains (cls, at_) && !c.reads.contains (cls, at_) && !c.writes.contains (cls, at_) &&
    !c.passed.contains (cls, at_)

/-- Whether the instruction names that register only as one a value passes through. -/
def passesThrough (c : Claimed) (cls : RegClass) (at_ : PhysReg) : Bool :=
  c.passed.contains (cls, at_) && !c.reads.contains (cls, at_) && !c.writes.contains (cls, at_)

/-- What one operand names: the register its value is in, and the one a fixed constraint asks for. -/
def operand (c : Claimed) (operand : Operand) (place : Place) : Claimed :=
  let c := match place, operand.constraint with
    | .reg at_, .fixed fixed =>
      if at_ = fixed then c.name operand at_
      else if operand.role.isDef then c.land operand at_
      else c.pass operand at_
    | .reg at_, _ => c.name operand at_
    | .slot _, _ => c
  match operand.constraint with
  | .fixed at_ => c.name operand at_
  | _ => c

/-- What an instruction names. -/
def of (operands : List Operand) (places : List Place) : Claimed :=
  (operands.zip places).foldl (fun c one => c.operand one.1 one.2) ⟨[], [], [], []⟩

end Claimed

/-! ## Handing a register to an instruction -/

/-- What it takes to hand a register to one instruction. -/
structure Scratch where
  /-- Where every value went, and where a slot for a borrowed register comes from. -/
  assignment : Assignment
  spare : Spare
  /-- Every register the instruction has named, and every one borrowed here. -/
  claimed : Claimed
  /-- How many of each class have been borrowed with something put away. -/
  borrowed : RegClass → ℕ
  /-- The moves that put a borrowed register's value away. -/
  saves : Moves
  /-- The moves that bring it back. -/
  restores : Moves

/-- A list long enough to have an index, as a vector is resized. -/
def resize (spare : Spare) (index : ℕ) : Spare := spare ++ List.replicate (index + 1 - spare.length) []

section

variable (env : Env) (idle : Idle) (inst : Inst) (probing : Bool)

namespace Scratch

/-- The same with a register nothing else may be handed. -/
def take (s : Scratch) (cls : RegClass) (at_ : PhysReg) : Scratch := { s with claimed := s.claimed.take cls at_ }

/-- The same with a slot for the next register of the class that is borrowed. -/
def spareSlot (s : Scratch) (cls : RegClass) : Except Stop Scratch :=
  let spare := resize s.spare cls
  if (spare.getD cls []).length ≤ s.borrowed cls then do
    let (slot, assignment) ← s.assignment.takeSlot cls
    .ok { s with assignment := assignment, spare := spare.modify cls (· ++ [slot]) }
  else .ok { s with spare := spare }

/-- A register borrowed with what is in it put away in front of the instruction and brought back behind it. -/
def putAway (s : Scratch) (cls : RegClass) (at_ : PhysReg) : Except Stop (PhysReg × Scratch) := do
  let s ← s.spareSlot cls
  let slot ← fetch (s.spare.getD cls []) (s.borrowed cls)
  .ok (at_, { s.take cls at_ with
    borrowed := Function.update s.borrowed cls (s.borrowed cls + 1)
    saves := s.saves ++ [(⟨.slot slot, .reg at_⟩, cls)]
    restores := s.restores ++ [(⟨.reg at_, .slot slot⟩, cls)] })

/-- A register that can be borrowed with nothing put away: one an answer is only moved into behind the instruction, or
one nothing is kept in. -/
def unused (s : Scratch) (cls : RegClass) : Option PhysReg :=
  (env.order cls).find? (s.claimed.onlyLands cls) <|>
    (env.order cls).find? fun reg => !s.claimed.names cls reg && !idle.holds cls reg inst

/-- A register that can be borrowed with what is in it put away. A probe is given one the instruction holds where there
is none, as all it wants to know is that a slot was taken. -/
def free (s : Scratch) (cls : RegClass) : Except Stop PhysReg :=
  match (env.order cls).find? (fun reg => !s.claimed.names cls reg) <|>
      (env.order cls).find? (s.claimed.passesThrough cls) with
  | some at_ => .ok at_
  | none =>
    if probing then
      match (env.order cls).head? <|> (env.scratch cls).head? with
      | some at_ => .ok at_
      | none => .error (.noRegisters cls)
    else .error (.nothingToBorrow cls)

/-- A register of the class the instruction is not using. -/
def borrow (s : Scratch) (cls : RegClass) : Except Stop (PhysReg × Scratch) :=
  match s.unused env idle inst cls with
  | some at_ => .ok (at_, s.take cls at_)
  | none => do
    let at_ ← s.free env probing cls
    s.putAway cls at_

end Scratch

/-- How many of the registers held back are handed out or passed over, the ones that clash from the next one on among
them. -/
def passOver (s : Scratch) (cls : RegClass) (role : Role) (count : ℕ) : ℕ :=
  count + (((env.scratch cls).drop count).takeWhile (s.claimed.clashes role cls)).length

/-- The next register of a class out of one of the two counts, borrowed where the ones held back run out. -/
def handOut (counts : RegClass → ℕ) (cls : RegClass) (s : Scratch) (role : Role) :
    Except Stop (PhysReg × (RegClass → ℕ) × Scratch) :=
  let count := passOver env s cls role (counts cls)
  match (env.scratch cls)[count]? with
  | some at_ => .ok (at_, Function.update counts cls (count + 1), s)
  | none => do
    let (at_, s) ← s.borrow env idle inst probing cls
    .ok (at_, Function.update counts cls count, s)

/-- One instruction while its operands are placed. -/
structure Legalizing where
  operands : List Operand
  before : Moves
  after : Moves
  /-- How many of each class hold a value read in ahead of the instruction. -/
  read : RegClass → ℕ
  /-- How many of each class hold an answer the instruction writes. -/
  written : RegClass → ℕ
  /-- The spilled operands that reuse another, left for the second pass. -/
  reusing : List ℕ
  scratch : Scratch

namespace Legalizing

/-- Files a move in front of the instruction, or behind it and turned round for a value the instruction writes. -/
def push (s : Legalizing) (operand : Operand) (mov : Move Place) : Legalizing :=
  if operand.role.isDef then { s with after := s.after ++ [(⟨mov.from_, mov.to_⟩, operand.cls)] }
  else { s with before := s.before ++ [(mov, operand.cls)] }

/-- An operand rewritten to the register the machine has it in. -/
def rewrite (s : Legalizing) (index : ℕ) (at_ : PhysReg) : Legalizing :=
  { s with operands := s.operands.modify index fun operand => { operand with reg := .physical at_ } }

/-- A register of a class for a value read in ahead of the instruction. -/
def readInto (s : Legalizing) (cls : RegClass) : Except Stop (PhysReg × Legalizing) := do
  let (at_, read, scratch) ← handOut env idle inst probing s.read cls s.scratch .use
  .ok (at_, { s with read := read, scratch := scratch })

/-- A register of a class for an answer the instruction writes. -/
def writtenInto (s : Legalizing) (cls : RegClass) : Except Stop (PhysReg × Legalizing) := do
  let (at_, written, scratch) ← handOut env idle inst probing s.written cls s.scratch .define
  .ok (at_, { s with written := written, scratch := scratch })

/-- A register of a class for an answer the instruction writes before it has read everything, which is counted with the
values read in. The answers written late count on from it. -/
def earlyInto (s : Legalizing) (cls : RegClass) : Except Stop (PhysReg × Legalizing) := do
  let (at_, read, scratch) ← handOut env idle inst probing s.read cls s.scratch .earlyDefine
  .ok (at_, { s with
    read := read
    written := Function.update s.written cls (max (s.written cls) (read cls))
    scratch := scratch })

end Legalizing

/-- The register the answer tied to an operand lives in, when nothing else the instruction reads is there. -/
def answer (operands : List Operand) (places : List Place) (index : ℕ) (source : Operand) (claimed : Claimed) :
    Option PhysReg :=
  (operands.zip places).findSome? fun (operand, place) =>
    match operand.constraint, place with
    | .reuse other, .reg at_ =>
      if other = index ∧ operand.cls = source.cls ∧ claimed.clashes .use source.cls at_ = false then some at_ else none
    | _, _ => none

variable (operands : List Operand) (places : List Place)

/-- A register for an operand whose value is on the stack. -/
def registerFor (s : Legalizing) (index : ℕ) (operand : Operand) : Except Stop (PhysReg × Legalizing) :=
  match operand.constraint, operand.role with
  | .fixed fixed, _ => .ok (fixed, s)
  | _, .earlyDefine => s.earlyInto env idle inst probing operand.cls
  | _, .define => s.writtenInto env idle inst probing operand.cls
  | _, .use =>
    match answer operands places index operand s.scratch.claimed with
    | some at_ => .ok (at_, s)
    | none => s.readInto env idle inst probing operand.cls

/-- The first pass: one operand is placed, unless it is on the stack and reuses another. -/
def placeOperand (s : Legalizing) (index : ℕ) : Except Stop Legalizing := do
  let operand ← fetch s.operands index
  match ← place s.scratch.assignment operand.reg, operand.constraint with
  | .reg at_, .fixed fixed =>
    .ok ((if at_ = fixed then s else s.push operand ⟨.reg fixed, .reg at_⟩).rewrite index fixed)
  | .reg at_, _ => .ok (s.rewrite index at_)
  | .slot _, .reuse _ => .ok { s with reusing := s.reusing ++ [index] }
  | .slot slot, _ => do
    let (at_, s) ← registerFor env idle inst probing operands places s index operand
    .ok ((s.push operand ⟨.reg at_, .slot slot⟩).rewrite index at_)

/-- The second pass: one operand that is on the stack and reuses another. -/
def placeReusing (s : Legalizing) (index : ℕ) : Except Stop Legalizing := do
  let operand ← fetch s.operands index
  match operand.constraint, ← fetch places index with
  | .reuse other, .slot slot => do
    let (at_, s) ← match ← fetch places other with
      -- it was read into a register that holds a copy, which the instruction can have
      | .slot _ => do
        let source ← fetch s.operands other
        let at_ ← phys source.reg
        .ok (at_, s)
      | .reg _ => s.readInto env idle inst probing operand.cls
    .ok ((s.push operand ⟨.reg at_, .slot slot⟩).rewrite index at_)
  -- only operands of this kind are left for the second pass
  | _, _ => .ok s

/-- The copy that makes an answer written over another operand true, behind everything else in front of the
instruction. -/
def copyReused (s : Legalizing) (index : ℕ) : Except Stop Legalizing := do
  let operand ← fetch s.operands index
  match operand.constraint with
  | .reuse other => do
    let source ← fetch s.operands other
    if operand.reg = source.reg then .ok s
    else do
      let to_ ← phys operand.reg
      let from_ ← phys source.reg
      .ok { s with before := s.before ++ [(⟨.reg to_, .reg from_⟩, operand.cls)] }
  | _ => .ok s

/-- The operands already in a register go first. -/
def passOrder : List ℕ :=
  let indices := List.range places.length
  let slot (index : ℕ) : Bool := places[index]?.any Place.isSlot
  indices.filter (fun index => !slot index) ++ indices.filter slot

/-- An instruction before any of its operands is placed. -/
def begin (a : Assignment) (spare : Spare) : Legalizing :=
  ⟨operands, [], [], fun _ => 0, fun _ => 0, [], ⟨a, spare, Claimed.of operands places, fun _ => 0, [], []⟩⟩

/-- What the instruction is once every operand is placed: a borrowed register is put away in front of everything else
and brought back behind everything else, and the stores behind the instruction go ahead of the moves into registers. -/
def finish (s : Legalizing) : Legal :=
  let stores := s.after.filter fun one => one.1.to_.isSlot
  let landing := s.after.filter fun one => !one.1.to_.isSlot
  ⟨s.operands, s.scratch.saves ++ s.before, stores ++ landing ++ s.scratch.restores⟩

/-- The passes over the operands of an instruction. -/
def passes (s : Legalizing) : Except Stop Legalizing := do
  let s ← (passOrder places).foldlM (placeOperand env idle inst probing operands places) s
  let s ← s.reusing.foldlM (placeReusing env idle inst probing places) s
  (List.range operands.length).foldlM copyReused s

/-- Works out what one instruction's operands are rewritten to, and what has to happen on either side of it. -/
def legalize (a : Assignment) (spare : Spare) : Except Stop (Legal × Scratch) := do
  let places ← operands.mapM fun operand => place a operand.reg
  let s ← passes env idle inst probing operands places (begin operands places a spare)
  .ok (finish s, s.scratch)

end

/-- What one instruction becomes. -/
def instruction (f : Func) (a : Assignment) (env : Env) (spare : Spare) (idle : Idle) (inst : Inst) :
    Except Stop (Legal × Scratch) :=
  legalize env idle inst false (f.operands inst.1 inst.2) a spare

/-- Whether it would borrow a register with a slot for what is in it. -/
def probe (f : Func) (a : Assignment) (env : Env) (idle : Idle) (inst : Inst) : Except Stop (Bool × Assignment) := do
  let (_, scratch) ← legalize env idle inst true (f.operands inst.1 inst.2) a []
  .ok (scratch.spare.any fun slots => !slots.isEmpty, scratch.assignment)

end Rucc.Regalloc.Legalize
