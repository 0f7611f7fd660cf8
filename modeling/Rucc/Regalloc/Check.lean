import Rucc.Regalloc.Assign

/-!
# The allocation checker

`check.rs`: whether an assignment is one the machine can run. Every value read is written first, every value has a
place, two values live at one point are not in one place, nothing is in a register an instruction insists on, and a
value an instruction can only read from memory is there. The width of a value is what the function says it is. A check
is nothing where the source panics.
-/

namespace Rucc.Regalloc.Check

open Mir

/-- One thing wrong with an allocation. -/
inductive Problem where
  /-- A value the function reads or writes was given no place at all. -/
  | nowhere (reg : Reg)
  /-- Two values that are both live somewhere were put in the same place. -/
  | shared (first second : Reg) (place : Place)
  /-- A value was left in a register an instruction claims for itself. -/
  | inTheWay (reg : Reg) (phys : PhysReg) (inst : Inst)
  /-- A value an instruction can only read from memory was put in a register. -/
  | notOnTheStack (reg : Reg) (inst : Inst)
  /-- A value is read on some path without anything on that path having written it. -/
  | neverWritten (reg : Reg)
  deriving DecidableEq

/-- A value written into the register another operand of the same instruction was read from. -/
structure Reuse where
  source : Reg
  point : ℕ

/-- One value, where it is wanted and where it was put. -/
structure Value where
  number : ℕ
  cls : RegClass
  /-- The interval around the area. -/
  range : Range
  area : Area
  place : Place

/-- Its register. -/
def Value.reg (value : Value) : Reg := .virtualReg value.number

/-! ## The values -/

/-- The value one operand reuses, recorded at the virtual register it writes. -/
def reuseOf (f : Func) (order : Order) (inst : Inst) (reuses : ℕ → Option Reuse) (operand : Operand) :
    Option (ℕ → Option Reuse) :=
  match operand.constraint, operand.reg with
  | .reuse other, .virtualReg number => do
    let source ← (f.operands inst.1 inst.2)[other]?
    if number < f.vregs then some (Function.update reuses number (some ⟨source.reg, order.early inst.1 inst.2⟩))
    else none
  | _, _ => some reuses

/-- The value each two address instruction reuses, by the virtual register it writes. -/
def reuses (f : Func) (order : Order) : Option (ℕ → Option Reuse) :=
  f.allInsts.foldlM (fun reuses inst => (f.operands inst.1 inst.2).foldlM (reuseOf f order inst) reuses) fun _ => none

/-- One value of the function put with the ones before it. An answer written into a register the instruction reads is
in that register from the moment the instruction starts. -/
def gather (f : Func) (live : Live) (a : Assignment) (reuses : ℕ → Option Reuse) (s : List Problem × List Value)
    (number : ℕ) : List Problem × List Value :=
  match live.area (.virtualReg number), f.classes[number]? with
  | some area, some cls =>
    match a.place (.virtualReg number) with
    | none => (s.1 ++ [.nowhere (.virtualReg number)], s.2)
    | some place =>
      let area := match reuses number with
        | some reuse => area.extend reuse.point
        | none => area
      (s.1, s.2 ++ [⟨number, cls, area.hull, area, place⟩])
  | _, _ => s

/-! ## Two values in one place -/

/-- Whether two values are never live at the same time, going by what liveness worked out. -/
def apart (live : Live) (first second : Reg) : Bool :=
  match live.area first, live.area second with
  | some first, some second => !first.overlaps second
  | _, _ => false

/-- Whether one of the two is the answer a two address instruction wrote into the register it read the other from. -/
def coalesced (reuses : ℕ → Option Reuse) (live : Live) (first second : Value) : Bool :=
  let pair (source dest : Value) : Bool :=
    (reuses dest.number).any fun reuse => reuse.source = source.reg && apart live source.reg dest.reg
  pair first second || pair second first

/-- The place a value was put in. A slot's class is left out. -/
def placeOf (value : Value) : Place × Option RegClass :=
  match value.place with
  | .reg _ => (value.place, some value.cls)
  | .slot _ => (value.place, none)

/-- What the sweep over one place keeps: the values whose interval still reaches, and the pairs found. -/
structure Sweep where
  active : List (ℕ × Value)
  found : List (ℕ × ℕ × Problem)

/-- One value of a place, by its position among all of them. -/
def sweepOne (reuses : ℕ → Option Reuse) (live : Live) (s : Sweep) (one : Value × ℕ) : Sweep :=
  let active := s.active.filter fun held => one.1.range.start ≤ held.2.range.stop
  let wrong := active.filter fun held => held.2.area.overlaps one.1.area && !coalesced reuses live held.2 one.1
  ⟨active ++ [(one.2, one.1)],
    s.found ++ wrong.map fun held => (one.2, held.1, .shared held.2.reg one.1.reg one.1.place)⟩

/-- Looks for two values that are both live somewhere and were put in the same place, one place at a time, in the order
the values start. -/
def overlaps (values : List Value) (reuses : ℕ → Option Reuse) (live : Live) : List Problem :=
  let sorted := values.insertionSort fun one other =>
    toLex (one.range.start, one.number) ≤ toLex (other.range.start, other.number)
  let places := (sorted.map placeOf).dedup
  let found := places.flatMap fun place =>
    ((sorted.zipIdx.filter fun one => placeOf one.1 = place).foldl (sweepOne reuses live) ⟨[], []⟩).found
  (found.insertionSort fun one other => toLex (one.1, one.2.1) ≤ toLex (other.1, other.2.1)).map fun one => one.2.2

/-! ## What an instruction wants -/

/-- The register an operand claims for the instruction. -/
def claims (operand : Operand) : Option PhysReg :=
  match operand.constraint, operand.reg with
  | .fixed at_, _ => some at_
  | _, .physical at_ => some at_
  | _, .virtualReg _ => none

/-- Whether a value is in the way of an operand that claims its register. -/
def inTheWay (order : Order) (a : Assignment) (width : ℕ → Option ℕ) (reuses : ℕ → Option Reuse) (inst : Inst)
    (operand : Operand) (at_ : PhysReg) (value : Value) : Bool :=
  let early := order.early inst.1 inst.2
  let point := if operand.role = .define then order.late inst.1 inst.2 else early
  let mine := decide (value.reg = operand.reg) ||
    (reuses value.number).any fun reuse => reuse.source = operand.reg && reuse.point = early
  -- a write of only the top of the register, which a value that fits under it survives
  let under := match operand.constraint with
    | .above bytes => (width value.number).any fun width => width ≤ bytes
    | _ => false
  -- a register the instruction destroys, with the value in it put away around it
  let physical := match operand.reg with
    | .physical _ => true
    | .virtualReg _ => false
  let saved := decide (operand.role = .define) && physical &&
    a.saves.any fun save => save.reg = value.reg && save.inst = inst
  decide (value.place = .reg at_) && decide (value.cls = operand.cls) && !mine && !under && !saved &&
    value.area.covers point

/-- What one operand of an instruction finds wrong. -/
def operandProblems (order : Order) (a : Assignment) (width : ℕ → Option ℕ) (values : List Value)
    (reuses : ℕ → Option Reuse) (inst : Inst) (operand : Operand) : List Problem :=
  let memory : List Problem := match operand.constraint, a.place operand.reg with
    | .stack, some (.reg _) => [.notOnTheStack operand.reg inst]
    | _, _ => []
  match claims operand with
  | none => memory
  | some at_ =>
    memory ++ (values.filter (inTheWay order a width reuses inst operand at_)).map fun value =>
      .inTheWay value.reg at_ inst

/-- Looks for a value in a register an instruction wants, and for a value that had to be in memory and is not. -/
def instructions (f : Func) (order : Order) (a : Assignment) (width : ℕ → Option ℕ) (values : List Value)
    (reuses : ℕ → Option Reuse) : List Problem :=
  f.allInsts.flatMap fun inst =>
    (f.operands inst.1 inst.2).flatMap (operandProblems order a width values reuses inst)

/-- Everything wrong with an allocation. -/
def check (f : Func) (order : Order) (live : Live) (width : ℕ → Option ℕ) (a : Assignment) : Option (List Problem) := do
  let unwritten := (f.layout.head?.toList.flatMap live.liveIn).map fun number => Problem.neverWritten (.virtualReg number)
  let reuses ← reuses f order
  let (nowhere, values) := (List.range f.vregs).foldl (gather f live a reuses) ([], [])
  some (unwritten ++ nowhere ++ overlaps values reuses live ++ instructions f order a width values reuses)

end Rucc.Regalloc.Check
