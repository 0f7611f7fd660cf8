import Rucc.Regalloc.LiveArea
import Rucc.Regalloc.Moves

/-!
# Where every value went

What an allocator decided, as `assign.rs` writes it down and the passes after it read it: the place of each value,
the class of each slot of the frame, and the values that are put away around an instruction. An instruction is its
block and its place in the block. A computation that may panic gives the `Stop` it panics with.
-/

namespace Rucc.Mir.Func

/-- The class of a virtual register, or nothing for a physical one or a number the function never handed out. -/
def classOf (f : Func) : Reg → Option RegClass
  | .virtualReg number => f.classes[number]?
  | .physical _ => none

/-- The instructions of a function, in the order they are emitted in. -/
def allInsts (f : Func) : List (ℕ × ℕ) :=
  f.layout.flatMap fun b => (List.range (f.block b).insts.length).map fun k => (b, k)

end Rucc.Mir.Func

namespace Rucc.Regalloc

open Mir

/-- An instruction, by its block and its place in it. -/
abbrev Inst := ℕ × ℕ

/-- Where a value lives. -/
inductive Place where
  | reg (phys : PhysReg)
  | slot (number : ℕ)
  deriving DecidableEq

/-- Whether it is in a slot of the frame. -/
def Place.isSlot : Place → Bool
  | reg _ => false
  | slot _ => true

/-- What the allocator is allowed to use: the registers of each class it may hand out, in the order it prefers them,
and the ones held back for reading a value on the stack into. -/
structure Env where
  order : RegClass → List PhysReg
  scratch : RegClass → List PhysReg

namespace Env

/-- An environment offering nothing. -/
def new : Env := ⟨fun _ => [], fun _ => []⟩

/-- The same environment, with that class described. -/
def with_ (env : Env) (cls : RegClass) (order scratch : List PhysReg) : Env :=
  ⟨Function.update env.order cls order, Function.update env.scratch cls scratch⟩

end Env

/-- A value kept in a register an instruction destroys, and the slot it waits in for the length of the instruction. -/
structure Save where
  reg : Reg
  inst : Inst
  slot : ℕ
  deriving DecidableEq

/-- Where every value in a function went. -/
structure Assignment where
  places : List (Option Place)
  slots : List RegClass
  saves : List Save
  deriving DecidableEq

/-- What a rewrite panics with. -/
inductive Stop where
  /-- More slots than a slot has numbers. -/
  | tooManySlots
  /-- A register the assignment says nothing about and that is not a register. -/
  | noPlace (reg : Reg)
  /-- A place past the end of a vector. -/
  | outOfBounds
  /-- A class with no registers in it. -/
  | noRegisters (cls : RegClass)
  /-- An instruction naming every register of its class at once. -/
  | nothingToBorrow (cls : RegClass)
  /-- What arrives in a function is not a block parameter. -/
  | entryParams
  /-- An edge out of an `asm goto` that writes something has to be split before allocation. -/
  | unsplitGoto
  /-- An edge carries what the block it goes to asks for. -/
  | argumentCount
  /-- A critical edge has nowhere to put its moves. -/
  | criticalEdge
  /-- Two parallel moves write the same place, or the moves name the scratch place and are in no order for that. -/
  | unordered
  /-- A class whose values go round in a cycle on an edge and which has no scratch register. -/
  | unbrokenCycle (cls : RegClass)
  /-- A class passing a spilled value to a spilled parameter with no scratch register free. -/
  | slotToSlot (cls : RegClass)
  deriving DecidableEq

/-- An element of a vector. -/
def fetch {α : Type} (l : List α) (i : ℕ) : Except Stop α :=
  match l[i]? with
  | some a => .ok a
  | none => .error .outOfBounds

namespace Assignment

/-- Takes a slot of the frame, of that class, and gives back which one it is. -/
def takeSlot (a : Assignment) (cls : RegClass) : Except Stop (ℕ × Assignment) :=
  if a.slots.length < 2^32 then .ok (a.slots.length, { a with slots := a.slots ++ [cls] }) else .error .tooManySlots

/-- Where a value lives, or nothing for one the function never mentions and for a physical register. -/
def place (a : Assignment) : Reg → Option Place
  | .virtualReg number => a.places[number]?.join
  | .physical _ => none

/-- Every value that went somewhere, and where it went. -/
def placed (a : Assignment) : List (Reg × Place) :=
  a.places.zipIdx.filterMap fun (place, number) => place.map fun place => (.virtualReg number, place)

end Assignment

/-- The physical register a register is, once it has to be one. -/
def phys : Reg → Except Stop PhysReg
  | .physical reg => .ok reg
  | .virtualReg number => .error (.noPlace (.virtualReg number))

/-- Where a register is, whether the allocator put it there or it was already somewhere. -/
def place (a : Assignment) (reg : Reg) : Except Stop Place :=
  match a.place reg with
  | some place => .ok place
  | none => (phys reg).map Place.reg

end Rucc.Regalloc
