import Mathlib.Data.List.Basic
import Mathlib.Tactic

/-!
# Machine functions

The machine IR of `rucc-mir`, as far as register allocation reads it: blocks with parameters,
instructions that are lists of operands, and the arms a block leaves by with the arguments they
carry. A block is named by its index and an instruction by its block and its place in it. Opcodes,
immediates, addresses and weights are not read by any pass modelled here and are left out.
-/

namespace Rucc.Mir

/-- A class of registers. -/
abbrev RegClass := ℕ

/-- A physical register, by its number in its class. -/
abbrev PhysReg := ℕ

/-- A register, either one the allocator has still to place or one it has placed. -/
inductive Reg where
  | virtualReg (number : ℕ)
  | physical (reg : PhysReg)
  deriving DecidableEq

/-- What an instruction does with an operand. -/
inductive Role where
  | use
  | define
  | earlyDefine
  deriving DecidableEq

/-- Whether it writes the operand, early or late. -/
def Role.isDef : Role → Bool
  | use => false
  | define | earlyDefine => true

/-- Where an operand is allowed to live. -/
inductive Constraint where
  | reg
  | any
  | stack
  | fixed (reg : PhysReg)
  | reuse (operand : ℕ)
  | above (bytes : ℕ)
  deriving DecidableEq

/-- One operand of one instruction. -/
structure Operand where
  reg : Reg
  cls : RegClass
  role : Role
  constraint : Constraint
  deriving DecidableEq

/-- A value a block is handed on the way in. -/
structure Param where
  reg : Reg
  cls : RegClass
  deriving DecidableEq

/-- An arm of a block: where it goes and what the parameters there arrive as. -/
structure BlockCall where
  block : ℕ
  args : List Reg
  deriving DecidableEq

/-- What is in a block. -/
structure BlockData where
  params : List Param
  insts : List (List Operand)
  succs : List BlockCall
  deriving DecidableEq

/-- A machine function: the class of each virtual register, the blocks by index, and the order they
are laid out in, which is every block once. -/
structure Func where
  classes : List RegClass
  blocks : List BlockData
  layout : List ℕ
  classes_lt : classes.length < 2^31
  layout_perm : layout.Perm (List.range blocks.length)
  succs_lt : ∀ b ∈ blocks, ∀ call ∈ b.succs, call.block < blocks.length

namespace Func

variable {b : ℕ}

/-- How many virtual registers the function has. -/
def vregs (f : Func) : ℕ := f.classes.length

/-- How many blocks the function has. -/
def blockCount (f : Func) : ℕ := f.blocks.length

/-- The block of that index. -/
def block (f : Func) (b : ℕ) : BlockData := f.blocks.getD b ⟨[], [], []⟩

/-- The operands of an instruction. -/
def operands (f : Func) (b k : ℕ) : List Operand := (f.block b).insts.getD k []

theorem mem_layout (f : Func) : b ∈ f.layout ↔ b < f.blockCount := by
  rw [f.layout_perm.mem_iff, List.mem_range]
  rfl

theorem layout_nodup (f : Func) : f.layout.Nodup :=
  f.layout_perm.nodup_iff.mpr List.nodup_range

theorem succ_lt (f : Func) {call : BlockCall} (h : call ∈ (f.block b).succs) : call.block < f.blockCount := by
  by_cases hb : b < f.blocks.length
  · have hblock : f.block b = f.blocks[b] := by
      unfold block
      rw [List.getD_eq_getElem?_getD, List.getElem?_eq_getElem hb]
      rfl
    rw [hblock] at h
    exact f.succs_lt _ (List.getElem_mem hb) call h
  · have hblock : f.block b = ⟨[], [], []⟩ := by
      unfold block
      rw [List.getD_eq_getElem?_getD, List.getElem?_eq_none (by omega)]
      rfl
    rw [hblock] at h
    cases h

end Func

end Rucc.Mir
