import Rucc.Lib.Cycles
import Rucc.Lib.Yields

/-!
# Moves that happen at once

`moves.rs`: a set of moves that happen at once, put in an order they can happen in one at a time. A move whose
destination nothing else has still to read goes first. Where there is no such move, all that are left go round in
cycles, and one of them is cut by way of the scratch place.

The loop of `sequence` has a number of rounds that it may take, and is nothing when it needs more. It is nothing too
where the source would panic.
-/

namespace Rucc.Regalloc

open Cycles

/-- What is written, and what is read. -/
structure Move (T : Type*) where
  to_ : T
  from_ : T
  deriving DecidableEq

variable {T : Type*} [DecidableEq T]

/-- The first move whose destination nothing else still has to read. -/
def ready (pending : List (Move T)) : Option ℕ :=
  pending.findIdx? fun one => !pending.any fun other => other.from_ = one.to_ ∧ other.to_ ≠ one.to_

/-- Puts the source of the first move in the scratch, and reads it from there from now on. -/
def breakCycle (pending order : List (Move T)) (scratch : T) : Option (List (Move T) × List (Move T)) :=
  match pending with
  | [] => none
  | first :: _ =>
    let source := first.from_
    some (pending.map fun one => if one.from_ = source then { one with from_ := scratch } else one,
      order ++ [⟨scratch, source⟩])

/-- The rounds of the loop: one move goes, or one cycle is broken. -/
def sequenceFrom (scratch : T) : ℕ → List (Move T) → List (Move T) → Option (List (Move T))
  | _, [], order => some order
  | 0, _ :: _, _ => none
  | rounds + 1, first :: rest, order =>
    match ready (first :: rest) with
    | some index => do
      let one ← (first :: rest)[index]?
      sequenceFrom scratch rounds ((first :: rest).eraseIdx index) (order ++ [one])
    | none => do
      let (pending, order) ← breakCycle (first :: rest) order scratch
      sequenceFrom scratch rounds pending order

/-- The moves in an order they can be made in, one at a time. -/
def sequence (rounds : ℕ) (moves : List (Move T)) (scratch : T) : Option (List (Move T)) :=
  let pending := moves.filter fun one => one.to_ ≠ one.from_
  if pending.Pairwise fun earlier one => earlier.to_ ≠ one.to_ then sequenceFrom scratch rounds pending [] else none

example : sequence 7 [⟨0, 1⟩, ⟨1, 0⟩, ⟨3, 0⟩] 9 = some [⟨3, 0⟩, ⟨9, 1⟩, ⟨1, 0⟩, ⟨0, 9⟩] := by decide

/-! ## What moves do -/

/-- What the places hold after a move. -/
def Move.run {V : Type*} (held : T → V) (one : Move T) : T → V := Function.update held one.to_ (held one.from_)

/-- What the places hold after moves, one at a time. -/
def run {V : Type*} (order : List (Move T)) (held : T → V) : T → V := order.foldl Move.run held

/-- The move graph, by where each place gets what it will hold: from the move that writes it, or from itself. -/
def source (moves : List (Move T)) (place : T) : T :=
  ((moves.find? fun one => one.to_ = place).map Move.from_).getD place

section Run

variable {V : Type*} {order : List (Move T)} {held : T → V}

theorem run_concat (one : Move T) :
    run (order ++ [one]) held = Function.update (run order held) one.to_ (run order held one.from_) :=
  List.foldl_concat _ _ _ _

theorem run_concat_self (to_ from_ : T) : run (order ++ [⟨to_, from_⟩]) held to_ = run order held from_ := by
  rw [run_concat, Function.update_self]

theorem run_concat_of_ne {one : Move T} {place : T} (h : place ≠ one.to_) :
    run (order ++ [one]) held place = run order held place := by
  rw [run_concat, Function.update_of_ne h]

end Run

section Source

variable {moves : List (Move T)} {one : Move T} {place : T}

theorem source_of_mem (hto : (moves.map Move.to_).Nodup) (hin : one ∈ moves) : source moves one.to_ = one.from_ := by
  induction moves with
  | nil => exact absurd hin List.not_mem_nil
  | cons first moves ih =>
    rw [List.map_cons, List.nodup_cons] at hto
    unfold source
    obtain rfl | hin := List.mem_cons.1 hin
    · rw [List.find?_cons_of_pos (by simp)]
      rfl
    · have hne : first.to_ ≠ one.to_ := fun heq => hto.1 (heq ▸ List.mem_map_of_mem hin)
      rw [List.find?_cons_of_neg (by simpa using hne)]
      exact ih hto.2 hin

theorem source_of_notMem (hno : ∀ one ∈ moves, one.to_ ≠ place) : source moves place = place := by
  unfold source
  rw [List.find?_eq_none.2 fun one hin => by simpa using hno one hin]
  rfl

/-- A place that moves somewhere is written. -/
theorem exists_of_source_ne (h : source moves place ≠ place) : ∃ one ∈ moves, one.to_ = place := by
  by_contra hno
  exact h (source_of_notMem fun one hin heq => hno ⟨one, hin, heq⟩)

theorem finite_cycles (moves : List (Move T)) : (cycles (source moves)).Finite := by
  refine cycle_finite (s := {place | place ∈ moves.map Move.to_}) (List.finite_toSet _) fun place hplace => ?_
  refine source_of_notMem fun one hin heq => hplace ?_
  exact heq ▸ List.mem_map_of_mem hin

end Source

end Rucc.Regalloc
