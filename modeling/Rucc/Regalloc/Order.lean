import Rucc.Mir.Func

/-!
# The linear order the allocator works over

`rucc-regalloc`'s `order.rs`: the blocks in a line, in the order they are laid out. A block has a
point for its parameters, two for each instruction, which reads at the first and writes at the
second, and one for the arguments it leaves with.
-/

namespace Rucc.Regalloc

open Mir

/-- The blocks in the order they are emitted in, and the point every part of them is at. A point is
a place in the function, counted along the line the blocks make. -/
structure Order where
  blocks : List ℕ
  /-- The point a block's parameters arrive at. -/
  start : ℕ → ℕ
  /-- The point an instruction of a block reads at. It writes at the one after. -/
  early : ℕ → ℕ → ℕ
  /-- The point a block's outgoing arguments are read at. -/
  stop : ℕ → ℕ
  /-- How many points there are. -/
  points : ℕ

namespace Order

variable {b : ℕ}

/-- The point an instruction writes at. -/
def late (o : Order) (b k : ℕ) : ℕ := o.early b k + 1

/-- How many points a block takes. -/
def size (f : Func) (b : ℕ) : ℕ := 2 * (f.block b).insts.length + 2

/-- A block laid out after the ones that are. -/
def lay (f : Func) (o : Order) (b : ℕ) : Order where
  blocks := o.blocks ++ [b]
  start := Function.update o.start b o.points
  early := Function.update o.early b (fun k => o.points + 1 + 2 * k)
  stop := Function.update o.stop b (o.points + 1 + 2 * (f.block b).insts.length)
  points := o.points + size f b

/-- Lays a function out. -/
def of (f : Func) : Order :=
  f.layout.foldl (lay f) ⟨[], fun _ => 0, fun _ _ => 0, fun _ => 0, 0⟩

/-- How many points some blocks take. -/
def sizes (f : Func) (blocks : List ℕ) : ℕ := (blocks.map (size f)).sum

theorem sizes_append (f : Func) (l l' : List ℕ) : sizes f (l ++ l') = sizes f l + sizes f l' := by
  simp [sizes]

theorem sizes_cons (f : Func) (b : ℕ) (l : List ℕ) : sizes f (b :: l) = size f b + sizes f l := by
  simp [sizes]

theorem foldl_lay (f : Func) (l : List ℕ) (o : Order) : (l.foldl (lay f) o).blocks = o.blocks ++ l ∧
      (l.foldl (lay f) o).points = o.points + sizes f l := by
  induction l generalizing o with
  | nil => simp [sizes]
  | cons b l ih =>
    obtain ⟨h₁, h₂⟩ := ih (lay f o b)
    rw [List.foldl_cons, h₁, h₂, sizes_cons]
    constructor
    · simp [lay]
    · simp only [lay]
      omega

/-- Blocks laid out later do not move a block. -/
theorem foldl_lay_of_notMem (f : Func) (l : List ℕ) (o : Order) (h : b ∉ l) :
    (l.foldl (lay f) o).start b = o.start b ∧ (l.foldl (lay f) o).early b = o.early b ∧
      (l.foldl (lay f) o).stop b = o.stop b := by
  induction l generalizing o with
  | nil => exact ⟨rfl, rfl, rfl⟩
  | cons c l ih =>
    rw [List.mem_cons, not_or] at h
    rw [List.foldl_cons]
    obtain ⟨h₁, h₂, h₃⟩ := ih (lay f o c) h.2
    rw [h₁, h₂, h₃]
    exact ⟨Function.update_of_ne h.1 _ _, Function.update_of_ne h.1 _ _,
      Function.update_of_ne h.1 _ _⟩

@[simp]
theorem of_blocks (f : Func) : (of f).blocks = f.layout := by
  unfold of
  rw [(foldl_lay f f.layout _).1]
  rfl

/-- A block starts after everything laid out before it. -/
theorem start_eq (f : Func) {before after : List ℕ}
    (h : f.layout = before ++ b :: after) : (of f).start b = sizes f before := by
  have hnot : b ∉ after := by
    have hnodup := f.layout_nodup
    rw [h] at hnodup
    exact (List.nodup_cons.mp (List.nodup_append.mp hnodup).2.1).1
  unfold of
  rw [h, List.foldl_append, List.foldl_cons, (foldl_lay_of_notMem f after _ hnot).1]
  simp [lay, (foldl_lay f before _).2]

theorem early_eq (f : Func) (hb : b < f.blockCount) (k : ℕ) : (of f).early b k = (of f).start b + 1 + 2 * k := by
  obtain ⟨before, after, h⟩ := List.append_of_mem (f.mem_layout.mpr hb)
  have hnot : b ∉ after := by
    have hnodup := f.layout_nodup
    rw [h] at hnodup
    exact (List.nodup_cons.mp (List.nodup_append.mp hnodup).2.1).1
  rw [start_eq f h]
  unfold of
  rw [h, List.foldl_append, List.foldl_cons, (foldl_lay_of_notMem f after _ hnot).2.1]
  simp [lay, (foldl_lay f before _).2]

theorem stop_eq (f : Func) (hb : b < f.blockCount) :
    (of f).stop b = (of f).start b + 1 + 2 * (f.block b).insts.length := by
  obtain ⟨before, after, h⟩ := List.append_of_mem (f.mem_layout.mpr hb)
  have hnot : b ∉ after := by
    have hnodup := f.layout_nodup
    rw [h] at hnodup
    exact (List.nodup_cons.mp (List.nodup_append.mp hnodup).2.1).1
  rw [start_eq f h]
  unfold of
  rw [h, List.foldl_append, List.foldl_cons, (foldl_lay_of_notMem f after _ hnot).2.2]
  simp [lay, (foldl_lay f before _).2]

/-- A block ends right before the next one starts, and before every later one. -/
theorem stop_lt_start (f : Func) {before middle after : List ℕ} {b c : ℕ}
    (h : f.layout = before ++ b :: middle ++ c :: after) :
    (of f).start c = (of f).stop b + 1 + sizes f middle := by
  have hb : f.layout = before ++ b :: (middle ++ c :: after) := by simp [h]
  have hlt : b < f.blockCount := f.mem_layout.mp (by rw [hb]; simp)
  have hsize : size f b = 2 * (f.block b).insts.length + 2 := rfl
  rw [start_eq f h, stop_eq f hlt, start_eq f hb, sizes_append, sizes_cons, hsize]
  omega

end Order

end Rucc.Regalloc
