import Rucc.Opt.Dom

/-!
# Dominance frontiers and control dependence

The model of `frontier.rs`: the frontier of every block of a function, found by walks up the dominator tree from the
ways into each join, and the branches that decide whether a block runs, found by the same walks in the graph turned
around. A walk takes a bound on its rounds, past which there is no result.
-/

namespace Rucc.Opt.Dom

/-- The nearest block that dominates this one and is not it: nothing for the entry, which the tree is rooted at, and
for a block that control does not reach. -/
def Dominators.immediateDominator (doms : Dominators) (entry : Option ℕ) (block : ℕ) : Option ℕ :=
  if doms.tree.reached block = false ∨ some block = entry then none else doms.tree.idom block

/-- The nearest block that post-dominates this one and is not it. -/
def PostDominators.immediatePostDominator (post : PostDominators) (block : ℕ) : Option ℕ :=
  (post.tree.idom block).filter fun parent => parent ≠ post.exit ∧ parent ≠ block

/-! ## The frontiers -/

/-- Where each block stops dominating: one list of blocks for each block, end to end. -/
structure Frontiers where
  capacity : ℕ
  starts : ℕ → ℕ
  all : ℕ → ℕ

namespace Frontiers

/-- The walks so far: which block each one last had put in its frontier, and the pairs of a block and one in its
list. -/
structure Walks where
  last : ℕ → Option ℕ
  pairs : List (ℕ × ℕ)

/-- The walk up from a way into a block to its immediate dominator, or to where another one has been. -/
def climb (up : ℕ → Option ℕ) (block : ℕ) (stop : Option ℕ) : ℕ → Walks → ℕ → Option Walks
  | rounds, s, runner =>
    if some runner = stop ∨ s.last runner = some block then some s
    else match rounds with
      | 0 => none
      | rounds + 1 =>
        let s : Walks := ⟨Function.update s.last runner (some block), s.pairs ++ [(runner, block)]⟩
        match up runner with
        | some next => climb up block stop rounds s next
        | none => some s

/-- The ways into a block that control takes. -/
def arriving (flow : Flow) (post : List ℕ) (block : ℕ) : List ℕ :=
  (flow.predecessors block).filter fun pred => pred ∈ post

/-- The walks for one block, of which there are none when control can only arrive at it one way. -/
def visit (rounds : ℕ) (flow : Flow) (post : List ℕ) (doms : Dominators) (s : Walks) (block : ℕ) : Option Walks :=
  let ways := arriving flow post block
  -- control also arrives at the entry from outside the function
  let arrivals := ways.length + if some block = flow.entry then 1 else 0
  if arrivals < 2 then some s
  else
    let up := doms.immediateDominator flow.entry
    ways.foldlM (climb up block (up block) rounds) s

/-- How many pairs there are of each block. -/
def counts (pairs : List (ℕ × ℕ)) : ℕ → ℕ := pairs.foldl (fun table pair => Buckets.bump table pair.1) fun _ => 0

/-- One count replaced by the sum of the ones before it. -/
def offset (s : (ℕ → ℕ) × ℕ) (block : ℕ) : (ℕ → ℕ) × ℕ :=
  (Function.update s.1 block s.2, s.2 + s.1 block)

/-- A stretch of a vector put in order. -/
def sortSpan (all : ℕ → ℕ) (first last : ℕ) : ℕ → ℕ := fun i =>
  if first ≤ i ∧ i < last then ((Buckets.slice all first last).insertionSort (· ≤ ·)).getD (i - first) 0 else all i

/-- Lays the lists out end to end from the pairs of a block and one block in its list. -/
def gather (capacity : ℕ) (pairs : List (ℕ × ℕ)) : Frontiers :=
  let starts := ((List.range (capacity + 1)).foldl offset (counts pairs, 0)).1
  let all : ℕ → ℕ := fun i => (Buckets.scatter Prod.fst starts (0, 0) pairs i).2
  let sorted := (List.range capacity).foldl (fun all block => sortSpan all (starts block) (starts (block + 1))) all
  ⟨capacity, starts, sorted⟩

/-- The frontier of every block. -/
def new (rounds : ℕ) (flow : Flow) (doms : Dominators) : Option Frontiers := do
  let post ← flow.postorder
  let s ← post.foldlM (visit rounds flow post doms) ⟨fun _ => none, []⟩
  return gather flow.size s.pairs

/-- The blocks control can first arrive at without having gone through this one. -/
def of (frontiers : Frontiers) (block : ℕ) : List ℕ :=
  if block < frontiers.capacity then
    Buckets.slice frontiers.all (frontiers.starts block) (frontiers.starts (block + 1))
  else []

end Frontiers

/-! ## Control dependence -/

/-- Which branches decide whether a block runs: the blocks that do, by block number. -/
structure ControlDependence where
  on : ℕ → List ℕ

namespace ControlDependence

/-- The walk up from where a branch goes to what post-dominates the branch. -/
def climb (up : ℕ → Option ℕ) (block : ℕ) (stop : Option ℕ) : ℕ → (ℕ → List ℕ) → ℕ → Option (ℕ → List ℕ)
  | rounds, on, runner =>
    if some runner = stop then some on
    else match rounds with
      | 0 => none
      | rounds + 1 =>
        let on := Function.update on runner (on runner ++ [block])
        match up runner with
        | some next => climb up block stop rounds on next
        | none => some on

/-- The walks for one block, of which there are none when control can only leave it one way. -/
def visit (rounds : ℕ) (flow : Flow) (post : PostDominators) (on : ℕ → List ℕ) (block : ℕ) : Option (ℕ → List ℕ) :=
  let invented := block ∈ post.fake ∨ flow.successors block = []
  let arrivals := (flow.successors block).length + if invented then 1 else 0
  if arrivals < 2 then some on
  else (flow.successors block).foldlM
    (climb post.immediatePostDominator block (post.immediatePostDominator block) rounds) on

/-- The relation for every block. -/
def new (rounds : ℕ) (flow : Flow) (post : PostDominators) : Option ControlDependence := do
  let order ← flow.postorder
  let on ← order.foldlM (visit rounds flow post) fun _ => []
  return ⟨fun block => ((on block).insertionSort (· ≤ ·)).destutter (· ≠ ·)⟩

/-- Whether a block runs whatever any branch decides. -/
def unconditional (control : ControlDependence) (block : ℕ) : Bool := (control.on block).isEmpty

end ControlDependence

end Rucc.Opt.Dom
