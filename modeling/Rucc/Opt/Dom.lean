import Rucc.Lib.Buckets
import Rucc.Lib.TreeNumbers
import Rucc.Opt.Cfg

/-!
# Dominators and post-dominators

The model of `dom.rs`: one computation over whichever graph it is handed, the function's own one or that one turned
around, with an exit added that the blocks with nowhere to go lead to and the far end of every loop that never ends.
Each loop of the source takes a bound on its rounds, past which there is no result; no result is also what an index
outside a vector gives.
-/

namespace Rucc.Opt.Dom

/-- A graph the dominator computation can walk. -/
structure Graph where
  nodes : ℕ
  root : ℕ
  preds : ℕ → List ℕ
  succs : ℕ → List ℕ
  /-- The nodes the root reaches, children before parents, when the graph has them already. -/
  postorder : Option (List ℕ)

/-- The walk of `postorder`, with what is left of the edges of each node it is at. -/
def walk (succs : ℕ → List ℕ) : ℕ → (ℕ → Bool) → List (ℕ × List ℕ) → List ℕ → Option (List ℕ)
  | _, _, [], order => some order
  | 0, _, _ :: _, _ => none
  | rounds + 1, seen, (node, left) :: stack, order =>
    match left.dropWhile seen with
    | next :: left =>
      walk succs rounds (Function.update seen next true) ((next, succs next) :: (node, left) :: stack) order
    | [] => walk succs rounds seen stack (order ++ [node])

/-- The nodes the root of a graph reaches, children before parents. -/
def postorder (rounds : ℕ) (graph : Graph) : Option (List ℕ) :=
  walk graph.succs rounds (Function.update (fun _ => false) graph.root true) [(graph.root, graph.succs graph.root)] []

/-- The nearest node dominating both, walking the two chains towards the root by rank. The ranks go down, so their sum
is a bound on the rounds. -/
def meet (idom : ℕ → Option ℕ) : ℕ → ℕ → ℕ → Option ℕ
  | 0, a, b => if a = b then some a else none
  | rounds + 1, a, b =>
    if a = b then some a
    else if b < a then (idom a).bind fun a => meet idom rounds a b
    else (idom b).bind fun b => meet idom rounds a b

/-- One more predecessor of a node, which is skipped when it has no answer yet. -/
def join (idom : ℕ → Option ℕ) (new : Option ℕ) (pred : ℕ) : Option (Option ℕ) :=
  match idom pred with
  | none => some new
  | some _ =>
    match new with
    | none => some (some pred)
    | some new => (meet idom (new + pred) new pred).map some

/-- One node of a sweep. -/
def visit (preds : ℕ → List ℕ) (s : (ℕ → Option ℕ) × Bool) (index : ℕ) : Option ((ℕ → Option ℕ) × Bool) :=
  ((preds index).foldlM (join s.1) none).map fun new =>
    if new ≠ none ∧ s.1 index ≠ new then (Function.update s.1 index new, true) else s

/-- Sweeps over the nodes but the root until one changes nothing. -/
def settle (count : ℕ) (preds : ℕ → List ℕ) : ℕ → (ℕ → Option ℕ) → Option (ℕ → Option ℕ)
  | 0, _ => none
  | rounds + 1, idom =>
    ((List.range' 1 (count - 1)).foldlM (visit preds) (idom, false)).bind fun s =>
      if s.2 then settle count preds rounds s.1 else some s.1

/-- Where a node is in reverse postorder. -/
def rank (rpo : List ℕ) (node : ℕ) : Option ℕ := if node ∈ rpo then some (rpo.idxOf node) else none

/-- The predecessors the root reaches of the node at a rank, by rank. -/
def ranked (graph : Graph) (rpo : List ℕ) (index : ℕ) : List ℕ :=
  (graph.preds (rpo.getD index 0)).filterMap (rank rpo)

/-- The immediate dominator of each node from that of each rank. -/
def parents (rpo : List ℕ) (byRank : ℕ → Option ℕ) : Option (ℕ → Option ℕ) :=
  rpo.zipIdx.foldlM (fun idom node => do
    let index ← byRank node.2
    let parent ← rpo[index]?
    return Function.update idom node.1 (some parent)) fun _ => none

/-- A dominator tree over a graph whose nodes are numbered from zero. -/
structure Tree where
  idom : ℕ → Option ℕ
  children : ℕ → ℕ
  childAt : ℕ → ℕ
  enter : ℕ → ℕ
  leave : ℕ → ℕ

namespace Tree

/-- The tree of a function that has no blocks, which reaches nothing. -/
def empty : Tree := ⟨fun _ => none, fun _ => 0, fun _ => 0, fun _ => 0, fun _ => 0⟩

/-- The nodes each node immediately dominates, laid end to end, and the numbers that make a query two comparisons. -/
def number (rounds : ℕ) (graph : Graph) (rpo : List ℕ) (idom : ℕ → Option ℕ) : Option Tree :=
  let below := rpo.filter (· ≠ graph.root)
  let parent (node : ℕ) := (idom node).getD 0
  let childAt := Buckets.starts graph.nodes (below.map parent)
  let children := Buckets.scatter parent childAt 0 below
  let kids (node : ℕ) := Buckets.slice children (childAt node) (childAt (node + 1))
  (TreeNumbers.Walk.run kids rounds ⟨[(graph.root, 0)], 1, fun _ => 0, fun _ => 0⟩).map fun s =>
    ⟨idom, children, childAt, s.enter, s.leave⟩

/-- Builds the tree: a postorder walk, a fixed point over it, and a second walk to number the result. -/
def new (rounds : ℕ) (graph : Graph) : Option Tree := do
  let order ← graph.postorder.elim (postorder rounds graph) some
  let rpo := order.reverse
  let byRank ← settle rpo.length (ranked graph rpo) rounds (Function.update (fun _ => none) 0 (some 0))
  let idom ← parents rpo byRank
  number rounds graph rpo idom

/-- Whether the root reaches this node at all. -/
def reached (t : Tree) (node : ℕ) : Bool := (t.idom node).isSome

/-- Whether every path from the root to a node goes through another one. -/
def dominates (t : Tree) (above node : ℕ) : Bool :=
  t.reached above && t.reached node && decide (t.enter above ≤ t.enter node) && decide (t.enter node < t.leave above)

/-- The way up from a node to one that dominates another. -/
def up (t : Tree) (b : ℕ) : ℕ → ℕ → Option ℕ
  | 0, _ => none
  | rounds + 1, walk => if t.dominates walk b then some walk else (t.idom walk).bind (t.up b rounds)

/-- The nearest node that dominates both: nothing for one that is not reached. -/
def common (t : Tree) (rounds a b : ℕ) : Option (Option ℕ) :=
  if !t.reached a || !t.reached b then some none else (t.up b rounds a).map some

end Tree

/-! ## The function's own graph -/

/-- Who goes where in a function, and where control arrives, which a function that is only declared does not have. -/
structure Flow extends Cfg where
  entry : Option ℕ
  target : ∀ targets ∈ edges, ∀ t ∈ targets, t < edges.length
  entry_lt : ∀ e ∈ entry, e < edges.length

namespace Flow

/-- The blocks the entry reaches, children before parents. -/
def postorder (flow : Flow) : Option (List ℕ) :=
  match flow.entry with
  | none => some []
  | some entry => Postorder.postorder flow.size flow.successors entry

/-- The function's own graph, walked forwards, with the order it has already. -/
def forward (flow : Flow) (post : List ℕ) : Graph where
  nodes := flow.size
  root := flow.entry.getD 0
  preds := flow.predecessors
  succs := flow.successors
  postorder := some post

end Flow

/-- Which block every path from the entry has to pass through to reach another. -/
structure Dominators where
  tree : Tree

namespace Dominators

/-- Builds the tree from the graph. A function with no blocks gives a tree that reaches nothing. -/
def new (rounds : ℕ) (flow : Flow) : Option Dominators :=
  match flow.entry with
  | none => some ⟨.empty⟩
  | some _ => do
    let post ← flow.postorder
    let tree ← Tree.new rounds (flow.forward post)
    return ⟨tree⟩

/-- Whether every path from the entry to a block goes through another one. -/
def dominates (doms : Dominators) (above block : ℕ) : Bool := doms.tree.dominates above block

/-- The nearest block that dominates both. -/
def nearestCommonDominator (doms : Dominators) (rounds a b : ℕ) : Option (Option ℕ) := doms.tree.common rounds a b

end Dominators

/-! ## The graph turned around -/

/-- The function's graph with every arrow turned around, and an exit for them all to end at. -/
structure Reverse where
  flow : Flow
  succs : ℕ → ℕ
  succAt : ℕ → ℕ
  ends : List ℕ
  fake : ℕ → Bool

namespace Reverse

variable (reverse : Reverse)

/-- The added node, numbered one past the last block. -/
def exit : ℕ := reverse.flow.size

/-- Turns the graph around, keeping only the blocks control reaches. -/
def new (flow : Flow) (post : List ℕ) : Reverse :=
  let edges := post.flatMap fun block => (flow.successors block).map fun next => (block, next)
  let succAt := Buckets.starts flow.size (edges.map Prod.snd)
  { flow, succAt
    succs := fun i => (Buckets.scatter Prod.snd succAt (0, 0) edges i).1
    ends := post.filter fun block => (flow.successors block).isEmpty
    fake := fun _ => false }

/-- Where control comes from at this node, in the real graph's terms. -/
def list (node : ℕ) : List ℕ :=
  if node = reverse.exit then reverse.ends
  else Buckets.slice reverse.succs (reverse.succAt node) (reverse.succAt (node + 1))

/-- The reversed graph as the dominator computation walks it. -/
def graph : Graph where
  nodes := reverse.flow.size + 1
  root := reverse.exit
  preds node :=
    let real := if node = reverse.exit then [] else reverse.flow.successors node
    real ++ if node ≠ reverse.exit ∧ (real = [] ∨ reverse.fake node = true) then [reverse.exit] else []
  succs := reverse.list
  postorder := none

/-- One more of the nodes that a node leads to. -/
def arrive (s : (ℕ → Bool) × List ℕ) (next : ℕ) : (ℕ → Bool) × List ℕ :=
  if s.1 next then s else (Function.update s.1 next true, next :: s.2)

/-- Everything that the nodes on a stack lead to. -/
def spread : ℕ → (ℕ → Bool) × List ℕ → Option (ℕ → Bool)
  | _, (arrives, []) => some arrives
  | 0, (_, _ :: _) => none
  | rounds + 1, (arrives, node :: stack) => spread rounds ((reverse.list node).foldl arrive (arrives, stack))

/-- The block a forward walk from here stops at, which is the far end of the region. -/
def farEnd (flow : Flow) (round : ℕ) : ℕ → (ℕ → Option ℕ) → ℕ → Option (ℕ × (ℕ → Option ℕ))
  | 0, _, _ => none
  | rounds + 1, stamp, block =>
    let stamp := Function.update stamp block (some round)
    match (flow.successors block).find? fun next => stamp next ≠ some round with
    | some next => farEnd flow round rounds stamp next
    | none => some (block, stamp)

/-- The exit leads to one more block. -/
def attach (last : ℕ) : Reverse :=
  { reverse with ends := reverse.ends ++ [last], fake := Function.update reverse.fake last true }

/-- Adds an edge to the exit from every region that has no path to one: the rounds of `connect`. -/
def connectFrom (rpo : List ℕ) (bound : ℕ) : ℕ → Reverse → (ℕ → Bool) × List ℕ → (ℕ → Option ℕ) → ℕ → List ℕ →
    Option (Reverse × List ℕ)
  | 0, _, _, _, _, _ => none
  | rounds + 1, reverse, s, stamp, round, fake => do
    let arrives ← reverse.spread bound s
    match rpo.find? fun block => !arrives block with
    | none => return (reverse, fake)
    | some stranded =>
      let last ← farEnd reverse.flow round bound stamp stranded
      connectFrom rpo bound rounds (reverse.attach last.1) (Function.update arrives last.1 true, [last.1]) last.2
        (round + 1) (fake ++ [last.1])

/-- Adds an edge to the exit from every region that has no path to one. -/
def connect (rpo : List ℕ) (rounds : ℕ) : Option (Reverse × List ℕ) :=
  connectFrom rpo rounds rounds reverse (Function.update (fun _ => false) reverse.exit true, [reverse.exit])
    (fun _ => none) 0 []

end Reverse

/-- Which block every path to the exit has to pass through after leaving another. -/
structure PostDominators where
  tree : Tree
  exit : ℕ
  fake : List ℕ

namespace PostDominators

/-- Builds the tree over the reversed graph. A block that control reaches and that still has no path to the exit is a
panic. -/
def new (rounds : ℕ) (flow : Flow) : Option PostDominators :=
  match flow.entry with
  | none => some ⟨.empty, 0, []⟩
  | some _ => do
    let post ← flow.postorder
    let (reverse, fake) ← (Reverse.new flow post).connect post.reverse rounds
    let tree ← Tree.new rounds reverse.graph
    if post.all tree.reached then return ⟨tree, reverse.exit, fake⟩ else none

/-- Whether every path from a block to the exit goes through another one. -/
def postDominates (post : PostDominators) (after block : ℕ) : Bool := post.tree.dominates after block

end PostDominators

end Rucc.Opt.Dom
