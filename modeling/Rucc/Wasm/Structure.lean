import Rucc.Lib.Dominators
import Rucc.Lib.Postorder
import Rucc.Wasm.Irreducible

/-!
# The structure of a function's graph

The model of `structure.rs`: the nodes in reverse postorder, the dominator tree, which nodes are loop
headers and which are merge nodes.
-/

namespace Rucc.Wasm

/-- The facts about the reachable nodes of one function, by position in reverse postorder. -/
structure Shape where
  order : List Node
  edges : List (List Edge)
  dispatches : ℕ
  children : List (List ℕ)
  loopHeader : List Bool
  merge : List Bool
  deriving DecidableEq

namespace Shape

/-- Every edge, once for each time a terminator names it. -/
def pairs (edges : List (List Edge)) : List (ℕ × ℕ) :=
  (List.range edges.length).flatMap fun source => (edges.getD source []).map fun edge => (source, edge.target)

/-- Where the edges to a node are from. -/
def preds (edges : List (List Edge)) (b : ℕ) : List ℕ :=
  ((pairs edges).filter fun e => e.2 = b).map Prod.fst

/-- The back edges marked and the forward edges counted, unless a back edge goes to a node that does
not dominate where it is from. -/
def classify (idom : ℕ → Option ℕ) :
    List (ℕ × ℕ) → (ℕ → Bool) → (ℕ → ℕ) → Option (Option ((ℕ → Bool) × (ℕ → ℕ)))
  | [], loopHeader, forward => some (some (loopHeader, forward))
  | (source, target) :: edges, loopHeader, forward =>
    if target ≤ source then
      (Dominators.dominates idom target source source).bind fun dominates =>
        if dominates then classify idom edges (Function.update loopHeader target true) forward
        else some none
    else classify idom edges loopHeader (Function.update forward target ((forward target + 1) % 2 ^ 32))

/-- The nodes that each node immediately dominates. -/
def childrenOf (n : ℕ) (idom : ℕ → Option ℕ) : Option (ℕ → List ℕ) :=
  (List.range' 1 (n - 1)).foldlM
    (fun children b => (idom b).map fun d => Function.update children d (children d ++ [b])) fun _ => []

/-- The edges of the nodes of an order, by position. -/
def edgesOf (g : Graph) (numbers : List ℕ) : List (List Edge) :=
  numbers.map fun number => (g.edges number).map fun edge => ⟨numbers.idxOf edge.target, edge.labels⟩

/-- The facts about the nodes of an order. -/
def ordered (g : Graph) (numbers : List ℕ) : Option (Option Shape) :=
  let n := numbers.length
  let edges := edgesOf g numbers
  -- an edge to a node that has no position stops the source
  if (pairs edges).all fun e => decide (e.2 < n) then
    (Dominators.idoms n (preds edges)).bind fun idom =>
      (childrenOf n idom).bind fun children =>
        (classify idom (pairs edges) (fun _ => false) fun _ => 0).map fun facts =>
          facts.map fun (loopHeader, forward) => {
            order := numbers.map g.nodes
            edges := edges
            dispatches := g.dispatches
            children := (List.range n).map children
            loopHeader := (List.range n).map loopHeader
            merge := (List.range n).map fun b => decide (2 ≤ forward b) }
  else none

/-- The facts about a graph, or nothing when it is not reducible. -/
def reducible (g : Graph) : Option (Option Shape) :=
  (Postorder.postorder g.size g.succ g.start).bind fun post => ordered g post.reverse

/-- The facts about a function, with a dispatch node in front of each loop with more than one entry
when there is such a loop. -/
def of (f : Cfg) : Option (Except String Shape) :=
  match f.entry with
  | none => some (.ok ⟨[], [], 0, [], [], []⟩)
  | some entry =>
    (Graph.of f entry).bind fun graph =>
      (reducible graph).bind fun shape =>
        match shape with
        | some shape => some (.ok shape)
        | none =>
          graph.untangle.bind fun graph =>
            (reducible graph).map fun shape =>
              match shape with
              | some shape => .ok shape
              | none => .error "the graph of its blocks is not reducible after the dispatch nodes were added"

end Shape

end Rucc.Wasm
