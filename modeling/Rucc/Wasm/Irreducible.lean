import Rucc.Lib.Scc

/-!
# A dispatch node for each loop with more than one entry

The model of `irreducible.rs`: the graph of the blocks that the entry of a function reaches, and the
dispatch nodes that are put in front of the loops that more than one of their nodes is entered by, at
every depth. A vector over the nodes is a function, of which the values below the number of nodes are
the vector's. A place where the source stops with a panic gives `none`.
-/

namespace Rucc.Wasm

/-- The blocks of a function: how many there are, where it starts when it has any, and the targets
of each block's terminator in order. A block is named by 32 bits. -/
structure Cfg where
  count : ℕ
  entry : Option ℕ
  successors : ℕ → List ℕ
  count_le : count ≤ 2 ^ 32
  entry_lt : ∀ b ∈ entry, b < count
  successors_lt : ∀ b < count, ∀ c ∈ successors b, c < count

/-- A node of the graph that the structure is built from: a block of the function, or the dispatch
node of a loop with more than one entry, with the number of its label. -/
inductive Node where
  | block (block : ℕ)
  | dispatch (label : ℕ)
  deriving DecidableEq, Repr

/-- An edge: the node that it goes to, and the labels that it writes before it goes, each with the
value. -/
structure Edge where
  target : ℕ
  labels : List (ℕ × ℕ)
  deriving DecidableEq, Repr

/-- The graph of the reachable blocks of a function, with the dispatch nodes that were added. The
edges of a block are in the order of the targets of its terminator, those of a dispatch node in the
order of the values of its label. -/
structure Graph where
  size : ℕ
  nodes : ℕ → Node
  edges : ℕ → List Edge
  start : ℕ
  dispatches : ℕ

/-- The blocks numbered so far, in order, and the number of each. -/
structure Numbering where
  blocks : List ℕ
  number : ℕ → Option ℕ

namespace Numbering

/-- A block that has no number gets the next one. -/
def add (s : Numbering) (block : ℕ) : Numbering :=
  match s.number block with
  | some _ => s
  | none => ⟨s.blocks ++ [block], Function.update s.number block (some s.blocks.length)⟩

/-- The targets of each block in order of its number, until there is no next one. -/
def run (f : Cfg) : ℕ → ℕ → Numbering → Option Numbering
  | 0, _, _ => none
  | rounds + 1, next, s =>
    match s.blocks[next]? with
    | none => some s
    | some block => run f rounds (next + 1) ((f.successors block).foldl add s)

end Numbering

namespace Graph

/-- The graph of the blocks that `entry` reaches. -/
def of (f : Cfg) (entry : ℕ) : Option Graph :=
  (Numbering.run f (f.count + 1) 0 ⟨[entry], Function.update (fun _ => none) entry (some 0)⟩).bind fun s =>
    -- a target that has no number stops the source
    if s.blocks.all fun b => (f.successors b).all fun c => (s.number c).isSome then
      some {
        size := s.blocks.length
        nodes := fun v => .block (s.blocks.getD v entry)
        edges := fun v =>
          (f.successors (s.blocks.getD v entry)).map fun c => ⟨(s.number c).getD 0, []⟩
        start := 0
        dispatches := 0 }
    else none

/-- The nodes that the edges of a node go to. -/
def succ (g : Graph) (v : ℕ) : List ℕ := (g.edges v).map Edge.target

/-- The nodes of `inside` that an edge from outside reaches, and the start when it is inside, in
ascending order. -/
def entries (g : Graph) (inside : ℕ → Bool) : List ℕ :=
  let entry : ℕ → Bool := fun _ => false
  let entry := if inside g.start then Function.update entry g.start true else entry
  let entry := (List.range g.size).foldl (fun entry source =>
    if inside source then entry
    else (g.edges source).foldl (fun entry edge =>
      if inside edge.target then Function.update entry edge.target true else entry) entry) entry
  (List.range g.size).filter entry

/-- An edge to one of the entries goes to the dispatch node, and writes which entry it was. -/
def redirect (entries : List ℕ) (node label : ℕ) (edge : Edge) : Edge :=
  match entries.idxOf? edge.target with
  | some which => ⟨node, edge.labels ++ [(label, which)]⟩
  | none => edge

/-- Whether the number of every entry that an edge goes to is below `2^32`, and the start is the first
entry when it is one. -/
def dispatchable (g : Graph) (entries : List ℕ) : Bool :=
  (List.range g.size).all (fun v => (g.edges v).all fun edge =>
    (entries.idxOf? edge.target).all fun which => decide (which < 2 ^ 32)) &&
  (!entries.contains g.start || decide (entries.head? = some g.start))

/-- Add a dispatch node in front of `entries`, and send every edge to one of them through it. -/
def dispatch (g : Graph) (entries : List ℕ) : Option (Graph × ℕ) :=
  let label := g.dispatches
  let node := g.size
  if g.dispatchable entries then
    some ({
      size := g.size + 1
      nodes := Function.update g.nodes node (.dispatch label)
      edges := Function.update (fun v => (g.edges v).map (redirect entries node label)) node
        (entries.map fun entry => ⟨entry, []⟩)
      start := if entries.contains g.start then node else g.start
      dispatches := g.dispatches + 1 }, node)
  else none

/-- The strongly connected components of the nodes in `region`. -/
def components (g : Graph) (region : ℕ → Bool) : Option (List (List ℕ)) :=
  Scc.components g.size g.succ region

/-- Whether a component is a loop: more than one node, or an edge from its one node to itself. -/
def looped (g : Graph) (component : List ℕ) (first : ℕ) : Bool :=
  decide (1 < component.length) || (g.edges first).any fun edge => edge.target = first

/-- The one entry of a loop, or a dispatch node for its entries. -/
def header (g : Graph) (inside : ℕ → Bool) : Option (Graph × ℕ) :=
  match g.entries inside with
  | [entry] => some (g, entry)
  | entries => g.dispatch entries

/-- A component made a loop with one entry, and the same within it with what `within` does. -/
def component (within : Graph → (ℕ → Bool) → Option Graph) (g : Graph) (component : List ℕ) :
    Option Graph :=
  match component with
  | [] => none
  | first :: _ =>
    if g.looped component first then
      let inside : ℕ → Bool := fun v => decide (v ∈ component)
      (g.header inside).bind fun (g, header) => within g (Function.update inside header false)
    else some g

/-- A dispatch node in front of each loop with more than one entry that is made of the nodes in
`region`, to a depth of calls. -/
def untangleWithin : ℕ → Graph → (ℕ → Bool) → Option Graph
  | 0, _, _ => none
  | depth + 1, g, region =>
    (g.components region).bind fun components =>
      components.foldlM (component (untangleWithin depth)) g

/-- A dispatch node in front of each loop with more than one entry, at every depth. -/
def untangle (g : Graph) : Option Graph := g.untangleWithin (g.size + 1) fun v => decide (v < g.size)

end Graph

end Rucc.Wasm
