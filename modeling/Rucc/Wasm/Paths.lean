import Rucc.Wasm.Routes

/-!
# The paths of a graph with dispatch nodes

A path of a function's blocks and a path of its graph, where an edge writes its labels before it goes
and a dispatch node goes to the entry that its label names. The paths of the graph visit the paths of
the function, each of them in one way.
-/

namespace Rucc.Wasm

open Relation

/-- A path of a function from its entry: the blocks that it has left, each with which target of its
terminator it went to, and the block that it is at. -/
inductive Cfg.Run (f : Cfg) : List (ℕ × ℕ) → ℕ → Prop
  | start {b : ℕ} : f.entry = some b → f.Run [] b
  | step {p : List (ℕ × ℕ)} {b i c : ℕ} : f.Run p b → (f.successors b)[i]? = some c → f.Run (p ++ [(b, i)]) c

namespace Graph

/-- A path of a graph from its start, where every label is zero at first: the nodes that it has left,
each with which edge it went by, the node that it is at, and the labels. A dispatch node is left by
the edge that its label names. -/
inductive Run (g : Graph) : List (ℕ × ℕ) → ℕ → (ℕ → ℕ) → Prop
  | start : g.Run [] g.start fun _ => 0
  | step {q : List (ℕ × ℕ)} {u i : ℕ} {labels : ℕ → ℕ} {edge : Edge} : g.Run q u labels →
      (g.edges u)[i]? = some edge → (∀ l, g.nodes u = .dispatch l → i = labels l) →
      g.Run (q ++ [(u, i)]) edge.target (write labels edge.labels)

/-- The blocks that a path has left, with which edge it went by, dispatch nodes left out. -/
def visited (g : Graph) (q : List (ℕ × ℕ)) : List (ℕ × ℕ) :=
  q.filterMap fun p => match g.nodes p.1 with
    | .block b => some (b, p.2)
    | .dispatch _ => none

/-- The blocks among some nodes. -/
def blocks (g : Graph) (vs : List ℕ) : List ℕ :=
  vs.filterMap fun v => match g.nodes v with
    | .block b => some b
    | .dispatch _ => none

/-- The nodes of a path, in order. -/
def Path (g : Graph) (vs : List ℕ) : Prop := ∃ q v labels, g.Run q v labels ∧ vs = q.map Prod.fst ++ [v]

/-- A path that has come to a block. -/
def Arrived (g : Graph) (vs : List ℕ) : Prop := ∃ v ∈ vs.getLast?, ∃ b, g.nodes v = .block b

end Graph

/-- The blocks of a path, in order. -/
def Cfg.Path (f : Cfg) (bs : List ℕ) : Prop := ∃ p b, f.Run p b ∧ bs = p.map Prod.fst ++ [b]

namespace Graph

variable {e : Edge} {via via' p q q' : List (ℕ × ℕ)} {v v' u i b : ℕ}

/-- A way through the graph that visits a path of the function. -/
inductive Expands (f : Cfg) (m : ℕ) (name num : ℕ → ℕ) (g : Graph) : List (ℕ × ℕ) → List (ℕ × ℕ) → ℕ → Prop
  | start {labels via : List (ℕ × ℕ)} : (∀ l ∈ labels, l.2 = 0) → Lands m g ⟨g.start, labels⟩ via 0 →
      Expands f m name num g [] via 0
  | step {p q via : List (ℕ × ℕ)} {u i c : ℕ} {e : Edge} : Expands f m name num g p q u → u < m →
      (f.successors (name u))[i]? = some c → (g.edges u)[i]? = some e → Lands m g e via (num c) →
      Expands f m name num g (p ++ [(name u, i)]) (q ++ (u, i) :: via) (num c)

variable {f : Cfg} {entry m : ℕ} {name num : ℕ → ℕ} {g : Graph}

/-- Where an edge leads is settled by the edge. -/
theorem Lands.unique (h : Lands m g e via v) (h' : Lands m g e via' v') : via = via' ∧ v = v' := by
  induction h generalizing via' v' with
  | block hv =>
    cases h' with
    | block => exact ⟨rfl, rfl⟩
  | dispatch hm hd hnode hedge hlands ih =>
    cases h' with
    | dispatch hm' hd' hnode' hedge' hlands' =>
      rw [hedge] at hedge'
      rw [← Option.some.inj hedge'] at hlands'
      obtain ⟨rfl, rfl⟩ := ih hlands'
      exact ⟨rfl, rfl⟩

/-- A path that takes an edge goes on to the block that the edge leads to. -/
theorem Lands.run (h : Lands m g e via v) :
    ∀ {q : List (ℕ × ℕ)} {labels : ℕ → ℕ}, g.Run q e.target (write labels e.labels) →
    ∃ labels', g.Run (q ++ via) v labels' := by
  induction h with
  | block =>
    intro q labels hrun
    rw [List.append_nil]
    exact ⟨_, hrun⟩
  | @dispatch d l k v e via hm hd hnode hedge hlands ih =>
    intro q labels hrun
    have hlabel : ∀ l', g.nodes d = .dispatch l' → k = write labels [(l, k)] l' := by
      intro l' hl'
      rw [hnode] at hl'
      rw [← Node.dispatch.inj hl']
      exact (Function.update_self l k labels).symm
    obtain ⟨labels', hrun'⟩ := ih (hrun.step hedge hlabel)
    refine ⟨labels', ?_⟩
    rw [List.append_assoc] at hrun'
    exact hrun'

/-- Writing zeros leaves labels that are zero. -/
theorem write_zero (writes : List (ℕ × ℕ)) (hzero : ∀ w ∈ writes, w.2 = 0) :
    write (fun _ => 0) writes = fun _ => 0 := by
  induction writes with
  | nil => rfl
  | cons w writes ih =>
    have hw : Function.update (fun _ : ℕ => 0) w.1 w.2 = fun _ => 0 := by
      rw [hzero w (List.mem_cons_self)]
      exact Function.update_eq_self w.1 fun _ => 0
    rw [write, List.foldl_cons, hw]
    exact ih fun w' hw' => hzero w' (List.mem_cons_of_mem _ hw')

theorem visited_append (q q' : List (ℕ × ℕ)) : g.visited (q ++ q') = g.visited q ++ g.visited q' :=
  List.filterMap_append

/-- The dispatch nodes that an edge leads through are left out. -/
theorem Lands.visited (h : Lands m g e via v) : g.visited via = [] := by
  induction h with
  | block => rfl
  | dispatch hm hd hnode hedge hlands ih =>
    rw [Graph.visited, List.filterMap_cons]
    dsimp only
    rw [hnode]
    exact ih

theorem Lands.lt (h : Lands m g e via v) : v < m := by
  induction h with
  | block hv => exact hv
  | dispatch _ _ _ _ _ ih => exact ih

/-- The edges of a block that has a target. -/
theorem Routed.edge (hrouted : Routed f m name num g) (hnames : Names f entry m name num) {c : ℕ} (hu : u < m)
    (hc : (f.successors (name u))[i]? = some c) :
    ∃ e via, (g.edges u)[i]? = some e ∧ Lands m g e via (num c) := by
  obtain ⟨route, hedges, hlands⟩ := hrouted.edges
  have hlt := hnames.num_lt u hu c (List.mem_of_getElem? hc)
  obtain ⟨via, hvia⟩ := hlands (num c) hlt
  refine ⟨route (num c), via, ?_, hvia⟩
  rw [hedges u hu, List.getElem?_map, hc]
  rfl

/-- What an edge of a block leads to is a target. -/
theorem Routed.target (hrouted : Routed f m name num g) (hu : u < m)
    (he : (g.edges u)[i]? = some e) (hnames : Names f entry m name num) :
    ∃ c via, (f.successors (name u))[i]? = some c ∧ Lands m g e via (num c) := by
  obtain ⟨route, hedges, hlands⟩ := hrouted.edges
  rw [hedges u hu, List.getElem?_map] at he
  obtain ⟨c, hc, rfl⟩ := Option.map_eq_some_iff.mp he
  obtain ⟨via, hvia⟩ := hlands (num c) (hnames.num_lt u hu c (List.mem_of_getElem? hc))
  exact ⟨c, via, hc, hvia⟩

theorem Expands.lt (h : Expands f m name num g p q v) : v < m := by
  cases h with
  | start _ hlands => exact hlands.lt
  | step _ _ _ _ hlands => exact hlands.lt

theorem Expands.visited (hrouted : Routed f m name num g) (h : Expands f m name num g p q v) : g.visited q = p := by
  induction h with
  | start _ hlands => exact hlands.visited
  | @step p q via u i c e _ hu _ _ hlands ih =>
    have hone : g.visited ((u, i) :: via) = [(name u, i)] := by
      rw [Graph.visited, List.filterMap_cons]
      dsimp only
      rw [hrouted.nodes u hu]
      exact congrArg (List.cons (name u, i)) hlands.visited
    rw [visited_append, ih, hone]

/-- It is a path of the graph. -/
theorem Expands.run (hrouted : Routed f m name num g)
    (h : Expands f m name num g p q v) : ∃ labels, g.Run q v labels := by
  induction h with
  | @start labels via hzero hlands =>
    have hstart : g.Run [] g.start (write (fun _ => 0) labels) := by
      rw [write_zero labels hzero]
      exact .start
    exact hlands.run hstart
  | @step p q via u i c e _ hu _ hedge hlands ih =>
    obtain ⟨labels, hrun⟩ := ih
    have hblock : ∀ l, g.nodes u = .dispatch l → i = labels l := by
      intro l hl
      rw [hrouted.nodes u hu] at hl
      cases hl
    obtain ⟨labels', hrun'⟩ := hlands.run (hrun.step hedge hblock)
    rw [List.append_assoc] at hrun'
    exact ⟨labels', hrun'⟩

/-- What it visits is a path of the function. -/
theorem Expands.path (hnames : Names f entry m name num) (hentry : f.entry = some entry)
     (h : Expands f m name num g p q v) : f.Run p (name v) := by
  induction h with
  | start => exact .start (by rw [hnames.first]; exact hentry)
  | step _ hu hc _ _ ih =>
    rw [hnames.name_num _ hu _ (List.mem_of_getElem? hc)]
    exact ih.step hc

/-- Every path of the function is visited by one. -/
theorem Expands.exists (hrouted : Routed f m name num g) (hnames : Names f entry m name num)
    (hentry : f.entry = some entry) (h : f.Run p b) :
    ∃ q v, Expands f m name num g p q v ∧ name v = b := by
  induction h with
  | start hb =>
    obtain ⟨labels, via, hzero, hlands⟩ := hrouted.start
    refine ⟨via, 0, .start hzero hlands, ?_⟩
    rw [hnames.first]
    exact Option.some.inj (hentry.symm.trans hb)
  | step _ hc ih =>
    obtain ⟨q, u, hexpands, rfl⟩ := ih
    obtain ⟨e, via, he, hlands⟩ := hrouted.edge hnames hexpands.lt hc
    exact ⟨_, _, .step hexpands hexpands.lt hc he hlands,
      hnames.name_num u hexpands.lt _ (List.mem_of_getElem? hc)⟩

/-- What the start leads to with labels that are zero is settled. -/
theorem start_unique {labels labels' : List (ℕ × ℕ)} (hzero : ∀ l ∈ labels, l.2 = 0)
    (hzero' : ∀ l ∈ labels', l.2 = 0) (h : Lands m g ⟨g.start, labels⟩ via v)
    (h' : Lands m g ⟨g.start, labels'⟩ via' v') : via = via' := by
  generalize hstart : g.start = start at h h'
  cases h with
  | block hv =>
    cases h' with
    | block => rfl
    | dispatch hm => omega
  | @dispatch _ l k _ e _ hm hd hnode hedge hlands =>
    cases h' with
    | block hv => omega
    | @dispatch _ l' k' _ e' _ _ _ hnode' hedge' hlands' =>
      have hk : k = 0 := hzero (l, k) (List.mem_singleton_self _)
      have hk' : k' = 0 := hzero' (l', k') (List.mem_singleton_self _)
      subst hk hk'
      rw [hedge] at hedge'
      rw [← Option.some.inj hedge'] at hlands'
      rw [(hlands.unique hlands').1]

/-- The way through the graph is settled by what it visits. -/
theorem Expands.unique (h : Expands f m name num g p q v)
    (h' : Expands f m name num g p q' v') : q = q' ∧ v = v' := by
  induction h generalizing q' v' with
  | start hzero hlands =>
    generalize hp : ([] : List (ℕ × ℕ)) = p at h'
    cases h' with
    | start hzero' hlands' => exact ⟨start_unique hzero hzero' hlands hlands', rfl⟩
    | step => exact absurd hp (by simp)
  | @step p q via u i c e _ _ hc hedge hlands ih =>
    generalize hp : p ++ [(name u, i)] = p₁ at h'
    cases h' with
    | start => exact absurd hp (by simp)
    | @step p' q'' via' u' i' c' e' hexpands' _ hc' hedge' hlands' =>
      obtain ⟨rfl, hlast⟩ := List.append_inj' hp rfl
      obtain ⟨rfl, rfl⟩ := ih hexpands'
      have hi : i = i' := (Prod.mk.inj (List.singleton_inj.mp hlast)).2
      subst hi
      rw [hedge] at hedge'
      rw [← Option.some.inj hedge'] at hlands'
      obtain ⟨rfl, hv⟩ := hlands.unique hlands'
      exact ⟨rfl, hv⟩

/-- The nodes of the way are settled by the blocks that it visits. -/
theorem Expands.unique_nodes (hrouted : Routed f m name num g) (hnames : Names f entry m name num)
    {p' : List (ℕ × ℕ)} (h : Expands f m name num g p q v)
    (h' : Expands f m name num g p' q' v')
    (hsame : p.map Prod.fst ++ [name v] = p'.map Prod.fst ++ [name v']) :
    q.map Prod.fst = q'.map Prod.fst ∧ v = v' := by
  induction h generalizing p' q' v' with
  | start hzero hlands =>
    cases h' with
    | start hzero' hlands' => exact ⟨by rw [start_unique hzero hzero' hlands hlands'], rfl⟩
    | step => exact absurd (congrArg List.length hsame) (by simp)
  | @step p q via u i c e _ hu hc hedge hlands ih =>
    cases h' with
    | start => exact absurd (congrArg List.length hsame) (by simp)
    | @step p' q'' via' u' i' c' e' hexpands' hu' hc' hedge' hlands' =>
      obtain ⟨hinit, hlast⟩ := List.append_inj' hsame rfl
      rw [List.map_append, List.map_append] at hinit
      obtain ⟨hq, rfl⟩ := ih hexpands' hinit
      have hnum : num c = num c' := hnames.injective _ hlands.lt _ hlands'.lt (List.singleton_inj.mp hlast)
      -- edges to one target are the same
      have he : e = e' := by
        obtain ⟨route, hedges, -⟩ := hrouted.edges
        rw [hedges u hu, List.getElem?_map, hc] at hedge
        rw [hedges u hu, List.getElem?_map, hc'] at hedge'
        rw [← Option.some.inj hedge, ← Option.some.inj hedge']
        exact congrArg route hnum
      rw [← he] at hlands'
      rw [(hlands.unique hlands').1]
      refine ⟨?_, hnum⟩
      rw [List.map_append, List.map_append, hq]
      rfl

/-- Every path of the graph is the beginning of one that visits a path of the function. -/
theorem Run.expands (hrouted : Routed f m name num g) (hnames : Names f entry m name num)
    {labels : ℕ → ℕ} (h : g.Run q v labels) :
    ∃ e via w before, Lands m g e via w ∧ e.target = v ∧ labels = write before e.labels ∧
      Expands f m name num g (g.visited q) (q ++ via) w := by
  induction h with
  | start =>
    obtain ⟨labels, via, hzero, hlands⟩ := hrouted.start
    exact ⟨_, via, 0, fun _ => 0, hlands, rfl, (write_zero labels hzero).symm, .start hzero hlands⟩
  | @step q u i labels edge _ hedge hlabel ih =>
    obtain ⟨e, via, w, before, hlands, rfl, rfl, hexpands⟩ := ih
    cases hlands with
    | block hu =>
      -- a block is left by an edge of its own
      rw [List.append_nil] at hexpands
      obtain ⟨c, via, hc, hvia⟩ := hrouted.target hu hedge hnames
      refine ⟨edge, via, num c, _, hvia, rfl, rfl, ?_⟩
      have hone : g.visited [(w, i)] = [(name w, i)] := by
        rw [Graph.visited, List.filterMap_cons]
        dsimp only
        rw [hrouted.nodes w hu]
        rfl
      rw [visited_append, hone, List.append_assoc]
      exact .step hexpands hu hc hedge hvia
    | @dispatch d l k _ e via hm hd hnode hedge' hlands =>
      -- a dispatch node is left by the edge that was written
      have hi : i = k := by
        rw [hlabel l hnode]
        exact Function.update_self l k before
      subst hi
      have he : e = edge := Option.some.inj (hedge'.symm.trans hedge)
      subst he
      refine ⟨e, via, w, _, hlands, rfl, rfl, ?_⟩
      have hnone : g.visited [(d, i)] = [] := by
        rw [Graph.visited, List.filterMap_cons]
        dsimp only
        rw [hnode]
        rfl
      rw [visited_append, hnone, List.append_nil, List.append_assoc]
      exact hexpands

/-- The blocks among the nodes of a path are the blocks that it visits. -/
theorem blocks_path (hv : g.nodes v = .block b) :
    g.blocks (q.map Prod.fst ++ [v]) = (g.visited q).map Prod.fst ++ [b] := by
  have hlast : g.blocks [v] = [b] := by
    rw [blocks, List.filterMap_cons]
    rw [hv]
    rfl
  have hfront : ∀ q : List (ℕ × ℕ), g.blocks (q.map Prod.fst) = (g.visited q).map Prod.fst := by
    intro q
    induction q with
    | nil => rfl
    | cons p q ih =>
      rw [blocks, List.map_cons, List.filterMap_cons, Graph.visited, List.filterMap_cons]
      cases hnode : g.nodes p.1 with
      | block b => exact congrArg (List.cons b) ih
      | dispatch l => exact ih
  rw [blocks, List.filterMap_append]
  exact congrArg₂ (· ++ ·) (hfront q) hlast

end Graph

/-- A graph has the paths of a function: each is visited by exactly one path of the graph, and every
path of the graph visits one. -/
structure SamePaths (f : Cfg) (g : Graph) : Prop where
  /-- For every path there is one path of the graph that visits the same blocks by the same edges. -/
  visits : ∀ p b, f.Run p b →
    ∃! q : List (ℕ × ℕ) × ℕ, (∃ labels, g.Run q.1 q.2 labels) ∧ g.nodes q.2 = .block b ∧ g.visited q.1 = p
  /-- For every path there is one sequence of nodes with the same blocks in the same order. -/
  nodes : ∀ bs, f.Path bs → ∃! vs, g.Path vs ∧ g.Arrived vs ∧ g.blocks vs = bs
  /-- A path of the graph has visited a path of the function, and is at its last block when it is at a
  block. -/
  visited : ∀ q v labels, g.Run q v labels →
    ∃ b, f.Run (g.visited q) b ∧ ∀ b', g.nodes v = .block b' → b' = b
  /-- A sequence of nodes that has come to a block has the blocks of a path of the function. -/
  arrived : ∀ vs, g.Path vs → g.Arrived vs → f.Path (g.blocks vs)

namespace Graph

variable {f : Cfg} {entry m : ℕ} {name num : ℕ → ℕ} {g : Graph}

variable {v b : ℕ} {q : List (ℕ × ℕ)} {labels : ℕ → ℕ}

/-- A node that is a block is one of the first ones. -/
theorem Valid.lt_of_block (hvalid : g.Valid m) (hv : v < g.size) (hb : g.nodes v = .block b) : v < m := by
  by_contra hge
  have hsize := hvalid.size
  have hdispatch := hvalid.dispatch (v - m) (by omega)
  rw [Nat.add_sub_cancel' (by omega), hb] at hdispatch
  cases hdispatch

theorem Run.lt (hvalid : g.Valid m) (h : g.Run q v labels) : v < g.size := by
  induction h with
  | start => exact hvalid.start_lt
  | step _ hedge _ ih => exact hvalid.succ_lt _ ih _ (List.mem_map_of_mem (List.mem_of_getElem? hedge))

/-- A path that is at a block is the way through the graph for what it visits. -/
theorem Run.expands_block (hrouted : Routed f m name num g) (hnames : Names f entry m name num)
    (hvalid : g.Valid m) (h : g.Run q v labels)
    (hb : g.nodes v = .block b) : Expands f m name num g (g.visited q) q v ∧ name v = b := by
  have hv := hvalid.lt_of_block (h.lt hvalid) hb
  obtain ⟨e, via, w, before, hlands, htarget, -, hexpands⟩ := h.expands hrouted hnames
  cases hlands with
  | block hw =>
    subst htarget
    rw [List.append_nil] at hexpands
    refine ⟨hexpands, ?_⟩
    rw [hrouted.nodes w hw] at hb
    exact Node.block.inj hb
  | dispatch hm =>
    dsimp only at htarget
    omega

/-- A graph whose edges lead to the targets has the paths of the function. -/
theorem Routed.samePaths (hrouted : Routed f m name num g) (hnames : Names f entry m name num)
    (hentry : f.entry = some entry) (hvalid : g.Valid m) : SamePaths f g := by
  constructor
  case visits =>
    intro p b hp
    obtain ⟨q, v, hexpands, hb⟩ := Expands.exists hrouted hnames hentry hp
    refine ⟨(q, v), ⟨hexpands.run hrouted, ?_, hexpands.visited hrouted⟩, ?_⟩
    · rw [hrouted.nodes v hexpands.lt, hb]
    · rintro ⟨q', v'⟩ ⟨⟨labels, hrun⟩, hb', hvisited⟩
      obtain ⟨hexpands', -⟩ := hrun.expands_block hrouted hnames hvalid hb'
      dsimp only at hvisited hexpands'
      rw [hvisited] at hexpands'
      obtain ⟨rfl, rfl⟩ := hexpands'.unique hexpands
      rfl
  case nodes =>
    rintro bs ⟨p, b, hp, rfl⟩
    obtain ⟨q, v, hexpands, hb⟩ := Expands.exists hrouted hnames hentry hp
    have hnode : g.nodes v = .block b := by rw [hrouted.nodes v hexpands.lt, hb]
    obtain ⟨labels, hrun⟩ := hexpands.run hrouted
    refine ⟨q.map Prod.fst ++ [v], ⟨⟨q, v, labels, hrun, rfl⟩, ⟨v, by simp, b, hnode⟩, ?_⟩, ?_⟩
    · rw [blocks_path hnode, hexpands.visited hrouted]
    · rintro vs ⟨⟨q', v', labels', hrun', rfl⟩, ⟨v'', hlast, b', hb'⟩, hblocks⟩
      have hv : v' = v'' := by simpa using hlast
      subst hv
      obtain ⟨hexpands', hname⟩ := hrun'.expands_block hrouted hnames hvalid hb'
      rw [blocks_path hb', ← hname, ← hb] at hblocks
      obtain ⟨hq, rfl⟩ := hexpands'.unique_nodes hrouted hnames hexpands hblocks
      rw [hq]
  case visited =>
    intro q v labels hrun
    obtain ⟨e, via, w, before, hlands, htarget, -, hexpands⟩ := hrun.expands hrouted hnames
    refine ⟨name w, hexpands.path hnames hentry, fun b' hb' => ?_⟩
    obtain ⟨hexpands', hname⟩ := hrun.expands_block hrouted hnames hvalid hb'
    rw [← hname]
    have hv := hvalid.lt_of_block (hrun.lt hvalid) hb'
    cases hlands with
    | block => exact congrArg name htarget.symm
    | dispatch hm =>
      dsimp only at htarget
      omega
  case arrived =>
    rintro vs ⟨q, v, labels, hrun, rfl⟩ ⟨v', hlast, b, hb⟩
    have hv : v = v' := by simpa using hlast
    subst hv
    obtain ⟨hexpands, hname⟩ := hrun.expands_block hrouted hnames hvalid hb
    refine ⟨_, b, ?_, blocks_path hb⟩
    rw [← hname]
    exact hexpands.path hnames hentry

end Graph

end Rucc.Wasm
