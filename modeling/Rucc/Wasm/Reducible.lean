import Rucc.Wasm.Paths
import Rucc.Wasm.Structure

/-!
# Every graph is made reducible

In the reverse postorder of a graph whose loops have one entry each, an edge that goes back goes to a
dominator of the node that it is from. So `untangle` makes every graph one that `Shape::reducible`
accepts, and it has the paths of the function.
-/

namespace Rucc.Wasm

open Relation

namespace Shape

variable {edges : List (List Edge)} {n m : ℕ} {idom : ℕ → Option ℕ} {g : Graph}

/-- Every edge to a position at or before its source goes to a dominator of the source. -/
def BackEdges (edges : List (List Edge)) : Prop :=
  ∀ e ∈ pairs edges, e.2 ≤ e.1 → Dominators.Dominates (preds edges) e.2 e.1

theorem mem_pairs {source target : ℕ} : (source, target) ∈ pairs edges ↔
    ∃ es, edges[source]? = some es ∧ ∃ e ∈ es, e.target = target := by
  rw [pairs, List.mem_flatMap]
  constructor
  · rintro ⟨s, hs, hmem⟩
    obtain ⟨e, he, heq⟩ := List.mem_map.mp hmem
    obtain ⟨rfl, rfl⟩ := Prod.mk.inj heq
    have hlt := List.mem_range.mp hs
    rw [List.getD_eq_getElem?_getD, List.getElem?_eq_getElem hlt] at he
    exact ⟨edges[s], List.getElem?_eq_getElem hlt, e, he, rfl⟩
  · rintro ⟨es, hes, e, he, rfl⟩
    refine ⟨source, List.mem_range.mpr (List.getElem?_eq_some_iff.mp hes).1, ?_⟩
    refine List.mem_map.mpr ⟨e, ?_, rfl⟩
    rw [List.getD_eq_getElem?_getD, hes]
    exact he

theorem mem_preds {p b : ℕ} : p ∈ preds edges b ↔ (p, b) ∈ pairs edges := by
  rw [preds, List.mem_map]
  constructor
  · rintro ⟨e, he, rfl⟩
    obtain ⟨hmem, heq⟩ := List.mem_filter.mp he
    rw [← of_decide_eq_true heq]
    exact hmem
  · intro hmem
    exact ⟨(p, b), List.mem_filter.mpr ⟨hmem, decide_eq_true rfl⟩, rfl⟩

/-- Which edges go back is found out of all of them. -/
theorem classify_spec (hrooted : Dominators.Rooted idom n) (hexact : Dominators.Exact n (preds edges) idom)
    (l : List (ℕ × ℕ)) (hl : ∀ e ∈ l, e.1 < n) : ∀ loopHeader forward,
    ∃ r, classify idom l loopHeader forward = some r ∧
      (r ≠ none ↔ ∀ e ∈ l, e.2 ≤ e.1 → Dominators.Dominates (preds edges) e.2 e.1) := by
  induction l with
  | nil => exact fun loopHeader forward => ⟨_, rfl, by simp⟩
  | cons e l ih =>
    intro loopHeader forward
    obtain ⟨source, target⟩ := e
    have ih := ih fun e he => hl e (List.mem_cons_of_mem _ he)
    rw [classify]
    by_cases hback : target ≤ source
    · have hsource : source < n := hl (source, target) (List.mem_cons_self)
      obtain ⟨d, hd, hiff⟩ := Dominators.dominates_spec hrooted target source source hsource le_rfl
      rw [hexact source hsource target] at hiff
      rw [if_pos hback, hd, Option.bind_some]
      cases d with
      | true =>
        rw [if_pos rfl]
        obtain ⟨r, hr, hall⟩ := ih (Function.update loopHeader target true) forward
        refine ⟨r, hr, hall.trans ?_⟩
        simp [hiff.mp rfl]
      | false =>
        rw [if_neg (by simp)]
        refine ⟨none, rfl, iff_of_false (by simp) fun hall => ?_⟩
        have := hiff.mpr (hall (source, target) (List.mem_cons_self) hback)
        exact absurd this (by simp)
    · rw [if_neg hback]
      obtain ⟨r, hr, hall⟩ := ih loopHeader (Function.update forward target ((forward target + 1) % 2 ^ 32))
      refine ⟨r, hr, hall.trans ?_⟩
      simp [hback]

/-- The children of every node are found. -/
theorem childrenOf_spec (hrooted : Dominators.Rooted idom n) : ∃ children, childrenOf n idom = some children := by
  rw [childrenOf]
  have hall : ∀ b ∈ List.range' 1 (n - 1), ∃ d, idom b = some d := by
    intro b hb
    have hmem := List.mem_range'_1.mp hb
    obtain ⟨p, hp, -⟩ := hrooted.below b (by omega) (by omega)
    exact ⟨p, hp⟩
  generalize List.range' 1 (n - 1) = l at hall
  generalize (fun _ : ℕ => ([] : List ℕ)) = children
  induction l generalizing children with
  | nil => exact ⟨children, rfl⟩
  | cons b l ih =>
    obtain ⟨d, hd⟩ := hall b (List.mem_cons_self)
    obtain ⟨children', hfold⟩ := ih (fun c hc => hall c (List.mem_cons_of_mem _ hc))
      (Function.update children d (children d ++ [b]))
    refine ⟨children', ?_⟩
    rw [List.foldlM_cons, hd]
    exact hfold

/-- A shape of a graph: its nodes in an order from the start, and its edges by position. -/
def Describes (g : Graph) (numbers : List ℕ) (shape : Shape) : Prop :=
  shape.order = numbers.map g.nodes ∧ shape.edges = edgesOf g numbers ∧ shape.dispatches = g.dispatches

section

variable {g : Graph} {numbers : List ℕ}

variable {u v h : ℕ}

theorem mem_pairs_edgesOf {s t : ℕ} : (s, t) ∈ pairs (edgesOf g numbers) ↔
    ∃ u, numbers[s]? = some u ∧ ∃ v ∈ g.succ u, numbers.idxOf v = t := by
  rw [mem_pairs, edgesOf]
  constructor
  · rintro ⟨es, hes, e, he, rfl⟩
    rw [List.getElem?_map] at hes
    obtain ⟨u, hu, rfl⟩ := Option.map_eq_some_iff.mp hes
    obtain ⟨e', he', rfl⟩ := List.mem_map.mp he
    exact ⟨u, hu, e'.target, List.mem_map_of_mem he', rfl⟩
  · rintro ⟨u, hu, v, hv, rfl⟩
    obtain ⟨e, he, rfl⟩ := List.mem_map.mp hv
    refine ⟨_, by rw [List.getElem?_map, hu]; rfl, _, List.mem_map_of_mem he, rfl⟩

theorem forward_idxOf {n : ℕ} {succ : ℕ → List ℕ} {start : ℕ} (hord : Postorder.Ordered n succ start numbers)
    (hreach : ReflTransGen (Postorder.Forward succ numbers) u v) :
    u = v ∨ numbers.idxOf u < numbers.idxOf v := by
  induction hreach with
  | refl => exact Or.inl rfl
  | tail _ hstep ih =>
    have hlt := Postorder.idxOf_lt hord.nodup hstep.2
    rcases ih with rfl | ih
    · exact Or.inr hlt
    · exact Or.inr (ih.trans hlt)

variable (hord : Postorder.Ordered g.size g.succ g.start numbers)

include hord

/-- Every position but the first has an edge from a smaller one. -/
theorem exists_pred {b : ℕ} (hpos : 0 < b) (hb : b < numbers.length) :
    ∃ p ∈ preds (edgesOf g numbers) b, p < b := by
  have hget : numbers[b]? = some numbers[b] := List.getElem?_eq_getElem hb
  generalize numbers[b] = v at hget
  obtain ⟨hv, hidx⟩ := hord.idxOf_iff.mp hget
  rcases hord.parent v hv with rfl | ⟨u, hforward⟩
  · have := hord.idxOf_start
    omega
  · have hu : u ∈ numbers := hforward.2.subset (List.mem_cons_self)
    have hlt := Postorder.idxOf_lt hord.nodup hforward.2
    refine ⟨numbers.idxOf u, mem_preds.mpr (mem_pairs_edgesOf.mpr ⟨u, ?_, v, hforward.1, hidx⟩), by omega⟩
    exact hord.idxOf_iff.mpr ⟨hu, rfl⟩

/-- The facts about the nodes of a reverse postorder are found when every edge back goes to a
dominator. -/
theorem ordered_spec : ∃ r, ordered g numbers = some r ∧
    (r ≠ none ↔ BackEdges (edgesOf g numbers)) ∧ ∀ shape ∈ r, Describes g numbers shape := by
  have hlt : ∀ e ∈ pairs (edgesOf g numbers), e.1 < numbers.length ∧ e.2 < numbers.length := by
    rintro ⟨s, t⟩ he
    obtain ⟨u, hu, v, hv, rfl⟩ := mem_pairs_edgesOf.mp he
    refine ⟨(List.getElem?_eq_some_iff.mp hu).1, List.idxOf_lt_length_of_mem ?_⟩
    exact hord.closed u (List.mem_of_getElem? hu) v hv
  have hlen : 0 < numbers.length := by
    have hfirst := hord.first
    rw [List.head?_eq_getElem?] at hfirst
    exact (List.getElem?_eq_some_iff.mp hfirst).1
  have hall : (pairs (edgesOf g numbers)).all (fun e => decide (e.2 < numbers.length)) = true :=
    List.all_eq_true.mpr fun e he => decide_eq_true (hlt e he).2
  obtain ⟨idom, hidoms, hrooted, hexact⟩ := Dominators.idoms_spec hlen (fun b => exists_pred hord)
    fun b _ p hp => (hlt (p, b) (mem_preds.mp hp)).1
  obtain ⟨children, hchildren⟩ := childrenOf_spec hrooted
  obtain ⟨facts, hfacts, hiff⟩ := classify_spec hrooted hexact _ (fun e he => (hlt e he).1)
    (fun _ => false) fun _ => 0
  have hordered : ordered g numbers = some (facts.map fun found => {
      order := numbers.map g.nodes
      edges := edgesOf g numbers
      dispatches := g.dispatches
      children := (List.range numbers.length).map children
      loopHeader := (List.range numbers.length).map found.1
      merge := (List.range numbers.length).map fun b => decide (2 ≤ found.2 b) }) := by
    rw [ordered]
    dsimp only
    rw [if_pos hall, hidoms, Option.bind_some, hchildren, Option.bind_some, hfacts, Option.map_some]
  cases facts with
  | none => exact ⟨none, hordered, iff_of_false (by simp) fun hback => hiff.mpr hback rfl, fun _ hmem => absurd hmem (Option.not_mem_none _)⟩
  | some facts =>
    refine ⟨_, hordered, iff_of_true (Option.some_ne_none _) (hiff.mp (Option.some_ne_none _)), fun shape hmem => ?_⟩
    rw [← Option.some.inj hmem]
    exact ⟨rfl, rfl, rfl⟩

/-- A node of a loop is dominated by where the loop is entered. -/
theorem dominates_of_loop {B : ℕ → Prop} (hloop : g.Loop h B) (hu : B u) (hun : u ∈ numbers) :
    Dominators.Dominates (preds (edgesOf g numbers)) (numbers.idxOf h) (numbers.idxOf u) := by
  rintro ⟨hstart, haround⟩
  -- a way that stays off the entry stays out of the loop
  have hout : ∀ x, numbers[numbers.idxOf u]? = some x → ¬ B x := by
    clear hun hu
    generalize numbers.idxOf u = s at haround ⊢
    induction haround with
    | refl =>
      intro x hx hB
      have hfirst := hord.first
      rw [List.head?_eq_getElem?, hx] at hfirst
      have hxs := Option.some.inj hfirst
      rw [hxs] at hB
      have heq := hloop.start hB
      have hidx := hord.idxOf_start
      rw [heq] at hidx
      exact hstart hidx.symm
    | @tail y z _ hstep ih =>
      intro x hx hB
      obtain ⟨w, hw, x', hx', hidx⟩ := mem_pairs_edgesOf.mp (mem_preds.mp hstep.1)
      have hwmem := (hord.idxOf_iff.mp hw).1
      have hxmem := hord.closed w hwmem x' hx'
      have hxx : x' = x := by
        have := hord.idxOf_iff.mpr ⟨hxmem, hidx⟩
        exact Option.some.inj (this.symm.trans hx)
      subst hxx
      have heq := hloop.entry w x' ⟨hord.lt w hwmem, hx'⟩ (ih w hw) hB
      rw [heq] at hidx
      exact hstep.2 hidx.symm
  exact hout u (hord.idxOf_iff.mpr ⟨hun, rfl⟩) hu

/-- A smaller position than a node's that leads forward to it is passed by no way to it alone. -/
theorem around_of_lt (hv : v ∈ numbers) (hlt : numbers.idxOf v < numbers.idxOf h) :
    Dominators.Around (preds (edgesOf g numbers)) (numbers.idxOf h) (numbers.idxOf v) := by
  refine ⟨by omega, ?_⟩
  have hway : ∀ x, ReflTransGen (Postorder.Forward g.succ numbers) g.start x →
      ReflTransGen (Postorder.Forward g.succ numbers) x v →
      ReflTransGen (fun a b => a ∈ preds (edgesOf g numbers) b ∧ b ≠ numbers.idxOf h) 0 (numbers.idxOf x) := by
    intro x hx
    induction hx with
    | refl =>
      intro _
      rw [hord.idxOf_start]
    | @tail y z _ hstep ih =>
      intro hz
      have hy : y ∈ numbers := hstep.2.subset (List.mem_cons_self)
      refine (ih (ReflTransGen.head hstep hz)).tail ⟨?_, ?_⟩
      · exact mem_preds.mpr (mem_pairs_edgesOf.mpr ⟨y, hord.idxOf_iff.mpr ⟨hy, rfl⟩, z, hstep.1, rfl⟩)
      · rcases forward_idxOf hord hz with heq | hlt'
        · rw [heq]; omega
        · omega
  exact hway v (hord.forward hv) ReflTransGen.refl

/-- The ways forward from where an edge back goes to where it is from are a tangle. -/
theorem tangle_of_back (hu : u ∈ numbers) (huv : v ∈ g.succ u)
    (hback : ReflTransGen (Postorder.Forward g.succ numbers) v u) :
    g.Tangle fun x => ReflTransGen (Postorder.Forward g.succ numbers) v x ∧
      ReflTransGen (Postorder.Forward g.succ numbers) x u := by
  have hv := hord.closed u hu v huv
  have hmem : ∀ x, ReflTransGen (Postorder.Forward g.succ numbers) v x → x ∈ numbers := by
    intro x hx
    rcases ReflTransGen.cases_tail hx with heq | ⟨w, _, hstep⟩
    · exact heq ▸ hv
    · exact hstep.2.subset (by simp)
  generalize hC : (fun x => ReflTransGen (Postorder.Forward g.succ numbers) v x ∧
    ReflTransGen (Postorder.Forward g.succ numbers) x u) = C
  have hCiff : ∀ x, C x ↔ ReflTransGen (Postorder.Forward g.succ numbers) v x ∧
      ReflTransGen (Postorder.Forward g.succ numbers) x u := fun x => by rw [← hC]
  have hstep : ∀ x y, ReflTransGen (Postorder.Forward g.succ numbers) v x → Postorder.Forward g.succ numbers x y →
      ReflTransGen (Postorder.Forward g.succ numbers) y u → g.Goes x y ∧ C x ∧ C y := fun x y hx hxy hy =>
    ⟨⟨hord.lt x (hmem x hx), hxy.1⟩, (hCiff x).mpr ⟨hx, ReflTransGen.head hxy hy⟩, (hCiff y).mpr ⟨hx.tail hxy, hy⟩⟩
  -- forward to the source of the edge, over the edge, and forward again
  have hto : ∀ x, ReflTransGen (Postorder.Forward g.succ numbers) x u →
      ReflTransGen (Postorder.Forward g.succ numbers) v x →
      ReflTransGen (fun x y => g.Goes x y ∧ C x ∧ C y) x u := by
    intro x hx
    induction hx using ReflTransGen.head_induction_on with
    | refl => exact fun _ => ReflTransGen.refl
    | head hxy hy ih => exact fun hvx => ReflTransGen.head (hstep _ _ hvx hxy hy) (ih (hvx.tail hxy))
  have hfrom : ∀ x, ReflTransGen (Postorder.Forward g.succ numbers) v x →
      ReflTransGen (Postorder.Forward g.succ numbers) x u →
      ReflTransGen (fun x y => g.Goes x y ∧ C x ∧ C y) v x := by
    intro x hx
    induction hx with
    | refl => exact fun _ => ReflTransGen.refl
    | tail hvy hyz ih => exact fun hz => (ih (ReflTransGen.head hyz hz)).tail (hstep _ _ hvy hyz hz)
  refine ⟨⟨v, (hCiff v).mpr ⟨ReflTransGen.refl, hback⟩⟩, fun x y hx hy => ?_⟩
  obtain ⟨hvx, hxu⟩ := (hCiff x).mp hx
  obtain ⟨hvy, hyu⟩ := (hCiff y).mp hy
  have hedge : g.Goes u v ∧ C u ∧ C v := ⟨⟨hord.lt u hu, huv⟩, (hCiff u).mpr ⟨hback, ReflTransGen.refl⟩,
    (hCiff v).mpr ⟨ReflTransGen.refl, hback⟩⟩
  exact TransGen.trans_left (TransGen.tail' (hto x hxu hvx) hedge) (hfrom y hvy hyu)

/-- When every tangle lies in a loop with one entry, every edge back goes to a dominator. -/
theorem backEdges_of_covered (hcovered : g.Covered (· < g.size)) : BackEdges (edgesOf g numbers) := by
  rintro ⟨s, t⟩ he hle
  dsimp only at hle ⊢
  obtain ⟨u, hu, v, hv, rfl⟩ := mem_pairs_edgesOf.mp he
  obtain ⟨humem, rfl⟩ := hord.idxOf_iff.mp hu
  have hvmem := hord.closed u humem v hv
  have hback : ReflTransGen (Postorder.Forward g.succ numbers) v u := by
    refine (hord.back u humem v hv).resolve_left fun hsub => ?_
    have := Postorder.idxOf_lt hord.nodup hsub
    omega
  obtain ⟨h, B, hloop, hCB, -, hh⟩ := hcovered _ (tangle_of_back hord humem hv hback) fun x hx => by
    rcases ReflTransGen.cases_tail hx.1 with heq | ⟨w, _, hstep⟩
    · exact heq ▸ hord.lt v hvmem
    · exact hord.lt x (hstep.2.subset (by simp))
  -- the entry of the loop comes first, so it is where the edge goes
  have hhv : v = h := by
    rcases forward_idxOf hord hh.1 with heq | hlt
    · exact heq
    · exact absurd (around_of_lt hord hvmem hlt)
        (dominates_of_loop hord hloop (hCB v ⟨ReflTransGen.refl, hback⟩) hvmem)
  rw [hhv]
  exact dominates_of_loop hord hloop (hCB u ⟨hback, ReflTransGen.refl⟩) humem

end

/-- Whether a graph is reducible is found out. -/
theorem reducible_spec (hvalid : g.Valid m) : ∃ numbers r, reducible g = some r ∧
    Postorder.Ordered g.size g.succ g.start numbers ∧
    (r ≠ none ↔ BackEdges (edgesOf g numbers)) ∧ ∀ shape ∈ r, Describes g numbers shape := by
  obtain ⟨post, hpost, hord⟩ := Postorder.postorder_spec hvalid.start_lt hvalid.succ_lt
  obtain ⟨r, hr, hiff, hdescribes⟩ := ordered_spec hord
  exact ⟨post.reverse, r, by rw [reducible, hpost, Option.bind_some, hr], hord, hiff, hdescribes⟩

/-- A shape of a graph: its nodes, each once and the start first, and its edges by position, of which
every one that goes back goes to a dominator of its source. -/
structure IsOf (shape : Shape) (g : Graph) : Prop where
  listed : ∃ numbers, numbers.Perm (List.range g.size) ∧ numbers.head? = some g.start ∧
    Describes g numbers shape
  back : BackEdges shape.edges

/-- A reverse postorder of a valid graph has every node. -/
theorem perm_range (hvalid : g.Valid m) {numbers : List ℕ}
    (hord : Postorder.Ordered g.size g.succ g.start numbers) : numbers.Perm (List.range g.size) := by
  refine (List.perm_ext_iff_of_nodup hord.nodup List.nodup_range).mpr fun v => ?_
  rw [List.mem_range]
  refine ⟨hord.lt v, fun hv => ?_⟩
  have hroot := hvalid.rooted v hv
  clear hv
  induction hroot with
  | refl => exact List.mem_of_mem_head? hord.first
  | tail _ hgoes ih => exact hord.closed _ ih _ hgoes.2

/-- What is answered for a valid graph is a shape of it. -/
theorem reducible_isOf (hvalid : g.Valid m) : ∃ r, reducible g = some r ∧
    (g.Covered (· < g.size) → r ≠ none) ∧ ∀ shape ∈ r, IsOf shape g := by
  obtain ⟨numbers, r, hr, hord, hiff, hdescribes⟩ := reducible_spec hvalid
  refine ⟨r, hr, fun hcovered => hiff.mpr (backEdges_of_covered hord hcovered), fun shape hmem => ?_⟩
  have hshape := hdescribes shape hmem
  refine ⟨⟨numbers, perm_range hvalid hord, hord.first, hshape⟩, ?_⟩
  rw [hshape.2.1]
  exact hiff.mp fun hnone => by rw [hnone] at hmem; exact absurd hmem (Option.not_mem_none _)

/-- For every function, putting the dispatch nodes in comes to an end, what comes of it is reducible
and has the paths of the function, and so has the graph whose shape is answered. -/
theorem of_untangle (f : Cfg) :
    (f.entry = none → Shape.of f = some (.ok ⟨[], [], 0, [], [], []⟩)) ∧
    ∀ entry, f.entry = some entry → ∃ g g', Graph.of f entry = some g ∧ g.untangle = some g' ∧
      (∃ shape, reducible g' = some (some shape) ∧ IsOf shape g') ∧ SamePaths f g ∧ SamePaths f g' ∧
      ∃ shape, Shape.of f = some (.ok shape) ∧ (IsOf shape g ∨ IsOf shape g') := by
  refine ⟨fun hnone => by rw [Shape.of, hnone], fun entry hentry => ?_⟩
  obtain ⟨g, name, num, hof, hnames, hnodes, hedges, hstart, hzero⟩ := Graph.of_spec hentry
  have hvalid := Graph.of_valid hnames hnodes hedges hstart hzero
  obtain ⟨g', huntangle, huntangled, hcovered⟩ := Graph.untangle_spec hvalid hzero
  have hrouted : Graph.Routed f g.size name num g := by
    refine ⟨hnodes, ⟨fun v => ⟨v, []⟩, hedges, fun v hv => ⟨[], .block hv⟩⟩, [], [], by simp, ?_⟩
    rw [hstart]
    exact .block hnames.pos
  obtain ⟨r, hr, -, hshape⟩ := reducible_isOf hvalid
  obtain ⟨r', hr', hsome, hshape'⟩ := reducible_isOf huntangled.valid
  obtain ⟨shape', hr'some⟩ := Option.ne_none_iff_exists'.mp (hsome hcovered)
  rw [hr'some] at hr' hshape'
  refine ⟨g, g', hof, huntangle, ⟨shape', hr', hshape' shape' rfl⟩,
    hrouted.samePaths hnames hentry hvalid,
    (hrouted.steps huntangled.steps).samePaths hnames hentry huntangled.valid, ?_⟩
  cases r with
  | some shape =>
    refine ⟨shape, ?_, Or.inl (hshape shape rfl)⟩
    rw [Shape.of, hentry]
    dsimp only
    rw [hof, Option.bind_some, hr, Option.bind_some]
  | none =>
    refine ⟨shape', ?_, Or.inr (hshape' shape' rfl)⟩
    rw [Shape.of, hentry]
    dsimp only
    rw [hof, Option.bind_some, hr, Option.bind_some]
    dsimp only
    rw [huntangle, Option.bind_some, hr']
    rfl

/-- A loop of two blocks that the entry goes to both of. -/
def twoEntries : Cfg where
  count := 3
  entry := some 0
  successors := fun b => match b with
    | 0 => [1, 2]
    | 1 => [2]
    | 2 => [1]
    | _ => []
  count_le := by decide
  entry_lt := by decide
  successors_lt := by decide

theorem of_untangle_twoEntries : ∃ g g', Graph.of twoEntries 0 = some g ∧ g.untangle = some g' ∧
    (∃ shape, reducible g' = some (some shape) ∧ IsOf shape g') ∧ SamePaths twoEntries g ∧ SamePaths twoEntries g' ∧
    ∃ shape, Shape.of twoEntries = some (.ok shape) ∧ (IsOf shape g ∨ IsOf shape g') :=
  (of_untangle twoEntries).2 0 rfl

end Shape

end Rucc.Wasm
