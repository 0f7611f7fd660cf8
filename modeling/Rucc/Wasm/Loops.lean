import Mathlib.Data.Finset.Card
import Rucc.Wasm.Irreducible

/-!
# Every loop has one entry

What a dispatch node does to the edges of a graph, and that after `untangle` every set of nodes that
lead to each other lies in a loop which is entered at one of them.
-/

namespace Rucc.Wasm

open Relation

namespace Graph

variable {inside region : ℕ → Bool} {v h u depth : ℕ} {g' : Graph} {B R C : ℕ → Prop} {c c' : List ℕ}
    {within : Graph → (ℕ → Bool) → Option Graph} {out : List (List ℕ)} {own : ℕ → List ℕ}

/-- An edge of a graph, as the nodes it joins. -/
def Goes (g : Graph) (u v : ℕ) : Prop := u < g.size ∧ v ∈ g.succ u

/-- A graph with a number of blocks and dispatch nodes after them, all of which the start leads to. -/
structure Valid (m : ℕ) (g : Graph) : Prop where
  size : g.size = m + g.dispatches
  blocks_le : m ≤ 2 ^ 32
  start_lt : g.start < g.size
  /-- The start is the first block until a dispatch node is put in front of it. -/
  start_block : g.start < m → g.start = 0
  succ_lt : ∀ u < g.size, ∀ v ∈ g.succ u, v < g.size
  rooted : ∀ v < g.size, ReflTransGen g.Goes g.start v
  block : ∀ v < m, ∃ b, g.nodes v = .block b
  dispatch : ∀ l < g.dispatches, g.nodes (m + l) = .dispatch l

/-! ## Entries -/

theorem mem_mark (inside : ℕ → Bool) (es : List Edge) (entry : ℕ → Bool) (v : ℕ) : es.foldl (fun entry edge =>
      if inside edge.target then Function.update entry edge.target true else entry) entry v = true ↔
    entry v = true ∨ inside v = true ∧ v ∈ es.map Edge.target := by
  induction es generalizing entry with
  | nil => simp
  | cons e es ih =>
    rw [List.foldl_cons, ih, List.map_cons, List.mem_cons]
    by_cases hinside : inside e.target = true
    · rw [if_pos hinside]
      by_cases heq : v = e.target
      · subst heq
        simp [hinside]
      · rw [Function.update_of_ne heq]
        tauto
    · rw [if_neg hinside]
      constructor
      · tauto
      · rintro (h | ⟨h, rfl | hmem⟩)
        · exact Or.inl h
        · exact absurd h hinside
        · exact Or.inr ⟨h, hmem⟩

theorem mem_marks (g : Graph) (inside : ℕ → Bool) (sources : List ℕ) (entry : ℕ → Bool) (v : ℕ) :
    sources.foldl (fun entry source =>
      if inside source then entry
      else (g.edges source).foldl (fun entry edge =>
        if inside edge.target then Function.update entry edge.target true else entry) entry) entry v = true ↔
    entry v = true ∨ inside v = true ∧ ∃ u ∈ sources, inside u = false ∧ v ∈ g.succ u := by
  induction sources generalizing entry with
  | nil => simp
  | cons u sources ih =>
    rw [List.foldl_cons, ih]
    simp only [List.mem_cons, exists_eq_or_imp]
    by_cases hinside : inside u = true
    · rw [if_pos hinside]
      simp [hinside]
    · rw [if_neg hinside, mem_mark]
      have hfalse : inside u = false := by simpa using hinside
      simp only [hfalse, true_and, succ]
      tauto

/-- The entries of a set of nodes are the nodes of it that an edge from outside goes to, and the
start. -/
theorem mem_entries {g : Graph} : v ∈ g.entries inside ↔
    v < g.size ∧ inside v = true ∧ (v = g.start ∨ ∃ u, inside u = false ∧ g.Goes u v) := by
  have hstart : (if inside g.start then Function.update (fun _ => false) g.start true else fun _ => false) v = true ↔
      inside v = true ∧ v = g.start := by
    by_cases hinside : inside g.start = true
    · rw [if_pos hinside]
      by_cases heq : v = g.start
      · simp [heq, hinside]
      · simp [heq]
    · rw [if_neg hinside]
      simp only [Bool.false_eq_true, false_iff]
      rintro ⟨hv, rfl⟩
      exact hinside hv
  rw [entries, List.mem_filter, List.mem_range, mem_marks, hstart]
  simp only [List.mem_range, Goes]
  constructor
  · rintro ⟨hv, ⟨hi, heq⟩ | ⟨hi, u, hu, hout, hmem⟩⟩
    · exact ⟨hv, hi, Or.inl heq⟩
    · exact ⟨hv, hi, Or.inr ⟨u, hout, hu, hmem⟩⟩
  · rintro ⟨hv, hi, heq | ⟨u, hout, hu, hmem⟩⟩
    · exact ⟨hv, Or.inl ⟨hi, heq⟩⟩
    · exact ⟨hv, Or.inr ⟨hi, u, hu, hout, hmem⟩⟩

theorem entries_nodup (g : Graph) (inside : ℕ → Bool) : (g.entries inside).Nodup :=
  List.Nodup.filter _ List.nodup_range

/-- When zero is an entry it is the first one. -/
theorem entries_head {g : Graph} (hzero : 0 ∈ g.entries inside) : (g.entries inside).head? = some 0 := by
  rw [entries] at hzero ⊢
  generalize (List.range g.size).foldl _ _ = entry at hzero ⊢
  obtain ⟨hsize, hentry⟩ := List.mem_filter.mp hzero
  obtain ⟨k, hk⟩ : ∃ k, g.size = k + 1 := ⟨g.size - 1, by have := List.mem_range.mp hsize; omega⟩
  rw [hk, List.range_succ_eq_map, List.filter_cons, if_pos hentry]
  rfl

/-! ## What a dispatch node changes -/

/-- Edges into a set of nodes may have been sent to new nodes instead, and the new nodes lead into the
set and to each other only. -/
structure Redirects (g g' : Graph) (R : ℕ → Prop) : Prop where
  size_le : g.size ≤ g'.size
  old : ∀ u < g.size, ∀ v ∈ g'.succ u,
    v ∈ g.succ u ∨ (g.size ≤ v ∧ v < g'.size) ∧ ∃ w ∈ g.succ u, R w
  new : ∀ u, g.size ≤ u → u < g'.size → ∀ v ∈ g'.succ u, R v ∨ g.size ≤ v ∧ v < g'.size
  start : g'.start = g.start ∨ R g.start ∧ g.size ≤ g'.start ∧ g'.start < g'.size

theorem Redirects.refl (g : Graph) (R : ℕ → Prop) : Redirects g g R :=
  ⟨le_rfl, fun _ _ _ hv => Or.inl hv, fun _ hle hlt => absurd hlt (by omega), Or.inl rfl⟩

/-- A set of nodes that is entered at one of them only. -/
structure Loop (g : Graph) (h : ℕ) (B : ℕ → Prop) : Prop where
  entry : ∀ u v, g.Goes u v → ¬ B u → B v → v = h
  start : B g.start → g.start = h

/-- A set of nodes each of which leads to each within it. -/
structure Tangle (g : Graph) (C : ℕ → Prop) : Prop where
  nonempty : ∃ v, C v
  joined : ∀ u v, C u → C v → TransGen (fun u v => g.Goes u v ∧ C u ∧ C v) u v

/-- Every tangle among some nodes lies in a loop among them which is entered in the tangle. -/
def Covered (g : Graph) (S : ℕ → Prop) : Prop :=
  ∀ C, g.Tangle C → (∀ v, C v → S v) → ∃ h B, g.Loop h B ∧ (∀ v, C v → B v) ∧ (∀ v, B v → S v) ∧ C h

/-- Edges that are sent elsewhere leave a loop that they did not go to, and one that they went to but
not at its entry. -/
theorem Loop.redirect {g : Graph} (hloop : g.Loop h B)
    (hred : Redirects g g' R) (hB : ∀ v, B v → v < g.size) (hdisjoint : ∀ v, B v → ¬ R v) :
    g'.Loop h B := by
  refine ⟨fun u v hgoes hu hv => ?_, fun hstart => ?_⟩
  · have hvlt := hB v hv
    by_cases hold : u < g.size
    · rcases hred.old u hold v hgoes.2 with hmem | ⟨hnew, -⟩
      · exact hloop.entry u v ⟨hold, hmem⟩ hu hv
      · omega
    · rcases hred.new u (by omega) hgoes.1 v hgoes.2 with hR | hnew
      · exact absurd hR (hdisjoint v hv)
      · omega
  · rcases hred.start with heq | ⟨-, hnew⟩
    · rw [heq] at hstart ⊢
      exact hloop.start hstart
    · have := hB _ hstart
      omega

/-- Edges that go into a loop but not to its entry may be sent to new nodes, which are then in the
loop. -/
theorem Loop.grow {m : ℕ} {g : Graph} (hloop : g.Loop h B)
    (hvalid : g.Valid m) (hred : Redirects g g' R) (hin : ∀ v, R v → B v ∧ v ≠ h) :
    g'.Loop h fun v => B v ∨ g.size ≤ v ∧ v < g'.size := by
  refine ⟨fun u v hgoes hu hv => ?_, fun hstart => ?_⟩
  · have huB : ¬ B u := fun hB => hu (Or.inl hB)
    have hold : u < g.size := by
      by_contra hge
      exact hu (Or.inr ⟨by omega, hgoes.1⟩)
    rcases hred.old u hold v hgoes.2 with hmem | ⟨hnew, w, hw, hR⟩
    · have hvlt := hvalid.succ_lt u hold v hmem
      exact hloop.entry u v ⟨hold, hmem⟩ huB (hv.resolve_right fun hnew => by omega)
    · -- the edge went to a node of the loop which is not its entry, from outside
      have heq := hloop.entry u w ⟨hold, hw⟩ huB (hin w hR).1
      exact absurd heq (hin w hR).2
  · rcases hred.start with heq | ⟨hR, -⟩
    · have hlt := hvalid.start_lt
      rw [heq] at hstart ⊢
      exact hloop.start (hstart.resolve_right fun hnew => by omega)
    · exact absurd (hloop.start (hin _ hR).1) (hin _ hR).2

/-- A tangle of nodes no edge to which was sent elsewhere was there before. -/
theorem Tangle.before {g : Graph} (h : g'.Tangle C) (hred : Redirects g g' R)
    (hC : ∀ v, C v → v < g.size) : g.Tangle C := by
  refine ⟨h.nonempty, fun u v hu hv => TransGen.mono (fun a b hab => ?_) _ _ (h.joined u v hu hv)⟩
  obtain ⟨hgoes, ha, hb⟩ := hab
  have halt := hC a ha
  refine ⟨⟨halt, (hred.old a halt b hgoes.2).resolve_right fun ⟨hnew, _⟩ => ?_⟩, ha, hb⟩
  have := hC b hb
  omega

/-- What is covered stays covered when the edges that are sent elsewhere went to other nodes. -/
theorem Covered.redirect {g : Graph} {S : ℕ → Prop} (h : g.Covered S) (hred : Redirects g g' R)
    (hS : ∀ v, S v → v < g.size) (hdisjoint : ∀ v, S v → ¬ R v) : g'.Covered S := by
  intro C hC hCS
  obtain ⟨x, B, hloop, hCB, hBS, hx⟩ := h C (hC.before hred fun v hv => hS v (hCS v hv)) hCS
  exact ⟨x, B, hloop.redirect hred (fun v hv => hS v (hBS v hv)) fun v hv => hdisjoint v (hBS v hv),
    hCB, hBS, hx⟩

/-- One change after another. -/
theorem Redirects.trans {g g₁ g₂ : Graph} {R' : ℕ → Prop} (h : Redirects g g₁ R)
    (h' : Redirects g₁ g₂ R') (hsub : ∀ v, R' v → R v) (hR : ∀ v, R v → v < g.size) :
    Redirects g g₂ R := by
  have hle := h.size_le
  have hle' := h'.size_le
  refine ⟨hle.trans hle', fun u hu v hv => ?_, fun u hge hlt v hv => ?_, ?_⟩
  · rcases h'.old u (by omega) v hv with hv | ⟨hnew, w, hw, hR'⟩
    · rcases h.old u hu v hv with hv | ⟨hnew, hw⟩
      · exact Or.inl hv
      · exact Or.inr ⟨⟨hnew.1, by omega⟩, hw⟩
    · refine Or.inr ⟨⟨by omega, hnew.2⟩, ?_⟩
      rcases h.old u hu w hw with hw | ⟨hneww, -⟩
      · exact ⟨w, hw, hsub w hR'⟩
      · have := hR w (hsub w hR')
        omega
  · by_cases hmid : u < g₁.size
    · rcases h'.old u hmid v hv with hv | ⟨hnew, -⟩
      · exact (h.new u hge hmid v hv).imp_right fun hnew => ⟨hnew.1, by omega⟩
      · exact Or.inr ⟨by omega, hnew.2⟩
    · rcases h'.new u (by omega) hlt v hv with hR' | hnew
      · exact Or.inl (hsub v hR')
      · exact Or.inr ⟨by omega, hnew.2⟩
  · rcases h'.start with heq | ⟨hR', hnew⟩
    · rw [heq]
      exact h.start.imp_right fun ⟨hR, hnew⟩ => ⟨hR, hnew.1, by omega⟩
    · rcases h.start with heq | ⟨-, hnew'⟩
      · rw [heq] at hR'
        exact Or.inr ⟨hsub _ hR', by omega, hnew.2⟩
      · have := hR _ (hsub _ hR')
        omega

/-! ## One dispatch node -/

/-- Entries that a dispatch node can be put in front of. -/
structure Entries (m : ℕ) (g : Graph) (entries : List ℕ) : Prop where
  nodup : entries.Nodup
  nonempty : entries ≠ []
  lt : ∀ v ∈ entries, v < m
  head : g.start ∈ entries → entries.head? = some g.start
  entered : ∀ v ∈ entries, v = g.start ∨ ∃ u, g.Goes u v

/-- The edge that an edge becomes. -/
theorem redirect_cases (entries : List ℕ) (node label : ℕ) (edge : Edge) :
    (edge.target ∉ entries ∧ redirect entries node label edge = edge) ∨
    ∃ which, entries[which]? = some edge.target ∧
      redirect entries node label edge = ⟨node, edge.labels ++ [(label, which)]⟩ := by
  rw [redirect]
  cases hwhich : entries.idxOf? edge.target with
  | none => exact Or.inl ⟨List.idxOf?_eq_none_iff.mp hwhich, rfl⟩
  | some which =>
    obtain ⟨hlt, heq, -⟩ := List.idxOf?_eq_some_iff.mp hwhich
    exact Or.inr ⟨which, by rw [List.getElem?_eq_getElem hlt, heq], rfl⟩

/-- The graph with a dispatch node in front of some entries. -/
def dispatched (g : Graph) (entries : List ℕ) : Graph where
  size := g.size + 1
  nodes := Function.update g.nodes g.size (.dispatch g.dispatches)
  edges := Function.update (fun v => (g.edges v).map (redirect entries g.size g.dispatches)) g.size
    (entries.map fun entry => ⟨entry, []⟩)
  start := if entries.contains g.start then g.size else g.start
  dispatches := g.dispatches + 1

variable {m : ℕ} {g : Graph} {entries : List ℕ}

theorem dispatched_edges_old (hv : v < g.size) : (g.dispatched entries).edges v =
    (g.edges v).map (redirect entries g.size g.dispatches) := by
  simp only [dispatched]
  rw [Function.update_of_ne hv.ne]

theorem dispatched_edges_new : (g.dispatched entries).edges g.size = entries.map fun entry => ⟨entry, []⟩ := by
  simp only [dispatched]
  rw [Function.update_self]

theorem dispatched_nodes_old (hv : v < g.size) : (g.dispatched entries).nodes v = g.nodes v := by
  simp only [dispatched]
  rw [Function.update_of_ne hv.ne]

theorem dispatched_nodes_new : (g.dispatched entries).nodes g.size = .dispatch g.dispatches := by
  simp only [dispatched]
  rw [Function.update_self]

theorem dispatched_succ_new : (g.dispatched entries).succ g.size = entries := by
  rw [succ, dispatched_edges_new, List.map_map]
  exact List.map_id entries

/-- Where the edges of a node go when there is a dispatch node. -/
theorem dispatched_succ_old (hu : u < g.size) : v ∈ (g.dispatched entries).succ u ↔
    v ∈ g.succ u ∧ v ∉ entries ∨ v = g.size ∧ ∃ w ∈ g.succ u, w ∈ entries := by
  rw [succ, dispatched_edges_old hu, List.map_map, List.mem_map]
  constructor
  · rintro ⟨e, he, rfl⟩
    have hmem : e.target ∈ g.succ u := List.mem_map_of_mem he
    rcases redirect_cases entries g.size g.dispatches e with ⟨hnot, heq⟩ | ⟨which, hwhich, heq⟩
    · rw [Function.comp_apply, heq]
      exact Or.inl ⟨hmem, hnot⟩
    · rw [Function.comp_apply, heq]
      exact Or.inr ⟨rfl, e.target, hmem, List.mem_of_getElem? hwhich⟩
  · rintro (⟨hv, hnot⟩ | ⟨rfl, w, hw, hentry⟩)
    · obtain ⟨e, he, rfl⟩ := List.mem_map.mp hv
      refine ⟨e, he, ?_⟩
      rcases redirect_cases entries g.size g.dispatches e with ⟨-, heq⟩ | ⟨which, hwhich, -⟩
      · rw [Function.comp_apply, heq]
      · exact absurd (List.mem_of_getElem? hwhich) hnot
    · obtain ⟨e, he, rfl⟩ := List.mem_map.mp hw
      refine ⟨e, he, ?_⟩
      rcases redirect_cases entries g.size g.dispatches e with ⟨hnot, -⟩ | ⟨which, -, heq⟩
      · exact absurd hentry hnot
      · rw [Function.comp_apply, heq]

theorem dispatched_start : (g.dispatched entries).start = if g.start ∈ entries then g.size else g.start := by
  simp [dispatched]

/-- Nothing stops the source when it adds a dispatch node. -/
theorem Entries.dispatch_eq (h : g.Entries m entries) (hvalid : g.Valid m) :
    g.dispatch entries = some (g.dispatched entries, g.size) := by
  have hlen : entries.length ≤ m := by
    have hsub : entries.toFinset ⊆ Finset.range m := by
      intro v hv
      exact Finset.mem_range.mpr (h.lt v (List.mem_toFinset.mp hv))
    have hcard := Finset.card_le_card hsub
    rw [List.toFinset_card_of_nodup h.nodup, Finset.card_range] at hcard
    exact hcard
  have hok : g.dispatchable entries = true := by
    rw [dispatchable, Bool.and_eq_true]
    constructor
    · rw [List.all_eq_true]
      intro v _
      rw [List.all_eq_true]
      intro e _
      cases hwhich : entries.idxOf? e.target with
      | none => rfl
      | some which =>
        obtain ⟨hlt, -⟩ := List.idxOf?_eq_some_iff.mp hwhich
        have := hvalid.blocks_le
        exact decide_eq_true (by omega)
    · by_cases hstart : g.start ∈ entries
      · simp [h.head hstart]
      · simp [hstart]
  rw [Graph.dispatch, if_pos hok]
  rfl

/-- What a dispatch node changes, when the nodes the edges go to are in a set. -/
theorem dispatched_redirects (hR : ∀ v ∈ entries, R v) : Redirects g (g.dispatched entries) R := by
  refine ⟨Nat.le_succ _, fun u hu v hv => ?_, fun u hge hlt v hv => ?_, ?_⟩
  · rcases (dispatched_succ_old hu).mp hv with ⟨hv, -⟩ | ⟨rfl, w, hw, hentry⟩
    · exact Or.inl hv
    · exact Or.inr ⟨⟨le_rfl, Nat.lt_succ_self _⟩, w, hw, hR w hentry⟩
  · have heq : u = g.size := Nat.le_antisymm (Nat.lt_succ_iff.mp hlt) hge
    rw [heq, dispatched_succ_new] at hv
    exact Or.inl (hR v hv)
  · rw [dispatched_start]
    by_cases hstart : g.start ∈ entries
    · rw [if_pos hstart]
      exact Or.inr ⟨hR _ hstart, le_rfl, Nat.lt_succ_self _⟩
    · rw [if_neg hstart]
      exact Or.inl rfl

/-- The graph with a dispatch node is valid. -/
theorem Entries.valid (h : g.Entries m entries) (hvalid : g.Valid m) : (g.dispatched entries).Valid m := by
  have hsize := hvalid.size
  have hlt : ∀ v ∈ entries, v < g.size := fun v hv => by have := h.lt v hv; omega
  -- the new node is reached as soon as what an edge to an entry is from is
  have hstep : ∀ u v, g.Goes u v → ReflTransGen (g.dispatched entries).Goes (g.dispatched entries).start u →
      ReflTransGen (g.dispatched entries).Goes (g.dispatched entries).start v ∧
      (v ∈ entries → ReflTransGen (g.dispatched entries).Goes (g.dispatched entries).start g.size) := by
    intro u v hgoes hu
    have hult : u < (g.dispatched entries).size := Nat.lt_succ_of_lt hgoes.1
    by_cases hv : v ∈ entries
    · have hd := hu.tail ⟨hult, (dispatched_succ_old hgoes.1).mpr (Or.inr ⟨rfl, v, hgoes.2, hv⟩)⟩
      refine ⟨hd.tail ⟨Nat.lt_succ_self _, ?_⟩, fun _ => hd⟩
      rw [dispatched_succ_new]
      exact hv
    · exact ⟨hu.tail ⟨hult, (dispatched_succ_old hgoes.1).mpr (Or.inl ⟨hgoes.2, hv⟩)⟩, fun hv' => absurd hv' hv⟩
  have hstart : ReflTransGen (g.dispatched entries).Goes (g.dispatched entries).start g.start := by
    by_cases hmem : g.start ∈ entries
    · refine ReflTransGen.single ?_
      rw [dispatched_start, if_pos hmem]
      refine ⟨Nat.lt_succ_self _, ?_⟩
      rw [dispatched_succ_new]
      exact hmem
    · rw [dispatched_start, if_neg hmem]
  have hold : ∀ v < g.size, ReflTransGen (g.dispatched entries).Goes (g.dispatched entries).start v := by
    intro v hv
    have hroot := hvalid.rooted v hv
    clear hv
    induction hroot with
    | refl => exact hstart
    | tail _ hgoes ih => exact (hstep _ _ hgoes ih).1
  have hnew : ReflTransGen (g.dispatched entries).Goes (g.dispatched entries).start g.size := by
    obtain ⟨v, hv⟩ := List.exists_mem_of_ne_nil _ h.nonempty
    rcases h.entered v hv with rfl | ⟨u, hgoes⟩
    · rw [dispatched_start, if_pos hv]
    · exact (hstep u v hgoes (hold u hgoes.1)).2 hv
  constructor
  case size => change g.size + 1 = m + (g.dispatches + 1); omega
  case blocks_le => exact hvalid.blocks_le
  case start_lt =>
    have := hvalid.start_lt
    change (g.dispatched entries).start < g.size + 1
    rw [dispatched_start]
    split_ifs <;> omega
  case start_block =>
    rw [dispatched_start]
    split_ifs with hmem
    · intro hlt; omega
    · exact hvalid.start_block
  case succ_lt =>
    intro u hu v hv
    change v < g.size + 1
    by_cases hold : u < g.size
    · rcases (dispatched_succ_old hold).mp hv with ⟨hv, -⟩ | ⟨rfl, -⟩
      · have := hvalid.succ_lt u hold v hv
        omega
      · omega
    · have heq : u = g.size := Nat.le_antisymm (Nat.lt_succ_iff.mp hu) (by omega)
      rw [heq, dispatched_succ_new] at hv
      have := hlt v hv
      omega
  case rooted =>
    intro v hv
    rcases Nat.lt_succ_iff_lt_or_eq.mp hv with hv | rfl
    · exact hold v hv
    · exact hnew
  case block =>
    intro v hv
    obtain ⟨b, hb⟩ := hvalid.block v hv
    exact ⟨b, by rw [dispatched_nodes_old (by omega), hb]⟩
  case dispatch =>
    intro l hl
    change l < g.dispatches + 1 at hl
    rcases Nat.lt_succ_iff_lt_or_eq.mp hl with hlt | rfl
    · rw [dispatched_nodes_old (by omega)]
      exact hvalid.dispatch l hlt
    · rw [← hsize, dispatched_nodes_new]

/-- A dispatch node added to a valid graph in front of entries that it can be put in front of. -/
def Dispatched (m : ℕ) (g g' : Graph) : Prop :=
  g.Valid m ∧ ∃ entries, g.Entries m entries ∧ g' = g.dispatched entries

/-! ## One loop -/

/-- A set of nodes that is not empty has an entry. -/
theorem entries_ne_nil (hvalid : g.Valid m) (hv : v < g.size)
    (hinside : inside v = true) : g.entries inside ≠ [] := by
  have hroot := hvalid.rooted v hv
  suffices h : inside v = true → ∃ w, w ∈ g.entries inside by
    obtain ⟨w, hw⟩ := h hinside
    exact List.ne_nil_of_mem hw
  clear hv hinside
  induction hroot with
  | refl => exact fun hstart => ⟨g.start, mem_entries.mpr ⟨hvalid.start_lt, hstart, Or.inl rfl⟩⟩
  | @tail u w _ hgoes ih =>
    intro hw
    cases hu : inside u with
    | true => exact ih hu
    | false =>
      exact ⟨w, mem_entries.mpr ⟨hvalid.succ_lt u hgoes.1 w hgoes.2, hw, Or.inr ⟨u, hu, hgoes⟩⟩⟩

/-- A dispatch node can be put in front of the entries of a set of blocks. -/
theorem entries_entries (hvalid : g.Valid m) (hlt : ∀ v, inside v = true → v < m)
    (hinside : inside v = true) : g.Entries m (g.entries inside) := by
  have hsize := hvalid.size
  constructor
  case nodup => exact entries_nodup g inside
  case nonempty =>
    have := hlt v hinside
    exact entries_ne_nil hvalid (by omega) hinside
  case lt => exact fun w hw => hlt w (mem_entries.mp hw).2.1
  case head =>
    intro hstart
    have hzero := hvalid.start_block (hlt _ (mem_entries.mp hstart).2.1)
    rw [hzero] at hstart ⊢
    exact entries_head hstart
  case entered =>
    intro w hw
    exact (mem_entries.mp hw).2.2.imp_right fun ⟨u, _, hgoes⟩ => ⟨u, hgoes⟩

open Classical in
/-- How many nodes of a region an edge from the region goes to. -/
noncomputable def fed (g : Graph) (region : ℕ → Bool) : ℕ :=
  {v ∈ Finset.range g.size | region v = true ∧ ∃ u, region u = true ∧ g.Goes u v}.card

theorem fed_le (g : Graph) (region : ℕ → Bool) : g.fed region ≤ g.size := by
  classical
  calc g.fed region ≤ (Finset.range g.size).card := Finset.card_filter_le _ _
    _ = g.size := Finset.card_range _

theorem fed_lt {x : ℕ} (hx : x ∈ c) (hsub : ∀ u v, region u = true → region v = true → g.Goes u v → v ∈ c ∧ v ≠ x) :
    g.fed region < c.length := by
  classical
  have hss : {v ∈ Finset.range g.size | region v = true ∧ ∃ u, region u = true ∧ g.Goes u v} ⊆
      c.toFinset.erase x := by
    intro v hv
    obtain ⟨-, hv, u, hu, hgoes⟩ := Finset.mem_filter.mp hv
    obtain ⟨hmem, hne⟩ := hsub u v hu hv hgoes
    exact Finset.mem_erase.mpr ⟨hne, List.mem_toFinset.mpr hmem⟩
  have hmem : x ∈ c.toFinset := List.mem_toFinset.mpr hx
  calc g.fed region ≤ (c.toFinset.erase x).card := Finset.card_le_card hss
    _ < c.toFinset.card := Finset.card_erase_lt_of_mem hmem
    _ ≤ c.length := List.toFinset_card_le c

theorem le_fed (hnodup : c.Nodup)
    (hsub : ∀ v ∈ c, v < g.size ∧ region v = true ∧ ∃ u, region u = true ∧ g.Goes u v) :
    c.length ≤ g.fed region := by
  classical
  rw [← List.toFinset_card_of_nodup hnodup]
  refine Finset.card_le_card fun v hv => ?_
  obtain ⟨hv, hregion, hfed⟩ := hsub v (List.mem_toFinset.mp hv)
  exact Finset.mem_filter.mpr ⟨Finset.mem_range.mpr hv, hregion, hfed⟩

/-- The nodes of a list and the ones that were added. -/
def Grown (g g' : Graph) (c : List ℕ) (v : ℕ) : Prop := v ∈ c ∨ g.size ≤ v ∧ v < g'.size

/-- What a loop is given one entry by. -/
structure Headed (m : ℕ) (g g' : Graph) (c : List ℕ) (h : ℕ) : Prop where
  valid : g'.Valid m
  steps : ReflTransGen (Dispatched m) g g'
  redirects : Redirects g g' (· ∈ c)
  loop : g'.Loop h (Grown g g' c)
  header : Grown g g' c h
  added : ∀ v, g.size ≤ v → v < g'.size → v = h
  fed : g'.fed (Function.update (fun v => decide (v ∈ c)) h false) < c.length

theorem header_one {inside : ℕ → Bool} {h : ℕ} (hone : g.entries inside = [h]) :
    g.header inside = some (g, h) := by
  rw [Graph.header, hone]

theorem header_more {inside : ℕ → Bool} (hmore : ∀ h, g.entries inside ≠ [h]) :
    g.header inside = g.dispatch (g.entries inside) := by
  rw [Graph.header]
  split
  case h_1 h heq => exact absurd heq (hmore h)
  case h_2 => rfl

/-- A loop is given one entry. -/
theorem header_spec (hvalid : g.Valid m) (hc : c ≠ []) (hlt : ∀ v ∈ c, v < m) :
    ∃ g' h, g.header (fun v => decide (v ∈ c)) = some (g', h) ∧ Headed m g g' c h := by
  have hsize := hvalid.size
  obtain ⟨x, hx⟩ := List.exists_mem_of_ne_nil c hc
  have hentries : g.Entries m (g.entries fun v => decide (v ∈ c)) :=
    entries_entries hvalid (fun v hv => hlt v (of_decide_eq_true hv)) (decide_eq_true hx)
  have hin : ∀ v ∈ g.entries (fun v => decide (v ∈ c)), v ∈ c := fun v hv =>
    of_decide_eq_true (mem_entries.mp hv).2.1
  have hentry : ∀ u v, g.Goes u v → u ∉ c → v ∈ c → v ∈ g.entries (fun v => decide (v ∈ c)) := by
    intro u v hgoes hu hv
    have := hlt v hv
    exact mem_entries.mpr ⟨by omega, decide_eq_true hv, Or.inr ⟨u, decide_eq_false hu, hgoes⟩⟩
  have hstart : g.start ∈ c → g.start ∈ g.entries (fun v => decide (v ∈ c)) := fun hs =>
    mem_entries.mpr ⟨hvalid.start_lt, decide_eq_true hs, Or.inl rfl⟩
  have hheader := @header_one g (fun v => decide (v ∈ c))
  have hmore := @header_more g (fun v => decide (v ∈ c))
  generalize g.entries (fun v => decide (v ∈ c)) = es at hentries hin hentry hstart hheader hmore
  have hgrown : ∀ v, Grown g g c v ↔ v ∈ c := fun v => ⟨fun hv => hv.resolve_right (by omega), Or.inl⟩
  by_cases hone : ∃ h, es = [h]
  · -- the one entry is the header
    obtain ⟨h, rfl⟩ := hone
    have hh : h ∈ c := hin h (List.mem_singleton_self h)
    refine ⟨g, h, hheader rfl, hvalid, ReflTransGen.refl, Redirects.refl g _, ⟨fun u v hgoes hu hv => ?_, fun hs => ?_⟩,
      Or.inl hh, fun v hge hv => by omega, fed_lt hh fun u v hu hv hgoes => ?_⟩
    · rw [hgrown] at hu hv
      exact List.mem_singleton.mp (hentry u v hgoes hu hv)
    · rw [hgrown] at hs
      exact List.mem_singleton.mp (hstart hs)
    · by_cases heq : v = h
      · rw [heq, Function.update_self] at hv
        exact absurd hv (by simp)
      · rw [Function.update_of_ne heq] at hv
        exact ⟨of_decide_eq_true hv, heq⟩
  · have hdispatch := hmore fun h heq => hone ⟨h, heq⟩
    rw [hentries.dispatch_eq hvalid] at hdispatch
    have hnot : g.size ∉ c := fun hmem => by have := hlt _ hmem; omega
    obtain ⟨e, he⟩ := List.exists_mem_of_ne_nil es hentries.nonempty
    refine ⟨g.dispatched es, g.size, hdispatch, hentries.valid hvalid,
      ReflTransGen.single ⟨hvalid, es, hentries, rfl⟩, dispatched_redirects hin,
      ⟨fun u v hgoes hu hv => ?_, fun hs => ?_⟩, Or.inr ⟨le_rfl, Nat.lt_succ_self _⟩,
      fun v hge hv => Nat.le_antisymm (Nat.lt_succ_iff.mp hv) hge, fed_lt (hin e he) fun u v hu hv hgoes => ?_⟩
    · -- an edge to a node of the loop itself would be from inside it
      have huc : u ∉ c := fun hmem => hu (Or.inl hmem)
      have hold : u < g.size := by
        by_contra hge
        exact hu (Or.inr ⟨by omega, hgoes.1⟩)
      rcases (dispatched_succ_old hold).mp hgoes.2 with ⟨hmem, hnot⟩ | ⟨heq, -⟩
      · rcases hv with hv | hv
        · exact absurd (hentry u v ⟨hold, hmem⟩ huc hv) hnot
        · have := hvalid.succ_lt u hold v hmem
          omega
      · exact heq
    · rw [dispatched_start] at hs ⊢
      by_cases hmem : g.start ∈ es
      · rw [if_pos hmem]
      · rw [if_neg hmem] at hs
        have hlt := hvalid.start_lt
        rcases hs with hs | hs
        · exact absurd (hstart hs) hmem
        · omega
    · have hsame : Function.update (fun v => decide (v ∈ c)) g.size false = fun v => decide (v ∈ c) := by
        rw [← decide_eq_false hnot]
        exact Function.update_eq_self g.size (fun v => decide (v ∈ c))
      rw [hsame] at hu hv
      have huc := of_decide_eq_true hu
      have hvc := of_decide_eq_true hv
      have hu := hlt u huc
      have hv := hlt v hvc
      rcases (dispatched_succ_old (by omega)).mp hgoes.2 with ⟨-, hnotin⟩ | ⟨heq, -⟩
      · exact ⟨hvc, fun hve => hnotin (hve ▸ he)⟩
      · omega

/-! ## One component -/

/-- What dispatch nodes for the loops among some nodes give. -/
structure Untangled (m : ℕ) (g g' : Graph) (S : ℕ → Prop) : Prop where
  valid : g'.Valid m
  steps : ReflTransGen (Dispatched m) g g'
  redirects : Redirects g g' S
  covered : g'.Covered fun v => S v ∨ g.size ≤ v ∧ v < g'.size

/-- What is asked of the calls for smaller regions. -/
def Within (m depth : ℕ) (within : Graph → (ℕ → Bool) → Option Graph) : Prop :=
  ∀ g region, g.Valid m → (∀ v, region v = true → v < m) → g.fed region < depth →
    ∃ g', within g region = some g' ∧ Untangled m g g' (region · = true)

/-- A loop that has been given one entry, and the loops within it when its entry is taken out. -/
theorem Headed.untangled {g'' : Graph} (hvalid : g.Valid m) (hlt : ∀ v ∈ c, v < m) (hhead : Headed m g g' c h)
    (hwithin : Untangled m g' g'' (Function.update (fun v => decide (v ∈ c)) h false · = true)) :
    Untangled m g g'' (· ∈ c) := by
  have hsize := hvalid.size
  have hle := hhead.redirects.size_le
  have hregion : ∀ v, Function.update (fun v => decide (v ∈ c)) h false v = true ↔ v ∈ c ∧ v ≠ h := by
    intro v
    by_cases heq : v = h
    · simp [heq]
    · simp [heq]
  have hred : Redirects g g'' (· ∈ c) := by
    refine hhead.redirects.trans hwithin.redirects (fun v hv => ((hregion v).mp hv).1) fun v hv => ?_
    have := hlt v hv
    omega
  have hle' := hwithin.redirects.size_le
  refine ⟨hwithin.valid, hhead.steps.trans hwithin.steps, hred, fun C hC hCS => ?_⟩
  by_cases hhC : C h
  · -- the tangle passes the entry of the whole loop
    refine ⟨h, fun v => Grown g g' c v ∨ g'.size ≤ v ∧ v < g''.size, ?_, fun v hv => ?_, fun v hv => ?_, hhC⟩
    · refine hhead.loop.grow hhead.valid hwithin.redirects fun v hv => ?_
      obtain ⟨hvc, hne⟩ := (hregion v).mp hv
      exact ⟨Or.inl hvc, hne⟩
    · rcases hCS v hv with hvc | hnew
      · exact Or.inl (Or.inl hvc)
      · by_cases hlt' : v < g'.size
        · exact Or.inl (Or.inr ⟨hnew.1, hlt'⟩)
        · exact Or.inr ⟨by omega, hnew.2⟩
    · rcases hv with (hvc | hnew) | hnew
      · exact Or.inl hvc
      · exact Or.inr ⟨hnew.1, by omega⟩
      · exact Or.inr ⟨by omega, hnew.2⟩
  · -- it lies in the loop with its entry taken out
    obtain ⟨x, B, hloop, hCB, hBS, hx⟩ := hwithin.covered C hC fun v hv => by
      have hne : v ≠ h := fun heq => hhC (heq ▸ hv)
      rcases hCS v hv with hvc | hnew
      · exact Or.inl ((hregion v).mpr ⟨hvc, hne⟩)
      · refine Or.inr ⟨?_, hnew.2⟩
        by_contra hlt'
        exact hne (hhead.added v hnew.1 (by omega))
    refine ⟨x, B, hloop, hCB, fun v hv => ?_, hx⟩
    rcases hBS v hv with hin | hnew
    · exact Or.inl ((hregion v).mp hin).1
    · exact Or.inr ⟨by omega, hnew.2⟩

/-- One component: it is left alone when it is no loop, and is given one entry when it is. -/
theorem component_spec (hwithin : Within m depth within) (hvalid : g.Valid m) (hc : c ≠ []) (hlt : ∀ v ∈ c, v < m)
    (hfed : (1 < c.length ∨ ∃ v, c = [v] ∧ g.Goes v v) → c.length ≤ depth) :
    ∃ g', component within g c = some g' ∧ Untangled m g g' (· ∈ c) := by
  have hsize := hvalid.size
  obtain ⟨first, rest, rfl⟩ := List.exists_cons_of_ne_nil hc
  have hlooped : g.looped (first :: rest) first = true ↔
      1 < (first :: rest).length ∨ first ∈ g.succ first := by
    rw [looped, Bool.or_eq_true, decide_eq_true_iff, List.any_eq_true, succ, List.mem_map]
    simp
  have hfirst := hlt first (List.mem_cons_self)
  rw [component]
  by_cases hloop : g.looped (first :: rest) first = true
  · rw [if_pos hloop]
    obtain ⟨g', h, hheader, hhead⟩ := header_spec hvalid hc hlt
    have hdepth : (first :: rest).length ≤ depth := by
      refine hfed ?_
      rcases hlooped.mp hloop with hlen | hself
      · exact Or.inl hlen
      · rcases rest with _ | ⟨second, rest⟩
        · exact Or.inr ⟨first, rfl, by omega, hself⟩
        · exact Or.inl (by simp)
    obtain ⟨g'', hcall, huntangled⟩ := hwithin g' (Function.update (fun v => decide (v ∈ first :: rest)) h false)
      hhead.valid
      (fun v hv => by
        by_cases heq : v = h
        · rw [heq, Function.update_self] at hv
          exact absurd hv (by simp)
        · rw [Function.update_of_ne heq] at hv
          exact hlt v (of_decide_eq_true hv))
      (lt_of_lt_of_le hhead.fed hdepth)
    refine ⟨g'', ?_, hhead.untangled hvalid hlt huntangled⟩
    dsimp only
    rw [hheader]
    exact hcall
  · rw [if_neg hloop]
    refine ⟨g, rfl, hvalid, ReflTransGen.refl, Redirects.refl g _, fun C hC hCS => ?_⟩
    -- one node with no edge to itself is no tangle
    rw [hlooped, not_or] at hloop
    have hrest : rest = [] := by
      cases rest with
      | nil => rfl
      | cons => simp at hloop
    have hall : ∀ v, C v → v = first := by
      intro v hv
      have := (hCS v hv).resolve_right (by omega)
      rw [hrest] at this
      exact List.mem_singleton.mp this
    obtain ⟨v, hv⟩ := hC.nonempty
    have hvf := hall v hv
    rw [hvf] at hv
    obtain ⟨w, hstep, -⟩ := TransGen.head'_iff.mp (hC.joined first first hv hv)
    have hwf := hall w hstep.2.2
    rw [hwf] at hstep
    exact absurd hstep.1.2 hloop.2

/-! ## All components -/

/-- The nodes of a component and the new nodes that were added for it. -/
def Owned (g g' : Graph) (own : ℕ → List ℕ) (c : List ℕ) (v : ℕ) : Prop :=
  v ∈ c ∨ (g.size ≤ v ∧ v < g'.size) ∧ own v = c

/-- What holds when some components have been dealt with: every new node was added for one of
them. -/
structure Progress (m : ℕ) (g : Graph) (done : List (List ℕ)) (own : ℕ → List ℕ) (g' : Graph) : Prop where
  valid : g'.Valid m
  steps : ReflTransGen (Dispatched m) g g'
  size_le : g.size ≤ g'.size
  old : ∀ u < g.size, ∀ v ∈ g'.succ u,
    v ∈ g.succ u ∨ (g.size ≤ v ∧ v < g'.size) ∧ ∃ w ∈ g.succ u, w ∈ own v
  new : ∀ u, g.size ≤ u → u < g'.size → own u ∈ done ∧ ∀ v ∈ g'.succ u, Owned g g' own (own u) v
  start : g'.start = g.start ∨ (∃ c ∈ done, g.start ∈ c) ∧ g.size ≤ g'.start ∧ g'.start < g'.size
  covered : ∀ c ∈ done, g'.Covered (Owned g g' own c)

/-- One more component. -/
theorem Progress.step {done : List (List ℕ)} {own : ℕ → List ℕ} {g' g'' : Graph} {c : List ℕ}
    (h : Progress m g done own g') (hsize : m ≤ g.size) (hdone : ∀ c' ∈ done, c' ≠ [] ∧ ∀ v ∈ c', v < m ∧ v ∉ c)
    (hne : c ≠ []) (hlt : ∀ v ∈ c, v < m) (hc : Untangled m g' g'' (· ∈ c)) :
    Progress m g (done ++ [c]) (fun v => if v < g'.size then own v else c) g'' := by
  have hle := h.size_le
  have hle' := hc.redirects.size_le
  generalize hown : (fun v => if v < g'.size then own v else c) = own'
  have hownold : ∀ v, v < g'.size → own' v = own v := fun v hv => by rw [← hown]; exact if_pos hv
  have hownnew : ∀ v, g'.size ≤ v → own' v = c := fun v hv => by
    rw [← hown]
    exact if_neg (by omega)
  have hnot : c ∉ done := fun hmem => by
    obtain ⟨v, hv⟩ := List.exists_mem_of_ne_nil c hne
    exact ((hdone c hmem).2 v hv).2 hv
  have howned : ∀ c', ∀ v, Owned g g' own c' v → Owned g g'' own' c' v := by
    intro c' v hv
    refine hv.imp_right fun ⟨hnew, heq⟩ => ⟨⟨hnew.1, by omega⟩, ?_⟩
    rw [hownold v hnew.2]
    exact heq
  refine ⟨hc.valid, h.steps.trans hc.steps, by omega, fun u hu v hv => ?_, fun u hge hlt' => ?_, ?_, ?_⟩
  · rcases hc.redirects.old u (by omega) v hv with hv | ⟨hnew, w, hw, hwc⟩
    · refine (h.old u hu v hv).imp_right fun ⟨hnew, w, hw, hwo⟩ => ⟨⟨hnew.1, by omega⟩, w, hw, ?_⟩
      rw [hownold v hnew.2]
      exact hwo
    · -- the edge went to the component, so it had not been sent elsewhere before
      have hwm := hlt w hwc
      have hwg := (h.old u hu w hw).resolve_right fun ⟨hneww, _⟩ => by omega
      exact Or.inr ⟨⟨by omega, hnew.2⟩, w, hwg, by rw [hownnew v hnew.1]; exact hwc⟩
  · by_cases hmid : u < g'.size
    · obtain ⟨hin, hout⟩ := h.new u hge hmid
      rw [hownold u hmid]
      refine ⟨List.mem_append_left _ hin, fun v hv => ?_⟩
      rcases hc.redirects.old u hmid v hv with hv | ⟨-, w, hw, hwc⟩
      · exact howned _ v (hout v hv)
      · rcases hout w hw with hwo | ⟨hnew, -⟩
        · exact absurd hwc ((hdone _ hin).2 w hwo).2
        · have := hlt w hwc
          omega
    · rw [hownnew u (by omega)]
      refine ⟨List.mem_append_right _ (List.mem_singleton_self c), fun v hv => ?_⟩
      refine (hc.redirects.new u (by omega) hlt' v hv).imp_right fun hnew => ⟨⟨by omega, hnew.2⟩, ?_⟩
      exact hownnew v hnew.1
  · rcases hc.redirects.start with heq | ⟨hsc, hnew⟩
    · rw [heq]
      exact h.start.imp_right fun ⟨⟨c', hc', hs⟩, hnew⟩ =>
        ⟨⟨c', List.mem_append_left _ hc', hs⟩, hnew.1, by omega⟩
    · have hs := hlt _ hsc
      have heq := h.start.resolve_right fun ⟨_, hnew⟩ => by omega
      rw [heq] at hsc
      exact Or.inr ⟨⟨c, List.mem_append_right _ (List.mem_singleton_self c), hsc⟩, by omega, hnew.2⟩
  · intro c' hc'
    rcases List.mem_append.mp hc' with hc' | hc'
    · -- an earlier component owns no node that is new now
      have hsame : Owned g g'' own' c' = Owned g g' own c' := by
        funext v
        refine propext ⟨fun hv => hv.imp_right fun ⟨hnew, heq⟩ => ?_, howned c' v⟩
        by_cases hmid : v < g'.size
        · rw [hownold v hmid] at heq
          exact ⟨⟨hnew.1, hmid⟩, heq⟩
        · rw [hownnew v (by omega)] at heq
          exact absurd (heq ▸ hc') hnot
      rw [hsame]
      refine (h.covered c' hc').redirect hc.redirects (fun v hv => ?_) fun v hv hvc => ?_
      · rcases hv with hv | ⟨hnew, -⟩
        · have := ((hdone c' hc').2 v hv).1
          omega
        · exact hnew.2
      · rcases hv with hv | ⟨hnew, -⟩
        · exact ((hdone c' hc').2 v hv).2 hvc
        · have := hlt v hvc
          omega
    · -- this one owns the nodes that are new now
      have hsame : Owned g g'' own' c = fun v => v ∈ c ∨ g'.size ≤ v ∧ v < g''.size := by
        funext v
        refine propext (or_congr_right ⟨fun hv => ?_, fun hv => ?_⟩)
        · refine ⟨?_, hv.1.2⟩
          by_contra hmid
          have heq := hv.2
          rw [hownold v (by omega)] at heq
          exact hnot (heq ▸ (h.new v hv.1.1 (by omega)).1)
        · exact ⟨⟨by omega, hv.2⟩, hownnew v hv.1⟩
      rw [List.mem_singleton.mp hc', hsame]
      exact hc.covered

theorem Progress.start_nil (hvalid : g.Valid m) : Progress m g [] (fun _ => []) g :=
  ⟨hvalid, ReflTransGen.refl, le_rfl, fun _ _ _ hv => Or.inl hv, fun _ hge hlt => absurd hlt (by omega),
    Or.inl rfl, fun _ hc => absurd hc (List.not_mem_nil)⟩

/-- A way within a region stays below the number of nodes. -/
theorem Valid.reach_lt (hvalid : g.Valid m) (hu : u < g.size)
    (hreach : Scc.Reach g.succ region u v) : v < g.size := by
  induction hreach with
  | refl => exact hu
  | tail _ hedge ih => exact hvalid.succ_lt _ ih _ hedge.2.1

/-- A component that is a loop has no more nodes than the region has nodes with an edge from it. -/
theorem component_fed (hvalid : g.Valid m) (hout : Scc.Components g.size g.succ region out) (hc : c ∈ out)
    (hloop : 1 < c.length ∨ ∃ v, c = [v] ∧ g.Goes v v) : c.length ≤ g.fed region := by
  have hin : ∀ v ∈ c, v < g.size ∧ region v = true := fun v hv => (hout.covers v).mp ⟨c, hc, hv⟩
  refine le_fed (hout.nodup c hc) fun v hv => ⟨(hin v hv).1, (hin v hv).2, ?_⟩
  rcases hloop with hlen | ⟨w, rfl, hself⟩
  · -- another node of the component leads to it
    obtain ⟨u, hu, hne⟩ : ∃ u ∈ c, u ≠ v := by
      by_contra hall
      have hsub : c.toFinset ⊆ {v} := by
        intro u hu
        rw [Finset.mem_singleton]
        by_contra hne
        exact hall ⟨u, List.mem_toFinset.mp hu, hne⟩
      have hcard := Finset.card_le_card hsub
      rw [List.toFinset_card_of_nodup (hout.nodup c hc), Finset.card_singleton] at hcard
      omega
    rcases ReflTransGen.cases_tail (hout.connected c hc u hu v hv) with heq | ⟨w, hw, hedge⟩
    · exact absurd heq.symm hne
    · exact ⟨w, hedge.1, hvalid.reach_lt (hin u hu).1 hw, hedge.2.1⟩
  · have heq := List.mem_singleton.mp hv
    rw [heq]
    exact ⟨w, (hin w (List.mem_singleton_self w)).2, hself⟩

/-- The components one after another. -/
theorem Progress.run (hwithin : Within m depth within) (hsize : m ≤ g.size) (cs : List (List ℕ)) :
    ∀ (done : List (List ℕ)) (own : ℕ → List ℕ) (g' : Graph), Progress m g done own g' →
    (∀ c ∈ done ++ cs, c ≠ [] ∧ ∀ v ∈ c, v < m) →
    (done ++ cs).Pairwise (fun c c' => ∀ v ∈ c, v ∉ c') →
    (∀ c ∈ cs, (1 < c.length ∨ ∃ v, c = [v] ∧ g.Goes v v) → c.length ≤ depth) →
    ∃ own' g'', cs.foldlM (component within) g' = some g'' ∧ Progress m g (done ++ cs) own' g'' := by
  induction cs with
  | nil =>
    intro done own g' h _ _ _
    rw [List.append_nil]
    exact ⟨own, g', rfl, h⟩
  | cons c cs ih =>
    intro done own g' h hall hdisjoint hfed
    have hc := hall c (by simp)
    have hdone : ∀ c' ∈ done, c' ≠ [] ∧ ∀ v ∈ c', v < m ∧ v ∉ c := by
      intro c' hc'
      have hc'all := hall c' (List.mem_append_left _ hc')
      have happ := (List.pairwise_append.mp hdisjoint).2.2 c' hc' c (List.mem_cons_self)
      exact ⟨hc'all.1, fun v hv => ⟨hc'all.2 v hv, happ v hv⟩⟩
    -- an edge of the component to itself was there at the start
    have hself : (1 < c.length ∨ ∃ v, c = [v] ∧ g'.Goes v v) → c.length ≤ depth := by
      intro hloop
      refine hfed c (List.mem_cons_self) (hloop.imp_right fun ⟨v, heq, hgoes⟩ => ⟨v, heq, ?_⟩)
      have hv : v < m := hc.2 v (by rw [heq]; exact List.mem_singleton_self v)
      refine ⟨by omega, (h.old v (by omega) v hgoes.2).resolve_right fun ⟨hnew, _⟩ => by omega⟩
    obtain ⟨g₁, hcomp, huntangled⟩ := component_spec hwithin h.valid hc.1 hc.2 hself
    have hnext := h.step hsize hdone hc.1 hc.2 huntangled
    have hassoc : done ++ c :: cs = (done ++ [c]) ++ cs := by simp
    rw [hassoc] at hall hdisjoint ⊢
    obtain ⟨own', g'', hfold, hprogress⟩ := ih _ _ g₁ hnext hall hdisjoint
      fun c' hc' => hfed c' (List.mem_cons_of_mem _ hc')
    refine ⟨own', g'', ?_, hprogress⟩
    rw [List.foldlM_cons, hcomp]
    exact hfold

/-- A node is owned by one component. -/
theorem Progress.owned_unique (hout : Scc.Components g.size g.succ region out) (hc : c ∈ out) (hc' : c' ∈ out)
    (hv : Owned g g' own c v) (hv' : Owned g g' own c' v) : c = c' := by
  have hlt : ∀ c ∈ out, v ∈ c → v < g.size := fun c hc hv => ((hout.covers v).mp ⟨c, hc, hv⟩).1
  rcases hv with hv | ⟨hnew, heq⟩
  · rcases hv' with hv' | ⟨hnew', -⟩
    · exact hout.unique hc hc' hv hv'
    · have := hlt c hc hv
      omega
  · rcases hv' with hv' | ⟨-, heq'⟩
    · have := hlt c' hc' hv'
      omega
    · exact heq.symm.trans heq'

/-- An edge goes from what a component owns to what one that it leads to owns. -/
theorem Progress.owned_edge
    (h : Progress m g out own g') (hvalid : g.Valid m) (hout : Scc.Components g.size g.succ region out)
    (hgoes : g'.Goes u v) (hc : c ∈ out) (hc' : c' ∈ out)
    (hu : Owned g g' own c u) (hv : Owned g g' own c' v) :
    ∃ a ∈ c, ∃ b ∈ c', Scc.Reach g.succ region a b := by
  have hin : ∀ c ∈ out, ∀ v ∈ c, v < g.size ∧ region v = true := fun c hc v hv => (hout.covers v).mp ⟨c, hc, hv⟩
  rcases hu with hu | ⟨hnew, hown⟩
  · obtain ⟨hult, hur⟩ := hin c hc u hu
    rcases h.old u hult v hgoes.2 with hmem | ⟨hnewv, w, hw, hwo⟩
    · have hvlt := hvalid.succ_lt u hult v hmem
      have hvc := hv.resolve_right fun ⟨hnew, _⟩ => by omega
      exact ⟨u, hu, v, hvc, ReflTransGen.single ⟨hur, hmem, (hin c' hc' v hvc).2⟩⟩
    · rcases hv with hv | ⟨-, hown⟩
      · have := (hin c' hc' v hv).1
        omega
      · rw [hown] at hwo
        exact ⟨u, hu, w, hwo, ReflTransGen.single ⟨hur, hw, (hin c' hc' w hwo).2⟩⟩
  · have hstays := (h.new u hnew.1 hnew.2).2 v hgoes.2
    rw [hown] at hstays
    have heq := owned_unique hout hc hc' hstays hv
    obtain ⟨a, ha⟩ := List.exists_mem_of_ne_nil c (hout.nonempty c hc)
    exact ⟨a, ha, a, heq ▸ ha, ReflTransGen.refl⟩

/-- A tangle lies within what one component owns. -/
theorem Progress.tangle
    (h : Progress m g out own g') (hvalid : g.Valid m) (hout : Scc.Components g.size g.succ region out)
    (hlt : ∀ v, region v = true → v < g.size)
    (hC : g'.Tangle C) (hCS : ∀ v, C v → region v = true ∨ g.size ≤ v ∧ v < g'.size) :
    ∃ c ∈ out, ∀ v, C v → Owned g g' own c v := by
  have howner : ∀ v, C v → ∃ c ∈ out, Owned g g' own c v := by
    intro v hv
    rcases hCS v hv with hr | hnew
    · obtain ⟨c, hc, hvc⟩ := (hout.covers v).mpr ⟨hlt v hr, hr⟩
      exact ⟨c, hc, Or.inl hvc⟩
    · exact ⟨own v, (h.new v hnew.1 hnew.2).1, Or.inr ⟨hnew, rfl⟩⟩
  -- the components of two nodes of the tangle lead to each other
  have hleads : ∀ u v, TransGen (fun u v => g'.Goes u v ∧ C u ∧ C v) u v →
      ∀ c ∈ out, Owned g g' own c u → ∀ c' ∈ out, Owned g g' own c' v →
      ∃ a ∈ c, ∃ b ∈ c', Scc.Reach g.succ region a b := by
    intro u v huv c hc hu
    induction huv with
    | single hstep => exact fun c' hc' hv => h.owned_edge hvalid hout hstep.1 hc hc' hu hv
    | @tail w x _ hstep ih =>
      intro c' hc' hx
      obtain ⟨d, hd, hw⟩ := howner w hstep.2.1
      obtain ⟨a, ha, b, hb, hab⟩ := ih d hd hw
      obtain ⟨b', hb', e, he, hbe⟩ := h.owned_edge hvalid hout hstep.1 hd hc' hw hx
      exact ⟨a, ha, e, he, hab.trans ((hout.connected d hd b hb b' hb').trans hbe)⟩
  obtain ⟨u, hu⟩ := hC.nonempty
  obtain ⟨c, hc, hcu⟩ := howner u hu
  refine ⟨c, hc, fun v hv => ?_⟩
  obtain ⟨c', hc', hcv⟩ := howner v hv
  obtain ⟨a, ha, b, hb, hab⟩ := hleads u v (hC.joined u v hu hv) c hc hcu c' hc' hcv
  obtain ⟨b', hb', a', ha', hba⟩ := hleads v u (hC.joined v u hv hu) c' hc' hcv c hc hcu
  have hback := (hout.connected c' hc' b hb b' hb').trans (hba.trans (hout.connected c hc a' ha' a ha))
  have hbc := hout.whole c hc a ha b hab hback
  rw [hout.unique hc hc' hbc hb]
  exact hcv

/-- The calls for a region come to an end, and every tangle of its nodes is covered. -/
theorem untangleWithin_spec (depth : ℕ) : Within m depth (untangleWithin depth) := by
  induction depth with
  | zero => exact fun g region _ _ hlt => absurd hlt (Nat.not_lt_zero _)
  | succ depth ih =>
    intro g region hvalid hregion hfed
    have hsize := hvalid.size
    obtain ⟨out, hcomponents, hout⟩ := @Scc.components_spec g.size g.succ region hvalid.succ_lt
    have hall : ∀ c ∈ [] ++ out, c ≠ [] ∧ ∀ v ∈ c, v < m := fun c hc =>
      ⟨hout.nonempty c hc, fun v hv => hregion v ((hout.covers v).mp ⟨c, hc, hv⟩).2⟩
    obtain ⟨own, g', hfold, hprogress⟩ := Progress.run ih (by omega) out [] _ g (Progress.start_nil hvalid) hall
      hout.disjoint fun c hc hloop => by
        have := component_fed hvalid hout hc hloop
        omega
    rw [List.nil_append] at hprogress
    refine ⟨g', ?_, hprogress.valid, hprogress.steps, ?_, fun C hC hCS => ?_⟩
    · rw [untangleWithin, components, hcomponents, Option.bind_some]
      exact hfold
    · -- the new nodes of a component are new nodes of the region
      have hin : ∀ c ∈ out, ∀ v ∈ c, region v = true := fun c hc v hv => ((hout.covers v).mp ⟨c, hc, hv⟩).2
      refine ⟨hprogress.size_le, fun u hu v hv => ?_, fun u hge hlt v hv => ?_, ?_⟩
      · refine (hprogress.old u hu v hv).imp_right fun ⟨hnew, w, hw, hwo⟩ => ⟨hnew, w, hw, ?_⟩
        exact hin _ (hprogress.new v hnew.1 hnew.2).1 w hwo
      · obtain ⟨hown, hout'⟩ := hprogress.new u hge hlt
        exact (hout' v hv).imp (hin _ hown v) And.left
      · exact hprogress.start.imp_right fun ⟨⟨c, hc, hs⟩, hnew⟩ => ⟨hin c hc _ hs, hnew⟩
    · obtain ⟨c, hc, hCc⟩ := hprogress.tangle hvalid hout (fun v hv => by have := hregion v hv; omega) hC hCS
      obtain ⟨x, B, hloop, hCB, hBS, hx⟩ := hprogress.covered c hc C hC hCc
      refine ⟨x, B, hloop, hCB, fun v hv => ?_, hx⟩
      exact (hBS v hv).imp (fun hvc => ((hout.covers v).mp ⟨c, hc, hvc⟩).2) And.left

/-- Putting the dispatch nodes in comes to an end, and every tangle is covered. -/
theorem untangle_spec (hvalid : g.Valid m) (hnone : g.dispatches = 0) :
    ∃ g', g.untangle = some g' ∧ Untangled m g g' (· < g.size) ∧
      g'.Covered (· < g'.size) := by
  have hsize := hvalid.size
  have hfed : g.fed (fun v => decide (v < g.size)) < g.size + 1 := by
    refine Nat.lt_succ_of_le ?_
    exact fed_le g _
  obtain ⟨g', hrun, huntangled⟩ := untangleWithin_spec (g.size + 1) g (fun v => decide (v < g.size)) hvalid
    (fun v hv => by have := of_decide_eq_true hv; omega) hfed
  have hsame : (fun v => decide (v < g.size) = true) = (· < g.size) := by
    funext v
    exact propext decide_eq_true_iff
  rw [hsame] at huntangled
  refine ⟨g', hrun, huntangled, fun C hC hCS => ?_⟩
  obtain ⟨x, B, hloop, hCB, hBS, hx⟩ := huntangled.covered C hC fun v hv => by
    have := hCS v hv
    by_cases hlt : v < g.size
    · exact Or.inl hlt
    · exact Or.inr ⟨by omega, this⟩
  refine ⟨x, B, hloop, hCB, fun v hv => ?_, hx⟩
  have hle := huntangled.redirects.size_le
  rcases hBS v hv with hlt | hnew
  · exact lt_of_lt_of_le hlt hle
  · exact hnew.2

end Graph

end Rucc.Wasm
