import Rucc.Wasm.Loops

/-!
# Where an edge leads

The numbers that the blocks of a function have in its graph, and that an edge to a block leads to it
through dispatch nodes each of which finds the label that was written last.
-/

namespace Rucc.Wasm

open Relation

/-! ## The numbers of the blocks -/

namespace Numbering

/-- What holds when the targets of the first blocks have been numbered. -/
structure Good (f : Cfg) (entry next : ℕ) (s : Numbering) : Prop where
  number : ∀ c k, s.number c = some k ↔ s.blocks[k]? = some c
  lt : ∀ c ∈ s.blocks, c < f.count
  first : s.blocks[0]? = some entry
  next_le : next ≤ s.blocks.length
  done : ∀ j b, j < next → s.blocks[j]? = some b → ∀ c ∈ f.successors b, c ∈ s.blocks
  /-- A block but the first is a target of a block before it. -/
  parent : ∀ k c, 0 < k → s.blocks[k]? = some c → ∃ j b, j < k ∧ s.blocks[j]? = some b ∧ c ∈ f.successors b

variable {f : Cfg} {entry next : ℕ} {s : Numbering}

theorem Good.unique (h : s.Good f entry next) {j k c : ℕ} (hj : s.blocks[j]? = some c)
    (hk : s.blocks[k]? = some c) : j = k := by
  have hj := (h.number c j).mpr hj
  have hk := (h.number c k).mpr hk
  exact Option.some.inj (hj.symm.trans hk)

theorem Good.nodup (h : s.Good f entry next) : s.blocks.Nodup := by
  rw [List.nodup_iff_injective_getElem]
  intro j k heq
  dsimp only at heq
  have hj : s.blocks[j.1]? = some s.blocks[j.1] := List.getElem?_eq_getElem j.2
  have hk : s.blocks[k.1]? = some s.blocks[k.1] := List.getElem?_eq_getElem k.2
  rw [heq] at hj
  exact Fin.ext (h.unique hj hk)

theorem Good.length_le (h : s.Good f entry next) : s.blocks.length ≤ f.count := by
  have hsub : s.blocks.toFinset ⊆ Finset.range f.count := fun c hc =>
    Finset.mem_range.mpr (h.lt c (List.mem_toFinset.mp hc))
  have hcard := Finset.card_le_card hsub
  rw [List.toFinset_card_of_nodup h.nodup, Finset.card_range] at hcard
  exact hcard

theorem Good.mem_iff (h : s.Good f entry next) (c : ℕ) : c ∈ s.blocks ↔ s.number c ≠ none := by
  rw [List.mem_iff_getElem?]
  constructor
  · rintro ⟨k, hk⟩
    rw [(h.number c k).mpr hk]
    exact Option.some_ne_none k
  · intro hne
    obtain ⟨k, hk⟩ := Option.ne_none_iff_exists'.mp hne
    exact ⟨k, (h.number c k).mp hk⟩

/-- A target of a block gets a number. -/
theorem Good.add (h : s.Good f entry next) {b c : ℕ} (hb : b ∈ s.blocks)
    (hc : c ∈ f.successors b) : (s.add c).Good f entry next ∧ c ∈ (s.add c).blocks ∧
      s.blocks <+: (s.add c).blocks := by
  rw [Numbering.add]
  cases hnumber : s.number c with
  | some k => exact ⟨h, (h.mem_iff c).mpr (by rw [hnumber]; exact Option.some_ne_none k), List.prefix_refl _⟩
  | none =>
    obtain ⟨j, hj⟩ := List.mem_iff_getElem?.mp hb
    have hjlt : j < s.blocks.length := (List.getElem?_eq_some_iff.mp hj).1
    have hnot : ∀ k, s.blocks[k]? ≠ some c := fun k hk => by
      rw [(h.number c k).mpr hk] at hnumber
      exact absurd hnumber (Option.some_ne_none k)
    have hold : ∀ k d, k < s.blocks.length → ((s.blocks ++ [c])[k]? = some d ↔ s.blocks[k]? = some d) :=
      fun k d hk => by rw [List.getElem?_append_left hk]
    have hget : ∀ k d, (s.blocks ++ [c])[k]? = some d ↔
        s.blocks[k]? = some d ∨ k = s.blocks.length ∧ d = c := by
      intro k d
      by_cases hk : k < s.blocks.length
      · rw [hold k d hk]
        exact ⟨Or.inl, fun hor => hor.resolve_right fun ⟨heq, _⟩ => by omega⟩
      · have hnone : s.blocks[k]? = none := List.getElem?_eq_none_iff.mpr (by omega)
        rw [List.getElem?_append_right (by omega), hnone]
        by_cases heq : k = s.blocks.length
        · simp [heq, eq_comm]
        · have : [c][k - s.blocks.length]? = none := List.getElem?_eq_none_iff.mpr (by simp; omega)
          rw [this]
          simp [heq]
    refine ⟨?_, by simp, List.prefix_append _ _⟩
    constructor
    case number =>
      intro d k
      dsimp only
      rw [hget]
      by_cases hd : d = c
      · rw [hd, Function.update_self]
        simp only [hnot k, false_or, and_true, Option.some.injEq]
        exact eq_comm
      · rw [Function.update_of_ne hd, h.number d k]
        simp [hd]
    case lt =>
      intro d hd
      rcases List.mem_append.mp hd with hd | hd
      · exact h.lt d hd
      · rw [List.mem_singleton.mp hd]
        exact f.successors_lt b (h.lt b (List.mem_of_getElem? hj)) c hc
    case first => exact (hget 0 entry).mpr (Or.inl h.first)
    case next_le =>
      dsimp only
      rw [List.length_append]
      exact h.next_le.trans (Nat.le_add_right _ _)
    case done =>
      intro i d hi hd e he
      have hlt := h.next_le
      exact List.mem_append_left _ (h.done i d hi ((hold i d (by omega)).mp hd) e he)
    case parent =>
      intro k d hpos hd
      rcases (hget k d).mp hd with hd | ⟨rfl, rfl⟩
      · obtain ⟨i, e, hik, he, hmem⟩ := h.parent k d hpos hd
        exact ⟨i, e, hik, (hget i e).mpr (Or.inl he), hmem⟩
      · exact ⟨j, b, hjlt, (hget j b).mpr (Or.inl hj), hc⟩

theorem Good.adds (l : List ℕ) {b : ℕ} (hl : ∀ c ∈ l, c ∈ f.successors b) : ∀ s : Numbering,
    s.Good f entry next → b ∈ s.blocks →
    (l.foldl Numbering.add s).Good f entry next ∧ (∀ c ∈ l, c ∈ (l.foldl Numbering.add s).blocks) ∧
      s.blocks <+: (l.foldl Numbering.add s).blocks := by
  induction l with
  | nil => exact fun s h _ => ⟨h, fun c hc => absurd hc (List.not_mem_nil), List.prefix_refl _⟩
  | cons c l ih =>
    intro s h hb
    obtain ⟨hadd, hmem, hbegins⟩ := h.add hb (hl c (List.mem_cons_self))
    obtain ⟨hadds, hmems, hbegins'⟩ := ih (fun d hd => hl d (List.mem_cons_of_mem _ hd)) _ hadd
      (hbegins.subset hb)
    refine ⟨hadds, fun d hd => ?_, hbegins.trans hbegins'⟩
    rcases List.mem_cons.mp hd with rfl | hd
    · exact hbegins'.subset hmem
    · exact hmems d hd

/-- The numbering comes to an end, with the targets of every block numbered. -/
theorem Good.run (rounds : ℕ) : ∀ next s, s.Good f entry next → f.count < next + rounds →
    ∃ s', Numbering.run f rounds next s = some s' ∧ s'.Good f entry s'.blocks.length := by
  induction rounds with
  | zero =>
    intro next s h hlt
    have := h.next_le
    have := h.length_le
    omega
  | succ rounds ih =>
    intro next s h hlt
    rw [Numbering.run]
    cases hnext : s.blocks[next]? with
    | none =>
      have hlen := List.getElem?_eq_none_iff.mp hnext
      have heq : next = s.blocks.length := Nat.le_antisymm h.next_le hlen
      exact ⟨s, rfl, heq ▸ h⟩
    | some b =>
      obtain ⟨hadds, hmems, hbegins⟩ := Good.adds (f.successors b) (fun c hc => hc) s h
        (List.mem_of_getElem? hnext)
      have hlt' : next < s.blocks.length := (List.getElem?_eq_some_iff.mp hnext).1
      have hlen := hbegins.length_le
      refine ih (next + 1) _ { hadds with next_le := by omega, done := fun j d hj hd c hc => ?_ } (by omega)
      by_cases heq : j = next
      · have hb : ((f.successors b).foldl Numbering.add s).blocks[next]? = some b := by
          obtain ⟨_, rest⟩ := hbegins
          rw [← rest, List.getElem?_append_left hlt', hnext]
        rw [heq, hb] at hd
        rw [← Option.some.inj hd] at hc
        exact hmems c hc
      · exact hadds.done j d (by omega) hd c hc

end Numbering

namespace Graph

variable {f : Cfg} {entry : ℕ} {name num : ℕ → ℕ}

/-- The numbers of the blocks that the entry leads to, and the graph of these blocks. -/
structure Names (f : Cfg) (entry m : ℕ) (name num : ℕ → ℕ) : Prop where
  pos : 0 < m
  le : m ≤ f.count
  first : name 0 = entry
  injective : ∀ u < m, ∀ v < m, name u = name v → u = v
  num_lt : ∀ u < m, ∀ c ∈ f.successors (name u), num c < m
  name_num : ∀ u < m, ∀ c ∈ f.successors (name u), name (num c) = c
  parent : ∀ v < m, 0 < v → ∃ u < v, name v ∈ f.successors (name u)

/-- Every reachable block has a number, and the edges of the graph are the targets. -/
theorem of_spec (hentry : f.entry = some entry) :
    ∃ g name num, Graph.of f entry = some g ∧ Names f entry g.size name num ∧
      (∀ v < g.size, g.nodes v = .block (name v)) ∧
      (∀ v < g.size, g.edges v = (f.successors (name v)).map fun c => ⟨num c, []⟩) ∧
      g.start = 0 ∧ g.dispatches = 0 := by
  have hgood : (⟨[entry], Function.update (fun _ => none) entry (some 0)⟩ : Numbering).Good f entry 0 := by
    have hget : ∀ c k, [entry][k]? = some c ↔ k = 0 ∧ c = entry := by
      intro c k
      cases k with
      | zero => simp [eq_comm]
      | succ k => simp
    constructor
    case number =>
      intro c k
      dsimp only
      rw [hget]
      by_cases heq : c = entry
      · rw [heq, Function.update_self]
        simp [eq_comm]
      · rw [Function.update_of_ne heq]
        simp [heq]
    case lt =>
      intro c hc
      rw [List.mem_singleton.mp hc]
      exact f.entry_lt entry hentry
    case first => rfl
    case next_le => exact Nat.zero_le _
    case done => exact fun j _ hj => absurd hj (Nat.not_lt_zero j)
    case parent =>
      intro k c hpos hc
      have := ((hget c k).mp hc).1
      omega
  obtain ⟨s, hrun, h⟩ := hgood.run (f.count + 1) 0 _ (by omega)
  have hname : ∀ v < s.blocks.length, s.blocks[v]? = some (s.blocks.getD v entry) := by
    intro v hv
    rw [List.getD_eq_getElem?_getD, List.getElem?_eq_getElem hv]
    rfl
  have hmem : ∀ v < s.blocks.length, ∀ c ∈ f.successors (s.blocks.getD v entry), c ∈ s.blocks :=
    fun v hv c hc => h.done v _ hv (hname v hv) c hc
  have hnum : ∀ c ∈ s.blocks, s.blocks[(s.number c).getD 0]? = some c := by
    intro c hc
    obtain ⟨k, hk⟩ := Option.ne_none_iff_exists'.mp ((h.mem_iff c).mp hc)
    rw [hk]
    exact (h.number c k).mp hk
  have hlt : ∀ c ∈ s.blocks, (s.number c).getD 0 < s.blocks.length := fun c hc =>
    (List.getElem?_eq_some_iff.mp (hnum c hc)).1
  have hall : (s.blocks.all fun b => (f.successors b).all fun c => (s.number c).isSome) = true := by
    rw [List.all_eq_true]
    intro b hb
    rw [List.all_eq_true]
    intro c hc
    obtain ⟨j, hj⟩ := List.mem_iff_getElem?.mp hb
    have hc := h.done j b (List.getElem?_eq_some_iff.mp hj).1 hj c hc
    exact Option.isSome_iff_ne_none.mpr ((h.mem_iff c).mp hc)
  have hof : Graph.of f entry = some {
      size := s.blocks.length
      nodes := fun v => .block (s.blocks.getD v entry)
      edges := fun v =>
        (f.successors (s.blocks.getD v entry)).map fun c => ⟨(s.number c).getD 0, []⟩
      start := 0
      dispatches := 0 } := by
    rw [Graph.of, hrun, Option.bind_some, if_pos hall]
  refine ⟨_, fun v => s.blocks.getD v entry, fun c => (s.number c).getD 0, hof, ?_, fun _ _ => rfl,
    fun _ _ => rfl, rfl, rfl⟩
  constructor
  case pos => exact (List.getElem?_eq_some_iff.mp h.first).1
  case le => exact h.length_le
  case first =>
    have h0 := hname 0 (List.getElem?_eq_some_iff.mp h.first).1
    rw [h.first] at h0
    exact (Option.some.inj h0).symm
  case injective =>
    intro u hu v hv heq
    have huv := hname v hv
    rw [← heq] at huv
    exact h.unique (hname u hu) huv
  case num_lt => exact fun u hu c hc => hlt c (hmem u hu c hc)
  case name_num =>
    intro u hu c hc
    have hc := hmem u hu c hc
    have := hname _ (hlt c hc)
    rw [hnum c hc] at this
    exact (Option.some.inj this).symm
  case parent =>
    intro v hv hpos
    obtain ⟨j, b, hjv, hb, hc⟩ := h.parent v _ hpos (hname v hv)
    have hj := hname j (hjv.trans hv)
    rw [hb] at hj
    exact ⟨j, hjv, by rw [← Option.some.inj hj]; exact hc⟩

/-- The graph of the reachable blocks is valid. -/
theorem of_valid {g : Graph} (h : Names f entry g.size name num)
    (hnodes : ∀ v < g.size, g.nodes v = .block (name v))
    (hedges : ∀ v < g.size, g.edges v = (f.successors (name v)).map fun c => ⟨num c, []⟩)
    (hstart : g.start = 0) (hnone : g.dispatches = 0) : g.Valid g.size := by
  have hsucc : ∀ v < g.size, g.succ v = (f.successors (name v)).map num := by
    intro v hv
    rw [succ, hedges v hv, List.map_map]
    rfl
  constructor
  case size => omega
  case blocks_le => exact h.le.trans f.count_le
  case start_lt => rw [hstart]; exact h.pos
  case start_block => exact fun _ => hstart
  case succ_lt =>
    intro u hu v hv
    rw [hsucc u hu] at hv
    obtain ⟨c, hc, rfl⟩ := List.mem_map.mp hv
    exact h.num_lt u hu c hc
  case rooted =>
    intro v
    induction v using Nat.strong_induction_on with
    | _ v ih =>
      intro hv
      rcases Nat.eq_zero_or_pos v with rfl | hpos
      · rw [hstart]
      · obtain ⟨u, huv, hmem⟩ := h.parent v hv hpos
        have hu : u < g.size := by omega
        refine (ih u huv hu).tail ⟨hu, ?_⟩
        rw [hsucc u hu]
        refine List.mem_map.mpr ⟨name v, hmem, ?_⟩
        exact h.injective _ (h.num_lt u hu _ hmem) v hv (h.name_num u hu _ hmem)
  case block => exact fun v hv => ⟨name v, hnodes v hv⟩
  case dispatch => exact fun l hl => by omega

/-! ## Routes -/

/-- The labels after some have been written. -/
def write (labels : ℕ → ℕ) (writes : List (ℕ × ℕ)) : ℕ → ℕ :=
  writes.foldl (fun labels w => Function.update labels w.1 w.2) labels

/-- An edge leads to a block, through dispatch nodes each of which is left by the edge that the label
written before names. -/
inductive Lands (m : ℕ) (g : Graph) : Edge → List (ℕ × ℕ) → ℕ → Prop
  | block {v : ℕ} : v < m → Lands m g ⟨v, []⟩ [] v
  | dispatch {d l k v : ℕ} {e : Edge} {via : List (ℕ × ℕ)} : m ≤ d → d < g.size →
      g.nodes d = .dispatch l → (g.edges d)[k]? = some e → Lands m g e via v →
      Lands m g ⟨d, [(l, k)]⟩ ((d, k) :: via) v

variable {m : ℕ} {g : Graph} {entries : List ℕ}

/-- The edge that an edge has become leads to the same block. -/
theorem Lands.dispatched {e : Edge} {via : List (ℕ × ℕ)} {v : ℕ} (h : Lands m g e via v)
    (hvalid : g.Valid m) (hlt : ∀ v ∈ entries, v < m) :
    ∃ via', Lands m (g.dispatched entries) (redirect entries g.size g.dispatches e) via' v := by
  have hsize := hvalid.size
  induction h with
  | @block v hv =>
    rcases redirect_cases entries g.size g.dispatches ⟨v, []⟩ with ⟨-, heq⟩ | ⟨which, hwhich, heq⟩
    · rw [heq]
      exact ⟨[], .block hv⟩
    · rw [heq]
      refine ⟨[(g.size, which)], .dispatch (by omega) (Nat.lt_succ_self _) dispatched_nodes_new ?_ (.block hv)⟩
      rw [dispatched_edges_new, List.getElem?_map, hwhich]
      rfl
  | @dispatch d l k v e via hm hd hnode hedge hlands ih =>
    obtain ⟨via', ih⟩ := ih
    -- no entry is a dispatch node
    have hsame : redirect entries g.size g.dispatches ⟨d, [(l, k)]⟩ = ⟨d, [(l, k)]⟩ := by
      rcases redirect_cases entries g.size g.dispatches ⟨d, [(l, k)]⟩ with ⟨-, heq⟩ | ⟨which, hwhich, -⟩
      · exact heq
      · have := hlt d (List.mem_of_getElem? hwhich)
        omega
    rw [hsame]
    refine ⟨(d, k) :: via', .dispatch hm (Nat.lt_succ_of_lt hd) ?_ ?_ ih⟩
    · rw [dispatched_nodes_old hd, hnode]
    · rw [dispatched_edges_old hd, List.getElem?_map, hedge]
      rfl

/-- The edges of every block lead to its targets, and so does what the function starts with to the
first block, when every label is zero. -/
structure Routed (f : Cfg) (m : ℕ) (name num : ℕ → ℕ) (g : Graph) : Prop where
  nodes : ∀ v < m, g.nodes v = .block (name v)
  edges : ∃ route : ℕ → Edge, (∀ v < m, g.edges v = (f.successors (name v)).map fun c => route (num c)) ∧
    ∀ v < m, ∃ via, Lands m g (route v) via v
  start : ∃ labels via, (∀ l ∈ labels, l.2 = 0) ∧ Lands m g ⟨g.start, labels⟩ via 0

/-- A dispatch node keeps where the edges lead. -/
theorem Routed.dispatched (h : Routed f m name num g) (hvalid : g.Valid m)
    (hentries : g.Entries m entries) : Routed f m name num (g.dispatched entries) := by
  have hsize := hvalid.size
  refine ⟨fun v hv => ?_, ?_, ?_⟩
  · rw [dispatched_nodes_old (by omega)]
    exact h.nodes v hv
  · obtain ⟨route, hedges, hlands⟩ := h.edges
    refine ⟨fun v => redirect entries g.size g.dispatches (route v), fun v hv => ?_, fun v hv => ?_⟩
    · rw [dispatched_edges_old (by omega), hedges v hv, List.map_map]
      rfl
    · obtain ⟨via, hvia⟩ := hlands v hv
      exact hvia.dispatched hvalid hentries.lt
  · obtain ⟨labels, via, hzero, hlands⟩ := h.start
    obtain ⟨via', hlands'⟩ := hlands.dispatched hvalid hentries.lt
    rw [dispatched_start]
    by_cases hmem : g.start ∈ entries
    · -- the start is the first entry, and what it was sent through finds a label that is zero
      rw [if_pos hmem]
      have hm := hentries.lt _ hmem
      have hfirst : entries[0]? = some g.start := by
        rw [← List.head?_eq_getElem?]
        exact hentries.head hmem
      have hblock := hvalid.start_block hm
      refine ⟨[(g.dispatches, 0)], [(g.size, 0)], fun l hl => by rw [List.mem_singleton.mp hl],
        .dispatch (by omega) (Nat.lt_succ_self _) dispatched_nodes_new ?_ (.block (by omega))⟩
      rw [dispatched_edges_new, List.getElem?_map, hfirst, hblock]
      rfl
    · rw [if_neg hmem]
      refine ⟨labels, via', hzero, ?_⟩
      have hsame : redirect entries g.size g.dispatches ⟨g.start, labels⟩ = ⟨g.start, labels⟩ := by
        rcases redirect_cases entries g.size g.dispatches ⟨g.start, labels⟩ with ⟨-, heq⟩ | ⟨which, hwhich, -⟩
        · exact heq
        · exact absurd (List.mem_of_getElem? hwhich) hmem
      rw [hsame] at hlands'
      exact hlands'

theorem Routed.steps {g' : Graph} (h : Routed f m name num g)
    (hsteps : ReflTransGen (Dispatched m) g g') : Routed f m name num g' := by
  induction hsteps with
  | refl => exact h
  | tail _ hstep ih =>
    obtain ⟨hvalid, entries, hentries, rfl⟩ := hstep
    exact ih.dispatched hvalid hentries

end Graph

end Rucc.Wasm
