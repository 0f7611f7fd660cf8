import Rucc.Opt.Dom

/-!
# What the dominator tree says

The tree of any graph: the walk and the sweeps end, and the two numbers of a node say whether every way from the root
to it passes another one.
-/

namespace Rucc.Opt.Dom

open Relation

variable {graph : Graph} {rpo : List ℕ} {byRank : ℕ → Option ℕ}

/-! ## The order -/

/-- The walk lists what one that looks at one edge at a time lists. -/
theorem walk_of_run {succs : ℕ → List ℕ} (steps : ℕ) : ∀ s s' : Postorder.Walk, s.run succs steps = some s' →
    ∀ rounds, steps ≤ rounds →
      walk succs rounds s.seen (s.stack.map fun p => (p.1, (succs p.1).drop p.2)) s.post = some s'.post := by
  induction steps with
  | zero =>
    intro s s' hrun rounds _
    rw [Postorder.Walk.run] at hrun
    split_ifs at hrun with hstack
    obtain rfl := Option.some.inj hrun
    rw [hstack, List.map_nil, walk]
  | succ steps ih =>
    intro s s' hrun rounds hle
    rw [Postorder.Walk.run] at hrun
    obtain ⟨seen, stack, post⟩ := s
    cases stack with
    | nil =>
      obtain rfl := Option.some.inj hrun
      rw [List.map_nil, walk]
    | cons top rest =>
      obtain ⟨v, i⟩ := top
      dsimp only at hrun ⊢
      obtain ⟨rounds, rfl⟩ := Nat.exists_eq_add_of_le' (Nat.le_of_add_left_le hle)
      rw [Postorder.Walk.step] at hrun
      cases hedge : (succs v)[i]? with
      | none =>
        rw [hedge] at hrun
        have hdrop : (succs v).drop i = [] := List.drop_eq_nil_of_le (List.getElem?_eq_none_iff.1 hedge)
        rw [List.map_cons, hdrop, walk, List.dropWhile_nil]
        exact ih _ s' hrun rounds (by omega)
      | some w =>
        rw [hedge] at hrun
        dsimp only at hrun
        obtain ⟨hi, hw⟩ := List.getElem?_eq_some_iff.1 hedge
        have hdrop : (succs v).drop i = w :: (succs v).drop (i + 1) := by
          rw [← hw]
          exact List.drop_eq_getElem_cons hi
        cases hseen : seen w with
        | true =>
          rw [if_pos hseen] at hrun
          have hnext := ih _ s' hrun (rounds + 1) (by omega)
          dsimp only at hnext
          rw [List.map_cons, walk] at hnext ⊢
          rw [hdrop, List.dropWhile_cons_of_pos hseen]
          exact hnext
        | false =>
          rw [if_neg (by simp [hseen])] at hrun
          rw [List.map_cons, hdrop, walk, List.dropWhile_cons_of_neg (by simp [hseen])]
          exact ih _ s' hrun rounds (by omega)

/-- The walk ends with the nodes the root reaches. -/
theorem postorder_spec (hroot : graph.root < graph.nodes)
    (htarget : ∀ v < graph.nodes, ∀ w ∈ graph.succs v, w < graph.nodes) :
    ∃ post enough, (∀ rounds, enough ≤ rounds → postorder rounds graph = some post) ∧
      Postorder.Ordered graph.nodes graph.succs graph.root post.reverse := by
  obtain ⟨post, hpost, hordered⟩ := Postorder.postorder_spec hroot htarget
  obtain ⟨s', hrun, rfl⟩ := Option.map_eq_some_iff.1 hpost
  exact ⟨s'.post, _, fun rounds hle => walk_of_run _ _ s' hrun rounds hle, hordered⟩

/-! ## The fixed point -/

theorem meet_eq_intersect (idom : ℕ → Option ℕ) (rounds : ℕ) : ∀ a b,
    meet idom rounds a b = Dominators.intersect idom rounds b a := by
  induction rounds with
  | zero =>
    intro a b
    rw [meet, Dominators.intersect]
    by_cases heq : a = b
    · rw [if_pos heq, if_pos heq.symm, heq]
    · rw [if_neg heq, if_neg (Ne.symm heq)]
  | succ rounds ih =>
    intro a b
    rw [meet, Dominators.intersect]
    by_cases heq : a = b
    · rw [if_pos heq, if_pos heq.symm, heq]
    rw [if_neg heq, if_neg (Ne.symm heq)]
    by_cases hlt : b < a
    · rw [if_pos hlt, if_neg (by omega)]
      simp only [ih]
    · rw [if_neg hlt, if_pos (by omega)]
      simp only [ih]

theorem join_eq_meet (idom : ℕ → Option ℕ) : join idom = Dominators.meet idom := by
  funext new pred
  unfold join Dominators.meet
  cases idom pred with
  | none => rfl
  | some _ =>
    cases new with
    | none => rfl
    | some new =>
      dsimp only
      rw [meet_eq_intersect, Nat.add_comm]

section

variable {preds : ℕ → List ℕ} {count : ℕ}

/-- Where one predecessor has an answer there is one. -/
theorem fold_ne_none {idom : ℕ → Option ℕ} (ps : List ℕ) : ∀ new new', ps.foldlM (join idom) new = some new' →
    new ≠ none ∨ (∃ p ∈ ps, idom p ≠ none) → new' ≠ none := by
  induction ps with
  | nil =>
    intro new new' hfold hsome
    obtain rfl := Option.some.inj hfold
    exact hsome.resolve_right fun ⟨p, hp, _⟩ => List.not_mem_nil hp
  | cons p ps ih =>
    intro new new' hfold hsome
    rw [List.foldlM_cons] at hfold
    obtain ⟨new₁, hjoin, hrest⟩ := Option.bind_eq_some_iff.1 hfold
    refine ih new₁ new' hrest ?_
    unfold join at hjoin
    cases hp : idom p with
    | none =>
      rw [hp] at hjoin
      obtain rfl := Option.some.inj hjoin
      refine hsome.imp_right fun ⟨q, hq, hne⟩ => ⟨q, ?_, hne⟩
      exact (List.mem_cons.1 hq).resolve_left fun heq => hne (heq ▸ hp)
    | some d =>
      refine Or.inl ?_
      rw [hp] at hjoin
      cases new with
      | none =>
        obtain rfl := Option.some.inj hjoin
        exact Option.some_ne_none p
      | some new =>
        obtain ⟨c, -, rfl⟩ := Option.map_eq_some_iff.1 hjoin
        exact Option.some_ne_none c

/-- A node one of whose predecessors has an answer gets one. -/
theorem visit_of_visit {s s' : (ℕ → Option ℕ) × Bool} {index : ℕ} (hvisit : Dominators.visit preds s index = some s')
    (hpred : ∃ p ∈ preds index, s.1 p ≠ none) :
    visit preds s index = some s' ∧ (∀ x, s.1 x ≠ none → s'.1 x ≠ none) ∧ s'.1 index ≠ none := by
  obtain ⟨new, hfold, rfl⟩ := Option.map_eq_some_iff.1 hvisit
  rw [← join_eq_meet] at hfold
  have hnew := fold_ne_none _ none new hfold (Or.inr hpred)
  rw [visit, hfold, Option.map_some]
  by_cases hsame : new = s.1 index
  · rw [if_pos hsame, if_neg fun h => h.2 hsame.symm]
    exact ⟨rfl, fun _ hx => hx, hsame ▸ hnew⟩
  · rw [if_neg hsame, if_pos ⟨hnew, Ne.symm hsame⟩]
    refine ⟨rfl, fun x hx => ?_, ?_⟩
    · by_cases heq : x = index
      · simpa [heq] using hnew
      · simpa [Function.update_of_ne heq] using hx
    · simpa using hnew

/-- A sweep, from a node before which every one has an answer. -/
theorem sweep_of_sweep (hparent : ∀ b, 0 < b → b < count → ∃ p ∈ preds b, p < b) (k : ℕ) :
    ∀ first (s s' : (ℕ → Option ℕ) × Bool), 0 < first → first + k ≤ count → (∀ x < first, s.1 x ≠ none) →
      (List.range' first k).foldlM (Dominators.visit preds) s = some s' →
      (List.range' first k).foldlM (visit preds) s = some s' ∧ ∀ x < first + k, s'.1 x ≠ none := by
  induction k with
  | zero =>
    intro first s s' _ _ hbefore hfold
    obtain rfl := Option.some.inj hfold
    exact ⟨rfl, hbefore⟩
  | succ k ih =>
    intro first s s' hpos hle hbefore hfold
    rw [List.range'_succ, List.foldlM_cons] at hfold ⊢
    obtain ⟨s₁, hvisit, hrest⟩ := Option.bind_eq_some_iff.1 hfold
    obtain ⟨p, hp, hlt⟩ := hparent first hpos (by omega)
    obtain ⟨hvisit', hkept, hnew⟩ := visit_of_visit hvisit ⟨p, hp, hbefore p hlt⟩
    have hbefore' (x : ℕ) (hx : x < first + 1) : s₁.1 x ≠ none := by
      rcases Nat.lt_succ_iff_lt_or_eq.1 hx with hx | rfl
      · exact hkept x (hbefore x hx)
      · exact hnew
    obtain ⟨hrest', hall⟩ := ih (first + 1) s₁ s' (by omega) (by omega) hbefore' hrest
    refine ⟨?_, fun x hx => hall x (by omega)⟩
    rw [hvisit']
    exact hrest'

/-- The sweeps end where the ones that go round the same way end. -/
theorem settle_of_settle (hparent : ∀ b, 0 < b → b < count → ∃ p ∈ preds b, p < b) (hcount : 0 < count) (steps : ℕ) :
    ∀ idom idom', idom 0 ≠ none → Dominators.settle count preds steps idom = some idom' →
      ∀ rounds, steps ≤ rounds → settle count preds rounds idom = some idom' := by
  induction steps with
  | zero =>
    intro idom idom' _ hsettle
    rw [Dominators.settle] at hsettle
    cases hsettle
  | succ steps ih =>
    intro idom idom' hzero hsettle rounds hle
    obtain ⟨rounds, rfl⟩ := Nat.exists_eq_add_of_le' (Nat.le_of_add_left_le hle)
    rw [Dominators.settle] at hsettle
    obtain ⟨s, hround, hrest⟩ := Option.bind_eq_some_iff.1 hsettle
    have hbefore (x : ℕ) (hx : x < 1) : idom x ≠ none := by
      obtain rfl := Nat.lt_one_iff.1 hx
      exact hzero
    obtain ⟨hsweep, hall⟩ := sweep_of_sweep hparent (count - 1) 1 (idom, false) s Nat.one_pos (by omega) hbefore hround
    rw [settle, hsweep, Option.bind_some]
    cases hs : s.2 with
    | true =>
      rw [hs, if_pos rfl] at hrest
      rw [if_pos rfl]
      exact ih s.1 idom' (hall 0 (by omega)) hrest rounds (by omega)
    | false =>
      rw [hs, if_neg Bool.false_ne_true] at hrest
      rw [if_neg Bool.false_ne_true]
      exact hrest

end

/-! ## The tree by node -/

/-- The immediate dominators by node, from some position of the order on. -/
theorem parents_from
    (hin : ∀ r < rpo.length, ∃ p, byRank r = some p ∧ p < rpo.length) (nodes : List ℕ) : ∀ first idom, nodes.Nodup → first + nodes.length ≤ rpo.length →
    ∃ idom', (nodes.zipIdx first).foldlM (fun idom node => do
        let index ← byRank node.2
        let parent ← rpo[index]?
        return Function.update idom node.1 (some parent)) idom = some idom' ∧
      ∀ x, idom' x = if x ∈ nodes then (byRank (first + nodes.idxOf x)).bind (rpo[·]?) else idom x := by
  induction nodes with
  | nil => exact fun first idom _ _ => ⟨idom, rfl, fun x => by simp⟩
  | cons node nodes ih =>
    intro first idom hnodup hle
    rw [List.length_cons] at hle
    obtain ⟨hnot, hnodup⟩ := List.nodup_cons.1 hnodup
    obtain ⟨p, hp, hlt⟩ := hin first (by omega)
    obtain ⟨idom', hfold, hspec⟩ := ih (first + 1) (Function.update idom node (some rpo[p])) hnodup (by omega)
    refine ⟨idom', ?_, fun x => ?_⟩
    · rw [List.zipIdx_cons, List.foldlM_cons]
      simp only [hp, List.getElem?_eq_getElem hlt, Option.bind_eq_bind, Option.bind_some] at hfold ⊢
      exact hfold
    · rw [hspec]
      by_cases heq : x = node
      · subst heq
        rw [if_neg hnot, Function.update_self, if_pos List.mem_cons_self, List.idxOf_cons_self, Nat.add_zero, hp,
          Option.bind_some, List.getElem?_eq_getElem hlt]
      · rw [Function.update_of_ne heq, List.idxOf_cons_ne _ (Ne.symm heq), Nat.add_right_comm, Nat.add_assoc]
        simp only [List.mem_cons, heq, false_or]

theorem parents_spec (hnodup : rpo.Nodup) (hin : ∀ r < rpo.length, ∃ p, byRank r = some p ∧ p < rpo.length) :
    ∃ idom, parents rpo byRank = some idom ∧
      ∀ x, idom x = if x ∈ rpo then (byRank (rpo.idxOf x)).bind (rpo[·]?) else none := by
  obtain ⟨idom, hparents, hspec⟩ := parents_from hin rpo 0 (fun _ => none) hnodup (by omega)
  exact ⟨idom, hparents, fun x => by rw [hspec, Nat.zero_add]⟩

/-! ## Ways through a graph -/

/-- A way through a graph from where it starts to a node. -/
structure IsPath (start : Option ℕ) (step : ℕ → ℕ → Prop) (path : List ℕ) (node : ℕ) : Prop where
  first : path.head? = start
  last : path.getLast? = some node
  steps : path.IsChain step

/-- Some way leads to a node. -/
def Reached (start : Option ℕ) (step : ℕ → ℕ → Prop) (node : ℕ) : Prop := ∃ path, IsPath start step path node

/-- Two nodes are reached, and every way to the second one passes the first. -/
structure Dominates (start : Option ℕ) (step : ℕ → ℕ → Prop) (above node : ℕ) : Prop where
  reached_above : Reached start step above
  reached : Reached start step node
  passes : ∀ path, IsPath start step path node → above ∈ path

/-- What a tree answers is what the ways through a graph are like. -/
structure Tree.Lawful (t : Tree) (rounds : ℕ) (start : Option ℕ) (step : ℕ → ℕ → Prop) : Prop where
  dominates : ∀ a b, t.dominates a b = true ↔ Dominates start step a b
  /-- The nearest node that dominates two is one that dominates both, and every other one dominates it. -/
  common : ∀ a b, Reached start step a → Reached start step b → ∃ c, t.common rounds a b = some (some c) ∧
    Dominates start step c a ∧ Dominates start step c b ∧
    ∀ d, Dominates start step d a → Dominates start step d b → Dominates start step d c

/-- What the immediate dominators of a tree are: a way up from each node that is reached, on which is what dominates it.
The heights are below a bound. -/
structure Tree.Climbs (t : Tree) (root : ℕ) (step : ℕ → ℕ → Prop) (height : ℕ → ℕ) (bound : ℕ) : Prop where
  rooted : t.idom root = some root
  reached : ∀ x, (t.idom x).isSome = true ↔ Reached (some root) step x
  lower : ∀ x y, x ≠ root → t.idom x = some y → height y < height x
  chain : ∀ x y, Reached (some root) step x →
    (Dominates (some root) step y x ↔ ReflTransGen (fun u v => u ≠ root ∧ t.idom u = some v) x y)
  bounded : ∀ x, height x < bound

section

variable {step : ℕ → ℕ → Prop} {P : ℕ → Prop} {start node : ℕ}

/-- A way on nodes of one kind, past its first. -/
theorem exists_path_iff : (∃ path, IsPath (some start) step path node ∧ ∀ x ∈ path, P x) ↔
    P start ∧ ReflTransGen (fun u v => step u v ∧ P v) start node := by
  constructor
  · rintro ⟨path, ⟨hfirst, hlast, hsteps⟩, hall⟩
    obtain ⟨rest, rfl⟩ := List.head?_eq_some_iff.1 hfirst
    refine ⟨hall start List.mem_cons_self, ?_⟩
    clear hfirst
    induction rest generalizing start with
    | nil =>
      obtain rfl : start = node := by simpa using hlast
      exact .refl
    | cons next rest ih =>
      obtain ⟨hstep, hsteps⟩ := List.isChain_cons_cons.1 hsteps
      rw [List.getLast?_cons_cons] at hlast
      exact (ih (fun x hx => hall x (List.mem_cons_of_mem _ hx)) hlast hsteps).head
        ⟨hstep, hall next (List.mem_cons_of_mem _ List.mem_cons_self)⟩
  · rintro ⟨hstart, hway⟩
    induction hway using ReflTransGen.head_induction_on with
    | refl => exact ⟨[node], ⟨rfl, rfl, List.isChain_singleton _⟩, by simpa using hstart⟩
    | @head u v hstep _ ih =>
      obtain ⟨path, ⟨hfirst, hlast, hsteps⟩, hall⟩ := ih hstep.2
      obtain ⟨rest, rfl⟩ := List.head?_eq_some_iff.1 hfirst
      refine ⟨u :: v :: rest, ⟨rfl, by rw [List.getLast?_cons_cons]; exact hlast,
        List.isChain_cons_cons.2 ⟨hstep.1, hsteps⟩⟩, fun x hx => ?_⟩
      rcases List.mem_cons.1 hx with rfl | hx
      · exact hstart
      · exact hall x hx

theorem reached_iff : Reached (some start) step node ↔ ReflTransGen step start node := by
  have hpath := @exists_path_iff step (fun _ => True) start node
  simpa [Reached] using hpath

/-- A way that stays off a node. -/
theorem not_passes_iff {a : ℕ} : (¬ ∀ path, IsPath (some start) step path node → a ∈ path) ↔
    start ≠ a ∧ ReflTransGen (fun u v => step u v ∧ v ≠ a) start node := by
  have hpath := @exists_path_iff step (· ≠ a) start node
  rw [← hpath]
  constructor
  · intro hnot
    push Not at hnot
    obtain ⟨path, hway, hmem⟩ := hnot
    exact ⟨path, hway, fun x hx heq => hmem (heq ▸ hx)⟩
  · rintro ⟨path, hway, hall⟩ hpasses
    exact hall a (hpasses path hway) rfl

end

/-! ## The immediate dominators -/

/-- A graph that the computation can be asked about. -/
structure Graph.Ok (graph : Graph) : Prop where
  root : graph.root < graph.nodes
  target : ∀ v < graph.nodes, ∀ w ∈ graph.succs v, w < graph.nodes
  /-- Between nodes that the root reaches the edges are the same from both ends. -/
  preds : ∀ u v, ReflTransGen (fun u v => v ∈ graph.succs u) graph.root u →
    ReflTransGen (fun u v => v ∈ graph.succs u) graph.root v → (u ∈ graph.preds v ↔ v ∈ graph.succs u)
  postorder : ∀ post, graph.postorder = some post →
    Postorder.Ordered graph.nodes graph.succs graph.root post.reverse

/-- The immediate dominators of a graph, by rank in an order of the nodes the root reaches and by node. -/
structure Idoms (graph : Graph) (rpo : List ℕ) (byRank idom : ℕ → Option ℕ) : Prop where
  ordered : Postorder.Ordered graph.nodes graph.succs graph.root rpo
  rooted : Dominators.Rooted byRank rpo.length
  exact : Dominators.Exact rpo.length (ranked graph rpo) byRank
  idom : ∀ x, idom x = if x ∈ rpo then (byRank (rpo.idxOf x)).bind (rpo[·]?) else none

/-- The immediate dominators of a graph are found. -/
theorem idoms_spec (hok : graph.Ok) : ∃ post rpo byRank idom enough, rpo = post.reverse ∧
    (∀ rounds, enough ≤ rounds → graph.postorder.elim (postorder rounds graph) some = some post ∧
      settle rpo.length (ranked graph rpo) rounds (Function.update (fun _ => none) 0 (some 0)) = some byRank) ∧
    parents rpo byRank = some idom ∧ Idoms graph rpo byRank idom := by
  have horder : ∃ post enough, (∀ rounds, enough ≤ rounds →
      graph.postorder.elim (postorder rounds graph) some = some post) ∧
      Postorder.Ordered graph.nodes graph.succs graph.root post.reverse := by
    cases hpost : graph.postorder with
    | none => exact postorder_spec hok.root hok.target
    | some post => exact ⟨post, 0, fun _ _ => rfl, hok.postorder post hpost⟩
  obtain ⟨post, enough, hpost, hordered⟩ := horder
  generalize hrpo : post.reverse = rpo at hordered
  have hlen : 0 < rpo.length := List.length_pos_of_mem hordered.start_mem
  have hmem {r p : ℕ} : p ∈ ranked graph rpo r ↔ ∃ u ∈ graph.preds (rpo.getD r 0), u ∈ rpo ∧ rpo.idxOf u = p := by
    simp only [ranked, List.mem_filterMap, rank, Option.ite_none_right_eq_some, Option.some.injEq]
  -- every node but the root was come to from a node before it
  have hparent (r : ℕ) (hpos : 0 < r) (hr : r < rpo.length) : ∃ p ∈ ranked graph rpo r, p < r := by
    obtain ⟨hv, hidx⟩ := hordered.idxOf_iff.1 (List.getElem?_eq_getElem hr)
    rcases hordered.parent _ hv with hroot | ⟨u, hforward⟩
    · rw [hroot, hordered.idxOf_start] at hidx
      omega
    · have hlt := Postorder.idxOf_lt hordered.nodup hforward.2
      have hu : u ∈ rpo := hforward.2.subset List.mem_cons_self
      rw [hidx] at hlt
      refine ⟨rpo.idxOf u, hmem.2 ⟨u, ?_, hu, rfl⟩, hlt⟩
      rw [List.getD_eq_getElem?_getD, List.getElem?_eq_getElem hr]
      exact (hok.preds _ _ (hordered.mem_iff.1 hu) (hordered.mem_iff.1 hv)).2 hforward.1
  have hlt (r : ℕ) (_ : r < rpo.length) (p : ℕ) (hp : p ∈ ranked graph rpo r) : p < rpo.length := by
    obtain ⟨u, -, hu, rfl⟩ := hmem.1 hp
    exact List.idxOf_lt_length_of_mem hu
  obtain ⟨byRank, hidoms, hrooted, hexact⟩ := Dominators.idoms_spec hlen hparent hlt
  have hsettle := settle_of_settle hparent hlen _ _ _ (by simp) hidoms
  have hin (r : ℕ) (hr : r < rpo.length) : ∃ p, byRank r = some p ∧ p < rpo.length := by
    rcases Nat.eq_zero_or_pos r with rfl | hpos
    · exact ⟨0, hrooted.zero, hr⟩
    · obtain ⟨p, hp, hlt⟩ := hrooted.below r hpos hr
      exact ⟨p, hp, hlt.trans hr⟩
  obtain ⟨idom, hparents, hidom⟩ := parents_spec hordered.nodup hin
  exact ⟨post, rpo, byRank, idom, max enough (rpo.length * rpo.length + 2), hrpo.symm,
    fun rounds hle => ⟨hpost rounds (by omega), hsettle rounds (by omega)⟩, hparents, hordered, hrooted, hexact, hidom⟩

section

variable {graph : Graph} {rpo : List ℕ} {byRank idom : ℕ → Option ℕ} (h : Idoms graph rpo byRank idom)

variable {x y a b : ℕ} {kids : ℕ → List ℕ}

include h

theorem Idoms.isSome_iff : (idom x).isSome = true ↔ x ∈ rpo := by
  rw [h.idom]
  split_ifs with hx
  · refine iff_of_true ?_ hx
    obtain ⟨p, hp⟩ := Option.ne_none_iff_exists'.1 ((h.rooted.isSome_iff _).2 (List.idxOf_lt_length_of_mem hx))
    have hlt : p < rpo.length := by
      rcases Nat.eq_zero_or_pos (rpo.idxOf x) with hzero | hpos
      · rw [hzero, h.rooted.zero] at hp
        have hlen := h.rooted.pos
        have hp := Option.some.inj hp
        omega
      · have hless := h.rooted.up_lt ⟨hpos, hp⟩
        have hlen := List.idxOf_lt_length_of_mem hx
        omega
    rw [hp, Option.bind_some, List.getElem?_eq_getElem hlt]
    rfl
  · exact iff_of_false (by simp) hx

/-- A node's immediate dominator is the answer of its rank. -/
theorem Idoms.idom_iff (hx : x ∈ rpo) : idom x = some y ↔ y ∈ rpo ∧ byRank (rpo.idxOf x) = some (rpo.idxOf y) := by
  rw [h.idom, if_pos hx, Option.bind_eq_some_iff]
  constructor
  · rintro ⟨p, hp, hget⟩
    obtain ⟨hy, hidx⟩ := h.ordered.idxOf_iff.1 hget
    exact ⟨hy, by rw [hidx]; exact hp⟩
  · rintro ⟨hy, hp⟩
    exact ⟨_, hp, h.ordered.idxOf_iff.2 ⟨hy, rfl⟩⟩

theorem Idoms.pos_of_ne (hx : x ∈ rpo) (hne : x ≠ graph.root) : 0 < rpo.idxOf x := by
  by_contra hzero
  exact hne ((List.idxOf_inj hx).1 (by rw [h.ordered.idxOf_start]; omega))

theorem Idoms.up_iff (hx : x ∈ rpo) :
    x ≠ graph.root ∧ idom x = some y ↔ y ∈ rpo ∧ Dominators.Up byRank (rpo.idxOf x) (rpo.idxOf y) := by
  rw [h.idom_iff hx, Dominators.Up]
  constructor
  · rintro ⟨hne, hy, hp⟩
    exact ⟨hy, h.pos_of_ne hx hne, hp⟩
  · rintro ⟨hy, hpos, hp⟩
    refine ⟨fun heq => ?_, hy, hp⟩
    rw [heq, h.ordered.idxOf_start] at hpos
    omega

theorem Idoms.idom_lt (hx : x ∈ rpo) (hne : x ≠ graph.root) (hy : idom x = some y) : rpo.idxOf y < rpo.idxOf x :=
  h.rooted.up_lt ((h.up_iff hx).1 ⟨hne, hy⟩).2

/-! ## The numbers -/

/-- The nodes that a node immediately dominates. -/
theorem Idoms.kids_eq (node : ℕ) : let below := rpo.filter (· ≠ graph.root)
    let parent (node : ℕ) := (idom node).getD 0
    let childAt := Buckets.starts graph.nodes (below.map parent)
    Buckets.slice (Buckets.scatter parent childAt 0 below) (childAt node) (childAt (node + 1)) =
      below.filter fun x => decide (parent x = node) := by
  intro below parent childAt
  have hparent (x : ℕ) (hx : x ∈ below) : parent x < graph.nodes := by
    obtain ⟨hx, -⟩ := List.mem_filter.1 hx
    obtain ⟨y, hy⟩ := Option.isSome_iff_exists.1 (h.isSome_iff.2 hx)
    rw [show parent x = y by simp [parent, hy]]
    exact h.ordered.lt y ((h.idom_iff hx).1 hy).1
  by_cases hlt : node < graph.nodes
  · exact Buckets.scatter_row parent 0 (fun _ => rfl) hparent hlt
  · have hkeys (key : ℕ) (hkey : key ∈ below.map parent) : key < graph.nodes := by
      obtain ⟨x, hx, rfl⟩ := List.mem_map.1 hkey
      exact hparent x hx
    rw [show Buckets.slice _ (childAt node) (childAt (node + 1)) = [] from Buckets.slice_past _ hkeys (not_lt.1 hlt),
      eq_comm, List.filter_eq_nil_iff]
    intro x hx
    have hless := hparent x hx
    simp only [decide_eq_true_eq]
    omega

theorem Idoms.isTree (hkids : ∀ v c, c ∈ kids v ↔ c ∈ rpo ∧ c ≠ graph.root ∧ idom c = some v)
    (hnodup : ∀ v, (kids v).Nodup) : TreeNumbers.IsTree kids rpo.idxOf rpo.length := by
  refine ⟨hnodup, fun v w c hv hw => ?_, fun v c hc => ?_, fun v c hc => ?_⟩
  · exact Option.some.inj (((hkids v c).1 hv).2.2.symm.trans ((hkids w c).1 hw).2.2)
  · obtain ⟨hmem, hne, hidom⟩ := (hkids v c).1 hc
    exact h.idom_lt hmem hne hidom
  · exact List.idxOf_lt_length_of_mem ((hkids v c).1 hc).1

/-- Below a node in the tree is what it is on the way to the root from. -/
theorem Idoms.below_iff (hkids : ∀ v c, c ∈ kids v ↔ c ∈ rpo ∧ c ≠ graph.root ∧ idom c = some v) (ha : a ∈ rpo) :
    TreeNumbers.Below kids a b ↔ b ∈ rpo ∧ Dominators.Chain byRank (rpo.idxOf b) (rpo.idxOf a) := by
  constructor
  · intro hbelow
    induction hbelow with
    | refl => exact ⟨ha, .refl⟩
    | tail _ hc ih =>
      obtain ⟨hmem, hne, hidom⟩ := (hkids _ _).1 hc
      exact ⟨hmem, ih.2.head ((h.up_iff hmem).1 ⟨hne, hidom⟩).2⟩
  · rintro ⟨hb, hchain⟩
    generalize hr : rpo.idxOf b = r at hchain
    induction hchain using ReflTransGen.head_induction_on generalizing b with
    | refl => rw [(List.idxOf_inj hb).1 hr]; exact .refl
    | @head r s hup _ ih =>
      have hs : s < rpo.length := (h.rooted.up_lt hup).trans (hr ▸ List.idxOf_lt_length_of_mem hb)
      obtain ⟨hmem, hidx⟩ := h.ordered.idxOf_iff.1 (List.getElem?_eq_getElem hs)
      obtain ⟨hne, hidom⟩ := (h.up_iff hb).2 ⟨hmem, by rw [hr, hidx]; exact hup⟩
      exact (ih hmem hidx).tail ((hkids _ _).2 ⟨hb, hne, hidom⟩)

/-- The nodes are numbered, and the two numbers of a node say which nodes it is on the way to the root from. -/
theorem Idoms.number_spec : ∃ t enough, (∀ rounds, enough ≤ rounds →
      Tree.number rounds graph rpo idom = some t) ∧ t.idom = idom ∧ ∀ a ∈ rpo, ∀ b ∈ rpo,
      (t.enter a ≤ t.enter b ∧ t.enter b < t.leave a ↔ Dominators.Chain byRank (rpo.idxOf b) (rpo.idxOf a)) := by
  unfold Tree.number
  extract_lets below parent childAt children kids
  have hkids (v c : ℕ) : c ∈ kids v ↔ c ∈ rpo ∧ c ≠ graph.root ∧ idom c = some v := by
    rw [show kids v = _ from h.kids_eq v, List.mem_filter, List.mem_filter, and_assoc, decide_eq_true_eq,
      decide_eq_true_eq]
    refine and_congr_right fun hc => and_congr_right fun _ => ?_
    obtain ⟨y, hy⟩ := Option.isSome_iff_exists.1 (h.isSome_iff.2 hc)
    show (idom c).getD 0 = v ↔ idom c = some v
    rw [hy, Option.getD_some, Option.some.injEq]
  have htree := h.isTree hkids fun v => by
    rw [show kids v = _ from h.kids_eq v]
    exact (h.ordered.nodup.filter _).filter _
  obtain ⟨s, steps, hrun, hnumbered⟩ := htree.run_root
    (s := ⟨[(graph.root, 0)], 1, fun _ => 0, fun _ => 0⟩) rfl rfl
  refine ⟨⟨idom, children, childAt, s.enter, s.leave⟩, steps, fun rounds hle => by rw [hrun rounds hle]; rfl, rfl,
    fun a ha b hb => ?_⟩
  -- every node of the order is below the root
  have hroot {x : ℕ} (hx : x ∈ rpo) : TreeNumbers.Below kids graph.root x := by
    refine (h.below_iff hkids h.ordered.start_mem).2 ⟨hx, ?_⟩
    rw [h.ordered.idxOf_start]
    refine (h.exact _ (List.idxOf_lt_length_of_mem hx) 0).2 fun haround => haround.1 rfl
  rw [hnumbered.nested a b (hroot ha) (hroot hb), h.below_iff hkids ha]
  exact and_iff_right hb

/-- The ways that stay off a node, between the ranks and between the nodes. -/
theorem Idoms.around_iff (hok : graph.Ok) (hb : b ∈ rpo) :
    Dominators.Around (ranked graph rpo) (rpo.idxOf a) (rpo.idxOf b) ↔
      graph.root ≠ a ∧ ReflTransGen (fun u v => v ∈ graph.succs u ∧ v ≠ a) graph.root b := by
  have hroot := h.ordered.idxOf_start
  have hedge {u v : ℕ} (hu : u ∈ rpo) (hv : v ∈ rpo) :
      rpo.idxOf u ∈ ranked graph rpo (rpo.idxOf v) ↔ v ∈ graph.succs u := by
    rw [← hok.preds u v (h.ordered.mem_iff.1 hu) (h.ordered.mem_iff.1 hv), ranked, List.mem_filterMap,
      List.getD_eq_getElem?_getD, h.ordered.idxOf_iff.2 ⟨hv, rfl⟩, Option.getD_some]
    simp only [rank, Option.ite_none_right_eq_some, Option.some.injEq]
    constructor
    · rintro ⟨w, hw, hmem, heq⟩
      exact (List.idxOf_inj hmem).1 heq ▸ hw
    · exact fun hmem => ⟨u, hmem, hu, rfl⟩
  rw [Dominators.Around, ← hroot]
  refine and_congr (by rw [Ne, List.idxOf_inj h.ordered.start_mem]) ?_
  constructor
  · intro hway
    generalize hr : rpo.idxOf b = r at hway
    induction hway generalizing b with
    | refl => rw [(List.idxOf_inj hb).1 hr]
    | @tail r s hway hstep ih =>
      obtain ⟨u, -, hu⟩ := List.mem_filterMap.1 hstep.1
      obtain ⟨hu, hidx⟩ := Option.ite_none_right_eq_some.1 hu
      have hidx := Option.some.inj hidx
      rw [← hidx, ← hr] at hstep
      exact (ih hu hidx).tail ⟨(hedge hu hb).1 hstep.1, fun heq => hstep.2 (by rw [heq])⟩
  · intro hway
    induction hway with
    | refl => exact .refl
    | @tail u v hway hstep ih =>
      have hu : u ∈ rpo := h.ordered.mem_iff.2 (ReflTransGen.mono (fun _ _ hstep => hstep.1) _ _ hway)
      exact (ih hu).tail ⟨(hedge hu hb).2 hstep.1, fun heq => hstep.2 ((List.idxOf_inj hb).1 heq)⟩

/-! ## The answers -/

/-- What is on the way from a node to the root is what dominates it. -/
theorem Idoms.chain_iff (hok : graph.Ok) (ha : a ∈ rpo) (hb : b ∈ rpo) :
    Dominators.Chain byRank (rpo.idxOf b) (rpo.idxOf a) ↔
      Dominates (some graph.root) (fun u v => v ∈ graph.succs u) a b := by
  rw [h.exact _ (List.idxOf_lt_length_of_mem hb), Dominators.Dominates, h.around_iff hok hb, ← not_passes_iff, not_not]
  exact ⟨fun hpasses => ⟨reached_iff.2 (h.ordered.mem_iff.1 ha), reached_iff.2 (h.ordered.mem_iff.1 hb), hpasses⟩,
    fun hdom => hdom.passes⟩

/-- The immediate dominators lead from a node to what dominates it. -/
theorem Idoms.climbs (hok : graph.Ok) {t : Tree} (hidom : t.idom = idom) :
    t.Climbs graph.root (fun u v => v ∈ graph.succs u) rpo.idxOf (rpo.length + 1) := by
  let kids (v : ℕ) : List ℕ := rpo.filter fun c => c ≠ graph.root ∧ idom c = some v
  have hkids (v c : ℕ) : c ∈ kids v ↔ c ∈ rpo ∧ c ≠ graph.root ∧ idom c = some v := by
    rw [List.mem_filter, decide_eq_true_eq]
  have hmem {x : ℕ} : Reached (some graph.root) (fun u v => v ∈ graph.succs u) x ↔ x ∈ rpo := by
    rw [reached_iff, h.ordered.mem_iff]
  constructor
  case rooted =>
    rw [hidom, h.idom_iff h.ordered.start_mem, h.ordered.idxOf_start]
    exact ⟨h.ordered.start_mem, h.rooted.zero⟩
  case reached => exact fun x => by rw [hidom, h.isSome_iff, hmem]
  case lower =>
    intro x y hne hy
    rw [hidom] at hy
    exact h.idom_lt (h.isSome_iff.1 (by rw [hy]; rfl)) hne hy
  case bounded => exact fun x => Nat.lt_succ_of_le (List.idxOf_le_length)
  case chain =>
    intro x y hx
    have hx := hmem.1 hx
    -- the ways down the tree are the ways up it
    have hbelow : ReflTransGen (fun u v => u ≠ graph.root ∧ t.idom u = some v) x y ↔ TreeNumbers.Below kids y x := by
      rw [TreeNumbers.Below, ← reflTransGen_swap, hidom]
      have hstep (u v : ℕ) : (u ≠ graph.root ∧ idom u = some v) = (u ∈ kids v) :=
        propext ((hkids v u).trans (and_iff_right_of_imp fun hu => h.isSome_iff.1 (by rw [hu.2]; rfl))).symm
      simp only [hstep]
    rw [hbelow]
    constructor
    · intro hdom
      have hy := hmem.1 hdom.reached_above
      exact (h.below_iff hkids hy).2 ⟨hx, (h.chain_iff hok hy hx).2 hdom⟩
    · intro hway
      have hy : y ∈ rpo := by
        rcases ReflTransGen.cases_head hway with heq | ⟨w, hw, -⟩
        · exact heq ▸ hx
        · have hlt := (h.idom_iff ((hkids y w).1 hw).1).1 ((hkids y w).1 hw).2.2
          exact hlt.1
      exact (h.chain_iff hok hy hx).1 ((h.below_iff hkids hy).1 hway).2

variable {t : Tree} (hidom : t.idom = idom) (hnested : ∀ a ∈ rpo, ∀ b ∈ rpo,
  (t.enter a ≤ t.enter b ∧ t.enter b < t.leave a ↔ Dominators.Chain byRank (rpo.idxOf b) (rpo.idxOf a)))

include hidom hnested

theorem Idoms.dominates_iff : t.dominates a b = true ↔
    a ∈ rpo ∧ b ∈ rpo ∧ Dominators.Chain byRank (rpo.idxOf b) (rpo.idxOf a) := by
  rw [Tree.dominates, Tree.reached, Tree.reached, hidom, Bool.and_eq_true, Bool.and_eq_true, Bool.and_eq_true,
    h.isSome_iff, h.isSome_iff, decide_eq_true_eq, decide_eq_true_eq, and_assoc, and_assoc]
  exact and_congr_right fun ha => and_congr_right fun hb => hnested a ha b hb

/-- The way up from a node ends at the first one that dominates the other. -/
theorem Idoms.up_spec (hb : b ∈ rpo) (rounds : ℕ) : ∀ walk ∈ rpo, rpo.idxOf walk < rounds →
    ∃ c ∈ rpo, t.up b rounds walk = some c ∧ Dominators.Chain byRank (rpo.idxOf walk) (rpo.idxOf c) ∧
      Dominators.Chain byRank (rpo.idxOf b) (rpo.idxOf c) ∧
      ∀ r, Dominators.Chain byRank (rpo.idxOf walk) r → Dominators.Chain byRank (rpo.idxOf b) r →
        Dominators.Chain byRank (rpo.idxOf c) r := by
  induction rounds with
  | zero => exact fun _ _ hlt => absurd hlt (Nat.not_lt_zero _)
  | succ rounds ih =>
    intro walk hwalk hlt
    rw [Tree.up]
    by_cases hdom : t.dominates walk b = true
    · rw [if_pos hdom]
      obtain ⟨-, -, hchain⟩ := (h.dominates_iff hidom hnested).1 hdom
      exact ⟨walk, hwalk, rfl, .refl, hchain, fun r hr _ => hr⟩
    rw [if_neg hdom]
    have hnot : ¬ Dominators.Chain byRank (rpo.idxOf b) (rpo.idxOf walk) := fun hchain =>
      hdom ((h.dominates_iff hidom hnested).2 ⟨hwalk, hb, hchain⟩)
    have hne : walk ≠ graph.root := by
      rintro rfl
      refine hnot ((h.exact _ (List.idxOf_lt_length_of_mem hb) _).2 fun haround => ?_)
      exact haround.1 h.ordered.idxOf_start.symm
    obtain ⟨y, hy⟩ := Option.isSome_iff_exists.1 (h.isSome_iff.2 hwalk)
    obtain ⟨hmem, hup⟩ := (h.up_iff hwalk).1 ⟨hne, hy⟩
    have hless := h.rooted.up_lt hup
    obtain ⟨c, hc, hcommon, hwalkc, hbc, hall⟩ := ih y hmem (by omega)
    refine ⟨c, hc, by rw [hidom, hy]; exact hcommon, hwalkc.head hup, hbc, fun r hr hbr => hall r ?_ hbr⟩
    -- what dominates both is not the node itself, so it is further up
    rcases Dominators.chain_cases hr with rfl | ⟨p, hup', hrest⟩
    · exact absurd hbr hnot
    · rwa [Option.some.inj (hup.2.symm.trans hup'.2)]

/-- The tree answers what the ways through the graph are like. -/
theorem Idoms.lawful (hok : graph.Ok) {rounds : ℕ} (hrounds : rpo.length ≤ rounds) :
    t.Lawful rounds (some graph.root) fun u v => v ∈ graph.succs u := by
  have hmem {x : ℕ} : Reached (some graph.root) (fun u v => v ∈ graph.succs u) x ↔ x ∈ rpo := by
    rw [reached_iff, h.ordered.mem_iff]
  constructor
  · intro a b
    rw [h.dominates_iff hidom hnested]
    constructor
    · rintro ⟨ha, hb, hchain⟩
      exact (h.chain_iff hok ha hb).1 hchain
    · intro hdom
      have ha := hmem.1 hdom.reached_above
      have hb := hmem.1 hdom.reached
      exact ⟨ha, hb, (h.chain_iff hok ha hb).2 hdom⟩
  · intro a b ha hb
    have ha := hmem.1 ha
    have hb := hmem.1 hb
    have hreached {x : ℕ} (hx : x ∈ rpo) : t.reached x = true := by
      rw [Tree.reached, hidom]
      exact h.isSome_iff.2 hx
    obtain ⟨c, hc, hup, hac, hbc, hall⟩ := h.up_spec hidom hnested hb rounds a ha
      ((List.idxOf_lt_length_of_mem ha).trans_le hrounds)
    refine ⟨c, ?_, (h.chain_iff hok hc ha).1 hac, (h.chain_iff hok hc hb).1 hbc, fun d hda hdb => ?_⟩
    · rw [Tree.common, hreached ha, hreached hb, hup]
      rfl
    · have hd := hmem.1 hda.reached_above
      exact (h.chain_iff hok hd hc).1 (hall _ ((h.chain_iff hok hd ha).2 hda) ((h.chain_iff hok hd hb).2 hdb))

end

/-- The tree of a graph is built, and it answers what the ways through the graph are like. -/
theorem Tree.new_spec {graph : Graph} (hok : graph.Ok) : ∃ t height enough,
    t.Climbs graph.root (fun u v => v ∈ graph.succs u) height enough ∧ ∀ rounds, enough ≤ rounds →
      Tree.new rounds graph = some t ∧ t.Lawful rounds (some graph.root) fun u v => v ∈ graph.succs u := by
  obtain ⟨post, rpo, byRank, idom, enough, hrpo, hfound, hparents, h⟩ := idoms_spec hok
  obtain ⟨t, enough', hnumber, hidom, hnested⟩ := h.number_spec
  have hclimbs := h.climbs hok hidom
  refine ⟨t, rpo.idxOf, max (max enough enough') (rpo.length + 1), ⟨hclimbs.rooted, hclimbs.reached, hclimbs.lower,
    hclimbs.chain, fun x => lt_max_of_lt_right (hclimbs.bounded x)⟩, fun rounds hle => ⟨?_,
    h.lawful hidom hnested hok (by omega)⟩⟩
  · obtain ⟨hpost, hsettle⟩ := hfound rounds (by omega)
    rw [Tree.new, hpost]
    dsimp only [Option.bind_eq_bind, Option.bind_some]
    rw [← hrpo, hsettle, Option.bind_some, hparents, Option.bind_some, hnumber rounds (by omega)]

end Rucc.Opt.Dom
