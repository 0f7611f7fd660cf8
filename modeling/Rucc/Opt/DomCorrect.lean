import Rucc.Lib.Lists
import Rucc.Opt.DomTree

/-!
# The dominators and post-dominators of a function

The two graphs that the tree is built over. The function's own one has the order it needs already. In the one turned
around, every block that control reaches is led to from the exit once the far ends of the loops that never end have an
edge to it: each round of `connect` attaches a block that had not been arrived at, and what the exit leads to is closed
under going back along an edge.
-/

namespace Rucc.Opt.Dom

open Relation

/-- Control goes from a block to another one. -/
def Flow.Step (flow : Flow) (u v : ℕ) : Prop := v ∈ flow.successors u

/-- Control goes from a block to another one, or out of the function: from a block that goes nowhere, or from one that
an edge to the exit was invented for. -/
def Flow.Leaves (flow : Flow) (fake : List ℕ) (u v : ℕ) : Prop :=
  flow.Step u v ∨ v = flow.size ∧ (flow.successors u = [] ∨ u ∈ fake)

theorem Flow.step_lt {flow : Flow} {u v : ℕ} (h : flow.Step u v) : v < flow.size := by
  have hmem : v ∈ flow.edges.getD u [] := List.mem_eraseDups.1 h
  by_cases hu : u < flow.edges.length
  · rw [List.getD_eq_getElem?_getD, List.getElem?_eq_getElem hu, Option.getD_some] at hmem
    exact flow.target _ (List.getElem_mem hu) v hmem
  · rw [List.getD_eq_getElem?_getD, List.getElem?_eq_none (not_lt.1 hu)] at hmem
    exact absurd hmem List.not_mem_nil

/-- A tree that reaches nothing is right about a graph that starts nowhere. -/
theorem Tree.empty_lawful (rounds : ℕ) (step : ℕ → ℕ → Prop) : Tree.empty.Lawful rounds none step := by
  have hnone (x : ℕ) : ¬ Reached none step x := by
    rintro ⟨path, hfirst, hlast, -⟩
    rw [List.head?_eq_none_iff.1 hfirst] at hlast
    cases hlast
  exact ⟨fun a b => iff_of_false (by simp [dominates, reached, empty]) fun h => hnone b h.reached,
    fun a _ ha => absurd ha (hnone a)⟩

section

variable {flow : Flow} {entry : ℕ}

theorem Flow.postorder_spec (hentry : flow.entry = some entry) :
    ∃ post, flow.postorder = some post ∧ Postorder.Ordered flow.size flow.successors entry post.reverse := by
  rw [Flow.postorder, hentry]
  exact Postorder.postorder_spec (flow.entry_lt entry hentry) fun v _ w hw => flow.step_lt hw

theorem Flow.forward_ok (hentry : flow.entry = some entry) {post : List ℕ}
    (hordered : Postorder.Ordered flow.size flow.successors entry post.reverse) : (flow.forward post).Ok := by
  have hroot : (flow.forward post).root = entry := by rw [Flow.forward, hentry, Option.getD_some]
  refine ⟨by rw [hroot]; exact flow.entry_lt entry hentry, fun v _ w hw => flow.step_lt hw, fun u v _ _ => ?_,
    fun order horder => ?_⟩
  · exact Cfg.mem_predecessors
  · obtain rfl := Option.some.inj horder
    rw [hroot]
    exact hordered

/-- The dominators of every function are found, and lead up from each block that control reaches. -/
theorem Dominators.new_spec : ∃ doms height enough,
    (∀ entry, flow.entry = some entry → doms.tree.Climbs entry flow.Step height enough) ∧ ∀ rounds, enough ≤ rounds →
      Dominators.new rounds flow = some doms ∧ doms.tree.Lawful rounds flow.entry flow.Step := by
  cases hentry : flow.entry with
  | none =>
    exact ⟨⟨.empty⟩, fun _ => 0, 0, fun _ heq => (nomatch heq),
      fun rounds _ => ⟨by rw [new, hentry], Tree.empty_lawful rounds flow.Step⟩⟩
  | some entry =>
    obtain ⟨post, hpost, hordered⟩ := Flow.postorder_spec hentry
    obtain ⟨t, height, enough, hclimbs, hspec⟩ := Tree.new_spec (Flow.forward_ok hentry hordered)
    refine ⟨⟨t⟩, height, enough, fun start heq => ?_, fun rounds hle => ⟨?_, ?_⟩⟩
    · obtain rfl := Option.some.inj heq
      rw [Flow.forward, hentry, Option.getD_some] at hclimbs
      exact hclimbs
    · rw [new, hentry, hpost]
      dsimp only [Option.bind_eq_bind, Option.bind_some]
      rw [(hspec rounds hle).1]
      rfl
    · have hlawful := (hspec rounds hle).2
      rw [Flow.forward, hentry, Option.getD_some] at hlawful
      exact hlawful

end

/-! ## The edges turned around -/

/-- What the lists of the graph turned around hold, over the blocks that control reaches. -/
structure Reverse.Good (reverse : Reverse) (flow : Flow) (post : List ℕ) : Prop where
  flow_eq : reverse.flow = flow
  list : ∀ v, v ≠ flow.size → ∀ u, u ∈ reverse.list v ↔ u ∈ post ∧ flow.Step u v
  ends : ∀ u, u ∈ reverse.list flow.size ↔ u ∈ post ∧ (flow.successors u = [] ∨ reverse.fake u = true)

namespace Reverse

variable {flow : Flow} {post : List ℕ}

theorem good_new : (new flow post).Good flow post := by
  have hexit : (new flow post).exit = flow.size := rfl
  refine ⟨rfl, fun v hv u => ?_, fun u => ?_⟩
  · rw [list, hexit, if_neg hv]
    generalize hedges : (post.flatMap fun block => (flow.successors block).map fun next => (block, next)) = edges
    have hmem {e : ℕ × ℕ} : e ∈ edges ↔ e.1 ∈ post ∧ flow.Step e.1 e.2 := by
      rw [← hedges, List.mem_flatMap]
      constructor
      · rintro ⟨block, hblock, he⟩
        obtain ⟨next, hnext, rfl⟩ := List.mem_map.1 he
        exact ⟨hblock, hnext⟩
      · rintro ⟨hblock, hstep⟩
        exact ⟨e.1, hblock, List.mem_map.2 ⟨e.2, hstep, rfl⟩⟩
    have hlt (e : ℕ × ℕ) (he : e ∈ edges) : e.2 < flow.size := flow.step_lt (hmem.1 he).2
    have hslice : Buckets.slice (new flow post).succs ((new flow post).succAt v) ((new flow post).succAt (v + 1)) =
        (edges.filter fun e => decide (e.2 = v)).map Prod.fst := by
      simp only [new, hedges]
      by_cases hv : v < flow.size
      · rw [← Buckets.scatter_row Prod.snd (0, 0) (fun _ => rfl) hlt hv, Buckets.slice, Buckets.slice, List.map_map]
        rfl
      · rw [Buckets.slice_past _ (fun key hkey => ?_) (not_lt.1 hv), eq_comm, List.map_eq_nil_iff,
          List.filter_eq_nil_iff]
        · intro e he
          have hless := hlt e he
          simp only [decide_eq_true_eq]
          omega
        · obtain ⟨e, he, rfl⟩ := List.mem_map.1 hkey
          exact hlt e he
    rw [hslice, List.mem_map]
    constructor
    · rintro ⟨e, he, rfl⟩
      obtain ⟨he, heq⟩ := List.mem_filter.1 he
      rw [← of_decide_eq_true heq]
      exact hmem.1 he
    · exact fun hu => ⟨(u, v), List.mem_filter.2 ⟨hmem.2 hu, decide_eq_true rfl⟩, rfl⟩
  · rw [list, hexit, if_pos rfl]
    simp [new]

variable {reverse : Reverse} (h : reverse.Good flow post)

include h

theorem Good.list_attach (last v : ℕ) : (reverse.attach last).list v =
    if v = flow.size then reverse.list v ++ [last] else reverse.list v := by
  unfold Reverse.list Reverse.attach Reverse.exit
  rw [h.flow_eq]
  split_ifs <;> rfl

theorem Good.attach {last : ℕ} (hlast : last ∈ post) : (reverse.attach last).Good flow post := by
  refine ⟨h.flow_eq, fun v hv u => ?_, fun u => ?_⟩
  · rw [h.list_attach, if_neg hv]
    exact h.list v hv u
  · rw [h.list_attach, if_pos rfl, List.mem_append, h.ends, List.mem_singleton]
    by_cases heq : u = last
    · subst heq
      simp [Reverse.attach, hlast]
    · simp [Reverse.attach, heq]

theorem Good.lt (hpost : ∀ u ∈ post, u < flow.size) {u v : ℕ} (hu : u ∈ reverse.list v) : u < flow.size := by
  by_cases hv : v = flow.size
  · rw [hv] at hu
    exact hpost u ((h.ends u).1 hu).1
  · exact hpost u ((h.list v hv u).1 hu).1

end Reverse

/-! ## More rounds -/

namespace Reverse

variable {rounds rounds' : ℕ}

theorem spread_mono {reverse : Reverse} (hle : rounds ≤ rounds') :
    ∀ {s : (ℕ → Bool) × List ℕ} {arrives}, reverse.spread rounds s = some arrives →
      reverse.spread rounds' s = some arrives := by
  induction rounds generalizing rounds' with
  | zero =>
    rintro ⟨arrives, stack⟩ _ hspread
    cases stack with
    | nil => simpa [spread] using hspread
    | cons node stack => simp [spread] at hspread
  | succ rounds ih =>
    rintro ⟨arrives, stack⟩ _ hspread
    obtain ⟨rounds', rfl⟩ := Nat.exists_eq_add_of_le' (Nat.le_of_add_left_le hle)
    cases stack with
    | nil => simpa [spread] using hspread
    | cons node stack =>
      rw [spread] at hspread ⊢
      exact ih (by omega) hspread

theorem farEnd_mono {flow : Flow} {round : ℕ} (hle : rounds ≤ rounds') :
    ∀ {stamp block last}, farEnd flow round rounds stamp block = some last →
      farEnd flow round rounds' stamp block = some last := by
  induction rounds generalizing rounds' with
  | zero => exact fun hend => nomatch hend
  | succ rounds ih =>
    intro stamp block last hend
    obtain ⟨rounds', rfl⟩ := Nat.exists_eq_add_of_le' (Nat.le_of_add_left_le hle)
    rw [farEnd] at hend ⊢
    split
    next next hnext =>
      rw [hnext] at hend
      exact ih (by omega) hend
    next hnext =>
      rw [hnext] at hend
      exact hend

theorem connectFrom_mono {rpo : List ℕ} {bound bound' : ℕ} (hbound : bound ≤ bound')
    (hle : rounds ≤ rounds') : ∀ {reverse s stamp round fake result},
    connectFrom rpo bound rounds reverse s stamp round fake = some result →
      connectFrom rpo bound' rounds' reverse s stamp round fake = some result := by
  induction rounds generalizing rounds' with
  | zero => exact fun hconnect => nomatch hconnect
  | succ rounds ih =>
    intro reverse s stamp round fake result hconnect
    obtain ⟨rounds', rfl⟩ := Nat.exists_eq_add_of_le' (Nat.le_of_add_left_le hle)
    rw [connectFrom] at hconnect ⊢
    obtain ⟨arrives, hspread, hrest⟩ := Option.bind_eq_some_iff.1 hconnect
    refine Option.bind_eq_some_iff.2 ⟨arrives, spread_mono hbound hspread, ?_⟩
    split
    next hnone =>
      rw [hnone] at hrest
      exact hrest
    next stranded hsome =>
      rw [hsome] at hrest
      obtain ⟨last, hend, hrest⟩ := Option.bind_eq_some_iff.1 hrest
      exact Option.bind_eq_some_iff.2 ⟨last, farEnd_mono hbound hend, ih (by omega) hrest⟩

end Reverse

/-! ## What the exit leads to -/

namespace Reverse

variable {n : ℕ}

/-- What has been arrived at leads to what has been, but for the nodes of a stack. -/
def Closed (reverse : Reverse) (arrives : ℕ → Bool) (stack : List ℕ) : Prop :=
  ∀ v, arrives v = true → v ∈ stack ∨ ∀ u ∈ reverse.list v, arrives u = true

/-- How many steps there are left: a node to be arrived at, and one of the stack, is one each. -/
def left (n : ℕ) (arrives : ℕ → Bool) (stack : List ℕ) : ℕ :=
  Explore.todo n (fun _ => []) arrives (stack.map fun v => (v, 0))

theorem foldl_arrive (nodes : List ℕ) (hlt : ∀ u ∈ nodes, u < n) : ∀ s : (ℕ → Bool) × List ℕ,
    let s' := nodes.foldl arrive s
    (∀ x, s'.1 x = true ↔ s.1 x = true ∨ x ∈ nodes) ∧ (∀ x, s'.1 x = true → s.1 x = true ∨ x ∈ s'.2) ∧
      (∀ x ∈ s.2, x ∈ s'.2) ∧ (∀ x ∈ s'.2, x ∈ s.2 ∨ x ∈ nodes) ∧ left n s'.1 s'.2 = left n s.1 s.2 := by
  induction nodes with
  | nil => exact fun s => ⟨fun x => by simp, fun x hx => Or.inl hx, fun x hx => hx, fun x hx => Or.inl hx, rfl⟩
  | cons next nodes ih =>
    intro s
    rw [List.foldl_cons]
    obtain ⟨hiff, hnew, hkept, honly, hleft⟩ := ih (fun u hu => hlt u (List.mem_cons_of_mem _ hu)) (arrive s next)
    have hone : (∀ x, (arrive s next).1 x = true ↔ s.1 x = true ∨ x = next) ∧
        (∀ x, (arrive s next).1 x = true → s.1 x = true ∨ x ∈ (arrive s next).2) ∧
        (∀ x ∈ s.2, x ∈ (arrive s next).2) ∧ (∀ x ∈ (arrive s next).2, x ∈ s.2 ∨ x = next) ∧
        left n (arrive s next).1 (arrive s next).2 = left n s.1 s.2 := by
      unfold arrive
      cases hs : s.1 next with
      | true =>
        rw [if_pos rfl]
        refine ⟨fun x => ⟨Or.inl, ?_⟩, fun x hx => Or.inl hx, fun x hx => hx, fun x hx => Or.inl hx, rfl⟩
        rintro (hx | rfl)
        · exact hx
        · exact hs
      | false =>
        rw [if_neg Bool.false_ne_true]
        refine ⟨fun x => ?_, fun x hx => ?_, fun x hx => List.mem_cons_of_mem _ hx,
          fun x hx => (List.mem_cons.1 hx).symm, ?_⟩
        · by_cases heq : x = next
          · simp [heq]
          · simp [heq]
        · by_cases heq : x = next
          · exact Or.inr (heq ▸ List.mem_cons_self)
          · exact Or.inl (by simpa [heq] using hx)
        · exact Explore.todo_visit (hlt next List.mem_cons_self) hs
    obtain ⟨hiff₁, hnew₁, hkept₁, honly₁, hleft₁⟩ := hone
    refine ⟨fun x => ?_, fun x hx => ?_, fun x hx => hkept x (hkept₁ x hx), fun x hx => ?_, hleft.trans hleft₁⟩
    · rw [hiff, hiff₁, List.mem_cons, or_assoc]
    · exact (hnew x hx).elim (fun hx => (hnew₁ x hx).imp_right (hkept x)) Or.inr
    · rw [List.mem_cons, ← or_assoc]
      exact (honly x hx).imp_left (honly₁ x)

/-- Everything that the nodes of a stack lead to is arrived at, and nothing else. -/
theorem spread_spec {reverse : Reverse} (hlt : ∀ v, ∀ u ∈ reverse.list v, u < n) (rounds : ℕ) :
    ∀ arrives stack, left n arrives stack ≤ rounds → reverse.Closed arrives stack →
    ∃ arrives', reverse.spread rounds (arrives, stack) = some arrives' ∧ reverse.Closed arrives' [] ∧
      (∀ x, arrives x = true → arrives' x = true) ∧
      ∀ P : ℕ → Prop, (∀ x, arrives x = true → P x) → (∀ x ∈ stack, P x) →
        (∀ v, P v → ∀ u ∈ reverse.list v, P u) → ∀ x, arrives' x = true → P x := by
  induction rounds with
  | zero =>
    intro arrives stack hle hclosed
    have hstack : stack = [] := List.map_eq_nil_iff.1 (Explore.work_nil (Nat.le_zero.1 hle))
    rw [hstack] at hclosed ⊢
    exact ⟨arrives, by rw [spread], hclosed, fun _ hx => hx, fun P hP _ _ => hP⟩
  | succ rounds ih =>
    intro arrives stack hle hclosed
    cases stack with
    | nil => exact ⟨arrives, by rw [spread], hclosed, fun _ hx => hx, fun P hP _ _ => hP⟩
    | cons node stack =>
      obtain ⟨hiff, hnew, hkept, hstacked, hleft⟩ := foldl_arrive (reverse.list node) (hlt node) (arrives, stack)
      generalize hs : (reverse.list node).foldl arrive (arrives, stack) = s at hiff hnew hkept hstacked hleft
      obtain ⟨arrives₁, stack₁⟩ := s
      have hless : left n arrives stack < left n arrives (node :: stack) := Explore.todo_leave node 0
      have hclosed₁ : reverse.Closed arrives₁ stack₁ := by
        intro v hv
        by_cases heq : v = node
        · exact Or.inr fun u hu => (hiff u).2 (Or.inr (heq ▸ hu))
        · rcases hnew v hv with hv | hv
          · refine (hclosed v hv).imp (fun hmem => ?_) fun hall u hu => (hiff u).2 (Or.inl (hall u hu))
            exact hkept v ((List.mem_cons.1 hmem).resolve_left heq)
          · exact Or.inl hv
      obtain ⟨arrives', hspread, hclosed', hmore, honly⟩ := ih arrives₁ stack₁ (by dsimp only at hleft; omega) hclosed₁
      refine ⟨arrives', by rw [spread, hs, hspread], hclosed', fun x hx => hmore x ((hiff x).2 (Or.inl hx)),
        fun P hP hstack hstep => ?_⟩
      have hnode : ∀ u ∈ reverse.list node, P u := hstep node (hstack node List.mem_cons_self)
      refine honly P (fun x hx => ((hiff x).1 hx).elim (hP x) (hnode x)) (fun x hx => ?_) hstep
      exact (hstacked x hx).elim (fun hx => hstack x (List.mem_cons_of_mem _ hx)) (hnode x)

/-- The walk to the far end of a region ends, at a block that the first one leads to. -/
theorem farEnd_spec {flow : Flow} (round rounds : ℕ) : ∀ stamp block,
    left flow.size (fun x => decide (Function.update stamp block (some round) x = some round)) [] < rounds →
    ∃ last stamp', farEnd flow round rounds stamp block = some (last, stamp') ∧
      ReflTransGen flow.Step block last := by
  induction rounds with
  | zero => exact fun _ _ hlt => absurd hlt (Nat.not_lt_zero _)
  | succ rounds ih =>
    intro stamp block hlt
    rw [farEnd]
    generalize Function.update stamp block (some round) = stamp' at hlt
    cases hfind : (flow.successors block).find? fun next => stamp' next ≠ some round with
    | none => exact ⟨block, stamp', rfl, .refl⟩
    | some next =>
      have hnext : next ∈ flow.successors block := List.mem_of_find?_eq_some hfind
      have hnew : stamp' next ≠ some round := by simpa using List.find?_some hfind
      -- the next block is stamped for the first time
      have hupdate : (fun x => decide (Function.update stamp' next (some round) x = some round)) =
          Function.update (fun x => decide (stamp' x = some round)) next true := by
        funext x
        by_cases heq : x = next
        · simp [heq]
        · simp [heq]
      have hless : left flow.size (fun x => decide (Function.update stamp' next (some round) x = some round)) [] <
          left flow.size (fun x => decide (stamp' x = some round)) [] := by
        rw [hupdate]
        exact (Explore.todo_leave next 0).trans_eq
          (Explore.todo_visit (flow.step_lt hnext) (decide_eq_false hnew))
      obtain ⟨last, stamp'', hend, hway⟩ := ih stamp' next (by omega)
      exact ⟨last, stamp'', hend, hway.head hnext⟩

theorem left_le (n : ℕ) (arrives : ℕ → Bool) (stack : List ℕ) : left n arrives stack ≤ n + stack.length := by
  have hnil : Explore.todo n (fun _ => []) arrives [] ≤ n := Explore.todo_nil_le.trans (by simp [Explore.rounds])
  have hsum : ((stack.map fun v => (v, 0)).map fun p : ℕ × ℕ => ([] : List ℕ).length - p.2 + 1).sum = stack.length := by
    rw [List.map_map, show (fun p : ℕ × ℕ => ([] : List ℕ).length - p.2 + 1) ∘ (fun v => (v, 0)) = fun _ => 1 from rfl]
    simp
  rw [Explore.todo] at hnil
  rw [left, Explore.todo, hsum]
  rw [List.map_nil, List.sum_nil, Nat.add_zero] at hnil
  exact Nat.add_le_add_right hnil _

/-- The exit leads to a node. -/
def Led (reverse : Reverse) (node : ℕ) : Prop :=
  ReflTransGen (fun u v => v ∈ reverse.list u) reverse.flow.size node

/-- What holds at the start of a round of `connect`. -/
structure Round (reverse : Reverse) (flow : Flow) (post : List ℕ) (arrives : ℕ → Bool) (stack fake : List ℕ) :
    Prop where
  good : reverse.Good flow post
  closed : reverse.Closed arrives stack
  short : stack.length ≤ 1
  exit : arrives flow.size = true
  led : ∀ x, arrives x = true ∨ x ∈ stack → reverse.Led x
  fake : ∀ u, reverse.fake u = true ↔ u ∈ fake

section

variable {flow : Flow} {post : List ℕ}

variable {reverse : Reverse} {arrives : ℕ → Bool}

/-- A block from which one leads on that has been arrived at has been arrived at. -/
theorem Good.arrives_back (h : reverse.Good flow post)
    (hpost : ∀ u ∈ post, ∀ v, flow.Step u v → v ∈ post) (hclosed : reverse.Closed arrives [])
    {u v : ℕ} (hu : u ∈ post) (hway : ReflTransGen flow.Step u v) (hv : arrives v = true) : arrives u = true := by
  induction hway using ReflTransGen.head_induction_on with
  | refl => exact hv
  | @head u w hstep _ ih =>
    have hlist := (hclosed w (ih (hpost u hu w hstep))).resolve_left List.not_mem_nil
    exact hlist u ((h.list w (flow.step_lt hstep).ne u).2 ⟨hu, hstep⟩)

/-- A block that is attached is led to. -/
theorem Round.attach {arrives' : ℕ → Bool} {stack fake : List ℕ}
    (h : reverse.Round flow post arrives stack fake) (hclosed : reverse.Closed arrives' [])
    (hmore : ∀ x, arrives x = true → arrives' x = true) (hled : ∀ x, arrives' x = true → reverse.Led x) {last : ℕ}
    (hlast : last ∈ post) : (reverse.attach last).Round flow post (Function.update arrives' last true) [last]
      (fake ++ [last]) := by
  have hlist := h.good.list_attach last
  have hsub (v : ℕ) : ∀ u ∈ reverse.list v, u ∈ (reverse.attach last).list v := by
    intro u hu
    rw [hlist]
    split_ifs
    · exact List.mem_append_left _ hu
    · exact hu
  have harrives (x : ℕ) : Function.update arrives' last true x = true ↔ arrives' x = true ∨ x = last := by
    by_cases heq : x = last
    · simp [heq]
    · simp [heq]
  have hlastled : (reverse.attach last).Led last := by
    refine ReflTransGen.single ?_
    show last ∈ (reverse.attach last).list reverse.flow.size
    rw [hlist, if_pos (by rw [h.good.flow_eq])]
    exact List.mem_append_right _ (List.mem_singleton_self last)
  refine ⟨h.good.attach hlast, fun v hv => ?_, le_rfl, (harrives _).2 (Or.inl (hmore _ h.exit)), fun x hx => ?_,
    fun u => ?_⟩
  · rcases (harrives v).1 hv with hv | rfl
    · refine Or.inr fun u hu => (harrives u).2 ?_
      rw [hlist] at hu
      have hall := (hclosed v hv).resolve_left List.not_mem_nil
      split_ifs at hu
      · exact (List.mem_append.1 hu).imp (hall u) List.mem_singleton.1
      · exact Or.inl (hall u hu)
    · exact Or.inl (List.mem_singleton_self v)
  · rcases hx with hx | hx
    · rcases (harrives x).1 hx with hx | rfl
      · exact ReflTransGen.mono (fun v u hu => hsub v u hu) _ _ (hled x hx)
      · exact hlastled
    · rw [List.mem_singleton.1 hx]
      exact hlastled
  · rw [List.mem_append, ← h.fake, List.mem_singleton]
    by_cases heq : u = last
    · simp [Reverse.attach, heq]
    · simp [Reverse.attach, heq]

/-- The rounds of `connect` end, and after them the exit leads to every block that control reaches. -/
theorem connectFrom_spec (hlt : ∀ u ∈ post, u < flow.size)
    (hpost : ∀ u ∈ post, ∀ v, flow.Step u v → v ∈ post) {rpo : List ℕ} (hrpo : ∀ u, u ∈ rpo ↔ u ∈ post) {bound : ℕ}
    (hbound : flow.size + 2 ≤ bound) (rounds : ℕ) : ∀ reverse arrives stack stamp round fake,
    reverse.Round flow post arrives stack fake → rpo.countP (fun block => !arrives block) < rounds →
    ∃ reverse' fake', connectFrom rpo bound rounds reverse (arrives, stack) stamp round fake = some (reverse', fake') ∧
      reverse'.Good flow post ∧ (∀ u, reverse'.fake u = true ↔ u ∈ fake') ∧ ∀ u ∈ post, reverse'.Led u := by
  induction rounds with
  | zero => exact fun _ _ _ _ _ _ _ hless => absurd hless (Nat.not_lt_zero _)
  | succ rounds ih =>
    intro reverse arrives stack stamp round fake h hless
    have hbelow (v : ℕ) : ∀ u ∈ reverse.list v, u < flow.size := fun u hu => h.good.lt hlt hu
    have hroom : left flow.size arrives stack ≤ bound := by
      have hle := left_le flow.size arrives stack
      have hshort := h.short
      omega
    obtain ⟨arrives', hspread, hclosed, hmore, honly⟩ := spread_spec hbelow bound arrives stack hroom h.closed
    have hled := honly reverse.Led (fun x hx => h.led x (Or.inl hx)) (fun x hx => h.led x (Or.inr hx))
      fun v hv u hu => hv.tail hu
    rw [connectFrom, hspread]
    dsimp only [Option.bind_eq_bind, Option.bind_some]
    cases hfind : rpo.find? fun block => !arrives' block with
    | none =>
      refine ⟨reverse, fake, rfl, h.good, h.fake, fun u hu => hled u ?_⟩
      simpa using List.find?_eq_none.1 hfind u ((hrpo u).2 hu)
    | some stranded =>
      have hmem : stranded ∈ rpo := List.mem_of_find?_eq_some hfind
      have hnot : arrives' stranded = false := by simpa using List.find?_some hfind
      have hend := left_le flow.size (fun x => decide (Function.update stamp stranded (some round) x = some round)) []
      rw [List.length_nil] at hend
      obtain ⟨last, stamp', hend, hway⟩ := @farEnd_spec flow round bound stamp stranded (by omega)
      have hlast : last ∈ post := by
        clear hend
        induction hway with
        | refl => exact (hrpo _).1 hmem
        | tail _ hstep ih => exact hpost _ ih _ hstep
      -- what the first block leads to has not been arrived at, as it would lead back to it
      have hnew : arrives' last = false := by
        by_contra hold
        rw [h.good.arrives_back hpost hclosed ((hrpo _).1 hmem) hway (by simpa using hold)] at hnot
        cases hnot
      have hcount : rpo.countP (fun block => !Function.update arrives' last true block) <
          rpo.countP (fun block => !arrives block) := by
        refine countP_lt_of_mem (fun x hx => ?_) ((hrpo last).2 hlast) ?_ (by simp)
        · by_contra hold
          have hold : arrives x = true := by simpa using hold
          by_cases heq : x = last
          · simp [heq] at hx
          · simp [heq, hmore x hold] at hx
        · by_contra hold
          rw [hmore last (by simpa using hold)] at hnew
          cases hnew
      dsimp only
      rw [h.good.flow_eq, hend]
      exact ih (reverse.attach last) (Function.update arrives' last true) [last] stamp' (round + 1) (fake ++ [last])
        (h.attach hclosed hmore hled hlast) (by omega)

/-- After `connect` the exit leads to every block that control reaches. -/
theorem connect_spec (hlt : ∀ u ∈ post, u < flow.size) (hpost : ∀ u ∈ post, ∀ v, flow.Step u v → v ∈ post) :
    ∃ reverse fake enough, (∀ rounds, enough ≤ rounds →
      (new flow post).connect post.reverse rounds = some (reverse, fake)) ∧ reverse.Good flow post ∧
      (∀ u, reverse.fake u = true ↔ u ∈ fake) ∧ ∀ u ∈ post, reverse.Led u := by
  have hexit : (new flow post).exit = flow.size := rfl
  have honly (x : ℕ) : Function.update (fun _ => false) flow.size true x = true ↔ x = flow.size := by
    by_cases heq : x = flow.size
    · simp [heq]
    · simp [heq]
  have hled : (new flow post).Led flow.size := ReflTransGen.refl
  have hfirst : (new flow post).Round flow post (Function.update (fun _ => false) flow.size true) [flow.size] [] := by
    refine ⟨good_new, fun v hv => Or.inl ?_, le_rfl, (honly _).2 rfl, fun x hx => ?_, fun u => by simp [new]⟩
    · rw [(honly v).1 hv]
      exact List.mem_singleton_self _
    · rw [honly, List.mem_singleton, or_self] at hx
      rw [hx]
      exact hled
  have hcount : post.reverse.countP (fun block => !Function.update (fun _ => false) flow.size true block) <
      flow.size + post.length + 2 := by
    refine List.countP_le_length.trans_lt ?_
    rw [List.length_reverse]
    omega
  obtain ⟨reverse, fake, hconnect, hspec⟩ := connectFrom_spec hlt hpost (fun u => List.mem_reverse)
    (show flow.size + 2 ≤ flow.size + post.length + 2 by omega) _ _ _ _ (fun _ => none) 0 [] hfirst hcount
  refine ⟨reverse, fake, flow.size + post.length + 2, fun rounds hle => ?_, hspec⟩
  rw [connect, hexit]
  exact connectFrom_mono hle hle hconnect

/-- The graph turned around can be asked about. -/
theorem Good.graph (h : reverse.Good flow post) (hlt : ∀ u ∈ post, u < flow.size) : reverse.graph.Ok := by
  have hexit : reverse.exit = flow.size := by rw [Reverse.exit, h.flow_eq]
  have hnodes : reverse.graph.nodes = flow.size + 1 := by rw [Reverse.graph, h.flow_eq]
  have hroot : reverse.graph.root = flow.size := hexit
  refine ⟨by omega, fun v _ w hw => ?_, fun u v hu hv => ?_, fun order horder => nomatch horder⟩
  · have hless := h.lt hlt hw
    omega
  -- every node but the exit that is led to is a block that control reaches
  · have hblock {x : ℕ} (hx : ReflTransGen (fun u v => v ∈ reverse.graph.succs u) reverse.graph.root x) :
        x = flow.size ∨ x ∈ post := by
      rcases ReflTransGen.cases_tail hx with heq | ⟨w, -, hw⟩
      · exact Or.inl (heq.trans hroot)
      · have hw : x ∈ reverse.list w := hw
        by_cases heq : w = flow.size
        · rw [heq] at hw
          exact Or.inr ((h.ends x).1 hw).1
        · exact Or.inr ((h.list w heq x).1 hw).1
    show u ∈ _ ++ _ ↔ v ∈ reverse.list u
    rw [hexit, h.flow_eq]
    have hnot (w : ℕ) : flow.size ∉ flow.successors w := fun hmem => absurd (flow.step_lt hmem) (lt_irrefl _)
    rcases hblock hv with rfl | hv
    · have hout : flow.size ∉ reverse.list u := fun hmem => absurd (h.lt hlt hmem) (lt_irrefl _)
      simp [hout]
    · have hne : v ≠ flow.size := (hlt v hv).ne
      rw [if_neg hne, List.mem_append]
      by_cases heq : u = flow.size
      · subst heq
        rw [h.ends]
        simp [hnot v, hne, hv]
      · rw [h.list u heq]
        have hoff : u ∉ if v ≠ flow.size ∧ (flow.successors v = [] ∨ reverse.fake v = true) then [flow.size]
            else [] := by
          split_ifs <;> simp [heq]
        rw [or_iff_left hoff]
        exact (and_iff_right hv).symm

end

end Reverse

/-- The post-dominators of every function are found: every block that control reaches has a way to the exit, and the
tree is right about the ways through the graph turned around. -/
theorem PostDominators.new_spec {flow : Flow} : ∃ post height enough,
    (∀ entry, flow.entry = some entry → post.exit = flow.size ∧ post.tree.Climbs flow.size
      (fun u v => Reached flow.entry flow.Step v ∧ flow.Leaves post.fake v u) height enough) ∧
    ∀ rounds, enough ≤ rounds → PostDominators.new rounds flow = some post ∧
    (∀ b, Reached flow.entry flow.Step b → ∃ path, IsPath (some b) (flow.Leaves post.fake) path flow.size) ∧
    post.tree.Lawful rounds (flow.entry.map fun _ => flow.size) fun u v =>
      Reached flow.entry flow.Step v ∧ flow.Leaves post.fake v u := by
  cases hentry : flow.entry with
  | none =>
    refine ⟨⟨.empty, 0, []⟩, fun _ => 0, 0, fun _ heq => (nomatch heq),
      fun rounds _ => ⟨by rw [new, hentry], fun b hb => ?_, Tree.empty_lawful rounds _⟩⟩
    obtain ⟨path, hfirst, hlast, -⟩ := hb
    rw [List.head?_eq_none_iff.1 hfirst] at hlast
    cases hlast
  | some entry =>
    obtain ⟨post, hpost, hordered⟩ := Flow.postorder_spec hentry
    have hreached (x : ℕ) : Reached (some entry) flow.Step x ↔ x ∈ post := by
      rw [reached_iff, ← List.mem_reverse, hordered.mem_iff]
      rfl
    have hlt (u : ℕ) (hu : u ∈ post) : u < flow.size := hordered.lt u (List.mem_reverse.2 hu)
    have hclosed (u : ℕ) (hu : u ∈ post) (v : ℕ) (hstep : flow.Step u v) : v ∈ post :=
      List.mem_reverse.1 (hordered.closed u (List.mem_reverse.2 hu) v hstep)
    obtain ⟨reverse, fake, enough, hconnect, hgood, hfake, hled⟩ := Reverse.connect_spec hlt hclosed
    obtain ⟨t, height, enough', hclimbs, hspec⟩ := Tree.new_spec (hgood.graph hlt)
    have hexit : reverse.exit = flow.size := by rw [Reverse.exit, hgood.flow_eq]
    have hroot : reverse.graph.root = flow.size := hexit
    -- an edge of the graph turned around is one of the graph, or one to the exit
    have hstep (u v : ℕ) : v ∈ reverse.graph.succs u ↔ Reached (some entry) flow.Step v ∧ flow.Leaves fake v u := by
      rw [hreached, Flow.Leaves, show reverse.graph.succs u = reverse.list u from rfl]
      by_cases heq : u = flow.size
      · subst heq
        have hnot : ¬ flow.Step v flow.size := fun hmem => absurd (flow.step_lt hmem) (lt_irrefl _)
        rw [hgood.ends, hfake]
        simp [hnot]
      · rw [hgood.list u heq]
        simp [heq]
    refine ⟨⟨t, flow.size, fake⟩, height, max enough enough', fun _ _ => ⟨rfl, ?_⟩, fun rounds hle => ?_⟩
    · rw [hroot] at hclimbs
      simp only [hstep] at hclimbs
      exact ⟨hclimbs.rooted, hclimbs.reached, hclimbs.lower, hclimbs.chain, fun x =>
        lt_max_of_lt_right (hclimbs.bounded x)⟩
    obtain ⟨hnew, hlawful⟩ := hspec rounds (by omega)
    refine ⟨?_, fun b hb => ?_, ?_⟩
    · rw [new, hentry, hpost]
      dsimp only [Option.bind_eq_bind, Option.bind_some]
      rw [hconnect rounds (by omega)]
      dsimp only [Option.bind_some]
      rw [hnew, Option.bind_some, if_pos, hexit]
      · rfl
      · refine List.all_eq_true.2 fun b hb => (hclimbs.reached b).2 (reached_iff.2 ?_)
        have hway := hled b hb
        rw [Reverse.Led, hgood.flow_eq] at hway
        rw [hroot]
        exact hway
    · have hway := hled b ((hreached b).1 hb)
      rw [Reverse.Led, hgood.flow_eq] at hway
      refine reached_iff.2 (reflTransGen_swap.1 (ReflTransGen.mono (fun u v hv => ?_) _ _ hway))
      exact ((hstep u v).1 hv).2
    · rw [hroot] at hlawful
      simp only [hstep] at hlawful
      exact hlawful

/-- Of every function, with whatever loops and unreachable blocks, the dominators and the post-dominators are found, and
they are what the ways from the entry and the ways to the exit are like. -/
theorem dominance_lawful (flow : Flow) : ∃ enough, ∀ rounds, enough ≤ rounds →
    (∃ doms, Dominators.new rounds flow = some doms ∧ doms.tree.Lawful rounds flow.entry flow.Step) ∧
    ∃ post, PostDominators.new rounds flow = some post ∧
      (∀ b, Reached flow.entry flow.Step b → ∃ path, IsPath (some b) (flow.Leaves post.fake) path flow.size) ∧
      post.tree.Lawful rounds (flow.entry.map fun _ => flow.size) fun u v =>
        Reached flow.entry flow.Step v ∧ flow.Leaves post.fake v u := by
  obtain ⟨doms, -, enough, -, hdoms⟩ := @Dominators.new_spec flow
  obtain ⟨post, -, enough', -, hpost⟩ := @PostDominators.new_spec flow
  exact ⟨max enough enough', fun rounds hle =>
    ⟨⟨doms, hdoms rounds (by omega)⟩, post, hpost rounds (by omega)⟩⟩

end Rucc.Opt.Dom
