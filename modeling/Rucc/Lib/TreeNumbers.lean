import Mathlib.Data.List.Basic
import Mathlib.Logic.Function.Basic
import Mathlib.Logic.Relation
import Mathlib.Tactic

/-!
# Numbering a tree

A walk of a tree with a stack of its own numbers each node when it comes to it, and notes the next number when it leaves
it. A node is below another one exactly when its number is between the two of the other one, so that two comparisons
take the place of a way up the tree.
-/

namespace Rucc.TreeNumbers

open Relation

variable {kids : ℕ → List ℕ} {c x first last : ℕ} {children : List ℕ} {nodes nodes' : ℕ → Prop} {enter leave : ℕ → ℕ}

/-- A walk under way: the nodes it is at with how many children of each it has come to (the last one first), the next
number, and the numbers each node was given. -/
structure Walk where
  stack : List (ℕ × ℕ)
  time : ℕ
  enter : ℕ → ℕ
  leave : ℕ → ℕ

/-- The next child of the node the walk is at, or its end. -/
def Walk.step (kids : ℕ → List ℕ) (s : Walk) (v i : ℕ) (rest : List (ℕ × ℕ)) : Walk :=
  match (kids v)[i]? with
  | some child =>
    { s with stack := (child, 0) :: (v, i + 1) :: rest, time := s.time + 1
             enter := Function.update s.enter child s.time }
  | none => { s with stack := rest, leave := Function.update s.leave v s.time }

/-- Steps until the walk is nowhere. -/
def Walk.run (kids : ℕ → List ℕ) : ℕ → Walk → Option Walk
  | 0, s => if s.stack = [] then some s else none
  | rounds + 1, s =>
    match s.stack with
    | [] => some s
    | (v, i) :: rest => run kids rounds (s.step kids v i rest)

/-- A node, and the ones below it. -/
def Below (kids : ℕ → List ℕ) : ℕ → ℕ → Prop := ReflTransGen fun p c => c ∈ kids p

/-- A tree: a node is a child of one node only, and once, and further from the root than that one by some measure that
is bounded. -/
structure IsTree (kids : ℕ → List ℕ) (depth : ℕ → ℕ) (n : ℕ) : Prop where
  nodup : ∀ v, (kids v).Nodup
  parent : ∀ v w c, c ∈ kids v → c ∈ kids w → v = w
  deeper : ∀ v c, c ∈ kids v → depth v < depth c
  bound : ∀ v c, c ∈ kids v → depth c < n

section

variable {kids : ℕ → List ℕ} {depth : ℕ → ℕ} {n : ℕ} (h : IsTree kids depth n)

include h

theorem IsTree.below_le {v x : ℕ} (hx : Below kids v x) : depth v ≤ depth x := by
  induction hx with
  | refl => exact le_rfl
  | tail _ hc ih => exact ih.trans (h.deeper _ _ hc).le

/-- A node that is below a child is below another one only where one child is the other. -/
theorem IsTree.below_unique {v c c' x : ℕ} (hc : c ∈ kids v) (hc' : c' ∈ kids v) (hx : Below kids c x)
    (hx' : Below kids c' x) : c = c' := by
  have hlinear : Below kids c c' ∨ Below kids c' c := by
    clear hc hc'
    induction hx generalizing c' with
    | refl => exact Or.inr hx'
    | @tail y z hy hz ih =>
      obtain heq | ⟨y', hy', hz'⟩ := ReflTransGen.cases_tail hx'
      · exact Or.inl (heq ▸ hy.tail hz)
      · exact ih (h.parent _ _ _ hz hz' ▸ hy')
  have hnot {a b : ℕ} (ha : a ∈ kids v) (hb : b ∈ kids v) (hab : Below kids a b) : a = b := by
    obtain heq | ⟨p, hp, hbp⟩ := ReflTransGen.cases_tail hab
    · exact heq.symm
    · -- the parent of the lower one is the node itself, which is above the upper one
      have hle := h.below_le hp
      rw [h.parent _ _ _ hbp hb] at hle
      exact absurd (h.deeper _ _ ha) (not_lt.2 hle)
  exact hlinear.elim (hnot hc hc') fun hab => (hnot hc' hc hab).symm

/-- No node is below one of its children. -/
theorem IsTree.not_below {v c : ℕ} (hc : c ∈ kids v) : ¬ Below kids c v :=
  fun hbelow => absurd (h.below_le hbelow) (not_le.2 (h.deeper _ _ hc))

end

/-! ## Steps -/

/-- A walk comes to be another one in some steps. -/
def Leads (kids : ℕ → List ℕ) (s s' : Walk) : Prop :=
  ∃ steps, ∀ rounds, s.run kids (steps + rounds) = s'.run kids rounds

section

variable {kids : ℕ → List ℕ} {s s' s'' : Walk}

theorem Leads.refl (s : Walk) : Leads kids s s := ⟨0, fun rounds => by rw [Nat.zero_add]⟩

theorem Leads.trans (h : Leads kids s s') (h' : Leads kids s' s'') : Leads kids s s'' := by
  obtain ⟨steps, hsteps⟩ := h
  obtain ⟨steps', hsteps'⟩ := h'
  exact ⟨steps + steps', fun rounds => by rw [Nat.add_assoc, hsteps, hsteps']⟩

theorem Leads.step {v i : ℕ} {rest : List (ℕ × ℕ)} (hstack : s.stack = (v, i) :: rest) :
    Leads kids s (s.step kids v i rest) := by
  refine ⟨1, fun rounds => ?_⟩
  rw [Nat.add_comm, Walk.run, hstack]

/-- A walk that comes to be nowhere ends there, however many rounds there are past that. -/
theorem Leads.run (h : Leads kids s s') (hend : s'.stack = []) :
    ∃ steps, ∀ rounds, steps ≤ rounds → s.run kids rounds = some s' := by
  obtain ⟨steps, hsteps⟩ := h
  refine ⟨steps, fun rounds hle => ?_⟩
  obtain ⟨more, rfl⟩ := Nat.exists_eq_add_of_le hle
  rw [hsteps]
  cases more with
  | zero => rw [Walk.run, if_pos hend]
  | succ more => rw [Walk.run, hend]

end

/-! ## The numbers -/

/-- The numbers of some nodes lie in a stretch, and say which of them are below which. -/
structure Numbered (kids : ℕ → List ℕ) (nodes : ℕ → Prop) (first last : ℕ) (enter leave : ℕ → ℕ) : Prop where
  le : first ≤ last
  inside : ∀ x, nodes x → first ≤ enter x ∧ enter x < leave x ∧ leave x ≤ last
  nested : ∀ x y, nodes x → nodes y → (enter x ≤ enter y ∧ enter y < leave x ↔ Below kids x y)

/-- The nodes that are one of some children or below it. -/
def Under (kids : ℕ → List ℕ) (children : List ℕ) (x : ℕ) : Prop := ∃ c ∈ children, Below kids c x

/-- What a walk of some children leaves: the number it goes on with, and the numbers of the nodes under them. -/
structure Walked (kids : ℕ → List ℕ) (children : List ℕ) (s s' : Walk) : Prop where
  numbered : Numbered kids (Under kids children) s.time s'.time s'.enter s'.leave
  enter : ∀ x, ¬ Under kids children x → s'.enter x = s.enter x
  leave : ∀ x, ¬ Under kids children x → s'.leave x = s.leave x

theorem under_singleton : Under kids [c] x ↔ x = c ∨ Under kids (kids c) x := by
  simp only [Under, List.mem_singleton, exists_eq_left]
  rw [Below, ReflTransGen.cases_head_iff, eq_comm]

theorem under_cons : Under kids (c :: children) x ↔ Under kids [c] x ∨ Under kids children x := by
  simp only [Under, List.exists_mem_cons_iff, List.mem_singleton, exists_eq_left]

theorem Under.below {y : ℕ} (hx : Under kids children x) (hy : Below kids x y) : Under kids children y := by
  obtain ⟨c, hc, hbelow⟩ := hx
  exact ⟨c, hc, hbelow.trans hy⟩

/-- The numbers of two kinds of nodes in two stretches that follow one another, where no node of one kind is below one
of the other. -/
theorem Numbered.append {middle : ℕ}
    (h : Numbered kids nodes first middle enter leave) (h' : Numbered kids nodes' middle last enter leave)
    (hapart : ∀ x y, nodes x → nodes' y → ¬ Below kids x y ∧ ¬ Below kids y x) :
    Numbered kids (fun x => nodes x ∨ nodes' x) first last enter leave := by
  have hle := h.le
  have hle' := h'.le
  refine ⟨hle.trans hle', fun x hx => ?_, fun x y hx hy => ?_⟩
  · rcases hx with hx | hx
    · have hin := h.inside x hx
      omega
    · have hin := h'.inside x hx
      omega
  · rcases hx with hx | hx <;> rcases hy with hy | hy
    · exact h.nested x y hx hy
    · have hinx := h.inside x hx
      have hiny := h'.inside y hy
      exact iff_of_false (by omega) (hapart x y hx hy).1
    · have hinx := h'.inside x hx
      have hiny := h.inside y hy
      exact iff_of_false (by omega) (hapart y x hy hx).2
    · exact h'.nested x y hx hy

/-- Numbers that are the same number the same nodes. -/
theorem Numbered.congr
    {enter' leave' : ℕ → ℕ} (h : Numbered kids nodes first last enter leave) (hnodes : ∀ x, nodes' x → nodes x)
    (henter : ∀ x, nodes' x → enter' x = enter x) (hleave : ∀ x, nodes' x → leave' x = leave x) :
    Numbered kids nodes' first last enter' leave' := by
  refine ⟨h.le, fun x hx => ?_, fun x y hx hy => ?_⟩
  · rw [henter x hx, hleave x hx]
    exact h.inside x (hnodes x hx)
  · rw [henter x hx, hleave x hx, henter y hy]
    exact h.nested x y (hnodes x hx) (hnodes y hy)

section

variable {kids : ℕ → List ℕ} {depth : ℕ → ℕ} {n : ℕ} (h : IsTree kids depth n)

variable {c v : ℕ} {rest : List (ℕ × ℕ)}

include h

/-- The numbers of a node and the ones below it, when the ones below it have theirs and its own enclose them. -/
theorem IsTree.numbered_node {first last : ℕ} {enter leave : ℕ → ℕ}
    (hbelow : Numbered kids (Under kids (kids c)) (first + 1) last enter leave) (henter : enter c = first)
    (hleave : leave c = last) : Numbered kids (Under kids [c]) first last enter leave := by
  have hle := hbelow.le
  refine ⟨by omega, fun x hx => ?_, fun x y hx hy => ?_⟩
  · rcases under_singleton.1 hx with rfl | hx
    · omega
    · have hin := hbelow.inside x hx
      omega
  · rcases under_singleton.1 hx with rfl | hx' <;> rcases under_singleton.1 hy with rfl | hy'
    · exact iff_of_true (by omega) .refl
    · obtain ⟨d, hd, hdy⟩ := hy'
      have hin := hbelow.inside y ⟨d, hd, hdy⟩
      exact iff_of_true (by omega) (hdy.head hd)
    · have hin := hbelow.inside x hx'
      refine iff_of_false (by omega) fun hxy => ?_
      obtain ⟨d, hd, hdx⟩ := hx'
      exact h.not_below hd (hdx.trans hxy)
    · exact hbelow.nested x y hx' hy'

/-- The walk of a child and what is below it, when what is below it is walked. -/
theorem IsTree.walk_child {i : ℕ} (hc : (kids v)[i]? = some c)
    (hbelow : ∀ s : Walk, s.stack = (c, 0) :: (v, i + 1) :: rest →
      ∃ s', s'.stack = (c, (kids c).length) :: (v, i + 1) :: rest ∧ Leads kids s s' ∧ Walked kids (kids c) s s')
    (s : Walk) (hstack : s.stack = (v, i) :: rest) :
    ∃ s', s'.stack = (v, i + 1) :: rest ∧ Leads kids s s' ∧ Walked kids [c] s s' := by
  have hfirst : s.step kids v i rest =
      { s with stack := (c, 0) :: (v, i + 1) :: rest, time := s.time + 1
               enter := Function.update s.enter c s.time } := by
    rw [Walk.step, hc]
  obtain ⟨s', hstack', hleads, hwalked⟩ := hbelow (s.step kids v i rest) (by rw [hfirst])
  rw [hfirst] at hwalked
  have hlast : s'.step kids c (kids c).length ((v, i + 1) :: rest) =
      { s' with stack := (v, i + 1) :: rest, leave := Function.update s'.leave c s'.time } := by
    rw [Walk.step, List.getElem?_eq_none le_rfl]
  have hnot : ¬ Under kids (kids c) c := fun ⟨d, hd, hbelow⟩ => h.not_below hd hbelow
  refine ⟨s'.step kids c (kids c).length ((v, i + 1) :: rest), by rw [hlast],
    (Leads.step hstack).trans (hleads.trans (Leads.step hstack')), ?_⟩
  rw [hlast]
  refine ⟨h.numbered_node (hwalked.numbered.congr (fun x hx => hx) (fun x _ => rfl) fun x hx => ?_) ?_ ?_, ?_, ?_⟩
  · exact Function.update_of_ne (fun heq : x = c => hnot (heq ▸ hx)) _ _
  · exact (hwalked.enter c hnot).trans (Function.update_self c _ _)
  · exact Function.update_self c _ _
  · intro x hx
    obtain ⟨hne, hunder⟩ := not_or.1 (mt under_singleton.2 hx)
    exact (hwalked.enter x hunder).trans (Function.update_of_ne hne _ _)
  · intro x hx
    obtain ⟨hne, hunder⟩ := not_or.1 (mt under_singleton.2 hx)
    exact (Function.update_of_ne hne _ _).trans (hwalked.leave x hunder)

/-- The walk of a child and then of the ones after it. -/
theorem IsTree.walked_cons {children : List ℕ} {s s' s'' : Walk} (hc : c ∈ kids v)
    (hchildren : ∀ d ∈ children, d ∈ kids v) (hnot : c ∉ children) (hfirst : Walked kids [c] s s')
    (hrest : Walked kids children s' s'') : Walked kids (c :: children) s s'' := by
  have happart {x : ℕ} (hx : Under kids [c] x) (hx' : Under kids children x) : False := by
    obtain ⟨c', hc', hbelow⟩ := hx
    obtain rfl := List.mem_singleton.1 hc'
    obtain ⟨d, hd, hbelow'⟩ := hx'
    exact hnot (h.below_unique hc (hchildren d hd) hbelow hbelow' ▸ hd)
  have hkept {x : ℕ} (hx : Under kids [c] x) : ¬ Under kids children x := fun hx' => happart hx hx'
  refine ⟨?_, fun x hx => ?_, fun x hx => ?_⟩
  · have hfirst' := hfirst.numbered.congr (fun x hx => hx) (fun x hx => hrest.enter x (hkept hx))
      fun x hx => hrest.leave x (hkept hx)
    have hboth := hfirst'.append hrest.numbered fun x y hx hy =>
      ⟨fun hxy => happart (hx.below hxy) hy, fun hyx => happart hx (hy.below hyx)⟩
    exact hboth.congr (fun x hx => under_cons.1 hx) (fun x _ => rfl) fun x _ => rfl
  · obtain ⟨hx, hx'⟩ := not_or.1 (mt under_cons.2 hx)
    rw [hrest.enter x hx', hfirst.enter x hx]
  · obtain ⟨hx, hx'⟩ := not_or.1 (mt under_cons.2 hx)
    rw [hrest.leave x hx', hfirst.leave x hx]

/-- The walk of the children of a node that are left. -/
theorem IsTree.walk_children (hbelow : ∀ c ∈ kids v, ∀ rest, ∀ s : Walk, s.stack = (c, 0) :: rest →
      ∃ s', s'.stack = (c, (kids c).length) :: rest ∧ Leads kids s s' ∧ Walked kids (kids c) s s')
    (children : List ℕ) : ∀ i, (kids v).drop i = children → ∀ s : Walk, s.stack = (v, i) :: rest →
    ∃ s', s'.stack = (v, i + children.length) :: rest ∧ Leads kids s s' ∧ Walked kids children s s' := by
  induction children with
  | nil =>
    intro i _ s hstack
    have hnone (x : ℕ) : ¬ Under kids [] x := fun ⟨_, hc, _⟩ => List.not_mem_nil hc
    exact ⟨s, hstack, .refl s, ⟨le_rfl, fun x hx => absurd hx (hnone x), fun x _ hx => absurd hx (hnone x)⟩,
      fun _ _ => rfl, fun _ _ => rfl⟩
  | cons c children ih =>
    intro i hdrop s hstack
    have hget : (kids v)[i]? = some c := by
      rw [← Nat.add_zero i, ← List.getElem?_drop, hdrop]
      rfl
    have hc : c ∈ kids v := List.mem_of_getElem? hget
    obtain ⟨s', hstack', hleads, hwalked⟩ := h.walk_child hget (hbelow c hc _) s hstack
    have hdrop' : (kids v).drop (i + 1) = children := by
      rw [← List.drop_drop, hdrop]
      rfl
    obtain ⟨s'', hstack'', hleads', hwalked'⟩ := ih (i + 1) hdrop' s' hstack'
    have hnodup : (c :: children).Nodup := hdrop ▸ (h.nodup v).sublist (List.drop_sublist i _)
    refine ⟨s'', ?_, hleads.trans hleads', h.walked_cons hc (fun d hd => ?_) (List.nodup_cons.1 hnodup).1 hwalked
      hwalked'⟩
    · rw [hstack'', List.length_cons, Nat.add_right_comm, Nat.add_assoc]
    · exact List.mem_of_mem_drop (hdrop' ▸ hd)

/-- The walk of everything below a node. -/
theorem IsTree.walk (v : ℕ) : ∀ rest, ∀ s : Walk, s.stack = (v, 0) :: rest →
    ∃ s', s'.stack = (v, (kids v).length) :: rest ∧ Leads kids s s' ∧ Walked kids (kids v) s s' := by
  -- a child is nearer to the bound on the depths
  induction hleft : n - depth v using Nat.strong_induction_on generalizing v with
  | _ left ih =>
    intro rest s hstack
    have hbelow (c : ℕ) (hc : c ∈ kids v) := by
      have hdeeper := h.deeper v c hc
      have hbound := h.bound v c hc
      exact ih (n - depth c) (by omega) c rfl
    simpa using h.walk_children hbelow (kids v) 0 rfl s hstack

/-- The walk from the root, which has its first number already: it ends, and the numbers say which of the nodes below
the root are below which. -/
theorem IsTree.run_root {root : ℕ} {s : Walk} (hstack : s.stack = [(root, 0)]) (htime : s.time = s.enter root + 1) :
    ∃ s' steps, (∀ rounds, steps ≤ rounds → s.run kids rounds = some s') ∧
      Numbered kids (Below kids root) (s.enter root) s'.time s'.enter s'.leave := by
  obtain ⟨s', hstack', hleads, hwalked⟩ := h.walk root [] s hstack
  have hlast : s'.step kids root (kids root).length [] =
      { s' with stack := [], leave := Function.update s'.leave root s'.time } := by
    rw [Walk.step, List.getElem?_eq_none le_rfl]
  have hnot : ¬ Under kids (kids root) root := fun ⟨d, hd, hbelow⟩ => h.not_below hd hbelow
  obtain ⟨steps, hsteps⟩ := (hleads.trans (Leads.step hstack')).run (by rw [hlast])
  refine ⟨_, steps, hsteps, ?_⟩
  rw [hlast]
  have hbelow := hwalked.numbered
  rw [htime] at hbelow
  have hnode := h.numbered_node (hbelow.congr (fun x hx => hx) (fun x _ => rfl) fun x hx =>
    Function.update_of_ne (fun heq : x = root => hnot (heq ▸ hx)) s'.time s'.leave)
    (hwalked.enter root hnot) (Function.update_self root s'.time s'.leave)
  exact hnode.congr (fun x hx => ⟨root, List.mem_singleton_self root, hx⟩) (fun x _ => rfl) fun x _ => rfl

end

end Rucc.TreeNumbers
