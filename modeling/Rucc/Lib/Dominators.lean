import Mathlib.Algebra.BigOperators.Group.Finset.Basic
import Mathlib.Algebra.Order.BigOperators.Group.Finset
import Mathlib.Data.List.Basic
import Mathlib.Logic.Function.Basic
import Mathlib.Logic.Relation
import Mathlib.Tactic

/-!
# Dominators in a reverse postorder

The method of going round the nodes until nothing changes, over positions of which zero is the start
and every other one has an edge from a smaller one. A node's entry moves towards the start only,
so the rounds come to an end, and what dominates a node stays among the entries that its own leads
to.
-/

namespace Rucc.Dominators

open Relation

/-- Where the ways from two nodes to the start meet. -/
def intersect (idom : ℕ → Option ℕ) : ℕ → ℕ → ℕ → Option ℕ
  | 0, a, b => if a = b then some a else none
  | rounds + 1, a, b =>
    if a = b then some a
    else if b < a then (idom a).bind fun a => intersect idom rounds a b
    else (idom b).bind fun b => intersect idom rounds a b

/-- Where the ways from one more node and the ones before it meet, among the nodes with an entry. -/
def meet (idom : ℕ → Option ℕ) (new : Option ℕ) (p : ℕ) : Option (Option ℕ) :=
  match idom p with
  | none => some new
  | some _ =>
    match new with
    | none => some (some p)
    | some q => (intersect idom (p + q) p q).map some

/-- One node of a round. -/
def visit (preds : ℕ → List ℕ) (s : (ℕ → Option ℕ) × Bool) (b : ℕ) :
    Option ((ℕ → Option ℕ) × Bool) :=
  ((preds b).foldlM (meet s.1) none).map fun new =>
    if new = s.1 b then s else (Function.update s.1 b new, true)

/-- A round over the nodes but the start, and whether it changed anything. -/
def round (n : ℕ) (preds : ℕ → List ℕ) (idom : ℕ → Option ℕ) : Option ((ℕ → Option ℕ) × Bool) :=
  (List.range' 1 (n - 1)).foldlM (visit preds) (idom, false)

/-- Rounds until nothing changes. -/
def settle (n : ℕ) (preds : ℕ → List ℕ) : ℕ → (ℕ → Option ℕ) → Option (ℕ → Option ℕ)
  | 0, _ => none
  | rounds + 1, idom =>
    (round n preds idom).bind fun s => if s.2 then settle n preds rounds s.1 else some s.1

/-- The immediate dominator of each node. -/
def idoms (n : ℕ) (preds : ℕ → List ℕ) : Option (ℕ → Option ℕ) :=
  settle n preds (n * n + 2) (Function.update (fun _ => none) 0 (some 0))

/-- Whether a node is on the way from another one to the start. -/
def dominates (idom : ℕ → Option ℕ) (a : ℕ) : ℕ → ℕ → Option Bool
  | 0, b => if b = a then some true else if b = 0 then some false else none
  | rounds + 1, b =>
    if b = a then some true
    else if b = 0 then some false
    else (idom b).bind (dominates idom a rounds)

/-! ## Ways to the start -/

/-- A node and its entry. -/
def Up (idom : ℕ → Option ℕ) (x p : ℕ) : Prop := 0 < x ∧ idom x = some p

/-- A node on the way from another one to the start. -/
def Chain (idom : ℕ → Option ℕ) : ℕ → ℕ → Prop := ReflTransGen (Up idom)

/-- Every entry is smaller than its node, and the nodes below a bound are the ones with one. -/
structure Rooted (idom : ℕ → Option ℕ) (m : ℕ) : Prop where
  zero : idom 0 = some 0
  pos : 0 < m
  below : ∀ x, 0 < x → x < m → ∃ p, idom x = some p ∧ p < x
  above : ∀ x, m ≤ x → idom x = none

section

variable {idom : ℕ → Option ℕ} {m : ℕ}

variable {x z : ℕ}

theorem Rooted.up_lt (h : Rooted idom m) {p : ℕ} (hup : Up idom x p) : p < x := by
  have hx : x < m := by
    by_contra hge
    have := h.above x (by omega)
    rw [hup.2] at this
    exact absurd this (Option.some_ne_none p)
  obtain ⟨q, hq, hlt⟩ := h.below x hup.1 hx
  have := hup.2.symm.trans hq
  rw [Option.some.inj this]
  exact hlt

theorem Rooted.chain_le (h : Rooted idom m) (hchain : Chain idom x z) : z ≤ x := by
  induction hchain with
  | refl => exact le_rfl
  | tail _ hup ih => exact (h.up_lt hup).le.trans ih

theorem Rooted.isSome_iff (h : Rooted idom m) (x : ℕ) : idom x ≠ none ↔ x < m := by
  constructor
  · intro hx
    by_contra hge
    exact hx (h.above x (by omega))
  · intro hx
    rcases Nat.eq_zero_or_pos x with rfl | hpos
    · rw [h.zero]; exact Option.some_ne_none 0
    · obtain ⟨p, hp, -⟩ := h.below x hpos hx
      rw [hp]
      exact Option.some_ne_none p

/-- A way to the start has one next node. -/
theorem chain_cases (hchain : Chain idom x z) : x = z ∨ ∃ p, Up idom x p ∧ Chain idom p z := by
  rcases ReflTransGen.cases_head hchain with heq | ⟨p, hup, hrest⟩
  · exact Or.inl heq
  · exact Or.inr ⟨p, hup, hrest⟩

/-- Two nodes on a way to the start are on one way. -/
theorem Rooted.chain_linear (h : Rooted idom m) {a c : ℕ} (ha : Chain idom x a) (hc : Chain idom x c)
    (hle : a ≤ c) : Chain idom c a := by
  induction hc using ReflTransGen.head_induction_on with
  | refl => exact ha
  | head hup hrest ih =>
    rename_i x p
    rcases chain_cases ha with rfl | ⟨q, hup', hrest'⟩
    · have := h.up_lt hup
      have := h.chain_le hrest
      omega
    · have : p = q := Option.some.inj (hup.2.symm.trans hup'.2)
      rw [← this] at hrest'
      exact ih hrest'

/-- Where two ways meet is on both, and everything that is on both is on the way from there. -/
theorem Rooted.intersect_spec (h : Rooted idom m) (rounds : ℕ) : ∀ a b, a < m → b < m → a + b ≤ rounds →
    ∃ c, intersect idom rounds a b = some c ∧ c < m ∧
      ∀ z, Chain idom c z ↔ Chain idom a z ∧ Chain idom b z := by
  induction rounds with
  | zero =>
    intro a b ha hb hle
    have heq : a = b := by omega
    subst heq
    exact ⟨a, by rw [intersect, if_pos rfl], ha, fun z => (and_self_iff).symm⟩
  | succ rounds ih =>
    intro a b ha hb hle
    rw [intersect]
    by_cases heq : a = b
    · subst heq
      exact ⟨a, by rw [if_pos rfl], ha, fun z => (and_self_iff).symm⟩
    rw [if_neg heq]
    -- the greater of the two is on no way from the smaller one
    have hskip : ∀ x y p, Up idom x p → y < x → ∀ z, Chain idom x z ∧ Chain idom y z ↔
        Chain idom p z ∧ Chain idom y z := by
      intro x y p hup hlt z
      constructor
      · rintro ⟨hx, hy⟩
        refine ⟨?_, hy⟩
        rcases chain_cases hx with rfl | ⟨q, hup', hrest⟩
        · have := h.chain_le hy
          omega
        · rw [Option.some.inj (hup.2.symm.trans hup'.2)]
          exact hrest
      · rintro ⟨hp, hy⟩
        exact ⟨ReflTransGen.head hup hp, hy⟩
    by_cases hlt : b < a
    · obtain ⟨p, hp, hpa⟩ := h.below a (by omega) ha
      obtain ⟨c, hc, hcm, hmeet⟩ := ih p b (by omega) hb (by omega)
      refine ⟨c, by rw [if_pos hlt, hp]; exact hc, hcm, fun z => ?_⟩
      rw [hmeet, hskip a b p ⟨by omega, hp⟩ hlt]
    · obtain ⟨p, hp, hpb⟩ := h.below b (by omega) hb
      obtain ⟨c, hc, hcm, hmeet⟩ := ih a p ha (by omega) (by omega)
      refine ⟨c, by rw [if_neg hlt, hp]; exact hc, hcm, fun z => ?_⟩
      rw [hmeet, and_comm, ← hskip b a p ⟨by omega, hp⟩ (by omega), and_comm]

/-- Where the ways from the nodes of a list that have an entry meet. -/
theorem Rooted.meet_spec (h : Rooted idom m) (ps : List ℕ) : ∀ new : Option ℕ, (∀ q ∈ new, q < m) →
    ∃ new', ps.foldlM (meet idom) new = some new' ∧ (∀ q ∈ new', q < m) ∧
      ((new ≠ none ∨ ∃ p ∈ ps, p < m) → ∃ c, new' = some c ∧
        ∀ z, Chain idom c z ↔ (∀ q ∈ new, Chain idom q z) ∧ ∀ p ∈ ps, p < m → Chain idom p z) := by
  induction ps with
  | nil =>
    intro new hnew
    refine ⟨new, rfl, hnew, fun hsome => ?_⟩
    have hne := hsome.resolve_right fun ⟨p, hp, _⟩ => List.not_mem_nil hp
    obtain ⟨c, hc⟩ := Option.ne_none_iff_exists'.mp hne
    refine ⟨c, hc, fun z => ?_⟩
    rw [hc]
    simp
  | cons p ps ih =>
    intro new hnew
    rw [List.foldlM_cons]
    by_cases hp : p < m
    · obtain ⟨d, hd⟩ := Option.ne_none_iff_exists'.mp ((h.isSome_iff p).mpr hp)
      -- the node joins what the ones before it meet at
      have hjoin : ∃ c, meet idom new p = some (some c) ∧ c < m ∧
          ∀ z, Chain idom c z ↔ (∀ q ∈ new, Chain idom q z) ∧ Chain idom p z := by
        unfold meet
        rw [hd]
        cases new with
        | none => exact ⟨p, rfl, hp, fun z => by simp⟩
        | some q =>
          obtain ⟨c, hc, hcm, hmeet⟩ := h.intersect_spec (p + q) p q hp (hnew q rfl) le_rfl
          refine ⟨c, by dsimp only; rw [hc]; rfl, hcm, fun z => ?_⟩
          rw [hmeet, and_comm]
          simp
      obtain ⟨c, hc, hcm, hmeet⟩ := hjoin
      obtain ⟨new', hfold, hlt, hspec⟩ := ih (some c) fun q hq => by rw [← Option.some.inj hq]; exact hcm
      refine ⟨new', by rw [hc]; exact hfold, hlt, fun _ => ?_⟩
      obtain ⟨c', hc', hmeet'⟩ := hspec (Or.inl (Option.some_ne_none c))
      refine ⟨c', hc', fun z => ?_⟩
      rw [hmeet']
      have := hmeet z
      simp only [List.mem_cons, forall_eq_or_imp, Option.mem_def, Option.some.injEq, forall_eq'] at this ⊢
      tauto
    · have hd : idom p = none := h.above p (by omega)
      have hskip : meet idom new p = some new := by unfold meet; rw [hd]
      obtain ⟨new', hfold, hlt, hspec⟩ := ih new hnew
      refine ⟨new', by rw [hskip]; exact hfold, hlt, fun hsome => ?_⟩
      have hsome : new ≠ none ∨ ∃ p ∈ ps, p < m := by
        refine hsome.imp_right fun ⟨q, hq, hqm⟩ => ⟨q, ?_, hqm⟩
        exact (List.mem_cons.mp hq).resolve_left fun heq => hp (heq ▸ hqm)
      obtain ⟨c, hc, hmeet⟩ := hspec hsome
      refine ⟨c, hc, fun z => ?_⟩
      rw [hmeet]
      simp only [List.mem_cons, forall_eq_or_imp]
      tauto

end

/-! ## What a round keeps -/

/-- An edge to a greater position. -/
def Forward (preds : ℕ → List ℕ) (u v : ℕ) : Prop := u ∈ preds v ∧ u < v

/-- A way from the start to a node that stays off another one. -/
def Around (preds : ℕ → List ℕ) (a b : ℕ) : Prop :=
  0 ≠ a ∧ ReflTransGen (fun u v => u ∈ preds v ∧ v ≠ a) 0 b

/-- Every way from the start to a node passes another one. -/
def Dominates (preds : ℕ → List ℕ) (a b : ℕ) : Prop := ¬ Around preds a b

/-- What holds within a round that is about to come to a node, when the nodes below a bound have an
entry. -/
structure Good (n : ℕ) (preds : ℕ → List ℕ) (cur m : ℕ) (idom : ℕ → Option ℕ) : Prop where
  rooted : Rooted idom m
  le : m ≤ n
  cur_pos : 0 < cur
  cur_le : cur ≤ m
  /-- A node is on forward edges from its entry. -/
  forward : ∀ x d, Up idom x d → ReflTransGen (Forward preds) d x
  /-- What dominates a node is on its way to the start. -/
  complete : ∀ x < m, ∀ a, Dominates preds a x → Chain idom x a
  /-- What is on the ways from all a node's predecessors is on the way from its entry. -/
  narrow : ∀ x d, Up idom x d → ∀ z, (∀ p ∈ preds x, p < m → Chain idom p z) → Chain idom d z
  /-- The entry of a node that this round has come to, or that is at or after the node it is about to
  come to, is on the ways from the node's smaller predecessors. -/
  shared : ∀ x d, Up idom x d → x < cur ∨ cur ≤ d → ∀ q ∈ preds x, q < x → Chain idom q d

section

variable {n : ℕ} {preds : ℕ → List ℕ} {cur m : ℕ} {idom : ℕ → Option ℕ}

variable {b x z c d : ℕ}

/-- What dominates a node and is not the node dominates what leads to it. -/
theorem dominates_pred {a p : ℕ} (h : Dominates preds a b) (hne : b ≠ a) (hp : p ∈ preds b) : Dominates preds a p :=
  fun ⟨hstart, haround⟩ => h ⟨hstart, haround.tail ⟨hp, hne⟩⟩

/-- What dominates a node and is smaller than one that leads forward to it dominates that one. -/
theorem dominates_forward {a : ℕ} (h : Dominates preds a x) (hlt : a < b)
    (hreach : ReflTransGen (Forward preds) b x) : Dominates preds a b := by
  rintro ⟨hstart, haround⟩
  have hon : b ≤ x ∧ ReflTransGen (fun u v => u ∈ preds v ∧ v ≠ a) 0 x := by
    clear h
    induction hreach with
    | refl => exact ⟨le_rfl, haround⟩
    | tail _ hedge ih =>
      have := hedge.2
      exact ⟨by omega, ih.2.tail ⟨hedge.1, by omega⟩⟩
  exact h ⟨hstart, hon.2⟩

theorem Good.chain_forward (h : Good n preds cur m idom) (hchain : Chain idom x z) :
    ReflTransGen (Forward preds) z x := by
  induction hchain with
  | refl => exact ReflTransGen.refl
  | tail _ hup ih => exact (h.forward _ _ hup).trans ih

/-- Where the ways from a node's predecessors meet: what the code computes for it. -/
theorem Good.meet (h : Good n preds cur m idom) (hparent : ∃ p ∈ preds cur, p < cur) :
    ∃ c, (preds cur).foldlM (Dominators.meet idom) none = some (some c) ∧ c < m ∧
      (∀ z, Chain idom c z ↔ ∀ p ∈ preds cur, p < m → Chain idom p z) ∧ c < cur := by
  obtain ⟨p, hp, hlt⟩ := hparent
  have hpm : p < m := lt_of_lt_of_le hlt h.cur_le
  obtain ⟨new, hfold, hnew, hspec⟩ := h.rooted.meet_spec (preds cur) none
    (fun q hq => absurd hq (Option.not_mem_none q))
  obtain ⟨c, hc, hmeet⟩ := hspec (Or.inr ⟨p, hp, hpm⟩)
  have hmeet : ∀ z, Chain idom c z ↔ ∀ p ∈ preds cur, p < m → Chain idom p z := by
    intro z
    rw [hmeet]
    simp
  have hcp := h.rooted.chain_le ((hmeet c).mp ReflTransGen.refl p hp hpm)
  exact ⟨c, by rw [hfold, hc], hnew c hc, hmeet, by omega⟩

/-- A new entry changes no way that does not pass its node. -/
theorem chain_update_iff {new : Option ℕ} (hnot : ¬ Chain idom x b) :
    Chain (Function.update idom b new) x z ↔ Chain idom x z := by
  constructor
  · intro hchain
    induction hchain using ReflTransGen.head_induction_on with
    | refl => exact ReflTransGen.refl
    | @head x p hup _ ih =>
      have hne : x ≠ b := fun heq => hnot (heq ▸ ReflTransGen.refl)
      have hup : Up idom x p := ⟨hup.1, by rw [← hup.2, Function.update_of_ne hne]⟩
      exact ReflTransGen.head hup (ih fun hp => hnot (ReflTransGen.head hup hp))
  · intro hchain
    induction hchain using ReflTransGen.head_induction_on with
    | refl => exact ReflTransGen.refl
    | @head x p hup _ ih =>
      have hne : x ≠ b := fun heq => hnot (heq ▸ ReflTransGen.refl)
      have hup' : Up (Function.update idom b new) x p := ⟨hup.1, by rw [← hup.2, Function.update_of_ne hne]⟩
      exact ReflTransGen.head hup' (ih fun hp => hnot (ReflTransGen.head hup hp))

/-- A node with a new entry. -/
theorem up_update (hup : Up (Function.update idom b (some c)) x d) : x = b ∧ d = c ∨ x ≠ b ∧ Up idom x d := by
  by_cases heq : x = b
  · have hd := hup.2
    rw [heq, Function.update_self] at hd
    exact Or.inl ⟨heq, (Option.some.inj hd).symm⟩
  · have hd := hup.2
    rw [Function.update_of_ne heq] at hd
    exact Or.inr ⟨heq, hup.1, hd⟩

/-- The first round gives a node its first entry. -/
theorem Good.first (h : Good n preds cur cur idom) (hlt : cur < n)
    (hparent : ∃ p ∈ preds cur, p < cur) (hc : c < cur)
    (hmeet : ∀ z, Chain idom c z ↔ ∀ p ∈ preds cur, p < cur → Chain idom p z) :
    Good n preds (cur + 1) (cur + 1) (Function.update idom cur (some c)) := by
  have hsame : ∀ x, x < cur → ∀ z, Chain (Function.update idom cur (some c)) x z ↔ Chain idom x z := by
    intro x hx z
    refine chain_update_iff fun hchain => ?_
    have := h.rooted.chain_le hchain
    omega
  have hup : Up (Function.update idom cur (some c)) cur c := ⟨h.cur_pos, Function.update_self _ _ _⟩
  have hltcur : ∀ x d, Up idom x d → x < cur := by
    intro x d hup
    refine (h.rooted.isSome_iff x).mp ?_
    rw [hup.2]
    exact Option.some_ne_none d
  constructor
  case rooted =>
    refine ⟨?_, Nat.succ_pos _, fun x hpos hx => ?_, fun x hx => ?_⟩
    · rw [Function.update_of_ne h.cur_pos.ne]
      exact h.rooted.zero
    · by_cases heq : x = cur
      · exact ⟨c, by rw [heq, Function.update_self], by omega⟩
      · rw [Function.update_of_ne heq]
        exact h.rooted.below x hpos (by omega)
    · rw [Function.update_of_ne (by omega)]
      exact h.rooted.above x (by omega)
  case le => exact hlt
  case cur_pos => exact Nat.succ_pos _
  case cur_le => exact le_rfl
  case forward =>
    intro x d hx
    rcases up_update hx with ⟨rfl, rfl⟩ | ⟨-, hx⟩
    · obtain ⟨p, hp, hpx⟩ := hparent
      have hpd := (hmeet d).mp ReflTransGen.refl p hp hpx
      exact (h.chain_forward hpd).tail ⟨hp, hpx⟩
    · exact h.forward x d hx
  case complete =>
    intro x hx a ha
    by_cases heq : x = cur
    · subst heq
      by_cases hax : x = a
      · rw [hax]; exact ReflTransGen.refl
      · refine ReflTransGen.head hup ?_
        refine (hsame c hc a).mpr ((hmeet a).mpr fun p hp hpx => ?_)
        exact h.complete p hpx a (dominates_pred ha hax hp)
    · rw [hsame x (by omega)]
      exact h.complete x (by omega) a ha
  case narrow =>
    intro x d hx z hz
    have hold : ∀ p ∈ preds x, p < cur → Chain idom p z := fun p hp hpm =>
      (hsame p hpm z).mp (hz p hp (by omega))
    rcases up_update hx with ⟨rfl, rfl⟩ | ⟨-, hx⟩
    · rw [hsame d hc, hmeet]
      exact hold
    · have := h.rooted.up_lt hx
      have := hltcur x d hx
      rw [hsame d (by omega)]
      exact h.narrow x d hx z hold
  case shared =>
    intro x d hx _ q hq hqx
    rcases up_update hx with ⟨rfl, rfl⟩ | ⟨-, hx⟩
    · rw [hsame q hqx]
      exact (hmeet d).mp ReflTransGen.refl q hq hqx
    · have hxm := hltcur x d hx
      rw [hsame q (by omega)]
      exact h.shared x d hx (Or.inl hxm) q hq hqx

/-- What a new entry on the way from the old one leaves of the ways to the start. -/
theorem chain_of_update (hd : Up idom b d) (hdc : Chain idom d c)
    (hchain : Chain (Function.update idom b (some c)) x z) : Chain idom x z := by
  induction hchain using ReflTransGen.head_induction_on with
  | refl => exact ReflTransGen.refl
  | head hup _ ih =>
    rcases up_update hup with ⟨rfl, rfl⟩ | ⟨-, hup⟩
    · exact (ReflTransGen.head hd hdc).trans ih
    · exact ReflTransGen.head hup ih

/-- A node stays on a way to the start unless it is between the new entry and the old one. -/
theorem chain_update (h : Rooted idom m) (hd : Up idom b d) (hdc : Chain idom d c)
    (hchain : Chain idom x z) (hkeep : Chain idom d z → Chain idom c z) :
    Chain (Function.update idom b (some c)) x z := by
  have hdb := h.up_lt hd
  have hcd := h.chain_le hdc
  induction hchain using ReflTransGen.head_induction_on with
  | refl => exact ReflTransGen.refl
  | @head x p hup hrest ih =>
    by_cases heq : x = b
    · subst heq
      have hpd : p = d := Option.some.inj (hup.2.symm.trans hd.2)
      subst hpd
      have hnot : ¬ Chain idom c x := fun hcx => by
        have := h.chain_le hcx
        omega
      have hup' : Up (Function.update idom x (some c)) x c := ⟨hd.1, Function.update_self _ _ _⟩
      exact ReflTransGen.head hup' ((chain_update_iff hnot).mpr (hkeep hrest))
    · have hup' : Up (Function.update idom b (some c)) x p := ⟨hup.1, by rw [Function.update_of_ne heq]; exact hup.2⟩
      exact ReflTransGen.head hup' ih

theorem Rooted.update (h : Rooted idom m) (hpos : 0 < b) (hb : b < m) (hc : c < b) :
    Rooted (Function.update idom b (some c)) m := by
  refine ⟨?_, h.pos, fun x hx hxm => ?_, fun x hx => ?_⟩
  · rw [Function.update_of_ne hpos.ne]
    exact h.zero
  · by_cases heq : x = b
    · exact ⟨c, by rw [heq, Function.update_self], by omega⟩
    · rw [Function.update_of_ne heq]
      exact h.below x hx hxm
  · rw [Function.update_of_ne (by omega)]
    exact h.above x hx

/-- A later round moves the entry of a node towards the start. -/
theorem Good.later (h : Good n preds cur n idom) (hlt : cur < n) (hparent : ∀ b, 0 < b → b < n → ∃ p ∈ preds b, p < b)
    (hd : Up idom cur d) (hc : c < cur)
    (hmeet : ∀ z, Chain idom c z ↔ ∀ p ∈ preds cur, p < n → Chain idom p z) :
    Chain idom d c ∧ Good n preds (cur + 1) n (Function.update idom cur (some c)) := by
  have hdc : Chain idom d c :=
    h.narrow cur d hd c fun p hp hpn => (hmeet c).mp ReflTransGen.refl p hp hpn
  refine ⟨hdc, ?_⟩
  have hroot := h.rooted
  have hdb := hroot.up_lt hd
  have hup : Up (Function.update idom cur (some c)) cur c := ⟨h.cur_pos, Function.update_self _ _ _⟩
  have hltn : ∀ x d, Up idom x d → x < n := by
    intro x d hup
    refine (hroot.isSome_iff x).mp ?_
    rw [hup.2]
    exact Option.some_ne_none d
  have hsmall : ∀ x, x < cur → ∀ z, Chain (Function.update idom cur (some c)) x z ↔ Chain idom x z := by
    intro x hx z
    refine chain_update_iff fun hchain => ?_
    have := hroot.chain_le hchain
    omega
  -- a node at or after this one stays on every way
  have hlarge : ∀ x z, cur ≤ z → Chain idom x z → Chain (Function.update idom cur (some c)) x z := by
    intro x z hz hchain
    refine chain_update hroot hd hdc hchain fun hdz => ?_
    have := hroot.chain_le hdz
    omega
  constructor
  case rooted => exact hroot.update h.cur_pos hlt hc
  case le => exact le_rfl
  case cur_pos => exact Nat.succ_pos _
  case cur_le => exact hlt
  case forward =>
    intro x e hx
    rcases up_update hx with ⟨rfl, rfl⟩ | ⟨-, hx⟩
    · exact h.chain_forward (ReflTransGen.head hd hdc)
    · exact h.forward x e hx
  case complete =>
    intro x hx a ha
    have hold := h.complete x hx a ha
    by_cases hthrough : Chain idom x cur
    · refine chain_update hroot hd hdc hold fun hda => ?_
      -- it dominates this node too, which its forward way to the other one passes
      have hlt : a < cur := lt_of_le_of_lt (hroot.chain_le hda) hdb
      have hcur := dominates_forward ha hlt (h.chain_forward hthrough)
      exact (hmeet a).mpr fun p hp hpn => h.complete p hpn a (dominates_pred hcur (by omega) hp)
    · exact (chain_update_iff hthrough).mpr hold
  case narrow =>
    intro x e hx z hz
    have hold : ∀ p ∈ preds x, p < n → Chain idom p z := fun p hp hpn =>
      chain_of_update hd hdc (hz p hp hpn)
    rcases up_update hx with ⟨rfl, rfl⟩ | ⟨hne, hx⟩
    · exact (hsmall e hc z).mpr ((hmeet z).mpr hold)
    · have hez := h.narrow x e hx z hold
      by_cases hthrough : Chain idom e cur
      · refine chain_update hroot hd hdc hez fun hdz => ?_
        -- one smaller predecessor passes the entry, so it passes this node
        have hle := hroot.chain_le hthrough
        have hex := hroot.up_lt hx
        obtain ⟨q, hq, hqx⟩ := hparent x hx.1 (hltn x e hx)
        have hqe := h.shared x e hx (Or.inr hle) q hq hqx
        have hqcur := hlarge q cur le_rfl (hqe.trans hthrough)
        have hzcur : z < cur := lt_of_le_of_lt (hroot.chain_le hdz) hdb
        have hcurz := (hroot.update h.cur_pos hlt hc).chain_linear (hz q hq (by have := hltn x e hx; omega)) hqcur hzcur.le
        rcases chain_cases hcurz with heq | ⟨p, hp, hpz⟩
        · omega
        · rw [Option.some.inj (hup.2.symm.trans hp.2)]
          exact chain_of_update hd hdc hpz
      · exact (chain_update_iff hthrough).mpr hez
  case shared =>
    intro x e hx hcase q hq hqx
    rcases up_update hx with ⟨rfl, rfl⟩ | ⟨hne, hx⟩
    · exact (hsmall q hqx e).mpr ((hmeet e).mp ReflTransGen.refl q hq (by omega))
    · rcases hcase with hxcur | hle
      · exact (hsmall q (by omega) e).mpr (h.shared x e hx (Or.inl (by omega)) q hq hqx)
      · exact hlarge q e (by omega) (h.shared x e hx (Or.inr (by omega)) q hq hqx)

/-! ## The rounds -/

/-- How far the entries are from the start. -/
def weight (n : ℕ) (idom : ℕ → Option ℕ) : ℕ := ∑ x ∈ Finset.range n, (idom x).getD 0

theorem weight_update {b c d : ℕ} (hb : b < n) (hd : idom b = some d) :
    weight n (Function.update idom b (some c)) + d = weight n idom + c := by
  have hmem : b ∈ Finset.range n := Finset.mem_range.mpr hb
  have hrest : ∑ x ∈ (Finset.range n).erase b, (Function.update idom b (some c) x).getD 0 =
      ∑ x ∈ (Finset.range n).erase b, (idom x).getD 0 :=
    Finset.sum_congr rfl fun x hx => by rw [Function.update_of_ne (Finset.mem_erase.mp hx).1]
  simp only [weight]
  rw [← Finset.add_sum_erase _ _ hmem, ← Finset.add_sum_erase _ (fun x => (idom x).getD 0) hmem, hrest,
    Function.update_self, hd]
  simp only [Option.getD_some]
  omega

theorem weight_le (h : Rooted idom n) : weight n idom ≤ n * n := by
  have hle : ∀ x ∈ Finset.range n, (idom x).getD 0 ≤ n := by
    intro x hx
    rcases Nat.eq_zero_or_pos x with rfl | hpos
    · rw [h.zero]; exact Nat.zero_le n
    · obtain ⟨p, hp, hlt⟩ := h.below x hpos (Finset.mem_range.mp hx)
      rw [hp, Option.getD_some]
      have := Finset.mem_range.mp hx
      omega
  calc weight n idom ≤ ∑ _x ∈ Finset.range n, n := Finset.sum_le_sum hle
    _ = n * n := by simp

/-- A node of the first round. -/
theorem Good.visit_first (h : Good n preds cur cur idom) (hlt : cur < n)
    (hparent : ∃ p ∈ preds cur, p < cur) (changed : Bool) :
    ∃ s, visit preds (idom, changed) cur = some s ∧ Good n preds (cur + 1) (cur + 1) s.1 := by
  obtain ⟨c, hfold, -, hmeet, hc⟩ := h.meet hparent
  refine ⟨(Function.update idom cur (some c), true), ?_, h.first hlt hparent hc hmeet⟩
  have hnone : idom cur = none := h.rooted.above cur le_rfl
  rw [visit, hfold, Option.map_some, if_neg]
  dsimp only
  rw [hnone]
  exact Option.some_ne_none c

/-- A node of a later round. -/
theorem Good.visit_later (h : Good n preds cur n idom) (hlt : cur < n)
    (hparent : ∀ b, 0 < b → b < n → ∃ p ∈ preds b, p < b) (changed : Bool) :
    ∃ s, visit preds (idom, changed) cur = some s ∧ Good n preds (cur + 1) n s.1 ∧
      weight n s.1 ≤ weight n idom ∧ (s.2 = true → changed = true ∨ weight n s.1 < weight n idom) := by
  obtain ⟨c, hfold, -, hmeet, hc⟩ := h.meet (hparent cur h.cur_pos hlt)
  obtain ⟨d, hd, -⟩ := h.rooted.below cur h.cur_pos hlt
  obtain ⟨hdc, hgood⟩ := h.later hlt hparent ⟨h.cur_pos, hd⟩ hc hmeet
  have hle := h.rooted.chain_le hdc
  have hweight := @weight_update n idom cur c d hlt hd
  rw [visit, hfold, Option.map_some]
  by_cases heq : some c = idom cur
  · rw [if_pos heq]
    rw [heq, Function.update_eq_self] at hgood
    exact ⟨_, rfl, hgood, le_rfl, Or.inl⟩
  · rw [if_neg heq]
    have hne : c ≠ d := fun hcd => heq (by rw [hcd]; exact hd.symm)
    refine ⟨_, rfl, hgood, ?_, fun _ => Or.inr ?_⟩
    · dsimp only; omega
    · dsimp only; omega

/-- The first round, from a node on. -/
theorem Good.round_first (hparent : ∀ b, 0 < b → b < n → ∃ p ∈ preds b, p < b) (k : ℕ) :
    ∀ cur idom changed, Good n preds cur cur idom → cur + k = n →
    ∃ s, (List.range' cur k).foldlM (visit preds) (idom, changed) = some s ∧ Good n preds n n s.1 := by
  induction k with
  | zero =>
    intro cur idom changed h hk
    have heq : cur = n := by omega
    subst heq
    exact ⟨_, rfl, h⟩
  | succ k ih =>
    intro cur idom changed h hk
    obtain ⟨s, hvisit, hgood⟩ := h.visit_first (by omega) (hparent cur h.cur_pos (by omega)) changed
    obtain ⟨s', hround, hgood'⟩ := ih (cur + 1) s.1 s.2 hgood (by omega)
    refine ⟨s', ?_, hgood'⟩
    rw [List.range'_succ, List.foldlM_cons, hvisit]
    exact hround

/-- A later round, from a node on. -/
theorem Good.round_later (hparent : ∀ b, 0 < b → b < n → ∃ p ∈ preds b, p < b) (k : ℕ) :
    ∀ cur idom changed, Good n preds cur n idom → cur + k = n →
    ∃ s, (List.range' cur k).foldlM (visit preds) (idom, changed) = some s ∧ Good n preds n n s.1 ∧
      weight n s.1 ≤ weight n idom ∧ (s.2 = true → changed = true ∨ weight n s.1 < weight n idom) := by
  induction k with
  | zero =>
    intro cur idom changed h hk
    have heq : cur = n := by omega
    subst heq
    exact ⟨_, rfl, h, le_rfl, Or.inl⟩
  | succ k ih =>
    intro cur idom changed h hk
    obtain ⟨s, hvisit, hgood, hle, hchanged⟩ := h.visit_later (by omega) hparent changed
    obtain ⟨s', hround, hgood', hle', hchanged'⟩ := ih (cur + 1) s.1 s.2 hgood (by omega)
    refine ⟨s', ?_, hgood', hle'.trans hle, fun hs' => ?_⟩
    · rw [List.range'_succ, List.foldlM_cons, hvisit]
      exact hround
    · rcases hchanged' hs' with hs | hlt
      · exact (hchanged hs).imp_right fun hlt => lt_of_le_of_lt hle' hlt
      · exact Or.inr (lt_of_lt_of_le hlt hle)

/-- The next round starts at the first node again. -/
theorem Good.again (h : Good n preds n n idom) : Good n preds 1 n idom := by
  refine { h with cur_pos := Nat.one_pos, cur_le := h.rooted.pos, shared := fun x d hx _ => ?_ }
  refine h.shared x d hx (Or.inl ((h.rooted.isSome_iff x).mp ?_))
  rw [hx.2]
  exact Option.some_ne_none d

/-- A round that changes nothing has found every entry as it is. -/
theorem unchanged (l : List ℕ) : ∀ s s' : (ℕ → Option ℕ) × Bool, l.foldlM (visit preds) s = some s' → s'.2 = false →
    s = s' ∧ ∀ b ∈ l, (preds b).foldlM (Dominators.meet s.1) none = some (s.1 b) := by
  induction l with
  | nil =>
    intro s s' hfold _
    exact ⟨Option.some.inj hfold, fun b hb => absurd hb (List.not_mem_nil)⟩
  | cons b l ih =>
    intro s s' hfold hs'
    rw [List.foldlM_cons] at hfold
    obtain ⟨s₁, hvisit, hrest⟩ := Option.bind_eq_some_iff.mp hfold
    obtain ⟨rfl, hl⟩ := ih s₁ s' hrest hs'
    rw [visit] at hvisit
    obtain ⟨new, hmeet, hnew⟩ := Option.map_eq_some_iff.mp hvisit
    by_cases heq : new = s.1 b
    · rw [if_pos heq] at hnew
      subst hnew
      refine ⟨rfl, fun x hx => ?_⟩
      rcases List.mem_cons.mp hx with rfl | hx
      · rw [hmeet, heq]
      · exact hl x hx
    · rw [if_neg heq] at hnew
      rw [← hnew] at hs'
      exact absurd hs' (by simp)

/-- The entries are the dominators: what is on the way from a node to the start is what every way
from the start to the node passes. -/
def Exact (n : ℕ) (preds : ℕ → List ℕ) (idom : ℕ → Option ℕ) : Prop :=
  ∀ x < n, ∀ a, Chain idom x a ↔ Dominates preds a x

/-- When a round changes nothing the entries are the dominators. -/
theorem Good.exact (h : Good n preds 1 n idom) (hparent : ∀ b, 0 < b → b < n → ∃ p ∈ preds b, p < b)
    (hpreds : ∀ b < n, ∀ p ∈ preds b, p < n)
    (hsame : ∀ b, 0 < b → b < n → (preds b).foldlM (Dominators.meet idom) none = some (idom b)) :
    Exact n preds idom := by
  intro x hx a
  refine ⟨fun hchain haround => ?_, h.complete x hx a⟩
  obtain ⟨hstart, haround⟩ := haround
  -- no node of a way around is below the other one
  have hoff : x < n → ¬ Chain idom x a := by
    clear hchain hx
    induction haround with
    | refl =>
      intro _ hchain
      have := h.rooted.chain_le hchain
      omega
    | @tail y z _ hedge ih =>
      intro hz hchain
      have hy : y < n := hpreds z hz y hedge.1
      refine ih hy ?_
      rcases chain_cases hchain with heq | ⟨d, hup, hrest⟩
      · exact absurd heq hedge.2
      · obtain ⟨p, hp, hlt⟩ := hparent z hup.1 hz
        obtain ⟨new, hfold, -, hspec⟩ := h.rooted.meet_spec (preds z) none
          (fun q hq => absurd hq (Option.not_mem_none q))
        obtain ⟨c, hc, hmeet⟩ := hspec (Or.inr ⟨p, hp, by omega⟩)
        have hcd : c = d := by
          have := (hsame z hup.1 hz).symm.trans hfold
          rw [hup.2, hc] at this
          exact (Option.some.inj (Option.some.inj this)).symm
        rw [← hcd] at hrest
        exact ((hmeet a).mp hrest).2 y hedge.1 hy
  exact hoff hx hchain

theorem Good.settle (hparent : ∀ b, 0 < b → b < n → ∃ p ∈ preds b, p < b)
    (hpreds : ∀ b < n, ∀ p ∈ preds b, p < n) (rounds : ℕ) : ∀ idom, Good n preds 1 n idom →
    weight n idom < rounds → ∃ idom', settle n preds rounds idom = some idom' ∧ Rooted idom' n ∧
      Exact n preds idom' := by
  induction rounds with
  | zero => exact fun _ _ hlt => absurd hlt (Nat.not_lt_zero _)
  | succ rounds ih =>
    intro idom h hlt
    obtain ⟨s, hround, hgood, -, hchanged⟩ :=
      Good.round_later hparent (n - 1) 1 idom false h (by have := h.rooted.pos; omega)
    rw [Dominators.settle, Dominators.round, hround, Option.bind_some]
    cases hs : s.2 with
    | true =>
      have hless := (hchanged hs).resolve_left (by simp)
      rw [if_pos rfl]
      exact ih s.1 hgood.again (by omega)
    | false =>
      rw [if_neg (by simp)]
      obtain ⟨hsame, hall⟩ := unchanged _ _ _ hround hs
      have hidom : s.1 = idom := by rw [← hsame]
      rw [hidom]
      refine ⟨idom, rfl, h.rooted, h.exact hparent hpreds fun b hpos hb => hall b ?_⟩
      rw [List.mem_range'_1]
      omega

/-- Before the first round the start alone has an entry. -/
theorem good_start (hn : 0 < n) :
    Good n preds 1 1 (Function.update (fun _ => none) 0 (some 0)) := by
  have hnone : ∀ x d, ¬ Up (Function.update (fun _ => none) 0 (some 0)) x d := by
    intro x d hup
    have hd := hup.2
    rw [Function.update_of_ne (Nat.pos_iff_ne_zero.mp hup.1)] at hd
    exact absurd hd (by simp)
  constructor
  case rooted =>
    refine ⟨Function.update_self _ _ _, Nat.one_pos, fun x hpos hx => by omega, fun x hx => ?_⟩
    rw [Function.update_of_ne (by omega)]
  case le => exact hn
  case cur_pos => exact Nat.one_pos
  case cur_le => exact le_rfl
  case forward => exact fun x d hup => absurd hup (hnone x d)
  case complete =>
    intro x hx a ha
    have hx0 : x = 0 := by omega
    have ha0 : 0 = a := by
      by_contra hne
      exact ha ⟨hne, by rw [hx0]⟩
    rw [hx0, ← ha0]
    exact ReflTransGen.refl
  case narrow => exact fun x d hup => absurd hup (hnone x d)
  case shared => exact fun x d hup => absurd hup (hnone x d)

/-- The rounds come to an end, with the dominators. -/
theorem idoms_spec (hn : 0 < n) (hparent : ∀ b, 0 < b → b < n → ∃ p ∈ preds b, p < b)
    (hpreds : ∀ b < n, ∀ p ∈ preds b, p < n) :
    ∃ idom, idoms n preds = some idom ∧ Rooted idom n ∧ Exact n preds idom := by
  rw [idoms, Dominators.settle, Dominators.round]
  obtain ⟨s, hround, hgood⟩ := Good.round_first hparent (n - 1) 1 _ false (good_start hn) (by omega)
  rw [hround, Option.bind_some]
  cases hs : s.2 with
  | true =>
    rw [if_pos rfl]
    have hweight := weight_le hgood.rooted
    exact Good.settle hparent hpreds _ s.1 hgood.again (by omega)
  | false =>
    rw [if_neg (by simp)]
    obtain ⟨hsame, hall⟩ := unchanged _ _ _ hround hs
    refine ⟨s.1, rfl, hgood.rooted, hgood.again.exact hparent hpreds fun b hpos hb => ?_⟩
    have := hall b (by rw [List.mem_range'_1]; omega)
    rw [hsame] at this
    exact this

/-- Whether a node is on the way from another one is decided. -/
theorem dominates_spec (h : Rooted idom n) (a : ℕ) (rounds : ℕ) : ∀ x < n, x ≤ rounds →
    ∃ r, dominates idom a rounds x = some r ∧ (r = true ↔ Chain idom x a) := by
  induction rounds with
  | zero =>
    intro x hx hle
    have hx0 : x = 0 := by omega
    rw [dominates]
    by_cases heq : x = a
    · rw [if_pos heq, heq]
      exact ⟨true, rfl, iff_of_true rfl ReflTransGen.refl⟩
    · rw [if_neg heq, if_pos hx0]
      refine ⟨false, rfl, iff_of_false (by simp) fun hchain => heq ?_⟩
      have := h.chain_le hchain
      omega
  | succ rounds ih =>
    intro x hx hle
    rw [dominates]
    by_cases heq : x = a
    · rw [if_pos heq, heq]
      exact ⟨true, rfl, iff_of_true rfl ReflTransGen.refl⟩
    rw [if_neg heq]
    by_cases hx0 : x = 0
    · rw [if_pos hx0]
      refine ⟨false, rfl, iff_of_false (by simp) fun hchain => heq ?_⟩
      have := h.chain_le hchain
      omega
    · rw [if_neg hx0]
      obtain ⟨p, hp, hlt⟩ := h.below x (by omega) hx
      obtain ⟨r, hr, hiff⟩ := ih p (by omega) (by omega)
      refine ⟨r, by rw [hp]; exact hr, hiff.trans ⟨fun hchain => ReflTransGen.head ⟨by omega, hp⟩ hchain, fun hchain => ?_⟩⟩
      rcases chain_cases hchain with hxa | ⟨q, hup, hrest⟩
      · exact absurd hxa heq
      · rw [Option.some.inj (hp.symm.trans hup.2)]
        exact hrest

end

end Rucc.Dominators
