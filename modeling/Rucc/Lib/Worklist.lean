import Mathlib.Logic.Relation
import Mathlib.Tactic

/-!
# Closing a set under a relation with a list of what is still to be visited

The invariant of a search that marks what it finds and keeps what it has found and not yet followed
on a list. What is marked is reached, what is marked and no longer waiting has been followed, and so
when nothing waits the marks are exactly what the roots reach.
-/

namespace Rucc.Worklist

variable {ι : Type} (edge : ι → ι → Prop) (root : ι → Prop)

variable {i : ι} {seen : ι → Prop}

/-- There is a way from a root. -/
def Reached (i : ι) : Prop := ∃ r, root r ∧ Relation.ReflTransGen edge r i

/-- The state of a search between two visits. -/
structure Closing (seen : ι → Prop) (waiting : List ι) : Prop where
  reached : ∀ i, seen i → Reached edge root i
  roots : ∀ i, root i → seen i
  waits : ∀ i ∈ waiting, seen i
  followed : ∀ i, seen i → i ∉ waiting → ∀ j, edge i j → seen j

variable {edge root}

theorem Reached.of_root (h : root i) : Reached edge root i :=
  ⟨i, h, Relation.ReflTransGen.refl⟩

theorem Reached.step {i j : ι} (h : Reached edge root i) (he : edge i j) :
    Reached edge root j := by
  obtain ⟨r, hr, hpath⟩ := h
  exact ⟨r, hr, hpath.tail he⟩

/-- A search starts with its roots marked and waiting. -/
theorem Closing.start {seen : ι → Prop} {waiting : List ι} (hseen : ∀ i, seen i ↔ root i)
    (hwaiting : ∀ i, i ∈ waiting ↔ root i) : Closing edge root seen waiting where
  reached i hi := Reached.of_root ((hseen i).mp hi)
  roots i hi := (hseen i).mpr hi
  waits i hi := (hseen i).mpr ((hwaiting i).mp hi)
  followed i hi hnot := absurd ((hwaiting i).mpr ((hseen i).mp hi)) hnot

/-- One visit takes an element off the list and marks what it leads to, putting what was not marked
before on the list. -/
theorem Closing.visit {seen' : ι → Prop} {rest added : List ι} (h : Closing edge root seen (i :: rest))
    (hseen : ∀ j, seen' j ↔ seen j ∨ j ∈ added) (hadded : ∀ j ∈ added, edge i j)
    (hall : ∀ j, edge i j → seen' j) : Closing edge root seen' (added ++ rest) where
  reached j hj := by
    rcases (hseen j).mp hj with hj | hj
    · exact h.reached j hj
    · exact (h.reached i (h.waits i (List.mem_cons_self ..))).step (hadded j hj)
  roots j hj := (hseen j).mpr (Or.inl (h.roots j hj))
  waits j hj := by
    rcases List.mem_append.mp hj with hj | hj
    · exact (hseen j).mpr (Or.inr hj)
    · exact (hseen j).mpr (Or.inl (h.waits j (List.mem_cons_of_mem _ hj)))
  followed j hj hnot k hk := by
    rw [List.mem_append, not_or] at hnot
    rcases (hseen j).mp hj with hj' | hj'
    · -- Either it was followed before, or it is the one that was just taken off.
      by_cases heq : j = i
      · subst heq
        exact hall k hk
      · apply (hseen k).mpr
        apply Or.inl
        apply h.followed j hj' _ k hk
        rw [List.mem_cons, not_or]
        exact ⟨heq, hnot.2⟩
    · exact absurd hj' hnot.1

/-- When nothing waits, exactly what is reached is marked. -/
theorem Closing.finish (h : Closing edge root seen []) (i : ι) : seen i ↔ Reached edge root i := by
  constructor
  · exact h.reached i
  · rintro ⟨r, hr, hpath⟩
    induction hpath with
    | refl => exact h.roots r hr
    | tail _ he ih => exact h.followed _ ih List.not_mem_nil _ he

/-! ## A stack that takes no note of what it has visited

Each visit puts what hangs under the node in its place. Nodes that are reached along different ways are different nodes
here: a key that grows by the turn taken tells them apart, and then no node is visited twice. -/

/-- With these nodes on the stack, the visits are these. -/
inductive Visits (kids : ι → List ι) : List ι → List ι → Prop where
  | nil : Visits kids [] []
  | cons {a : ι} {todo visits : List ι} (h : Visits kids (kids a ++ todo) visits) :
      Visits kids (a :: todo) (a :: visits)

/-- No key of two lies at the end of the other. -/
def Apart {β : Type} (key : ι → List β) (a b : ι) : Prop := ¬ key a <:+ key b ∧ ¬ key b <:+ key a

namespace Visits

variable {kids : ι → List ι} {todo visits : List ι}

variable {b : ι}

/-- What waits is visited, and so is what hangs under a node that is. -/
theorem closed (h : Visits kids todo visits) :
    (∀ a ∈ todo, a ∈ visits) ∧ ∀ a ∈ visits, ∀ b ∈ kids a, b ∈ visits := by
  induction h with
  | nil => exact ⟨fun a ha => ha, fun a ha => absurd ha List.not_mem_nil⟩
  | @cons a todo visits _ ih =>
    obtain ⟨hroots, hkids⟩ := ih
    constructor
    · intro b hb
      rcases List.mem_cons.1 hb with rfl | hb
      · exact List.mem_cons_self
      · exact List.mem_cons_of_mem a (hroots b (List.mem_append_right _ hb))
    · intro b hb c hc
      rcases List.mem_cons.1 hb with rfl | hb
      · exact List.mem_cons_of_mem b (hroots c (List.mem_append_left _ hc))
      · exact List.mem_cons_of_mem a (hkids b hb c hc)

/-- What is visited is what hangs under the nodes that waited. -/
theorem mem_iff (h : Visits kids todo visits) :
    b ∈ visits ↔ ∃ a ∈ todo, Relation.ReflTransGen (fun a b => b ∈ kids a) a b := by
  constructor
  · intro hb
    induction h with
    | nil => exact absurd hb List.not_mem_nil
    | @cons a todo visits _ ih =>
      rcases List.mem_cons.1 hb with rfl | hb
      · exact ⟨b, List.mem_cons_self, .refl⟩
      · obtain ⟨c, hc, hpath⟩ := ih hb
        rcases List.mem_append.1 hc with hc | hc
        · exact ⟨a, List.mem_cons_self, hpath.head hc⟩
        · exact ⟨c, List.mem_cons_of_mem a hc, hpath⟩
  · rintro ⟨a, ha, hpath⟩
    induction hpath with
    | refl => exact h.closed.1 a ha
    | tail _ hedge ih => exact h.closed.2 _ ih _ hedge

variable {β : Type} {key : ι → List β}

/-- The key of what hangs under a node ends with the node's. -/
theorem suffix_of_path (hkey : ∀ a, ∀ b ∈ kids a, ∃ t, key b = t :: key a) {a : ι}
    (h : Relation.ReflTransGen (fun a b => b ∈ kids a) a b) : key a <:+ key b := by
  induction h with
  | refl => exact List.suffix_refl _
  | tail _ hedge ih =>
    obtain ⟨t, ht⟩ := hkey _ _ hedge
    rw [ht]
    exact ih.trans (List.suffix_cons t _)

/-- Nodes that hang under one that stands apart stand apart. -/
theorem Apart.of_kid {β : Type} {key : ι → List β} {a c : ι} {t : β} (h : Apart key a b)
    (hc : key c = t :: key a) : Apart key c b := by
  rw [Apart, hc]
  constructor
  · exact fun hsuffix => h.1 ((List.suffix_cons t _).trans hsuffix)
  · intro hsuffix
    rcases List.suffix_cons_iff.1 hsuffix with heq | hsuffix
    · exact h.1 (heq ▸ List.suffix_cons t _)
    · exact h.2 hsuffix

/-- No node is visited twice where those that wait stand apart. -/
theorem nodup (h : Visits kids todo visits) (hkey : ∀ a, ∀ b ∈ kids a, ∃ t, key b = t :: key a)
    (hkids : ∀ a, ((kids a).map key).Nodup) (hapart : todo.Pairwise (Apart key)) : (visits.map key).Nodup := by
  induction h with
  | nil => exact List.nodup_nil
  | @cons a todo visits h ih =>
    rw [List.pairwise_cons] at hapart
    rw [List.map_cons, List.nodup_cons]
    constructor
    · -- A later visit is to something under a kid, whose key is longer, or under a node that stands apart.
      intro hmem
      obtain ⟨b, hb, heq⟩ := List.mem_map.1 hmem
      obtain ⟨c, hc, hpath⟩ := h.mem_iff.1 hb
      have hsuffix := suffix_of_path hkey hpath
      rw [heq] at hsuffix
      rcases List.mem_append.1 hc with hc | hc
      · obtain ⟨t, ht⟩ := hkey a c hc
        have hlen := hsuffix.length_le
        rw [ht, List.length_cons] at hlen
        omega
      · exact (hapart.1 c hc).2 hsuffix
    · refine ih (List.pairwise_append.2 ⟨?_, hapart.2, fun b hb c hc => ?_⟩)
      · -- Two kids differ in their last turn.
        have hne : (kids a).Pairwise fun b c => key b ≠ key c := List.pairwise_map.1 (hkids a)
        refine hne.imp_of_mem fun {b c} hb hc hne => ?_
        obtain ⟨t, ht⟩ := hkey a b hb
        obtain ⟨u, hu⟩ := hkey a c hc
        have hlen : (key b).length = (key c).length := by rw [ht, hu, List.length_cons, List.length_cons]
        exact ⟨fun hs => hne (hs.eq_of_length hlen), fun hs => hne (hs.eq_of_length hlen.symm).symm⟩
      · obtain ⟨t, ht⟩ := hkey a b hb
        exact Apart.of_kid (hapart.1 c hc) ht

end Visits

end Rucc.Worklist
