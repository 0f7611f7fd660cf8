import Mathlib.Tactic

/-!
# Lists linked through a memory

A list kept in the cells it lists: each cell says which one is next, and `nil` ends the list. `Linked`
relates the head of such a list to the cells on it. What is not on the list may change freely, which is
`Linked.congr`, and the two ends of a stack are `Linked.push` and `Linked.pop`.

A link may also lead nowhere. `Passes` relates a cell to the cells that are passed from it and the one that is come to.
A chain that comes to an end passes no cell twice (`Passes.nodup`).
-/

namespace Rucc

variable {α : Type*} {next next' : α → α} {nil head : α} {l : List α}

/-- Following `next` from `head` to `nil` passes the cells of `l`, in their order. -/
def Linked (next : α → α) (nil : α) : α → List α → Prop
  | head, [] => head = nil
  | head, a :: l => head = a ∧ a ≠ nil ∧ Linked next nil (next a) l

namespace Linked

/-- A list depends on the links of its own cells only. -/
theorem congr (h : Linked next nil head l) (heq : ∀ a ∈ l, next' a = next a) : Linked next' nil head l := by
  induction l generalizing head with
  | nil => exact h
  | cons a l ih =>
    obtain ⟨hhead, hne, htail⟩ := h
    have hcell : next' a = next a := heq a List.mem_cons_self
    have hrest : ∀ b ∈ l, next' b = next b := fun b hb => heq b (List.mem_cons_of_mem a hb)
    refine ⟨hhead, hne, ?_⟩
    rw [hcell]
    exact ih htail hrest

/-- The list behind a head that is a cell. -/
theorem pop (h : Linked next nil head l) (hne : head ≠ nil) :
    ∃ rest, l = head :: rest ∧ Linked next nil (next head) rest := by
  cases l with
  | nil => exact absurd h hne
  | cons a l =>
    obtain ⟨rfl, -, htail⟩ := h
    exact ⟨l, rfl, htail⟩

/-- A cell in front of a list, linked to its head. -/
theorem push {a : α} (h : Linked next nil head l) (ha : a ≠ nil) (hlink : next' a = head)
    (heq : ∀ b ∈ l, next' b = next b) : Linked next' nil a (a :: l) := by
  refine ⟨rfl, ha, ?_⟩
  rw [hlink]
  exact h.congr heq

end Linked

/-! ## Chains that end where a link leads nowhere -/

/-- Following the links from a cell passes the cells of a list, in their order, and comes to another cell. -/
def Passes (link : α → Option α) : α → List α → α → Prop
  | a, [], b => a = b
  | a, c :: l, b => a = c ∧ ∃ d, link a = some d ∧ Passes link d l b

namespace Passes

variable {link : α → Option α} {a b c : α} {l' : List α}

/-- The chain from a cell that is passed. -/
theorem of_append (h : Passes link a (l ++ l') b) : ∃ c, Passes link a l c ∧ Passes link c l' b := by
  induction l generalizing a with
  | nil => exact ⟨a, rfl, h⟩
  | cons x l ih =>
    obtain ⟨rfl, d, hlink, hrest⟩ := h
    obtain ⟨c, hc, hend⟩ := ih hrest
    exact ⟨c, ⟨rfl, d, hlink, hc⟩, hend⟩

/-- No chain from a cell goes further than the end. -/
theorem length_le (h : Passes link a l b) (hend : link b = none) (h' : Passes link a l' c) :
    l'.length ≤ l.length := by
  induction l' generalizing a l with
  | nil => exact Nat.zero_le _
  | cons x l' ih =>
    obtain ⟨rfl, d, hlink, hrest'⟩ := h'
    cases l with
    | nil =>
      obtain rfl := h
      rw [hend] at hlink
      exact nomatch hlink
    | cons y l =>
      obtain ⟨rfl, e, hlink', hrest⟩ := h
      obtain rfl : d = e := Option.some.inj (hlink.symm.trans hlink')
      exact Nat.succ_le_succ (ih hrest hrest')

/-- A chain that comes to an end passes no cell twice. -/
theorem nodup (h : Passes link a l b) (hend : link b = none) : l.Nodup := by
  induction l generalizing a with
  | nil => exact List.nodup_nil
  | cons x l ih =>
    obtain ⟨rfl, d, hlink, hrest⟩ := h
    refine List.nodup_cons.2 ⟨fun hmem => ?_, ih hrest⟩
    -- The chain from the second passing would be as long as the one from the first.
    obtain ⟨front, back, rfl⟩ := List.append_of_mem hmem
    obtain ⟨c, -, hback⟩ := of_append hrest
    obtain rfl := hback.1
    have hle := length_le hback hend (show Passes link c (c :: (front ++ c :: back)) b from ⟨rfl, d, hlink, hrest⟩)
    rw [List.length_cons, List.length_cons, List.length_append, List.length_cons] at hle
    omega

/-- Every cell that is passed has a link. -/
theorem isSome_of_mem (h : Passes link a l b) {x : α} (hx : x ∈ l) : (link x).isSome := by
  induction l generalizing a with
  | nil => exact absurd hx List.not_mem_nil
  | cons y l ih =>
    obtain ⟨rfl, d, hlink, hrest⟩ := h
    rcases List.mem_cons.1 hx with rfl | hx
    · rw [hlink]
      rfl
    · exact ih hrest hx

end Passes

end Rucc
