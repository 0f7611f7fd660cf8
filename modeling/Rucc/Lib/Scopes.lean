import Mathlib.Data.Finmap
import Mathlib.Tactic

/-!
# Stacks of dictionaries

Names in nested scopes, as a list of finite maps, the innermost first. A search goes outwards, a declaration
goes into the innermost map, and a scope that closes takes its map with it. The last map is the outermost
scope's, which is never closed.
-/

namespace Rucc.Scopes

variable {α β : Type}

variable {σ : Type} {k k' : ℕ}

/-- What one scope binds. -/
abbrev Dict (α β : Type) : Type := Finmap fun _ : α => β

/-- What is asked of a stack of scopes. -/
inductive Op (α β : Type)
  | push
  | pop
  | declare (name : α) (value : β)
  | declareAtFileScope (name : α) (value : β)
  | get (name : α)
  | getWhere (name : α) (wanted : β → Bool)
  | getHere (name : α)

/-- What is answered: nothing, a value or the lack of one, or whether a declaration took. -/
inductive Answer (β : Type)
  | done
  | found (value : Option β)
  | took (it : Bool)
  deriving DecidableEq

section Run

variable {σ : Type} (next : σ → Op α β → Option (Answer β × σ))

/-- The answers to a sequence of operations, and the state after them. -/
def run (s : σ) : List (Op α β) → Option (List (Answer β) × σ)
  | [] => some ([], s)
  | op :: ops => (next s op).bind fun x => (run x.2 ops).map fun y => (x.1 :: y.1, y.2)

end Run

/-- How many more scopes are open after some operations, none of them the outermost's closing. -/
def nest : ℕ → List (Op α β) → Option ℕ
  | k, [] => some k
  | k, .push :: ops => nest (k + 1) ops
  | 0, .pop :: _ => none
  | k + 1, .pop :: ops => nest k ops
  | k, _ :: ops => nest k ops

/-! ## Runs -/

variable {next : σ → Op α β → Option (Answer β × σ)}

/-- Two ways to step that give the same answers from states that stand for one another give the same answers
throughout. -/
theorem run_rel {τ : Type} {R : σ → τ → Prop} {next' : τ → Op α β → Option (Answer β × τ)}
    (hstep : ∀ s t op, R s t → Option.Rel (fun x y => x.1 = y.1 ∧ R x.2 y.2) (next s op) (next' t op))
    (ops : List (Op α β)) {s : σ} {t : τ} (h : R s t) :
    Option.Rel (fun x y => x.1 = y.1 ∧ R x.2 y.2) (run next s ops) (run next' t ops) := by
  induction ops generalizing s t with
  | nil => exact .some ⟨rfl, h⟩
  | cons op ops ih =>
    have hop := hstep s t op h
    unfold run
    generalize next s op = r, next' t op = r' at hop
    cases hop with
    | none => exact .none
    | @some x y hxy =>
      have hrest := ih hxy.2
      rw [Option.bind_some, Option.bind_some]
      generalize run next x.2 ops = q, run next' y.2 ops = q' at hrest
      cases hrest with
      | none => exact .none
      | some hzw => exact .some ⟨congrArg₂ _ hxy.1 hzw.1, hzw.2⟩

variable {ops : List (Op α β)}

/-- A sequence is a first part and then the rest. -/
theorem run_append {s s' : σ}
    {ops' : List (Op α β)} {answers : List (Answer β)} (h : run next s ops = some (answers, s')) :
    run next s (ops ++ ops') = (run next s' ops').map fun r => (answers ++ r.1, r.2) := by
  induction ops generalizing s answers with
  | nil =>
    obtain ⟨rfl, rfl⟩ := Prod.mk.inj (Option.some.inj h)
    simp
  | cons op ops ih =>
    obtain ⟨x, hop, h⟩ := Option.bind_eq_some_iff.mp h
    obtain ⟨y, hrest, h⟩ := Option.map_eq_some_iff.mp h
    obtain ⟨rfl, rfl⟩ := Prod.mk.inj h
    rw [List.cons_append, run, hop, Option.bind_some, ih hrest]
    cases run next y.2 ops' with
    | none => rfl
    | some r => rfl

theorem nest_cons (k : ℕ) (op : Op α β) (ops : List (Op α β)) :
    nest k (op :: ops) = (nest k [op]).bind fun k' => nest k' ops := by
  cases op with
  | pop => cases k <;> rfl
  | _ => rfl

/-! ## The dictionaries -/

variable [DecidableEq α]

/-- What a name is bound to in each scope, the innermost first. -/
def column (l : List (Dict α β)) (name : α) : List (Option β) := l.map fun d => d.lookup name

/-- What a name means: the value in the innermost scope that binds it. -/
def get (l : List (Dict α β)) (name : α) : Option β := l.findSome? fun d => d.lookup name

/-- The value in the innermost scope that binds the name to something wanted. -/
def getWhere (l : List (Dict α β)) (name : α) (wanted : β → Bool) : Option β :=
  l.findSome? fun d => (d.lookup name).filter wanted

/-- The value in the innermost scope alone. -/
def getHere (l : List (Dict α β)) (name : α) : Option β := l.head?.bind fun d => d.lookup name

/-- The innermost map with a binding put in it or replaced. -/
def declare (l : List (Dict α β)) (name : α) (value : β) : List (Dict α β) :=
  l.modifyHead fun d => d.insert name value

/-- The outermost map with a binding put in it. -/
def declareOutermost (l : List (Dict α β)) (name : α) (value : β) : List (Dict α β) :=
  match l with
  | [] => []
  | [d] => [d.insert name value]
  | d :: l => d :: declareOutermost l name value

/-- One operation on a stack of scopes, or nothing when it would close the outermost. -/
def step (l : List (Dict α β)) : Op α β → Option (Answer β × List (Dict α β))
  | .push => some (.done, ∅ :: l)
  | .pop => if 1 < l.length then some (.done, l.tail) else none
  | .declare name value => some (.found (getHere l name), declare l name value)
  | .declareAtFileScope name value =>
    if get l name = none then some (.took true, declareOutermost l name value)
    else some (.took false, l)
  | .get name => some (.found (get l name), l)
  | .getWhere name wanted => some (.found (getWhere l name wanted), l)
  | .getHere name => some (.found (getHere l name), l)

/-! ## What a name means -/

section Column

variable {l l' : List (Dict α β)} {name : α}

theorem get_eq_column : get l name = (column l name).findSome? id := by
  rw [get, column, List.findSome?_map, Function.id_comp]

theorem getWhere_eq_column (wanted : β → Bool) :
    getWhere l name wanted = (column l name).findSome? fun v => v.filter wanted := by
  rw [getWhere, column, List.findSome?_map]
  rfl

theorem getHere_eq_column : getHere l name = (column l name).head?.bind id := by
  rw [getHere, column, List.head?_map]
  cases l.head? with
  | none => rfl
  | some d => rfl

/-- A name bound alike in every scope means the same, however it is asked for. -/
theorem means_of_column (h : column l' name = column l name) :
    get l' name = get l name ∧ (∀ wanted, getWhere l' name wanted = getWhere l name wanted) ∧
      getHere l' name = getHere l name := by
  refine ⟨?_, fun wanted => ?_, ?_⟩
  · rw [get_eq_column, get_eq_column, h]
  · rw [getWhere_eq_column, getWhere_eq_column, h]
  · rw [getHere_eq_column, getHere_eq_column, h]

end Column

/-! ## The outermost scope -/

section Outermost

variable {l : List (Dict α β)} {name : α} {value : β}

@[simp]
theorem length_declareOutermost : (declareOutermost l name value).length = l.length := by
  fun_induction declareOutermost l name value with
  | case1 => rfl
  | case2 d => rfl
  | case3 d l _ ih => rw [List.length_cons, ih, List.length_cons]

theorem declareOutermost_append (ds : List (Dict α β)) (hl : l ≠ []) :
    declareOutermost (ds ++ l) name value = ds ++ declareOutermost l name value := by
  induction ds with
  | nil => rfl
  | cons d ds ih =>
    rw [List.cons_append, declareOutermost, ih, List.cons_append]
    simp [hl]

theorem column_declareOutermost_of_ne {other : α} (hne : other ≠ name) :
    column (declareOutermost l name value) other = column l other := by
  fun_induction declareOutermost l name value with
  | case1 => rfl
  | case2 d => simp [column, Finmap.lookup_insert_of_ne _ hne]
  | case3 d l _ ih =>
    unfold column at ih ⊢
    rw [List.map_cons, ih, List.map_cons]

theorem get_declareOutermost (hl : l ≠ []) (h : get l name = none) :
    get (declareOutermost l name value) name = some value := by
  fun_induction declareOutermost l name value with
  | case1 => exact absurd rfl hl
  | case2 d => simp [get, Finmap.lookup_insert]
  | case3 d l hne ih =>
    unfold get at h ih ⊢
    rw [List.findSome?_cons] at h ⊢
    cases hd : Finmap.lookup name d with
    | some v => simp [hd] at h
    | none =>
      rw [hd] at h
      exact ih hne h

end Outermost

/-! ## Closing what was opened -/

/-- Every name is bound as it was, but for those bound nowhere that were declared in the outermost scope. -/
def Restored (ops : List (Op α β)) (l l' : List (Dict α β)) : Prop :=
  ∀ name, column l' name = column l name ∨
    (get l name = none ∧ ∃ value, .declareAtFileScope name value ∈ ops ∧ get l' name = some value)

theorem Restored.refl (ops : List (Op α β)) (l : List (Dict α β)) : Restored ops l l := fun _ => Or.inl rfl

variable {op : Op α β}

theorem Restored.trans {l₁ l₂ l₃ : List (Dict α β)}
    (h : Restored [op] l₁ l₂) (h' : Restored ops l₂ l₃) : Restored (op :: ops) l₁ l₃ := by
  intro name
  rcases h name with heq | ⟨hnone, value, hmem, hsome⟩
  · rcases h' name with heq' | ⟨hnone', value, hmem, hsome⟩
    · exact Or.inl (heq'.trans heq)
    · rw [(means_of_column heq).1] at hnone'
      exact Or.inr ⟨hnone', value, List.mem_cons_of_mem _ hmem, hsome⟩
  · rcases h' name with heq' | ⟨hnone', -⟩
    · rw [← (means_of_column heq').1] at hsome
      exact Or.inr ⟨hnone, value, by rw [List.mem_singleton.mp hmem]; exact List.mem_cons_self, hsome⟩
    · rw [hnone'] at hsome
      cases hsome

variable {l : List (Dict α β)}

/-- An operation above some scopes, which does not close the innermost of them, leaves them alone unless it
declares in the outermost. -/
theorem step_above {ds : List (Dict α β)} (hl : l ≠ []) (hds : ds.length = k + 1) (h : nest k [op] = some k') :
    ∃ answer ds' l', step (ds ++ l) op = some (answer, ds' ++ l') ∧ ds'.length = k' + 1 ∧ l' ≠ [] ∧
      Restored [op] l l' := by
  have hpos : 0 < l.length := List.length_pos_iff.mpr hl
  cases op with
  | push => exact ⟨_, ∅ :: ds, l, rfl, by rw [← Option.some.inj h, List.length_cons, hds], hl, .refl _ l⟩
  | pop =>
    cases k with
    | zero => cases h
    | succ k =>
      cases ds with
      | nil => cases hds
      | cons d ds =>
        refine ⟨_, ds, l, if_pos ?_, ?_, hl, .refl _ l⟩
        · rw [List.cons_append, List.length_cons, List.length_append]
          omega
        · rw [← Option.some.inj h]
          exact Nat.succ_injective hds
  | declare name value =>
    cases ds with
    | nil => cases hds
    | cons d ds => exact ⟨_, d.insert name value :: ds, l, rfl, by rw [← Option.some.inj h, ← hds]; rfl, hl,
        .refl _ l⟩
  | declareAtFileScope name value =>
    have hk : k = k' := Option.some.inj h
    by_cases hnone : get (ds ++ l) name = none
    · refine ⟨_, ds, _, (if_pos hnone).trans (by rw [declareOutermost_append _ hl]), hk ▸ hds, ?_,
        fun other => ?_⟩
      · exact List.ne_nil_of_length_pos (by rwa [length_declareOutermost])
      · by_cases heq : other = name
        · have hlnone : get l name = none := by
            unfold get at hnone ⊢
            rw [List.findSome?_append, Option.or_eq_none_iff] at hnone
            exact hnone.2
          subst heq
          exact Or.inr ⟨hlnone, value, List.mem_singleton_self _, get_declareOutermost hl hlnone⟩
        · exact Or.inl (column_declareOutermost_of_ne heq)
    · exact ⟨_, ds, l, if_neg hnone, hk ▸ hds, hl, .refl _ l⟩
  | get name => exact ⟨_, ds, l, rfl, (Option.some.inj h : k = k') ▸ hds, hl, .refl _ l⟩
  | getWhere name wanted => exact ⟨_, ds, l, rfl, (Option.some.inj h : k = k') ▸ hds, hl, .refl _ l⟩
  | getHere name => exact ⟨_, ds, l, rfl, (Option.some.inj h : k = k') ▸ hds, hl, .refl _ l⟩

/-- So do any number of them. -/
theorem run_above (ops : List (Op α β)) {ds l : List (Dict α β)} {k k' : ℕ} (hl : l ≠ [])
    (hds : ds.length = k + 1) (h : nest k ops = some k') :
    ∃ answers ds' l', run step (ds ++ l) ops = some (answers, ds' ++ l') ∧ ds'.length = k' + 1 ∧ l' ≠ [] ∧
      Restored ops l l' := by
  induction ops generalizing ds l k with
  | nil => exact ⟨[], ds, l, rfl, (Option.some.inj h : k = k') ▸ hds, hl, .refl _ l⟩
  | cons op ops ih =>
    rw [nest_cons] at h
    obtain ⟨k₁, hop, h⟩ := Option.bind_eq_some_iff.mp h
    obtain ⟨answer, ds₁, l₁, hstep, hds₁, hl₁, hkept⟩ := step_above hl hds hop
    obtain ⟨answers, ds', l', hrun, hds', hl', hkept'⟩ := ih hl₁ hds₁ h
    exact ⟨answer :: answers, ds', l', by rw [run, hstep, Option.bind_some, hrun]; rfl, hds', hl',
      hkept.trans hkept'⟩

/-- Opening a scope, any operations that close what they open, and closing it. -/
theorem run_scope (hl : l ≠ []) (h : nest 0 ops = some 0) :
    ∃ answers l', run step l (.push :: ops ++ [.pop]) = some (answers, l') ∧ Restored ops l l' := by
  obtain ⟨answers, ds, l', hrun, hds, hl', hkept⟩ := @run_above α β _ ops [∅] l 0 0 hl rfl h
  obtain ⟨d, rfl⟩ := List.length_eq_one_iff.mp hds
  have hpos : 0 < l'.length := List.length_pos_iff.mpr hl'
  refine ⟨.done :: (answers ++ [.done]), l', ?_, hkept⟩
  have hclose : step ([d] ++ l') .pop = some (.done, l') := if_pos (by simpa using hpos)
  have hrest : run step ([∅] ++ l) (ops ++ [.pop]) = _ := run_append hrun
  rw [run, hclose] at hrest
  exact congrArg (Option.map fun y => (.done :: y.1, y.2)) hrest

theorem step_of_nest (hl : l.length = k + 1)
    (h : nest k [op] = some k') : ∃ answer l', step l op = some (answer, l') ∧ l'.length = k' + 1 := by
  cases op with
  | push => exact ⟨_, _, rfl, by rw [← Option.some.inj h, List.length_cons, hl]⟩
  | pop =>
    cases k with
    | zero => cases h
    | succ k => exact ⟨_, _, if_pos (by omega), by rw [List.length_tail, hl, ← Option.some.inj h]; rfl⟩
  | declare name value => exact ⟨_, _, rfl, by rw [declare, List.length_modifyHead, hl, ← Option.some.inj h]⟩
  | declareAtFileScope name value =>
    by_cases hnone : get l name = none
    · exact ⟨_, _, if_pos hnone, by rw [length_declareOutermost, hl, ← Option.some.inj h]⟩
    · exact ⟨_, _, if_neg hnone, by rw [hl, ← Option.some.inj h]⟩
  | get name => exact ⟨_, _, rfl, by rw [hl, ← Option.some.inj h]⟩
  | getWhere name wanted => exact ⟨_, _, rfl, by rw [hl, ← Option.some.inj h]⟩
  | getHere name => exact ⟨_, _, rfl, by rw [hl, ← Option.some.inj h]⟩

/-- A stack of `k + 1` scopes takes any operations that leave its outermost open. -/
theorem run_of_nest (hl : l.length = k + 1)
    (h : nest k ops = some k') : ∃ answers l', run step l ops = some (answers, l') ∧ l'.length = k' + 1 := by
  induction ops generalizing l k with
  | nil => exact ⟨[], l, rfl, (Option.some.inj h : k = k') ▸ hl⟩
  | cons op ops ih =>
    rw [nest_cons] at h
    obtain ⟨k₁, hop, h⟩ := Option.bind_eq_some_iff.mp h
    obtain ⟨answer, l₁, hstep, hl₁⟩ := step_of_nest hl hop
    obtain ⟨answers, l', hrun, hl'⟩ := ih hl₁ h
    exact ⟨answer :: answers, l', by rw [run, hstep, Option.bind_some, hrun]; rfl, hl'⟩

end Rucc.Scopes
