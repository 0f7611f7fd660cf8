import Mathlib.Data.List.ReduceOption
import Rucc.Lib.Scopes
import Rucc.Base.Intern

/-!
# A map from a name to a value, in a stack of scopes

The `ScopeMap` of `rucc-base`'s `scope.rs`: a stack of bindings for each name and a log of the names bound in
each open scope, so that closing one knows what to undo. A vector used as a stack is the list of what is on
it, the top first, and a name with no entry has the empty stack. The depth is a plain number, since the
parser caps the nesting long before the source's could overflow.

`Represents` relates the map to a list of dictionaries, one for each open scope (`Lib/Scopes.lean`): the stack
of a name holds its values in the dictionaries that bind it, and the log above a mark holds each name its
scope binds once. What the file scope holds is in no part of the log that is ever undone, which is why a
binding put there from an inner scope needs no entry.
-/

namespace Rucc.Base

open Scopes (Dict Op Answer)

variable {V : Type}

/-- One binding, and the scope it was made in. -/
structure Binding (V : Type) where
  depth : ℕ
  value : V

/-- A map from a name to a value, in a stack of scopes. -/
structure ScopeMap (V : Type) where
  bindings : Symbol → List (Binding V)
  log : List Symbol
  marks : List ℕ

namespace ScopeMap

variable {ops : List (Op Symbol V)}

/-- An empty namespace, with the file scope open. -/
def new : ScopeMap V := ⟨fun _ => [], [], []⟩

/-- How many scopes are open. -/
def depth (s : ScopeMap V) : ℕ := s.marks.length + 1

/-- Whether the only open scope is the file scope. -/
def atFileScope (s : ScopeMap V) : Bool := s.marks.isEmpty

/-- Opens a scope. -/
def push (s : ScopeMap V) : ScopeMap V := { s with marks := s.log.length :: s.marks }

/-- The log taken back to a mark, and each name taken off it unbound once. -/
def undo (mark : ℕ) : List Symbol → (Symbol → List (Binding V)) → List Symbol × (Symbol → List (Binding V))
  | [], bindings => ([], bindings)
  | name :: log, bindings =>
    if mark < (name :: log).length then
      undo mark log (Function.update bindings name (bindings name).tail)
    else (name :: log, bindings)

/-- Closes the innermost scope, or nothing for the file scope. -/
def pop (s : ScopeMap V) : Option (ScopeMap V) :=
  match s.marks with
  | [] => none
  | mark :: marks =>
    let (log, bindings) := undo mark s.log s.bindings
    some ⟨bindings, log, marks⟩

/-- Binds a name in the innermost scope, and gives back what it was bound to there. -/
def declare (s : ScopeMap V) (name : Symbol) (value : V) : Option V × ScopeMap V :=
  match s.bindings name with
  | top :: rest =>
    if top.depth = s.depth then
      (some top.value,
        { s with bindings := Function.update s.bindings name ({ top with value := value } :: rest) })
    else
      (none, { s with bindings := Function.update s.bindings name (⟨s.depth, value⟩ :: top :: rest)
                      log := name :: s.log })
  | [] =>
    (none, { s with bindings := Function.update s.bindings name [⟨s.depth, value⟩]
                    log := name :: s.log })

/-- Binds a name in the file scope from wherever the caller is, if it is bound nowhere. -/
def declareAtFileScope (s : ScopeMap V) (name : Symbol) (value : V) : Bool × ScopeMap V :=
  if (s.bindings name).isEmpty then
    (true, { s with bindings := Function.update s.bindings name [⟨1, value⟩] })
  else (false, s)

/-- What a name is bound to in the innermost scope that binds it. -/
def get (s : ScopeMap V) (name : Symbol) : Option V := (s.bindings name).head?.map Binding.value

/-- What a name is bound to in the innermost scope that binds it to something wanted. -/
def getWhere (s : ScopeMap V) (name : Symbol) (wanted : V → Bool) : Option V :=
  ((s.bindings name).map Binding.value).find? wanted

/-- What a name is bound to in the innermost scope alone. -/
def getHere (s : ScopeMap V) (name : Symbol) : Option V :=
  (s.bindings name).head?.bind fun top => if top.depth = s.depth then some top.value else none

/-- One operation, or nothing when it closes the file scope. -/
def step (s : ScopeMap V) : Op Symbol V → Option (Answer V × ScopeMap V)
  | .push => some (.done, s.push)
  | .pop => s.pop.map fun s' => (.done, s')
  | .declare name value => some (.found (s.declare name value).1, (s.declare name value).2)
  | .declareAtFileScope name value =>
    some (.took (s.declareAtFileScope name value).1, (s.declareAtFileScope name value).2)
  | .get name => some (.found (s.get name), s)
  | .getWhere name wanted => some (.found (s.getWhere name wanted), s)
  | .getHere name => some (.found (s.getHere name), s)

/-! ## What the map stands for -/

/-- The stack a name has when these are the scopes. -/
def stack (l : List (Dict Symbol V)) (name : Symbol) : List (Binding V) :=
  match l with
  | [] => []
  | d :: l =>
    match d.lookup name with
    | some value => ⟨l.length + 1, value⟩ :: stack l name
    | none => stack l name

/-- The log above each mark names what its scope binds, once each. -/
def Logged : List (Dict Symbol V) → List Symbol → List ℕ → Prop
  | [], _, _ => False
  | [_], _, marks => marks = []
  | d :: d' :: l, log, marks =>
    ∃ names rest marks', log = names ++ rest ∧ marks = rest.length :: marks' ∧ names.Nodup ∧
      (∀ name, name ∈ names ↔ name ∈ d) ∧ Logged (d' :: l) rest marks'

/-- The map stands for a list of dictionaries. -/
structure Represents (s : ScopeMap V) (l : List (Dict Symbol V)) : Prop where
  bound : ∀ name, s.bindings name = stack l name
  logged : Logged l s.log s.marks

section Stack

variable {l : List (Dict Symbol V)} {d : Dict Symbol V} {name : Symbol}

theorem stack_cons (d : Dict Symbol V) (l : List (Dict Symbol V)) (name : Symbol) : stack (d :: l) name =
      ((d.lookup name).map fun value => (⟨l.length + 1, value⟩ : Binding V)).toList ++ stack l name := by
  rw [stack]
  cases d.lookup name with
  | none => rfl
  | some value => rfl

theorem depth_le {b : Binding V} (hb : b ∈ stack l name) : b.depth ≤ l.length := by
  induction l with
  | nil => cases hb
  | cons d l ih =>
    rw [stack_cons, List.mem_append, Option.mem_toList, Option.map_eq_some_iff] at hb
    rw [List.length_cons]
    rcases hb with ⟨value, -, rfl⟩ | hb
    · exact le_rfl
    · exact (ih hb).trans (Nat.le_succ _)

/-- The values on a name's stack are the ones its scopes bind it to. -/
theorem stack_values : (stack l name).map Binding.value = (Scopes.column l name).reduceOption := by
  induction l with
  | nil => rfl
  | cons d l ih =>
    have hcolumn : Scopes.column (d :: l) name = d.lookup name :: Scopes.column l name := rfl
    rw [stack_cons, List.map_append, ih, hcolumn]
    cases d.lookup name with
    | none => rw [List.reduceOption_cons_of_none]; rfl
    | some value => rw [List.reduceOption_cons_of_some]; rfl

/-- The first wanted value there is. -/
theorem find?_reduceOption (wanted : V → Bool) (c : List (Option V)) :
    c.reduceOption.find? wanted = c.findSome? fun v => v.filter wanted := by
  induction c with
  | nil => rfl
  | cons v c ih =>
    cases v with
    | none => rw [List.reduceOption_cons_of_none, ih, List.findSome?_cons, Option.filter_none]
    | some value =>
      rw [List.reduceOption_cons_of_some, List.find?_cons, ih, List.findSome?_cons, Option.filter_some]
      cases wanted value <;> rfl

theorem Logged.length {log : List Symbol} {marks : List ℕ} (h : Logged l log marks) :
    l.length = marks.length + 1 := by
  fun_induction Logged l log marks with
  | case1 => exact h.elim
  | case2 d log marks => rw [h]; rfl
  | case3 d d' l log marks ih =>
    obtain ⟨names, rest, marks', -, rfl, -, -, hrest⟩ := h
    rw [List.length_cons, ih rest marks' hrest, List.length_cons]

end Stack

section Represents

variable {s : ScopeMap V} {l : List (Dict Symbol V)} {name : Symbol} {value : V}

theorem Represents.depth_eq (h : Represents s l) : s.depth = l.length := h.logged.length.symm

theorem Represents.ne_nil (h : Represents s l) : l ≠ [] := by
  rintro rfl
  exact h.logged

theorem represents_new : Represents (new : ScopeMap V) [∅] := ⟨fun _ => rfl, rfl⟩

/-- What a name means is what is on top of its stack. -/
theorem Represents.get_eq (h : Represents s l) (name : Symbol) : s.get name = Scopes.get l name := by
  rw [get, h.bound, ← List.head?_map, stack_values, Scopes.get_eq_column]
  exact List.head?_filterMap

theorem Represents.getWhere_eq (h : Represents s l) (name : Symbol) (wanted : V → Bool) :
    s.getWhere name wanted = Scopes.getWhere l name wanted := by
  rw [getWhere, h.bound, stack_values, Scopes.getWhere_eq_column, find?_reduceOption]

theorem Represents.getHere_eq (h : Represents s l) (name : Symbol) : s.getHere name = Scopes.getHere l name := by
  rw [getHere, h.bound, h.depth_eq]
  cases l with
  | nil => rfl
  | cons d l =>
    rw [stack_cons, Scopes.getHere, List.head?_cons, Option.bind_some]
    cases d.lookup name with
    | some value => simp
    | none =>
      rw [Option.map_none, Option.toList_none, List.nil_append, Option.bind_eq_none_iff]
      intro top htop
      rw [if_neg]
      have := depth_le (List.mem_of_mem_head? htop)
      rw [List.length_cons]
      omega

theorem Represents.push (h : Represents s l) : Represents s.push (∅ :: l) := by
  refine ⟨fun name => ?_, ?_⟩
  · rw [stack_cons, Finmap.lookup_empty]
    exact h.bound name
  · cases l with
    | nil => exact h.logged.elim
    | cons d l =>
      refine ⟨[], s.log, s.marks, rfl, rfl, List.nodup_nil, fun name => ?_, h.logged⟩
      exact iff_of_false List.not_mem_nil Finmap.notMem_empty

/-! ## Declaring -/

theorem stack_insert (d : Dict Symbol V) (l : List (Dict Symbol V)) (name other : Symbol) (value : V) :
    stack (d.insert name value :: l) other =
      if other = name then ⟨l.length + 1, value⟩ :: stack l name else stack (d :: l) other := by
  rw [stack_cons, stack_cons]
  split_ifs with heq
  · rw [heq, Finmap.lookup_insert]
    rfl
  · rw [Finmap.lookup_insert_of_ne _ heq]

/-- What the innermost map binds stays in the log as it is, and what it binds anew goes on top. -/
theorem Logged.declare {d : Dict Symbol V} {log : List Symbol} {marks : List ℕ}
    (h : Logged (d :: l) log marks) :
    Logged (d.insert name value :: l) (if name ∈ d then log else name :: log) marks := by
  cases l with
  | nil => exact h
  | cons d' l =>
    obtain ⟨names, rest, marks', rfl, rfl, hnodup, hnames, hrest⟩ := h
    split_ifs with hmem
    · refine ⟨names, rest, marks', rfl, rfl, hnodup, fun other => ?_, hrest⟩
      rw [hnames, Finmap.mem_insert]
      exact ⟨Or.inr, fun hor => hor.elim (fun heq => heq ▸ hmem) id⟩
    · refine ⟨name :: names, rest, marks', rfl, rfl, ?_, fun other => ?_, hrest⟩
      · exact List.nodup_cons.mpr ⟨fun hin => hmem ((hnames name).mp hin), hnodup⟩
      · rw [List.mem_cons, hnames, Finmap.mem_insert]

theorem declare_again {top : Binding V} {rest : List (Binding V)} (hstack : s.bindings name = top :: rest)
    (hdepth : top.depth = s.depth) :
    s.declare name value = (some top.value,
      { s with bindings := Function.update s.bindings name ({ top with value := value } :: rest) }) := by
  unfold declare
  rw [hstack]
  exact if_pos hdepth

theorem declare_fresh (hdepth : ∀ top ∈ s.bindings name, top.depth ≠ s.depth) : s.declare name value = (none,
      { s with bindings := Function.update s.bindings name (⟨s.depth, value⟩ :: s.bindings name)
               log := name :: s.log }) := by
  unfold declare
  cases hstack : s.bindings name with
  | nil => rfl
  | cons top rest =>
    rw [hstack] at hdepth
    exact if_neg (hdepth top List.mem_cons_self)

/-- A declaration in the innermost scope finds on top of the stack what that scope binds the name to. -/
theorem Represents.declare (h : Represents s l) (name : Symbol) (value : V) :
    (s.declare name value).1 = Scopes.getHere l name ∧
      Represents (s.declare name value).2 (Scopes.declare l name value) := by
  cases l with
  | nil => exact h.logged.elim
  | cons d l =>
    have hdepth : s.depth = l.length + 1 := h.depth_eq
    have hstack := h.bound name
    have hlog := @Logged.declare V l name value d s.log s.marks h.logged
    -- the new stacks are the old ones but for the name's
    have hbound (top : List (Binding V)) (htop : top = ⟨l.length + 1, value⟩ :: stack l name)
        (other : Symbol) :
        Function.update s.bindings name top other = stack (d.insert name value :: l) other := by
      rw [stack_insert, Function.update_apply, h.bound, htop]
    rw [stack_cons] at hstack
    rw [Scopes.getHere, List.head?_cons, Option.bind_some]
    cases hlookup : d.lookup name with
    | some was =>
      rw [hlookup] at hstack
      rw [if_pos (Finmap.mem_of_lookup_eq_some hlookup)] at hlog
      rw [declare_again hstack hdepth.symm]
      exact ⟨rfl, hbound _ rfl, hlog⟩
    | none =>
      rw [hlookup] at hstack
      rw [if_neg (Finmap.lookup_eq_none.mp hlookup)] at hlog
      rw [declare_fresh fun top htop => ?_]
      · exact ⟨rfl, hbound _ (by rw [hdepth, hstack]; rfl), hlog⟩
      · rw [hstack] at htop
        have := depth_le htop
        omega

theorem stack_eq_nil_iff : stack l name = [] ↔ Scopes.get l name = none := by
  rw [← List.map_eq_nil_iff (f := Binding.value), stack_values, Scopes.get_eq_column]
  unfold List.reduceOption
  rw [List.filterMap_eq_nil_iff, List.findSome?_eq_none_iff]

/-- What is put in the outermost map of a name bound nowhere is at the bottom of its stack. -/
theorem stack_declareOutermost (hl : l ≠ []) (hnone : Scopes.get l name = none) (other : Symbol) :
    stack (Scopes.declareOutermost l name value) other =
      if other = name then [⟨1, value⟩] else stack l other := by
  fun_induction Scopes.declareOutermost l name value with
  | case1 => exact absurd rfl hl
  | case2 d =>
    rw [stack_insert]
    rfl
  | case3 d l hne ih =>
    have hcons : (d.lookup name) = none ∧ Scopes.get l name = none := by
      unfold Scopes.get at hnone ⊢
      rw [List.findSome?_cons] at hnone
      cases hd : d.lookup name with
      | none => rw [hd] at hnone; exact ⟨rfl, hnone⟩
      | some was => rw [hd] at hnone; cases hnone
    rw [stack_cons, stack_cons, ih hne hcons.2, Scopes.length_declareOutermost]
    split_ifs with heq
    · rw [heq, hcons.1]
      rfl
    · rfl

/-- The log says nothing of the outermost map. -/
theorem Logged.declareOutermost {log : List Symbol} {marks : List ℕ} (h : Logged l log marks) :
    Logged (Scopes.declareOutermost l name value) log marks := by
  fun_induction Scopes.declareOutermost l name value generalizing log marks with
  | case1 => exact h
  | case2 d => exact h
  | case3 d l hne ih =>
    cases l with
    | nil => exact absurd rfl hne
    | cons d' l =>
      obtain ⟨names, rest, marks', hlog, hmarks, hnodup, hnames, hrest⟩ := h
      have hrest' := ih hrest
      cases hl : Scopes.declareOutermost (d' :: l) name value with
      | nil => rw [hl] at hrest'; exact hrest'.elim
      | cons d'' l' =>
        rw [hl] at hrest'
        exact ⟨names, rest, marks', hlog, hmarks, hnodup, hnames, hrest'⟩

theorem Represents.isEmpty_iff (h : Represents s l) (name : Symbol) :
    (s.bindings name).isEmpty = true ↔ Scopes.get l name = none := by
  rw [List.isEmpty_iff, h.bound, stack_eq_nil_iff]

/-- A declaration in the file scope takes when the name is bound nowhere. -/
theorem Represents.declareAtFileScope (h : Represents s l) (hnone : Scopes.get l name = none) :
    (s.declareAtFileScope name value).1 = true ∧
      Represents (s.declareAtFileScope name value).2 (Scopes.declareOutermost l name value) := by
  unfold ScopeMap.declareAtFileScope
  rw [if_pos ((h.isEmpty_iff name).mpr hnone)]
  refine ⟨rfl, fun other => ?_, h.logged.declareOutermost⟩
  rw [stack_declareOutermost h.ne_nil hnone, ← h.bound other]
  exact Function.update_apply ..

/-! ## Closing a scope -/

/-- Taking the log back to a mark unbinds each name as often as the log above the mark holds it. -/
theorem undo_append (names rest : List Symbol) (bindings : Symbol → List (Binding V)) :
    undo rest.length (names ++ rest) bindings =
      (rest, fun name => (bindings name).drop (names.count name)) := by
  induction names generalizing bindings with
  | nil =>
    cases rest with
    | nil => rfl
    | cons name rest => exact if_neg (lt_irrefl _)
  | cons name names ih =>
    rw [List.cons_append, undo, if_pos (by rw [List.length_cons, List.length_append]; omega), ih]
    refine Prod.ext rfl (funext fun other => ?_)
    dsimp only
    rw [List.count_cons, Function.update_apply]
    by_cases heq : other = name
    · rw [if_pos heq, heq, beq_self_eq_true, if_pos rfl, ← List.drop_one, List.drop_drop, Nat.add_comm]
    · rw [if_neg heq, if_neg (by simpa using Ne.symm heq), Nat.add_zero]

theorem Represents.pop (h : Represents s l) :
    (l.length = 1 ∧ s.pop = none) ∨ (1 < l.length ∧ ∃ s', s.pop = some s' ∧ Represents s' l.tail) := by
  match l, h with
  | [], h => exact h.logged.elim
  | [d], h =>
    refine Or.inl ⟨rfl, ?_⟩
    have hmarks : s.marks = [] := h.logged
    rw [ScopeMap.pop, hmarks]
  | d :: d' :: l, h =>
    obtain ⟨names, rest, marks', hlog, hmarks, hnodup, hnames, hrest⟩ := h.logged
    refine Or.inr ⟨by simp, ⟨fun name => (s.bindings name).drop (names.count name), rest, marks'⟩, ?_, ?_,
      hrest⟩
    · rw [ScopeMap.pop, hmarks, hlog]
      dsimp only
      rw [undo_append]
    · intro name
      dsimp only
      rw [h.bound, stack_cons]
      by_cases hmem : name ∈ d
      · obtain ⟨value, hvalue⟩ := Finmap.mem_iff.mp hmem
        rw [List.count_eq_one_of_mem hnodup ((hnames name).mpr hmem), hvalue]
        rfl
      · rw [List.count_eq_zero.mpr fun hin => hmem ((hnames name).mp hin), Finmap.lookup_eq_none.mpr hmem]
        rfl

/-! ## Every operation and every run -/

/-- An operation gives the answer the dictionaries give, and leaves a map that stands for theirs. -/
theorem Represents.step (h : Represents s l) (op : Op Symbol V) :
    Option.Rel (fun x y => x.1 = y.1 ∧ Represents x.2 y.2) (s.step op) (Scopes.step l op) := by
  cases op with
  | push => exact .some ⟨rfl, h.push⟩
  | pop =>
    unfold ScopeMap.step Scopes.step
    rcases h.pop with ⟨hone, hpop⟩ | ⟨hmore, s', hpop, hs'⟩
    · rw [hpop, if_neg (by omega)]
      exact .none
    · rw [hpop, if_pos hmore]
      exact .some ⟨rfl, hs'⟩
  | declare name value => exact .some ⟨congrArg _ (h.declare name value).1, (h.declare name value).2⟩
  | declareAtFileScope name value =>
    unfold ScopeMap.step Scopes.step
    dsimp only
    by_cases hnone : Scopes.get l name = none
    · have hdeclared := @Represents.declareAtFileScope V s l name value h hnone
      rw [if_pos hnone]
      exact .some ⟨congrArg _ hdeclared.1, hdeclared.2⟩
    · have hbound : s.declareAtFileScope name value = (false, s) :=
        if_neg fun hempty => hnone ((h.isEmpty_iff name).mp hempty)
      rw [if_neg hnone, hbound]
      exact .some ⟨rfl, h⟩
  | get name => exact .some ⟨congrArg _ (h.get_eq name), h⟩
  | getWhere name wanted => exact .some ⟨congrArg _ (h.getWhere_eq name wanted), h⟩
  | getHere name => exact .some ⟨congrArg _ (h.getHere_eq name), h⟩

end Represents

/-- A run that never closes the file scope gives the answers of the dictionaries. -/
theorem run_of_nest {k : ℕ} (h : Scopes.nest 0 ops = some k) :
    ∃ answers s l, Scopes.run step new ops = some (answers, s) ∧
      Scopes.run Scopes.step [∅] ops = some (answers, l) ∧ l.length = k + 1 ∧ Represents s l := by
  obtain ⟨answers, l, hrun, hl⟩ := Scopes.run_of_nest (l := [(∅ : Dict Symbol V)]) rfl h
  have hrel := Scopes.run_rel (fun s l op (h : Represents s l) => h.step op) ops (represents_new (V := V))
  rw [hrun] at hrel
  generalize hs : Scopes.run step new ops = r at hrel
  cases hrel with
  | @some x _ hx => exact ⟨answers, x.2, l, congrArg (fun a => some (a, x.2)) hx.1, hrun, hl, hx.2⟩

/-- Closing a scope gives back what every name meant before the scope was opened, but for a name that meant
nothing and was declared in the file scope meanwhile. -/
theorem run_scope {s : ScopeMap V} {l : List (Dict Symbol V)} (hs : Represents s l)
    (h : Scopes.nest 0 ops = some 0) :
    ∃ answers s', Scopes.run step s (.push :: ops ++ [.pop]) = some (answers, s') ∧ ∀ name,
      (s'.get name = s.get name ∧ (∀ wanted, s'.getWhere name wanted = s.getWhere name wanted) ∧
        s'.getHere name = s.getHere name) ∨
      (s.get name = none ∧ ∃ value, .declareAtFileScope name value ∈ ops ∧ s'.get name = some value) := by
  obtain ⟨answers, l', hrun, hkept⟩ := Scopes.run_scope hs.ne_nil h
  have hrel := Scopes.run_rel (fun s l op (h : Represents s l) => h.step op) (.push :: ops ++ [.pop]) hs
  rw [hrun] at hrel
  generalize hs' : Scopes.run step s (.push :: ops ++ [.pop]) = r at hrel
  cases hrel with
  | @some x _ hx =>
    refine ⟨x.1, x.2, rfl, fun name => ?_⟩
    have hrep : Represents x.2 l' := hx.2
    rw [hrep.get_eq, hs.get_eq, hrep.getHere_eq, hs.getHere_eq]
    refine (hkept name).imp (fun hcolumn => ?_) id
    obtain ⟨hget, hwhere, hhere⟩ := Scopes.means_of_column hcolumn
    exact ⟨hget, fun wanted => by rw [hrep.getWhere_eq, hs.getWhere_eq, hwhere], hhere⟩

/-- Every run that never closes the file scope gives the answers a list of dictionaries gives, and in every
run a scope that closes gives back what every name meant before it was opened, but for the names declared in
the file scope in between. -/
theorem refines_dictionaries :
    (∀ (ops : List (Op Symbol V)) (k : ℕ), Scopes.nest 0 ops = some k →
      ∃ answers s l, Scopes.run step new ops = some (answers, s) ∧
        Scopes.run Scopes.step [∅] ops = some (answers, l) ∧ l.length = k + 1) ∧
      ∀ (before ops : List (Op Symbol V)) (answers : List (Answer V)) (s : ScopeMap V),
        Scopes.run step new before = some (answers, s) → Scopes.nest 0 ops = some 0 →
        ∃ answers' s', Scopes.run step s (.push :: ops ++ [.pop]) = some (answers', s') ∧ ∀ name,
          (s'.get name = s.get name ∧ (∀ wanted, s'.getWhere name wanted = s.getWhere name wanted) ∧
            s'.getHere name = s.getHere name) ∨
          (s.get name = none ∧ ∃ value, .declareAtFileScope name value ∈ ops ∧ s'.get name = some value) := by
  refine ⟨fun ops k h => ?_, fun before ops answers s hbefore h => ?_⟩
  · obtain ⟨answers, s, l, hrun, hrun', hl, -⟩ := run_of_nest h
    exact ⟨answers, s, l, hrun, hrun', hl⟩
  · have hrel := Scopes.run_rel (fun s l op (h : Represents s l) => h.step op) before
      (represents_new (V := V))
    rw [hbefore] at hrel
    generalize Scopes.run Scopes.step [∅] before = r at hrel
    cases hrel with
    | some hx => exact run_scope hx.2 h

/-- A name declared in a scope opened and closed again, and one declared in the file scope from inside it. -/
theorem refines_dictionaries_block :
    (∃ answers s l, Scopes.run step new ([.push, .declare ⟨1⟩ 4, .get ⟨1⟩, .pop] : List (Op Symbol ℕ)) =
        some (answers, s) ∧
      Scopes.run Scopes.step [∅] ([.push, .declare ⟨1⟩ 4, .get ⟨1⟩, .pop] : List (Op Symbol ℕ)) =
        some (answers, l) ∧ l.length = 1) ∧
      ∃ answers' s', Scopes.run step (new : ScopeMap ℕ)
          (.push :: [.declare ⟨1⟩ 4, .declareAtFileScope ⟨2⟩ 7] ++ [.pop]) = some (answers', s') ∧ ∀ name,
        (s'.get name = (new : ScopeMap ℕ).get name ∧
          (∀ wanted, s'.getWhere name wanted = (new : ScopeMap ℕ).getWhere name wanted) ∧
          s'.getHere name = (new : ScopeMap ℕ).getHere name) ∨
        ((new : ScopeMap ℕ).get name = none ∧ ∃ value,
          .declareAtFileScope name value ∈ ([.declare ⟨1⟩ 4, .declareAtFileScope ⟨2⟩ 7] : List (Op Symbol ℕ)) ∧
            s'.get name = some value) :=
  ⟨refines_dictionaries.1 _ 0 (by decide), refines_dictionaries.2 [] _ [] new rfl (by decide)⟩

end ScopeMap

end Rucc.Base
