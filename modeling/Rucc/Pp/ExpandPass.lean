import Rucc.Pp.Expand

/-!
# The two shortcuts of the expander

Tokens that the check passes go through the loop as they are, and a body that is copied is what substituting it makes.
-/

namespace Rucc.Pp

open Base

variable {env : Env}

variable {m : MacroDef}

/-- Tokens that the check passes go through the loop as they are: only the count of steps changes, to the one the check
left. -/
theorem expandFrom_of_passesFrom (toks : List Tok) : ∀ (r : Run) (steps : ℕ) (out : List Tok) (rounds : ℕ),
    passesFrom env r.hides r.current toks r.steps = some (some steps) → toks.length < rounds →
    (expandFrom env rounds toks out).run r = some (out ++ toks, { r with steps }) := by
  induction toks with
  | nil =>
    intro r steps out rounds hpasses hlt
    obtain ⟨rounds, rfl⟩ := Nat.exists_eq_add_of_lt hlt
    rw [passesFrom] at hpasses
    obtain rfl := Option.some.inj (Option.some.inj hpasses)
    simp [expandFrom]
  | cons tok toks ih =>
    intro r steps out rounds hpasses hlt
    rw [List.length_cons] at hlt
    obtain ⟨rounds, rfl⟩ := Nat.exists_eq_add_of_le' (show 1 ≤ rounds by omega)
    rw [passesFrom] at hpasses
    rw [expandFrom]
    simp only [StateT.run_bind, StateT.run_get, StateT.run_set, pure_bind]
    generalize hsteps : (if r.current = 0 ∧ tok.trace = 0 then 0 else r.steps) + 1 = steps₁ at hpasses
    have hnext (h : passesFrom env r.hides r.current toks steps₁ = some (some steps)) :
        (expandFrom env rounds toks (out ++ [tok])).run { r with steps := steps₁ } =
          some (out ++ tok :: toks, { r with steps }) := by
      have hrun := ih { r with steps := steps₁ } steps (out ++ [tok]) rounds h (by omega)
      rw [List.append_assoc] at hrun
      exact hrun
    by_cases hmax : MAX_STEPS < steps₁
    · rw [if_pos hmax] at hpasses
      cases hpasses
    rw [if_neg hmax] at hpasses ⊢
    cases hname : tok.ident with
    | none =>
      rw [hname] at hpasses
      exact hnext hpasses
    | some name =>
      rw [hname] at hpasses
      dsimp only at hpasses ⊢
      by_cases hdefined : env.condition.map Condition.defined = some name
      · rw [if_pos hdefined] at hpasses
        cases hpasses
      rw [if_neg hdefined] at hpasses
      have hfilter : env.condition.filter (fun c => decide (c.defined = name)) = none := by
        cases hcondition : env.condition with
        | none => rfl
        | some c =>
          rw [hcondition] at hdefined
          exact Option.filter_some_neg (by simpa using hdefined)
      rw [hfilter]
      obtain ⟨hidden, hhidden, hpasses⟩ := Option.bind_eq_some_iff.1 hpasses
      have hcontains : (contains tok.hides name).run { r with steps := steps₁ } =
          some (hidden, { r with steps := steps₁ }) := by
        show (r.hides.contains tok.hides name).map _ = _
        rw [hhidden]
        rfl
      dsimp only
      rw [StateT.run_bind, hcontains, Option.bind_eq_bind, Option.bind_some]
      dsimp only
      cases hidden with
      | true => exact hnext hpasses
      | false =>
        rw [if_neg Bool.false_ne_true] at hpasses ⊢
        obtain ⟨found, hfound, hpasses⟩ := Option.bind_eq_some_iff.1 hpasses
        have hlookup : (lookup env name).run { r with steps := steps₁ } = some (found, { r with steps := steps₁ }) := by
          show (env.macros.lookup name).map _ = _
          rw [hfound]
          rfl
        rw [StateT.run_bind, hlookup, Option.bind_eq_bind, Option.bind_some]
        cases found with
        | none => exact hnext hpasses
        | some m =>
          dsimp only at hpasses ⊢
          split at hpasses
          case isFalse => cases hpasses
          case isTrue hfunction =>
          split at hpasses
          case isTrue => cases hpasses
          case isFalse hparen =>
          -- a macro that takes arguments, and no parenthesis follows
          rw [Bool.and_eq_true, Option.isNone_iff_eq_none] at hfunction
          rw [hfunction.2]
          dsimp only
          rw [hfunction.1, if_neg (by simp), if_pos hparen]
          exact hnext hpasses

/-! ## A body that is copied -/

/-- A body token as it comes out of a substitution. -/
def marked (hs : HideSet) (invocation : Tok) (here : TraceId) (tok : Tok) : Tok :=
  { tok with hides := hs, expansion := invocation.reportSpan,
             trace := if invocation.ident.isSome then here else tok.trace }

/-- Tokens that nothing hides and that have the chain of the invocation are all marked alike. -/
theorem mark_eq {hs : HideSet} {invocation : Tok} {here : TraceId} (toks : List Tok)
    (hall : ∀ tok ∈ toks, tok.hides = .EMPTY ∧ tok.trace = invocation.trace) :
    mark toks hs invocation here = pure (toks.map (marked hs invocation here)) := by
  rw [mark]
  induction toks with
  | nil => rfl
  | cons tok toks ih =>
    obtain ⟨hhides, htrace⟩ := hall tok List.mem_cons_self
    have hone : markOne hs invocation ⟨[(invocation.trace, here)], (invocation.trace, here), (.EMPTY, hs)⟩ tok =
        pure (⟨[(invocation.trace, here)], (invocation.trace, here), (.EMPTY, hs)⟩, marked hs invocation here tok) := by
      rw [markOne, if_neg (by simp [hhides]), pure_bind]
      cases hident : invocation.ident with
      | none => simp [marked, hident]
      | some name => simp [marked, hident, htrace]
    rw [markFrom, hone, pure_bind]
    dsimp only
    rw [ih fun tok htok => hall tok (List.mem_cons_of_mem _ htok), pure_bind, List.map_cons]

/-- What a token of a replacement list is that comes through substitution as it is. -/
structure Tok.Through (tok : Tok) : Prop where
  paste : tok.is .HashHash = false
  vaOpt : tok.ident ≠ some VA_OPT
  real : tok.placemarker = false

theorem substFrom_eq {expand : List Tok → Expanding (List Tok)} (hobject : m.functionLike = false)
    {args : Args} (toks : List Tok) : ∀ rounds os, toks.length < rounds → (∀ tok ∈ toks, tok.Through) →
    (substFrom env expand m rounds os false toks).run args = pure (os ++ toks, args) := by
  obtain ⟨hparams, hvariadic⟩ := m.object hobject
  have hindex (name : Symbol) : m.paramIndex name = none := by simp [MacroDef.paramIndex, hparams, hvariadic]
  induction toks with
  | nil =>
    intro rounds os hlt _
    obtain ⟨rounds, rfl⟩ := Nat.exists_eq_add_of_le' (show 1 ≤ rounds from hlt)
    simp [substFrom]
  | cons tok toks ih =>
    intro rounds os hlt hall
    rw [List.length_cons] at hlt
    obtain ⟨rounds, rfl⟩ := Nat.exists_eq_add_of_le' (show 1 ≤ rounds by omega)
    obtain ⟨hpaste, hva, -⟩ := hall tok List.mem_cons_self
    have hnext := ih rounds (os ++ [tok]) (by omega) fun tok htok => hall tok (List.mem_cons_of_mem _ htok)
    have hbind : tok.ident.bind m.paramIndex = none := by
      cases tok.ident with
      | none => rfl
      | some name => exact hindex name
    rw [substFrom.eq_def]
    dsimp only
    rw [hobject, Bool.false_and, if_neg Bool.false_ne_true, pure_bind]
    dsimp only
    rw [if_neg (by simp [hpaste]), if_neg hva, hbind]
    dsimp only [emitPlain]
    rw [if_neg Bool.false_ne_true, hnext, List.append_assoc]
    rfl

theorem dropPlacemarkers_eq (toks : List Tok) (hall : ∀ tok ∈ toks, tok.Through) :
    dropPlacemarkers false toks = toks := by
  induction toks with
  | nil => rfl
  | cons tok toks ih =>
    rw [dropPlacemarkers, if_neg (by simp [(hall tok List.mem_cons_self).real]), if_neg Bool.false_ne_true,
      ih fun tok htok => hall tok (List.mem_cons_of_mem _ htok)]

theorem through_bodyToks (hplain : m.plain = true) (invocation : Tok) :
    ∀ tok ∈ bodyToks m invocation, tok.Through := by
  intro tok htok
  obtain ⟨t, ht, rfl⟩ := List.mem_map.1 htok
  rw [MacroDef.plain, Bool.and_eq_true, List.all_eq_true] at hplain
  have hall := hplain.2 t ht
  simp only [ne_eq, Bool.and_eq_true, decide_eq_true_eq, Bool.not_eq_true', Bool.and_eq_false_iff,
    decide_eq_false_iff_not] at hall
  obtain ⟨hpaste, hva⟩ := hall
  refine ⟨?_, ?_, rfl⟩
  · rw [Tok.is, decide_eq_false_iff_not]
    cases hkind : t.kind with
    | Punct p => simpa [Tok.punct, Tok.new, hkind] using hpaste
    | _ => simp [Tok.punct, Tok.new, hkind]
  · cases hkind : t.kind with
    | Ident => simpa [Tok.ident, Tok.new, hkind] using hva
    | _ => simp [Tok.ident, Tok.new, hkind]

/-- A body that is copied is what substituting it makes: the same tokens, with the same spacing, hide sets, places and
chains, and the same state after it. -/
theorem copyOnto_eq (hplain : m.plain = true) (expand : List Tok → Expanding (List Tok)) (args : Args)
    (hs : HideSet) (invocation : Tok) (here : TraceId) (pending : List Tok) :
    copyOnto m hs invocation here pending = substituteOnto env expand m args hs invocation here pending := by
  have hobject : m.functionLike = false := by
    rw [MacroDef.plain, Bool.and_eq_true] at hplain
    simpa using hplain.1
  have hthrough := through_bodyToks hplain invocation
  have hall : ∀ tok ∈ bodyToks m invocation, tok.hides = .EMPTY ∧ tok.trace = invocation.trace := by
    intro tok htok
    obtain ⟨t, -, rfl⟩ := List.mem_map.1 htok
    exact ⟨rfl, rfl⟩
  have hsubst : (substList env expand m (bodyToks m invocation)).run args = pure (bodyToks m invocation, args) := by
    rw [substList, substFrom_eq hobject _ _ _ (Nat.lt_succ_self _) hthrough, List.nil_append]
  have hsubstitute : substituteOnto env expand m args hs invocation here pending =
      pure (pushFront pending (spaced ((bodyToks m invocation).map (marked hs invocation here)) invocation)
        invocation) := by
    funext r
    show StateT.run (substituteOnto env expand m args hs invocation here pending) r = _
    rw [substituteOnto, hsubst]
    simp only [StateT.run_bind, StateT.run_get, StateT.run_modify, StateT.run_pure, pure_bind,
      dropPlacemarkers_eq _ hthrough, mark_eq _ hall]
    rfl
  rw [hsubstitute, copyOnto, mark_eq _ fun tok htok => hall tok (List.mem_reverse.1 htok), pure_bind]
  rw [List.map_reverse, List.reverse_reverse, List.isEmpty_reverse, pushFront]
  cases (bodyToks m invocation).map (marked hs invocation here) with
  | nil => rfl
  | cons tok toks => rfl

/-! ## Both shortcuts -/

/-- Where the check says that tokens need no expansion, the loop gives them back as they are and changes nothing but the
count of steps, which becomes what the check made it; and an object-like macro whose body is copied is expanded to what
substituting its body gives. -/
theorem shortcuts_exact (env : Env) :
    (∀ (toks : List Tok) (current : TraceId) (r r' : Run),
      (passesThrough env toks current).run r = some (true, r') →
      r' = { r with steps := r'.steps } ∧ ∀ out rounds, toks.length < rounds →
        (expandFrom env rounds toks out).run { r with current } = some (out ++ toks, { r' with current })) ∧
    ∀ (expand : List Tok → Expanding (List Tok)) (m : MacroDef) (args : Args) (hs : HideSet) (invocation : Tok)
      (pending : List Tok), m.plain = true →
      substOnto env expand m args hs invocation pending =
        (do let here ← traceHere invocation
            substituteOnto env expand m args hs invocation here pending) := by
  refine ⟨fun toks current r r' hpasses => ?_, fun expand m args hs invocation pending hplain => ?_⟩
  · obtain ⟨answer, hfrom, heq⟩ := Option.map_eq_some_iff.1 hpasses
    cases answer with
    | none => cases heq
    | some steps =>
      obtain rfl : { r with steps } = r' := (Prod.mk.inj heq).2
      exact ⟨rfl, fun out rounds hlt => expandFrom_of_passesFrom toks { r with current } steps out rounds hfrom hlt⟩
  · rw [substOnto, hplain]
    exact congrArg (traceHere invocation >>= ·)
      (funext fun here => copyOnto_eq hplain expand args hs invocation here pending)

/-- A table of one macro, which takes arguments. -/
def oneMacro : MacroTable :=
  ⟨[1], [some ⟨⟨0⟩, true, [], none, [⟨.Number, .EMPTY, none, .DUMMY⟩], .DUMMY, none, by simp⟩]⟩

def oneEnv : Env :=
  ⟨oneMacro, false, none, fun _ => none, fun _ => [], id, fun _ interner => ([], interner), fun _ => 0⟩

def oneRun : Run := ⟨.new, ⟨[]⟩, 0, [], ⟨"", [], [], fun _ => none, fun _ => none, fun _ => none⟩, 0, 0⟩

/-- The name of a macro that takes arguments with no parenthesis after it, and a macro whose body is a number. -/
theorem shortcuts_exact_name :
    let name := Tok.new ⟨.Ident, .EMPTY, some ⟨0⟩, .DUMMY⟩
    let m : MacroDef := ⟨⟨1⟩, false, [], none, [⟨.Number, .EMPTY, none, .DUMMY⟩], .DUMMY, none, by simp⟩
    (expandFrom oneEnv 3 [name, name] []).run oneRun = some ([name, name], { oneRun with steps := 1 }) ∧
      substOnto oneEnv (fun toks => pure toks) m .empty .EMPTY name [] =
        (do let here ← traceHere name
            substituteOnto oneEnv (fun toks => pure toks) m .empty .EMPTY name here []) :=
  ⟨((shortcuts_exact oneEnv).1 _ 0 oneRun { oneRun with steps := 1 } rfl).2 [] 3 (by decide),
    (shortcuts_exact oneEnv).2 _ _ _ _ _ _ rfl⟩

end Rucc.Pp
