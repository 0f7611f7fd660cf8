import Rucc.Lib.Rounds
import Rucc.Lib.Yields
import Rucc.Pp.CondSpec

/-!
# What the evaluator parses

The evaluator ends on every list of tokens, within three rounds for each token. The lists it finds no error in are those
of the expressions of its own grammar, which is C's but for the comma: to it a comma binds tighter than `?:`. On the
tokens of such an expression it gives the value that its operators have on the values of their operands.
-/

namespace Rucc.Pp.Cond

variable {p : Punct} {tok : Tok} {live : Bool} {s : Eval} {rest : List Tok} {least : ℕ} {lhs : Val} {e : Expr}

/-! ## The evaluator's grammar -/

namespace BinOp

/-- How tight the evaluator binds an operator. -/
def prec : BinOp → ℕ
  | comma => 1
  | op => op.level

theorem prec_spec (op : BinOp) : binaryOp op.punct = some op.prec := by cases op <;> rfl

theorem prec_bounds (op : BinOp) : 1 ≤ op.prec ∧ op.prec ≤ 11 := by cases op <;> decide

end BinOp

theorem exists_binOp {prec : ℕ} (h : binaryOp p = some prec) : ∃ op : BinOp, op.punct = p ∧ op.prec = prec := by
  cases p <;> simp only [binaryOp, Option.some.injEq, reduceCtorEq] at h <;> subst h
  · exact ⟨.amp, rfl, rfl⟩
  · exact ⟨.star, rfl, rfl⟩
  · exact ⟨.plus, rfl, rfl⟩
  · exact ⟨.minus, rfl, rfl⟩
  · exact ⟨.slash, rfl, rfl⟩
  · exact ⟨.percent, rfl, rfl⟩
  · exact ⟨.shl, rfl, rfl⟩
  · exact ⟨.shr, rfl, rfl⟩
  · exact ⟨.lt, rfl, rfl⟩
  · exact ⟨.gt, rfl, rfl⟩
  · exact ⟨.le, rfl, rfl⟩
  · exact ⟨.ge, rfl, rfl⟩
  · exact ⟨.eqEq, rfl, rfl⟩
  · exact ⟨.ne, rfl, rfl⟩
  · exact ⟨.caret, rfl, rfl⟩
  · exact ⟨.pipe, rfl, rfl⟩
  · exact ⟨.ampAmp, rfl, rfl⟩
  · exact ⟨.pipePipe, rfl, rfl⟩
  · exact ⟨.comma, rfl, rfl⟩

namespace Expr

/-- How tight the evaluator binds an expression. -/
def strength : Expr → ℕ
  | const _ _ _ | paren _ _ _ => 13
  | unary _ _ _ => 12
  | binary op _ _ _ => op.prec
  | cond _ _ _ _ _ => 0

/-- The expressions of the evaluator's grammar. -/
def Parsed (K : Tok → ℤ → Bool → Prop) : Expr → Prop
  | const tok n isUnsigned => K tok n isUnsigned
  | paren opening e closing => opening.punct = some .LParen ∧ e.Parsed K ∧ closing.punct = some .RParen
  | unary op tok e => tok.punct = some op.punct ∧ e.Parsed K ∧ 12 ≤ e.strength
  | binary op l tok r =>
    l.Parsed K ∧ tok.punct = some op.punct ∧ r.Parsed K ∧ op.prec ≤ l.strength ∧ op.prec < r.strength
  | cond c question yes colon no =>
    (c.Parsed K ∧ question.punct = some .Question ∧ yes.Parsed K ∧ colon.punct = some .Colon ∧ no.Parsed K) ∧
      1 ≤ c.strength

end Expr

namespace Eval

variable {s s' : Eval}

variable {p : Punct}

/-- The precedence of the binary operator that is next, and zero where none is. -/
def prec (s : Eval) : ℕ := (s.peekPunct.bind binaryOp).getD 0

theorem prec_le (s : Eval) : s.prec ≤ 12 := by
  unfold prec
  cases hprec : s.peekPunct.bind binaryOp with
  | none => simp
  | some prec =>
    obtain ⟨p, -, hp⟩ := Option.bind_eq_some_iff.1 hprec
    obtain ⟨op, -, rfl⟩ := exists_binOp hp
    exact op.prec_bounds.2.trans (by decide)

/-- How many errors were found so far. -/
def errors (s : Eval) : ℕ := s.diagnostics.length + s.unreported.length

/-- What reading on does to a state. -/
structure Grows (s s' : Eval) : Prop where
  rest : s'.rest <:+ s.rest
  diagnostics : s.diagnostics <+: s'.diagnostics
  unreported : s.unreported <+: s'.unreported

namespace Grows

theorem refl (s : Eval) : Grows s s := ⟨List.suffix_rfl, List.prefix_rfl, List.prefix_rfl⟩

theorem trans {s'' : Eval} (h : Grows s s') (h' : Grows s' s'') : Grows s s'' :=
  ⟨h'.rest.trans h.rest, h.diagnostics.trans h'.diagnostics, h.unreported.trans h'.unreported⟩

theorem errors_le (h : Grows s s') : s.errors ≤ s'.errors :=
  Nat.add_le_add h.diagnostics.length_le h.unreported.length_le

theorem length_le (h : Grows s s') : s'.rest.length ≤ s.rest.length := h.rest.length_le

theorem advance (s : Eval) : Grows s s.advance := ⟨List.tail_suffix _, List.prefix_rfl, List.prefix_rfl⟩

theorem report (d : Diagnostic) (live : Bool) (s : Eval) : Grows s (s.report d live) := by
  unfold Eval.report
  split
  · exact ⟨List.suffix_rfl, List.prefix_append _ _, List.prefix_rfl⟩
  · exact ⟨List.suffix_rfl, List.prefix_rfl, List.prefix_append _ _⟩

theorem error (cx : Context) (message code : String) (live : Bool) (s : Eval) :
    Grows s (s.error cx message code live) := report _ _ _

end Grows

@[simp]
theorem errors_advance (s : Eval) : s.advance.errors = s.errors := rfl

@[simp]
theorem errors_report (d : Diagnostic) (live : Bool) (s : Eval) : (s.report d live).errors = s.errors + 1 := by
  unfold report errors
  split <;> simp only [List.length_append, List.length_cons, List.length_nil] <;> omega

@[simp]
theorem errors_error (cx : Context) (message code : String) (live : Bool) (s : Eval) :
    (s.error cx message code live).errors = s.errors + 1 := errors_report _ _ _

/-- A token that is a punctuator is next. -/
theorem peekPunct_eq_some : s.peekPunct = some p ↔ ∃ tok rest, s.rest = tok :: rest ∧ tok.punct = some p := by
  unfold peekPunct
  cases s.rest with
  | nil => simp
  | cons tok rest => simp

theorem eat_eq_some : s.eat p = some s' ↔ ∃ tok, s.rest = tok :: s'.rest ∧ tok.punct = some p ∧ s' = s.advance := by
  unfold eat
  constructor
  · intro h
    split at h
    case isTrue hpeek =>
      obtain ⟨tok, rest, hrest, hpunct⟩ := peekPunct_eq_some.1 hpeek
      obtain rfl := Option.some.inj h
      exact ⟨tok, by simp [advance, hrest], hpunct, rfl⟩
    case isFalse => cases h
  · rintro ⟨tok, hrest, hpunct, rfl⟩
    exact if_pos (peekPunct_eq_some.2 ⟨tok, _, hrest, hpunct⟩)

end Eval

variable (cx : Context)

/-! ## The rounds -/

theorem extends_succ (fuel : ℕ) :
    (∀ live s, Extends (conditional cx fuel live s) (conditional cx (fuel + 1) live s)) ∧
    (∀ least live s, Extends (binary cx fuel least live s) (binary cx (fuel + 1) least live s)) ∧
    (∀ least live lhs s, Extends (climb cx fuel least live lhs s) (climb cx (fuel + 1) least live lhs s)) ∧
    (∀ live s, Extends (unary cx fuel live s) (unary cx (fuel + 1) live s)) := by
  induction fuel with
  | zero =>
    refine ⟨fun live s => ?_, fun least live s => ?_, fun least live lhs s => ?_, fun live s => ?_⟩
    · rw [conditional]
      exact Extends.none_left _
    · rw [binary]
      exact Extends.none_left _
    · rw [climb]
      exact Extends.none_left _
    · rw [unary]
      exact Extends.none_left _
  | succ fuel ih =>
    obtain ⟨hcond, hbin, hclimb, hun⟩ := ih
    refine ⟨fun live s => ?_, fun least live s => ?_, fun least live lhs s => ?_, fun live s => ?_⟩
    · rw [conditional, conditional]
      refine (hbin 0 live s).bind fun (c, s) => ?_
      dsimp only
      split
      · exact Extends.refl _
      refine (hcond _ _).bind fun (yes, s) => ?_
      dsimp only
      split
      · exact Extends.refl _
      exact (hcond _ _).bind fun _ => Extends.refl _
    · rw [binary, binary]
      exact (hun live s).bind fun (lhs, s) => hclimb _ _ _ _
    · rw [climb, climb]
      split
      · exact Extends.refl _
      split
      · exact Extends.refl _
      exact (hbin _ _ _).bind fun (rhs, s) => hclimb _ _ _ _
    · rw [unary, unary]
      split
      · exact Extends.refl _
      split
      · exact hun _ _
      · exact (hun _ _).bind fun _ => Extends.refl _
      · exact (hun _ _).bind fun _ => Extends.refl _
      · exact (hun _ _).bind fun _ => Extends.refl _
      · exact (hcond _ _).bind fun _ => Extends.refl _
      · exact Extends.refl _

/-! ## What is parsed -/

/-- What was read from a state on. Where no error was found it is an expression. -/
def Finds (s : Eval) (P : Expr → Eval → Prop) (r : Val × Eval) : Prop :=
  s.Grows r.2 ∧
    (r.2.errors = s.errors → ∃ e : Expr, e.Parsed (Accepted cx) ∧ P e r.2 ∧ s.rest = e.toks ++ r.2.rest)

/-- What the loop reads. An expression that the next operator may follow is made a longer one. -/
def Lengthens (least : ℕ) (s : Eval) (r : Val × Eval) : Prop :=
  s.Grows r.2 ∧
    (r.2.errors = s.errors → ∀ l : Expr,
      l.Parsed (Accepted cx) → max least 1 ≤ l.strength → s.prec ≤ l.strength →
        ∃ e : Expr, e.Parsed (Accepted cx) ∧ (max least 1 ≤ e.strength ∧ r.2.prec ≤ least - 1) ∧
          l.toks ++ s.rest = e.toks ++ r.2.rest)

/-! With enough rounds for the tokens that are left, each function ends and finds what it is there for. -/

def ConditionalEnds (fuel : ℕ) : Prop := ∀ live s, 3 * s.rest.length + 3 ≤ fuel →
  Yields (conditional cx fuel live s) (Finds cx s fun _ _ => True)

def BinaryEnds (fuel : ℕ) : Prop := ∀ least live s, least ≤ 12 → 3 * s.rest.length + 2 ≤ fuel →
  Yields (binary cx fuel least live s) (Finds cx s fun e s' => max least 1 ≤ e.strength ∧ s'.prec ≤ least - 1)

def ClimbEnds (fuel : ℕ) : Prop := ∀ least live lhs s, 3 * s.rest.length + 1 ≤ fuel →
  Yields (climb cx fuel least live lhs s) (Lengthens cx least s)

def UnaryEnds (fuel : ℕ) : Prop := ∀ live s, 3 * s.rest.length + 1 ≤ fuel →
  Yields (unary cx fuel live s) (Finds cx s fun e _ => 12 ≤ e.strength)

variable {cx}

theorem constant_grows (read : Except String Val) (tok : Tok) (code : String) (live : Bool) (s : Eval) :
    s.Grows (constant read tok code live s).2 := by
  unfold constant
  split
  · exact Eval.Grows.refl s
  · exact Eval.Grows.report _ _ _

/-- A constant that no error was found in was read. -/
theorem constant_ok {read : Except String Val} {code : String}
    (h : (constant read tok code live s).2.errors = s.errors) :
    ∃ v, read = .ok v ∧ (constant read tok code live s).2 = s := by
  unfold constant at h ⊢
  cases read with
  | ok v => exact ⟨v, rfl, rfl⟩
  | error problem => simp at h

theorem operand_finds (hrest : s.rest = tok :: rest) (live : Bool) :
    Finds cx s (fun e _ => 12 ≤ e.strength) (operand cx tok live s) := by
  have hleft : s.advance.rest = rest := by simp [Eval.advance, hrest]
  have hconst : ∀ v, (tok.kind = .Number ∧ parseInteger (cx.text tok) = .ok v ∨
      tok.kind = .CharConst ∧ parseChar cx.chars (cx.text tok) = .ok v ∨
      tok.kind = .Ident ∧ v = if cx.text tok = "true".toList then .signed 1 else .ZERO) →
      ∃ e : Expr, e.Parsed (Accepted cx) ∧ 12 ≤ e.strength ∧ s.rest = e.toks ++ s.advance.rest := fun v hv =>
    ⟨.const tok v.toInt v.unsigned, ⟨v, hv, rfl, rfl⟩, by simp [Expr.strength], by
      simp [Expr.toks, hrest, hleft]⟩
  unfold operand
  split
  case h_1 hkind =>
    refine ⟨(Eval.Grows.advance s).trans (constant_grows _ _ _ _ _), fun h => ?_⟩
    obtain ⟨v, hv, hs⟩ := constant_ok h
    rw [number, hs]
    exact hconst v (Or.inl ⟨hkind, hv⟩)
  case h_2 hkind =>
    refine ⟨(Eval.Grows.advance s).trans (constant_grows _ _ _ _ _), fun h => ?_⟩
    obtain ⟨v, hv, hs⟩ := constant_ok h
    rw [charConst, hs]
    exact hconst v (Or.inr (Or.inl ⟨hkind, hv⟩))
  case h_3 hkind =>
    exact ⟨Eval.Grows.advance s, fun _ => hconst _ (Or.inr (Or.inr ⟨hkind, rfl⟩))⟩
  case h_4 =>
    exact ⟨(Eval.Grows.error _ _ _ _ s).trans (Eval.Grows.advance _), fun h => by simp at h⟩

theorem apply_grows (op : Punct) (lhs rhs : Val) (live : Bool) (s : Eval) : s.Grows (apply cx op lhs rhs live s).2 := by
  unfold apply
  split
  · exact Eval.Grows.refl s
  · exact Eval.Grows.error _ _ _ _ _

theorem apply_rest (op : Punct) (lhs rhs : Val) (live : Bool) (s : Eval) :
    (apply cx op lhs rhs live s).2.rest = s.rest := by
  unfold apply
  split
  · rfl
  · unfold Eval.error Eval.report
    split <;> rfl

/-- An operator in front of an operand. -/
theorem Finds.unary (hrest : s.rest = tok :: rest) (op : UnOp)
    (hop : tok.punct = some op.punct) {r : Val × Eval} (h : Finds cx s.advance (fun e _ => 12 ≤ e.strength) r)
    (v : Val) : Finds cx s (fun e _ => 12 ≤ e.strength) (v, r.2) := by
  obtain ⟨hgrows, hfinds⟩ := h
  refine ⟨(Eval.Grows.advance s).trans hgrows, fun herrors => ?_⟩
  obtain ⟨e, hparsed, hstrength, htoks⟩ := hfinds herrors
  refine ⟨.unary op tok e, ⟨hop, hparsed, hstrength⟩, by simp [Expr.strength], ?_⟩
  simp only [Eval.advance, hrest, List.tail_cons] at htoks
  rw [hrest, htoks, Expr.toks, List.cons_append]

theorem advance_length (hrest : s.rest = tok :: rest) : s.advance.rest.length + 1 = s.rest.length := by
  simp [Eval.advance, hrest]

section Steps

variable {fuel : ℕ}

theorem UnaryEnds.succ (hcond : ConditionalEnds cx fuel) (hun : UnaryEnds cx fuel) : UnaryEnds cx (fuel + 1) := by
  intro live s hfuel
  rw [unary]
  split
  case h_1 =>
    exact Yields.some_iff.2 ⟨Eval.Grows.error _ _ _ _ _, fun h => by simp at h⟩
  case h_2 tok rest hrest =>
    have hlength := advance_length hrest
    have hthere := hun live s.advance (by omega)
    split
    case h_1 hpunct => exact hthere.mono fun r hr => hr.unary hrest .plus hpunct r.1
    case h_2 hpunct => exact hthere.bind fun r hr => Yields.some_iff.2 (hr.unary hrest .minus hpunct _)
    case h_3 hpunct => exact hthere.bind fun r hr => Yields.some_iff.2 (hr.unary hrest .tilde hpunct _)
    case h_4 hpunct => exact hthere.bind fun r hr => Yields.some_iff.2 (hr.unary hrest .bang hpunct _)
    case h_5 hpunct =>
      refine (hcond live s.advance (by omega)).bind fun (v, s') ⟨hgrows, hfinds⟩ => ?_
      dsimp only at hgrows hfinds ⊢
      split
      case h_1 s'' heat =>
        obtain ⟨closing, hclosing, hpunct', rfl⟩ := Eval.eat_eq_some.1 heat
        have hread := ((Eval.Grows.advance s).trans hgrows).trans (Eval.Grows.advance s')
        refine Yields.some_iff.2 ⟨hread, fun herrors => ?_⟩
        obtain ⟨e, hparsed, -, htoks⟩ := hfinds herrors
        refine ⟨.paren tok e closing, ⟨hpunct, hparsed, hpunct'⟩, by simp [Expr.strength], ?_⟩
        simp only [Eval.advance, hrest, List.tail_cons] at htoks
        rw [hrest, htoks, hclosing]
        simp [Expr.toks]
      case h_2 =>
        have hread := ((Eval.Grows.advance s).trans hgrows).trans (Eval.Grows.error cx "expected `)`" "E0322" live s')
        refine Yields.some_iff.2 ⟨hread, fun h => ?_⟩
        have := hgrows.errors_le
        simp only [Eval.errors_advance, Eval.errors_error] at h this
        omega
    case h_6 => exact Yields.some_iff.2 (operand_finds hrest live)

theorem ClimbEnds.succ (hbin : BinaryEnds cx fuel) (hclimb : ClimbEnds cx fuel) : ClimbEnds cx (fuel + 1) := by
  intro least live lhs s hfuel
  rw [climb]
  split
  case h_1 hnone =>
    have hprec : s.prec = 0 := by
      unfold Eval.prec
      cases hpeek : s.peekPunct with
      | none => rfl
      | some p =>
        rw [hpeek] at hnone
        have hop : binaryOp p = none := by simpa using hnone
        simp [hop]
    refine Yields.some_iff.2 ⟨Eval.Grows.refl s, fun _ l hl hleast _ => ?_⟩
    exact ⟨l, hl, ⟨hleast, hprec ▸ Nat.zero_le _⟩, rfl⟩
  case h_2 punct prec hsome =>
    obtain ⟨p, hpeek, hop⟩ := Option.bind_eq_some_iff.1 hsome
    obtain ⟨prec', hprec, heq⟩ := Option.map_eq_some_iff.1 hop
    obtain ⟨rfl, rfl⟩ := Prod.mk.inj heq
    have hs : s.prec = prec' := by simp [Eval.prec, hpeek, hprec]
    obtain ⟨op, rfl, rfl⟩ := exists_binOp hprec
    obtain ⟨tok, rest, hrest, hpunct⟩ := Eval.peekPunct_eq_some.1 hpeek
    have hlength := advance_length hrest
    split
    case isTrue hlt =>
      exact Yields.some_iff.2 ⟨Eval.Grows.refl s, fun _ l hl hleast _ =>
        ⟨l, hl, ⟨hleast, hs ▸ Nat.le_sub_one_of_lt hlt⟩, rfl⟩⟩
    case isFalse hle =>
      have hbounds := op.prec_bounds
      refine (hbin _ _ s.advance (by omega) (by omega)).bind fun (rhs, s') ⟨hgrows, hfinds⟩ => ?_
      dsimp only at hgrows hfinds ⊢
      have happly := @apply_grows cx op.punct lhs rhs live s'
      have hrest' := @apply_rest cx op.punct lhs rhs live s'
      generalize apply cx op.punct lhs rhs live s' = r at happly hrest' ⊢
      have hle' := hgrows.length_le
      refine (hclimb _ _ r.1 r.2 (by rw [hrest']; omega)).mono fun r' ⟨hgrows', hfinds'⟩ => ?_
      have hread := (((Eval.Grows.advance s).trans hgrows).trans happly).trans hgrows'
      refine ⟨hread, fun herrors l hl hleast hprec' => ?_⟩
      have h1 := hgrows.errors_le
      have h2 := happly.errors_le
      have h3 := hgrows'.errors_le
      rw [Eval.errors_advance] at h1
      obtain ⟨e, he, ⟨hstrength, hnext⟩, htoks⟩ := hfinds (by rw [Eval.errors_advance]; omega)
      obtain ⟨e', he', hstrength', htoks'⟩ := hfinds' (by omega) (.binary op l tok e)
        ⟨hl, hpunct, he, hs ▸ hprec', by omega⟩ (by simp only [Expr.strength]; omega)
        (by simpa [Eval.prec, Eval.peekPunct, hrest', Expr.strength] using hnext)
      refine ⟨e', he', hstrength', ?_⟩
      simp only [Eval.advance, hrest, List.tail_cons] at htoks
      rw [← htoks', hrest', hrest, htoks]
      simp [Expr.toks]

theorem BinaryEnds.succ (hclimb : ClimbEnds cx fuel) (hun : UnaryEnds cx fuel) : BinaryEnds cx (fuel + 1) := by
  intro least live s hleast hfuel
  rw [binary]
  refine (hun live s (by omega)).bind fun (lhs, s') ⟨hgrows, hfinds⟩ => ?_
  dsimp only at hgrows hfinds ⊢
  have hlength := hgrows.length_le
  refine (hclimb least live lhs s' (by omega)).mono fun r ⟨hgrows', hlengthens⟩ => ?_
  refine ⟨hgrows.trans hgrows', fun herrors => ?_⟩
  have h1 := hgrows.errors_le
  have h2 := hgrows'.errors_le
  obtain ⟨l, hl, hstrength, htoks⟩ := hfinds (by omega)
  have hprec := s'.prec_le
  obtain ⟨e, he, hspec, htoks'⟩ := hlengthens (by omega) l hl (by omega) (by omega)
  exact ⟨e, he, hspec, htoks.trans htoks'⟩

theorem ConditionalEnds.succ (hcond : ConditionalEnds cx fuel) (hbin : BinaryEnds cx fuel) :
    ConditionalEnds cx (fuel + 1) := by
  intro live s hfuel
  rw [conditional]
  refine (hbin 0 live s (by omega) (by omega)).bind fun (cond, s₁) ⟨hgrows, hfinds⟩ => ?_
  dsimp only at hgrows hfinds ⊢
  have h1 := hgrows.errors_le
  split
  case h_1 =>
    refine Yields.some_iff.2 ⟨hgrows, fun herrors => ?_⟩
    obtain ⟨e, he, -, htoks⟩ := hfinds herrors
    exact ⟨e, he, trivial, htoks⟩
  case h_2 s₂ heat =>
    obtain ⟨question, hquestion, hpunct, rfl⟩ := Eval.eat_eq_some.1 heat
    have hlength := advance_length hquestion
    have hle := hgrows.length_le
    refine (hcond _ s₁.advance (by omega)).bind fun (yes, s₂) ⟨hgrows', hfinds'⟩ => ?_
    dsimp only at hgrows' hfinds' ⊢
    have hread := (hgrows.trans (Eval.Grows.advance s₁)).trans hgrows'
    have h2 := hgrows'.errors_le
    rw [Eval.errors_advance] at h2
    split
    case h_1 =>
      refine Yields.some_iff.2 ⟨hread.trans (Eval.Grows.error _ _ _ _ _), fun herrors => ?_⟩
      rw [Eval.errors_error] at herrors
      omega
    case h_2 s₃ heat' =>
      obtain ⟨colon, hcolon, hpunct', rfl⟩ := Eval.eat_eq_some.1 heat'
      have hlength' := advance_length hcolon
      have hle' := hgrows'.length_le
      refine (hcond _ s₂.advance (by omega)).bind fun (otherwise, s₃) ⟨hgrows'', hfinds''⟩ => ?_
      dsimp only at hgrows'' hfinds'' ⊢
      have h3 := hgrows''.errors_le
      rw [Eval.errors_advance] at h3
      refine Yields.some_iff.2 ⟨(hread.trans (Eval.Grows.advance s₂)).trans hgrows'', fun herrors => ?_⟩
      dsimp only at herrors
      obtain ⟨c, hc, ⟨hstrength, -⟩, hctoks⟩ := hfinds (by omega)
      obtain ⟨a, ha, -, hatoks⟩ := hfinds' (by rw [Eval.errors_advance]; omega)
      obtain ⟨b, hb, -, hbtoks⟩ := hfinds'' (by rw [Eval.errors_advance]; omega)
      refine ⟨.cond c question a colon b, ⟨⟨hc, hpunct, ha, hpunct', hb⟩, by omega⟩, trivial, ?_⟩
      rw [hctoks, hquestion, hatoks, hcolon, hbtoks]
      simp [Expr.toks]

end Steps

theorem ends (fuel : ℕ) :
    ConditionalEnds cx fuel ∧ BinaryEnds cx fuel ∧ ClimbEnds cx fuel ∧ UnaryEnds cx fuel := by
  induction fuel with
  | zero =>
    refine ⟨fun _ _ h => ?_, fun _ _ _ _ h => ?_, fun _ _ _ _ h => ?_, fun _ _ h => ?_⟩
    all_goals exact absurd h (by omega)
  | succ fuel ih =>
    obtain ⟨hcond, hbin, hclimb, hun⟩ := ih
    exact ⟨hcond.succ hbin, BinaryEnds.succ hclimb hun, ClimbEnds.succ hbin hclimb, UnaryEnds.succ hcond hun⟩

/-- On any tokens the evaluator ends, and where it found no error they are those of an expression of its grammar. -/
theorem run_ends (what : String) (tokens : List Tok) (diagnostics : List Diagnostic) :
    Yields (run cx what tokens diagnostics) fun r => diagnostics <+: r.2.diagnostics ∧
      (r.2.diagnostics = diagnostics → r.2.unreported = [] →
        ∃ e : Expr, e.Parsed (Accepted cx) ∧ tokens = e.toks) := by
  cases tokens with
  | nil =>
    refine Yields.some_iff.2 ⟨List.prefix_append _ _, fun h => ?_⟩
    simp at h
  | cons tok rest =>
    refine ((ends _).1 true ⟨tok :: rest, diagnostics, []⟩ le_rfl).bind fun (value, s) ⟨hgrows, hfinds⟩ => ?_
    dsimp only at hgrows hfinds ⊢
    split
    case h_1 hrest =>
      refine Yields.some_iff.2 ⟨hgrows.diagnostics, fun h h' => ?_⟩
      dsimp only at h h'
      obtain ⟨e, he, -, htoks⟩ := hfinds (by simp [Eval.errors, h, h'])
      exact ⟨e, he, by rw [htoks, hrest, List.append_nil]⟩
    case h_2 =>
      have hread := hgrows.trans (Eval.Grows.error cx s!"extra tokens after the `{what}` expression" "E0321" true s)
      refine Yields.some_iff.2 ⟨hread.diagnostics, fun h h' => ?_⟩
      have herrors := hgrows.errors_le
      have hmore := s.errors_error cx s!"extra tokens after the `{what}` expression" "E0321" true
      simp only [Eval.errors, List.length_nil] at herrors hmore
      rw [h, h'] at hmore
      simp only [List.length_nil] at hmore
      omega

/-! ## What is made of an expression -/

namespace Expr

/-- The value the evaluator makes of an expression, which is zero for a division by zero. -/
def val : Expr → Val
  | const _ n isUnsigned => ⟨BitVec.ofInt 64 n, isUnsigned⟩
  | paren _ e _ => e.val
  | unary .plus _ e => e.val
  | unary .minus _ e => { e.val with bits := -e.val.bits }
  | unary .tilde _ e => { e.val with bits := ~~~e.val.bits }
  | unary .bang _ e => .boolean !e.val.isTrue
  | binary op l _ r => (applied op.punct l.val r.val).getD .ZERO
  | cond c _ yes _ no => chosen c.val yes.val no.val

/-- The expressions that no division by zero is evaluated in. -/
def Quiet : Expr → Prop
  | const _ _ _ => True
  | paren _ e _ | unary _ _ e => e.Quiet
  | binary op l _ r =>
    l.Quiet ∧ (rightLive op.punct l.val true = true → r.Quiet) ∧ (applied op.punct l.val r.val).isSome
  | cond c _ yes _ no => c.Quiet ∧ if c.val.isTrue then yes.Quiet else no.Quiet

end Expr

/-- The precedence of the binary operator at the front of some tokens, and zero where none is. -/
def nextPrec (rest : List Tok) : ℕ := ((rest.head?.bind Tok.punct).bind binaryOp).getD 0

/-- Nothing at the front of the tokens continues an expression. -/
def Stops (rest : List Tok) : Prop := nextPrec rest = 0 ∧ rest.head?.bind Tok.punct ≠ some .Question

/-- The state behind an expression. Only what is evaluated is reported. -/
def Behind (e : Expr) (rest : List Tok) (live : Bool) (s s' : Eval) : Prop :=
  s'.rest = rest ∧ ((live = true → e.Quiet) → s'.diagnostics = s.diagnostics)

/-- A function reads the expression in front of other tokens. -/
def Reads (f : ℕ → Bool → Eval → Option (Val × Eval)) (e : Expr) (rest : List Tok) : Prop :=
  ∀ live s, s.rest = e.toks ++ rest → ∃ s', Behind e rest live s s' ∧ Settles (fun n => f n live s) (e.val, s')

/-- `binary` reads the expression, and goes on with what is behind it. -/
def ReadsOn (cx : Context) (least : ℕ) (e : Expr) (rest : List Tok) : Prop :=
  ∀ live s, s.rest = e.toks ++ rest → ∃ s', Behind e rest live s s' ∧
    ∀ r, Settles (fun n => climb cx n least live e.val s') r → Settles (fun n => binary cx n least live s) r

theorem climb_stops (h : nextPrec s.rest ≤ least - 1) :
    Settles (fun n => climb cx n least live lhs s) (lhs, s) := by
  refine Settles.of_succ (fun n => ?_) (Settles.const (lhs, s))
  rw [climb]
  split
  case h_1 => rfl
  case h_2 punct prec hsome =>
    obtain ⟨p, hpeek, hop⟩ := Option.bind_eq_some_iff.1 hsome
    obtain ⟨prec', hprec, heq⟩ := Option.map_eq_some_iff.1 hop
    obtain ⟨rfl, rfl⟩ := Prod.mk.inj heq
    have hnext : nextPrec s.rest = prec' := by
      show (Option.bind s.peekPunct binaryOp).getD 0 = prec'
      rw [hpeek, Option.bind_some, hprec, Option.getD_some]
    obtain ⟨op, rfl, rfl⟩ := exists_binOp hprec
    have hbounds := op.prec_bounds
    rw [if_pos (by omega)]

theorem Reads.readsOn (h : Reads (unary cx) e rest) (least : ℕ) : ReadsOn cx least e rest := by
  intro live s hs
  obtain ⟨s', hbehind, hsettles⟩ := h live s hs
  refine ⟨s', hbehind, fun r hr => ?_⟩
  refine Settles.of_succ (fun n => ?_) (hsettles.bind (g := fun n r => climb cx n least live r.1 r.2) hr)
  rw [binary]
  rfl

theorem ReadsOn.reads (h : ReadsOn cx least e rest)
    (hrest : nextPrec rest ≤ least - 1) : Reads (fun n => binary cx n least) e rest := by
  intro live s hs
  obtain ⟨s', hbehind, hon⟩ := h live s hs
  exact ⟨s', hbehind, hon _ (climb_stops (hbehind.1.symm ▸ hrest))⟩

/-- What `conditional` does with what it read in front of a question mark. -/
def chooseBetween (cx : Context) (fuel : ℕ) (live : Bool) (cond : Val) (s : Eval) : Option (Val × Eval) :=
  match s.eat .Question with
  | none => some (cond, s)
  | some s => do
    let (yes, s) ← conditional cx fuel (live && cond.isTrue) s
    match s.eat .Colon with
    | none => some (.ZERO, s.error cx "expected `:` in a conditional expression" "E0322" live)
    | some s => do
      let (otherwise, s) ← conditional cx fuel (live && !cond.isTrue) s
      some (chosen cond yes otherwise, s)

theorem conditional_succ (fuel : ℕ) (live : Bool) (s : Eval) : conditional cx (fuel + 1) live s =
      (binary cx fuel 0 live s).bind fun r => chooseBetween cx fuel live r.1 r.2 := by
  rw [conditional]
  rfl

theorem Reads.conditional {e : Expr} {rest : List Tok} (h : Reads (fun n => binary cx n 0) e rest)
    (hrest : rest.head?.bind Tok.punct ≠ some .Question) : Reads (conditional cx) e rest := by
  intro live s hs
  obtain ⟨s', hbehind, hsettles⟩ := h live s hs
  refine ⟨s', hbehind, Settles.of_succ (fun n => conditional_succ n live s) (hsettles.bind ?_)⟩
  have heat : s'.eat .Question = none := by
    unfold Eval.eat Eval.peekPunct
    rw [hbehind.1, if_neg hrest]
  simp only [chooseBetween, heat]
  exact Settles.const _

theorem eat_of_rest (h : s.rest = tok :: rest) (hp : tok.punct = some p) : s.eat p = some s.advance :=
  Eval.eat_eq_some.2 ⟨tok, by rw [h]; simp [Eval.advance, h], hp, rfl⟩

theorem advance_rest (h : s.rest = tok :: rest) : s.advance.rest = rest := by
  simp [Eval.advance, h]

/-- The punctuators that close an operand stop it. -/
theorem stops_cons (h : tok.punct = some p) (hp : p = .RParen ∨ p = .Colon)
    (rest : List Tok) : Stops (tok :: rest) := by
  rcases hp with rfl | rfl <;> simp [Stops, nextPrec, h, binaryOp]

/-! Each of the ways to make an expression. -/

theorem reads_const {n : ℤ} {isUnsigned : Bool} (h : Accepted cx tok n isUnsigned) (rest : List Tok) :
    Reads (unary cx) (.const tok n isUnsigned) rest := by
  obtain ⟨v, hv, rfl, rfl⟩ := h
  intro live s hs
  simp only [Expr.toks, List.cons_append, List.nil_append] at hs
  have hval : (Expr.const tok v.toInt v.unsigned).val = v := by
    obtain ⟨bits, _ | _⟩ := v
    · simp [Expr.val, Val.toInt]
    · simp [Expr.val, Val.toInt]
  refine ⟨s.advance, ⟨advance_rest hs, fun _ => rfl⟩, Settles.of_succ (fun n => ?_) (Settles.const _)⟩
  have hpunct : tok.punct = none := by
    rcases hv with ⟨hkind, -⟩ | ⟨hkind, -⟩ | ⟨hkind, -⟩ <;> simp [Tok.punct, hkind]
  rw [hval, unary]
  simp only [hs, hpunct, operand]
  rcases hv with ⟨hkind, hread⟩ | ⟨hkind, hread⟩ | ⟨hkind, rfl⟩
  · simp only [hkind, number, constant, hread]
  · simp only [hkind, charConst, constant, hread]
  · simp only [hkind]

theorem reads_paren {opening closing : Tok} (hopening : opening.punct = some .LParen)
    (hclosing : closing.punct = some .RParen) (h : Reads (conditional cx) e (closing :: rest)) :
    Reads (unary cx) (.paren opening e closing) rest := by
  intro live s hs
  have hs : s.rest = opening :: (e.toks ++ closing :: rest) := by simpa [Expr.toks] using hs
  obtain ⟨s', ⟨hrest, hquiet⟩, hsettles⟩ := h live s.advance (advance_rest hs)
  refine ⟨s'.advance, ⟨advance_rest hrest, hquiet⟩, ?_⟩
  refine Settles.of_succ (fun n => ?_) (hsettles.bind (g := fun _ r =>
    (r.2.eat .RParen).elim (some (r.1, r.2.error cx "expected `)`" "E0322" live)) fun s => some (r.1, s)) ?_)
  · rw [unary]
    simp only [hs, hopening]
    refine congrArg (Option.bind _) (funext fun r => ?_)
    cases r.2.eat .RParen <;> rfl
  · simp only [eat_of_rest hrest hclosing]
    exact Settles.const _

theorem reads_unary {op : UnOp} (hop : tok.punct = some op.punct)
    (h : Reads (unary cx) e rest) : Reads (unary cx) (.unary op tok e) rest := by
  intro live s hs
  simp only [Expr.toks, List.cons_append] at hs
  obtain ⟨s', ⟨hrest, hquiet⟩, hsettles⟩ := h live s.advance (advance_rest hs)
  refine ⟨s', ⟨hrest, hquiet⟩, ?_⟩
  cases op with
  | plus =>
    refine Settles.of_succ (fun n => ?_) hsettles
    rw [unary]
    simp only [hs, hop, UnOp.punct]
  | minus =>
    refine Settles.of_succ (fun n => ?_) (hsettles.bind (g := fun _ r => some ({ r.1 with bits := -r.1.bits }, r.2))
      (Settles.const _))
    rw [unary]
    simp only [hs, hop, UnOp.punct]
    rfl
  | tilde =>
    refine Settles.of_succ (fun n => ?_) (hsettles.bind (g := fun _ r => some ({ r.1 with bits := ~~~r.1.bits }, r.2))
      (Settles.const _))
    rw [unary]
    simp only [hs, hop, UnOp.punct]
    rfl
  | bang =>
    refine Settles.of_succ (fun n => ?_) (hsettles.bind (g := fun _ r => some (.boolean !r.1.isTrue, r.2))
      (Settles.const _))
    rw [unary]
    simp only [hs, hop, UnOp.punct]
    rfl

theorem rightLive_eq (op : Punct) (lhs : Val) (live : Bool) :
    rightLive op lhs live = (live && rightLive op lhs true) := by
  unfold rightLive
  split <;> simp

theorem apply_value (op : Punct) (lhs rhs : Val) (live : Bool) (s : Eval) :
    (apply cx op lhs rhs live s).1 = (applied op lhs rhs).getD .ZERO := by
  unfold apply
  cases applied op lhs rhs <;> rfl

theorem apply_quiet {op : Punct} {rhs : Val} (h : live = true → (applied op lhs rhs).isSome)
    (s : Eval) : (apply cx op lhs rhs live s).2.diagnostics = s.diagnostics := by
  unfold apply
  cases happlied : applied op lhs rhs with
  | some v => rfl
  | none =>
    have hlive : live = false := by simpa [happlied] using h
    simp [Eval.error, Eval.report, hlive]

theorem readsOn_binary {op : BinOp} {l r : Expr}
    (hop : tok.punct = some op.punct) (hleast : least ≤ op.prec) (hl : ReadsOn cx least l (tok :: (r.toks ++ rest)))
    (hr : Reads (fun n => binary cx n (op.prec + 1)) r rest) : ReadsOn cx least (.binary op l tok r) rest := by
  intro live s hs
  obtain ⟨s₁, ⟨hrest₁, hquiet₁⟩, hon⟩ := hl live s (by simpa [Expr.toks] using hs)
  obtain ⟨s₂, ⟨hrest₂, hquiet₂⟩, hsettles⟩ := hr (rightLive op.punct l.val live) s₁.advance (advance_rest hrest₁)
  refine ⟨(apply cx op.punct l.val r.val live s₂).2, ⟨?_, fun hquiet => ?_⟩, fun result hresult => hon result ?_⟩
  · rw [apply_rest, hrest₂]
  · rw [apply_quiet fun hlive => (hquiet hlive).2.2, hquiet₂ ?_]
    · exact hquiet₁ fun hlive => (hquiet hlive).1
    · intro hright
      rw [rightLive_eq, Bool.and_eq_true] at hright
      exact (hquiet hright.1).2.1 hright.2
  · refine Settles.of_succ (fun n => ?_) (hsettles.bind (g := fun n r => climb cx n least live
      (apply cx op.punct l.val r.1 live r.2).1 (apply cx op.punct l.val r.1 live r.2).2) ?_)
    · have hpeek : s₁.peekPunct = some op.punct := Eval.peekPunct_eq_some.2 ⟨tok, _, hrest₁, hop⟩
      rw [climb]
      simp only [hpeek, Option.bind_some, op.prec_spec, Option.map_some, if_neg (not_lt.2 hleast)]
      rfl
    · simp only [apply_value]
      exact hresult

theorem reads_cond {c yes no : Expr} {question colon : Tok}
    (hquestion : question.punct = some .Question) (hcolon : colon.punct = some .Colon)
    (hc : Reads (fun n => binary cx n 0) c (question :: (yes.toks ++ colon :: (no.toks ++ rest))))
    (hyes : Reads (conditional cx) yes (colon :: (no.toks ++ rest))) (hno : Reads (conditional cx) no rest) :
    Reads (conditional cx) (.cond c question yes colon no) rest := by
  intro live s hs
  obtain ⟨s₁, ⟨hrest₁, hquiet₁⟩, hsettles₁⟩ := hc live s (by simpa [Expr.toks] using hs)
  obtain ⟨s₂, ⟨hrest₂, hquiet₂⟩, hsettles₂⟩ := hyes (live && c.val.isTrue) s₁.advance (advance_rest hrest₁)
  obtain ⟨s₃, ⟨hrest₃, hquiet₃⟩, hsettles₃⟩ := hno (live && !c.val.isTrue) s₂.advance (advance_rest hrest₂)
  refine ⟨s₃, ⟨hrest₃, fun hquiet => ?_⟩, ?_⟩
  · rw [hquiet₃ ?_]
    · show s₂.diagnostics = s.diagnostics
      rw [hquiet₂ ?_]
      · exact hquiet₁ fun hlive => (hquiet hlive).1
      · intro hlive
        rw [Bool.and_eq_true] at hlive
        simpa [hlive.2] using (hquiet hlive.1).2
    · intro hlive
      rw [Bool.and_eq_true, Bool.not_eq_true'] at hlive
      simpa [hlive.2] using (hquiet hlive.1).2
  · refine Settles.of_succ (fun n => conditional_succ n live s) (hsettles₁.bind ?_)
    simp only [chooseBetween, eat_of_rest hrest₁ hquestion]
    refine hsettles₂.bind (g := fun n r => match r.2.eat .Colon with
      | none => some (Val.ZERO, r.2.error cx "expected `:` in a conditional expression" "E0322" live)
      | some s => (conditional cx n (live && !c.val.isTrue) s).bind fun r' => some (chosen c.val r.1 r'.1, r'.2)) ?_
    simp only [eat_of_rest hrest₂ hcolon]
    exact hsettles₃.bind (Settles.const _)

/-- The three functions read the expressions that they are for. -/
structure ReadsAs (cx : Context) (e : Expr) : Prop where
  unary : 12 ≤ e.strength → ∀ rest, Reads (unary cx) e rest
  readsOn : ∀ least rest, max least 1 ≤ e.strength → nextPrec rest ≤ e.strength → ReadsOn cx least e rest
  conditional : ∀ rest, Stops rest → Reads (conditional cx) e rest

namespace ReadsAs

variable {e : Expr}

theorem of_readsOn (he : 1 ≤ e.strength) (hun : 12 ≤ e.strength → ∀ rest, Reads (Cond.unary cx) e rest)
    (h : ∀ least rest, max least 1 ≤ e.strength → nextPrec rest ≤ e.strength → ReadsOn cx least e rest) :
    ReadsAs cx e where
  unary := hun
  readsOn := h
  conditional rest hrest :=
    ((h 0 rest (by omega) (hrest.1 ▸ Nat.zero_le _)).reads hrest.1.le).conditional hrest.2

theorem of_unary (he : 12 ≤ e.strength) (h : ∀ rest, Reads (Cond.unary cx) e rest) : ReadsAs cx e :=
  of_readsOn (by omega) (fun _ => h) fun least rest _ _ => (h rest).readsOn least

end ReadsAs

theorem readsAs (h : e.Parsed (Accepted cx)) : ReadsAs cx e := by
  induction e with
  | const tok n isUnsigned => exact .of_unary (by simp [Expr.strength]) (reads_const h)
  | paren opening e closing ih =>
    obtain ⟨hopening, he, hclosing⟩ := h
    refine .of_unary (by simp [Expr.strength]) fun rest => ?_
    exact reads_paren hopening hclosing ((ih he).conditional _ (stops_cons hclosing (Or.inl rfl) rest))
  | unary op tok e ih =>
    obtain ⟨hop, he, hstrength⟩ := h
    exact .of_unary (by simp [Expr.strength]) fun rest => reads_unary hop ((ih he).unary hstrength rest)
  | binary op l tok r ihl ihr =>
    obtain ⟨hl, hop, hr, hstrength, hlt⟩ := h
    have hbounds := op.prec_bounds
    have hloose : ¬ 12 ≤ (Expr.binary op l tok r).strength := by
      simp only [Expr.strength]
      omega
    refine .of_readsOn hbounds.1 (fun h => absurd h hloose) fun least rest hleast hrest => ?_
    simp only [Expr.strength] at hleast hrest
    have hnext : nextPrec (tok :: (r.toks ++ rest)) = op.prec := by simp [nextPrec, hop, op.prec_spec]
    refine readsOn_binary hop (by omega) ((ihl hl).readsOn least _ (by omega) (hnext ▸ hstrength)) ?_
    exact ((ihr hr).readsOn (op.prec + 1) rest (by omega) (by omega)).reads hrest
  | cond c question yes colon no ihc ihyes ihno =>
    obtain ⟨⟨hc, hquestion, hyes, hcolon, hno⟩, hstrength⟩ := h
    have hnext (rest) : nextPrec (question :: rest) = 0 := by simp [nextPrec, hquestion, binaryOp]
    refine ⟨fun h => absurd h (by simp [Expr.strength]), fun least rest h => absurd h (by simp [Expr.strength]), ?_⟩
    refine fun rest hrest => reads_cond hquestion hcolon ?_ ?_ ((ihno hno).conditional rest hrest)
    · exact ((ihc hc).readsOn 0 _ (by omega) (hnext _ ▸ Nat.zero_le _)).reads (hnext _).le
    · exact (ihyes hyes).conditional _ (stops_cons hcolon (Or.inr rfl) _)

/-- The evaluator's value of the tokens of an expression, which nothing is reported about where no division by zero is
evaluated. -/
theorem run_toks (h : e.Parsed (Accepted cx)) (what : String) (diagnostics : List Diagnostic) :
    Yields (run cx what e.toks diagnostics) fun r =>
      r.1 = some e.val ∧ (e.Quiet → r.2.diagnostics = diagnostics) := by
  obtain ⟨s', ⟨hrest, hquiet⟩, hsettles⟩ :=
    (readsAs h).conditional [] (by simp [Stops, nextPrec]) true ⟨e.toks, diagnostics, []⟩ (List.append_nil _).symm
  obtain ⟨r, hr, -⟩ := (@ends cx (3 * e.toks.length + 3)).1 true ⟨e.toks, diagnostics, []⟩ le_rfl
  obtain rfl := hsettles.eq_of_some (fun n => (extends_succ cx n).1 _ _) hr
  have hne : e.toks ≠ [] := by cases e <;> simp [Expr.toks]
  obtain ⟨tok, rest, htoks⟩ := List.exists_cons_of_ne_nil hne
  refine ⟨(some e.val, s'), ?_, rfl, fun h => hquiet fun _ => h⟩
  unfold run
  rw [htoks] at hr ⊢
  simp only [hr, Option.bind_eq_bind, Option.bind_some, hrest]

end Rucc.Pp.Cond
