import Rucc.Pp.CondComma
import Rucc.Pp.CondNumber

/-!
# The value of a controlling expression

On the tokens of an expression the evaluator gives the value C gives it, in the type C gives it, and reports nothing. On
any other tokens it ends having found an error, which it reports where it was found in what is evaluated.
-/

namespace Rucc.Pp.Cond

namespace Expr

variable {K K' : Tok → ℤ → Bool → Prop} {e : Expr}

theorem Wf.mono (h : e.Wf K) (hK : ∀ tok n isUnsigned, K tok n isUnsigned → K' tok n isUnsigned) : e.Wf K' := by
  induction e with
  | const tok n isUnsigned => exact hK _ _ _ h
  | paren opening e closing ih => exact ⟨h.1, ih h.2.1, h.2.2⟩
  | unary op tok e ih => exact ⟨h.1, ih h.2.1, h.2.2⟩
  | binary op l tok r ihl ihr => exact ⟨ihl h.1, h.2.1, ihr h.2.2.1, h.2.2.2⟩
  | cond c question yes colon no ihc ihyes ihno =>
    obtain ⟨⟨hc, hquestion, hyes, hcolon, hno⟩, hlevels⟩ := h
    exact ⟨⟨ihc hc, hquestion, ihyes hyes, hcolon, ihno hno⟩, hlevels⟩

end Expr

variable {cx : Context} {tok : Tok} {n : ℤ} {isUnsigned : Bool}

/-- Every character constant is of a signed type to the evaluator. -/
theorem parseChar_signed {chars : Chars} {text : List Char} {v : Val} (h : parseChar chars text = .ok v) :
    v.unsigned = false := by
  unfold parseChar at h
  split at h
  case h_1 => cases h
  case h_2 body _ =>
    cases hread : readChars body 0 0 with
    | error problem =>
      rw [hread] at h
      cases h
    | ok read =>
      rw [hread] at h
      change (if _ then _ else _) = _ at h
      split_ifs at h
      all_goals
        obtain rfl := Except.ok.inj h
        rfl

/-- A number below `2^64` is the value of its bits where it is read as unsigned or fits a signed value. -/
theorem toInt_ofNat {k : ℕ} (h : k < 2^64) (hsigned : isUnsigned = false → k < 2^63) :
    (⟨BitVec.ofNat 64 k, isUnsigned⟩ : Val).toInt = k := by
  cases isUnsigned with
  | true => rw [Val.toInt_unsigned, BitVec.toNat_ofNat, Nat.mod_eq_of_lt h]
  | false =>
    have hlt := hsigned rfl
    rw [Val.toInt_signed, BitVec.toInt_eq_toNat_of_lt (by rw [BitVec.toNat_ofNat]; omega), BitVec.toNat_ofNat,
      Nat.mod_eq_of_lt h]

/-- The evaluator takes the constants of C for what they are. -/
theorem Constant.accepted (h : Constant cx tok n isUnsigned) : Accepted cx tok n isUnsigned := by
  cases h with
  | number s hkind htext hlt =>
    refine ⟨_, Or.inl ⟨hkind, htext ▸ parseInteger_text s hlt⟩, (toInt_ofNat hlt fun hsigned => ?_).symm, rfl⟩
    have hfits := (Bool.or_eq_false_iff.1 hsigned).2
    exact not_le.1 (of_decide_eq_false hfits)
  | char v hkind hread hpre => exact ⟨v, Or.inr (Or.inl ⟨hkind, hread⟩), rfl, (parseChar_signed hread).symm⟩
  | name hkind =>
    refine ⟨_, Or.inr (Or.inr ⟨hkind, rfl⟩), ?_, ?_⟩
    · split <;> rfl
    · split <;> rfl

/-- For the tokens of any expression of C's, with its constants what they are, and for any other tokens. -/
theorem run_expression (cx : Context) (what : String) (diagnostics : List Diagnostic) :
    (∀ e : Expr, e.Wf (Constant cx) → e.Plain → ∀ n, e.sem = some n →
      ∃ v s, run cx what e.toks diagnostics = some (some v, s) ∧ v.toInt = n ∧ v.unsigned = e.isUnsigned ∧
        s.diagnostics = diagnostics) ∧
    (∀ tokens, ∃ v s, run cx what tokens diagnostics = some (v, s) ∧ diagnostics <+: s.diagnostics ∧
      ((∀ e : Expr, e.Wf (Accepted cx) → e.toks ≠ tokens) → s.diagnostics ≠ diagnostics ∨ s.unreported ≠ [])) := by
  refine ⟨fun e hwf hplain n hn => ?_, fun tokens => ?_⟩
  · have haccepted := hwf.mono fun _ _ _ => Constant.accepted
    obtain ⟨hunsigned, hvalue⟩ := agrees haccepted hplain
    obtain ⟨hn, hquiet⟩ := hvalue n hn
    obtain ⟨⟨v, s⟩, hrun, hv, hdiagnostics⟩ := run_toks (Expr.graft_parsed haccepted hplain).1 what diagnostics
    rw [Expr.graft_toks] at hrun
    rw [Expr.graft_val] at hv
    obtain rfl : v = some e.val := hv
    exact ⟨e.val, s, hrun, hn, hunsigned, hdiagnostics (e.graft_quiet.2 hquiet)⟩
  · obtain ⟨⟨v, s⟩, hrun, hprefix, hfinds⟩ := @run_ends cx what tokens diagnostics
    refine ⟨v, s, hrun, hprefix, fun hno => ?_⟩
    by_contra hquiet
    push Not at hquiet
    obtain ⟨e, he, htoks⟩ := hfinds hquiet.1 hquiet.2
    obtain ⟨d, hd, hdtoks, -⟩ := Expr.exists_wf he
    exact hno d hd (hdtoks.trans htoks.symm)

/-! ## A conditional expression of two types -/

/-- The texts of three symbols, for a target with signed characters. -/
def threeTexts : Context :=
  ⟨fun sym => if sym.raw = 0 then ['0'] else if sym.raw = 1 then ['1'] else ['0', 'u'], .DUMMY, ⟨true, true, 32⟩⟩

def numberTok (raw : ℕ) : Tok := ⟨.Number, .EMPTY, some ⟨raw⟩, .DUMMY, .DUMMY, .EMPTY, 0, false⟩

def punctTok (p : Punct) : Tok := ⟨.Punct p, .EMPTY, none, .DUMMY, .DUMMY, .EMPTY, 0, false⟩

/-- `1 ? -1 : 0u` -/
def minusOne : Expr :=
  .cond (.const (numberTok 1) 1 false) (punctTok .Question)
    (.unary .minus (punctTok .Minus) (.const (numberTok 1) 1 false)) (punctTok .Colon) (.const (numberTok 2) 0 true)

theorem constant_one : Constant threeTexts (numberTok 1) 1 false :=
  .number ⟨.decimal, '1', [], ⟨none, none, true⟩, (by decide : '1' ≠ '0'), ⟨1, by decide, rfl⟩, nofun⟩ rfl rfl
    (by decide)

theorem constant_zero : Constant threeTexts (numberTok 2) 0 true :=
  .number ⟨.octal, '0', [], ⟨some false, none, true⟩, rfl, ⟨0, by decide, rfl⟩, nofun⟩ rfl rfl (by decide)

/-- The operand that is not evaluated makes the value the largest one of the unsigned type. -/
theorem run_minusOne : ∃ v s, run threeTexts "#if" minusOne.toks [] = some (some v, s) ∧ v.toInt = 2^64 - 1 ∧
    v.unsigned = true ∧ s.diagnostics = [] :=
  (run_expression threeTexts "#if" []).1 minusOne
    ⟨⟨constant_one, rfl, ⟨rfl, constant_one, by decide⟩, rfl, constant_zero⟩, by decide, by decide⟩
    ⟨trivial, trivial, trivial⟩ (2^64 - 1) rfl

/-! ## A branch that is not evaluated -/

/-- The last token of an expression is no operator. -/
theorem Expr.last_toks {K : Tok → ℤ → Bool → Prop} (hK : ∀ tok n isUnsigned, K tok n isUnsigned → tok.punct = none)
    {e : Expr} (h : e.Wf K) :
    e.toks ≠ [] ∧ ∀ tok ∈ e.toks.getLast?, tok.punct = none ∨ tok.punct = some .RParen := by
  induction e with
  | const tok n isUnsigned => exact ⟨by simp [toks], fun _ hlast => Or.inl (Option.some.inj hlast ▸ hK _ _ _ h)⟩
  | paren opening e closing ih =>
    refine ⟨by simp [toks], fun tok hlast => Or.inr ?_⟩
    rw [toks, ← List.cons_append, List.getLast?_concat] at hlast
    exact Option.some.inj hlast ▸ h.2.2
  | unary op tok e ih =>
    obtain ⟨hne, hlast⟩ := ih h.2.1
    refine ⟨by simp [toks], ?_⟩
    rwa [toks, ← List.singleton_append, List.getLast?_append_of_ne_nil _ hne]
  | binary op l tok r ihl ihr =>
    obtain ⟨hne, hlast⟩ := ihr h.2.2.1
    refine ⟨by simp [toks], ?_⟩
    rwa [toks, ← List.singleton_append, ← List.append_assoc, List.getLast?_append_of_ne_nil _ hne]
  | cond c question yes colon no ihc ihyes ihno =>
    obtain ⟨hne, hlast⟩ := ihno h.1.2.2.2.2
    refine ⟨by simp [toks], ?_⟩
    have hsplit : (cond c question yes colon no).toks = (c.toks ++ question :: (yes.toks ++ [colon])) ++ no.toks := by
      simp [toks]
    rwa [hsplit, List.getLast?_append_of_ne_nil _ hne]

/-- A constant is no punctuator. -/
theorem Constant.punct (h : Constant cx tok n isUnsigned) : tok.punct = none := by
  cases h with
  | number s hkind => simp [Tok.punct, hkind]
  | char v hkind => simp [Tok.punct, hkind]
  | name hkind => simp [Tok.punct, hkind]

/-- On the tokens `0 &&`, which are no expression, nothing is reported. -/
theorem not_reported : ¬ ∀ tokens : List Tok, (∀ e : Expr, e.Wf (Constant threeTexts) → e.toks ≠ tokens) →
    ∀ v s, run threeTexts "#if" tokens [] = some (v, s) → s.diagnostics ≠ [] := by
  intro hall
  refine hall [numberTok 0, punctTok .AmpAmp] (fun e he htoks => ?_) _ _ rfl rfl
  have hlast := (Expr.last_toks (fun _ _ _ => Constant.punct) he).2 (punctTok .AmpAmp) (by rw [htoks]; rfl)
  rcases hlast with hnone | hparen
  · cases hnone
  · cases hparen

end Rucc.Pp.Cond
