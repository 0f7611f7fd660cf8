import Rucc.Pp.CondValue

/-!
# The comma in the two grammars

C's comma is looser than `?:`, and the evaluator's is tighter. So the evaluator takes `a, c ? x : y` for a conditional
expression, which is worth the same, and `c ? x : y, z` for one that ends in `y, z`, which is not. The lists of tokens
that are an expression are those of C's grammar all the same.
-/

namespace Rucc.Pp.Cond

variable {K : Tok → ℤ → Bool → Prop} {l r e : Expr} {tok : Tok}

namespace Expr

/-! ## From C's grammar to the evaluator's -/

/-- A comma as the evaluator reads it. -/
def joinComma (l : Expr) (tok : Tok) : Expr → Expr
  | cond c question yes colon no => cond (binary .comma l tok c) question yes colon no
  | r => binary .comma l tok r

/-- An expression as the evaluator reads it, where no comma is behind a conditional expression. -/
def graft : Expr → Expr
  | const tok n isUnsigned => const tok n isUnsigned
  | paren opening e closing => paren opening e.graft closing
  | unary op tok e => unary op tok e.graft
  | binary op l tok r => if op = .comma then joinComma l.graft tok r.graft else binary op l.graft tok r.graft
  | cond c question yes colon no => cond c.graft question yes.graft colon no.graft

theorem joinComma_toks (l : Expr) (tok : Tok) (r : Expr) : (joinComma l tok r).toks = l.toks ++ tok :: r.toks := by
  cases r <;> simp [joinComma, toks]

theorem joinComma_val (l : Expr) (tok : Tok) (r : Expr) : (joinComma l tok r).val = r.val := by
  cases r <;> rfl

theorem joinComma_quiet (l : Expr) (tok : Tok) (r : Expr) : (joinComma l tok r).Quiet ↔ l.Quiet ∧ r.Quiet := by
  cases r with
  | cond c question yes colon no =>
    have hval : (binary .comma l tok c).val = c.val := rfl
    simp only [joinComma, Quiet, hval, rightLive, BinOp.punct, applied, Option.isSome_some, forall_const, and_true,
      and_assoc]
  | _ => simp [joinComma, Quiet, rightLive, BinOp.punct, applied]

theorem joinComma_of_strength (l : Expr) (tok : Tok) (h : 1 ≤ r.strength) :
    joinComma l tok r = binary .comma l tok r := by
  cases r with
  | cond c question yes colon no => simp [strength] at h
  | _ => rfl

theorem graft_toks (e : Expr) : e.graft.toks = e.toks := by
  induction e with
  | const tok n isUnsigned => rfl
  | paren opening e closing ih => simp only [graft, toks, ih]
  | unary op tok e ih => simp only [graft, toks, ih]
  | binary op l tok r ihl ihr =>
    rw [graft]
    split
    · rw [joinComma_toks, ihl, ihr, toks]
    · simp only [toks, ihl, ihr]
  | cond c question yes colon no ihc ihyes ihno => simp only [graft, toks, ihc, ihyes, ihno]

theorem graft_val (e : Expr) : e.graft.val = e.val := by
  induction e with
  | const tok n isUnsigned => rfl
  | paren opening e closing ih => exact ih
  | unary op tok e ih => cases op <;> simp only [graft, val, ih]
  | binary op l tok r ihl ihr =>
    rw [graft]
    split
    case isTrue hop => rw [joinComma_val, ihr, hop]; rfl
    case isFalse => simp only [val, ihl, ihr]
  | cond c question yes colon no ihc ihyes ihno => simp only [graft, val, ihc, ihyes, ihno]

theorem graft_quiet (e : Expr) : e.graft.Quiet ↔ e.Quiet := by
  induction e with
  | const tok n isUnsigned => exact Iff.rfl
  | paren opening e closing ih => exact ih
  | unary op tok e ih => exact ih
  | binary op l tok r ihl ihr =>
    rw [graft]
    split
    case isTrue hop =>
      rw [joinComma_quiet, ihl, ihr, hop]
      simp [Quiet, rightLive, BinOp.punct, applied]
    case isFalse => simp only [Quiet, graft_val, ihl, ihr]
  | cond c question yes colon no ihc ihyes ihno => simp only [graft, Quiet, graft_val, ihc, ihyes, ihno]

/-- An operator that is no comma binds as tight in both grammars. -/
theorem prec_eq {op : BinOp} (h : op ≠ .comma) : op.prec = op.level ∧ 2 ≤ op.level := by
  cases op <;> first | exact absurd rfl h | exact ⟨rfl, by decide⟩

/-- What is tighter than a comma is tighter than `?:` or is a conditional expression. -/
theorem two_le_level_or (h : 1 ≤ e.level) :
    2 ≤ e.level ∨ ∃ c question yes colon no, e = cond c question yes colon no := by
  cases e with
  | const tok n isUnsigned => exact Or.inl (by simp [level])
  | paren opening e closing => exact Or.inl (by simp [level])
  | unary op tok e => exact Or.inl (by simp [level])
  | binary op l tok r =>
    have hop : op ≠ .comma := by
      rintro rfl
      exact absurd h (by decide : ¬ 1 ≤ 0)
    exact Or.inl (prec_eq hop).2
  | cond c question yes colon no => exact Or.inr ⟨c, question, yes, colon, no, rfl⟩

theorem graft_strength (h : 2 ≤ e.level) : e.graft.strength = e.level := by
  cases e with
  | const tok n isUnsigned => rfl
  | paren opening e closing => rfl
  | unary op tok e => rfl
  | binary op l tok r =>
    have hop : op ≠ .comma := by
      rintro rfl
      simp [level, BinOp.level] at h
    rw [graft, if_neg hop]
    exact (prec_eq hop).1
  | cond c question yes colon no => simp [level] at h

/-- The evaluator reads every expression that has no comma behind a conditional expression. -/
theorem graft_parsed (h : e.Wf K) (hplain : e.Plain) :
    e.graft.Parsed K ∧ (e.endsInCond = false → 1 ≤ e.graft.strength) := by
  induction e with
  | const tok n isUnsigned => exact ⟨h, fun _ => by simp [graft, strength]⟩
  | paren opening e closing ih =>
    obtain ⟨hopening, he, hclosing⟩ := h
    exact ⟨⟨hopening, (ih he hplain).1, hclosing⟩, fun _ => by simp [graft, strength]⟩
  | unary op tok e ih =>
    obtain ⟨hop, he, hlevel⟩ := h
    exact ⟨⟨hop, (ih he hplain).1, by rwa [graft_strength (by omega)]⟩, fun _ => by simp [graft, strength]⟩
  | binary op l tok r ihl ihr =>
    obtain ⟨hl, hop, hr, hle, hlt⟩ := h
    obtain ⟨hpl, hpr, hcomma, -⟩ := hplain
    obtain ⟨hl', hstrength⟩ := ihl hl hpl
    obtain ⟨hr', -⟩ := ihr hr hpr
    rw [graft]
    split
    case isTrue hop' =>
      subst hop'
      rcases two_le_level_or (e := r) hlt with h2 | ⟨c, question, yes, colon, no, rfl⟩
      · have hr2 := graft_strength h2
        rw [joinComma_of_strength _ _ (by omega)]
        exact ⟨⟨hl', hop, hr', hstrength (hcomma rfl), show 1 < r.graft.strength by omega⟩, fun _ => le_rfl⟩
      -- the right operand is a conditional expression, whose condition takes the comma in
      · obtain ⟨⟨hc', hquestion, hyes, hcolon, hno⟩, -⟩ := hr'
        have h2 : 1 < c.graft.strength := by
          rw [graft_strength hr.2.1]
          exact hr.2.1
        exact ⟨⟨⟨⟨hl', hop, hc', hstrength (hcomma rfl), h2⟩, hquestion, hyes, hcolon, hno⟩, le_rfl⟩, fun h => by cases h⟩
    case isFalse hop' =>
      obtain ⟨hprec, h2⟩ := prec_eq hop'
      refine ⟨⟨hl', hop, hr', ?_, ?_⟩, fun _ => op.prec_bounds.1⟩
      · rwa [graft_strength (by omega), hprec]
      · rwa [graft_strength (by omega), hprec]
  | cond c question yes colon no ihc ihyes ihno =>
    obtain ⟨⟨hc, hquestion, hyes, hcolon, hno⟩, hlevel, -⟩ := h
    obtain ⟨hpc, hpyes, hpno⟩ := hplain
    have hstrength : 1 ≤ c.graft.strength := by
      rw [graft_strength hlevel]
      omega
    exact ⟨⟨⟨(ihc hc hpc).1, hquestion, (ihyes hyes hpyes).1, hcolon, (ihno hno hpno).1⟩, hstrength⟩, fun h => by cases h⟩

/-! ## From the evaluator's grammar to C's -/

/-- Tokens in front of an expression go to the first of those its commas separate. -/
theorem exists_first {pre : List Tok} (he : e.Wf K)
    (h : ∀ d : Expr, d.Wf K → 1 ≤ d.level → ∃ d' : Expr, d'.Wf K ∧ d'.toks = pre ++ d.toks) :
    ∃ d' : Expr, d'.Wf K ∧ d'.toks = pre ++ e.toks := by
  induction e with
  | binary op l tok r ihl =>
    by_cases hop : op = .comma
    · obtain ⟨hl, hpunct, hr, -, hlt⟩ := he
      obtain ⟨l', hl', htoks⟩ := ihl hl
      subst hop
      exact ⟨binary .comma l' tok r, ⟨hl', hpunct, hr, Nat.zero_le _, hlt⟩, by simp [toks, htoks]⟩
    · exact h _ he (one_le_two.trans (prec_eq hop).2)
  | _ => exact h _ he (by simp [level])

/-- Tokens behind an expression that does not end in a conditional one go to the last of those its commas separate. -/
theorem exists_last {post : List Tok} (he : e.Wf K) (hend : e.endsInCond = false)
    (h : ∀ d : Expr, d.Wf K → 2 ≤ d.level → ∃ d' : Expr, d'.Wf K ∧ 1 ≤ d'.level ∧ d'.toks = d.toks ++ post) :
    ∃ d' : Expr, d'.Wf K ∧ d'.toks = e.toks ++ post := by
  have hlast : 2 ≤ e.level → ∃ d' : Expr, d'.Wf K ∧ d'.toks = e.toks ++ post := fun h2 =>
    (h e he h2).imp fun d' ⟨hd', _, htoks⟩ => ⟨hd', htoks⟩
  cases e with
  | binary op l tok r =>
    by_cases hop : op = .comma
    · obtain ⟨hl, hpunct, hr, -, hlt⟩ := he
      subst hop
      have h2 : 2 ≤ r.level := (two_le_level_or (e := r) hlt).resolve_right fun ⟨c, question, yes, colon, no, hcond⟩ =>
        absurd hend (by rw [endsInCond, hcond, endsInCond]; decide)
      obtain ⟨r', hr', hlevel, htoks⟩ := h r hr h2
      exact ⟨binary .comma l tok r', ⟨hl, hpunct, hr', Nat.zero_le _, hlevel⟩, by simp [toks, htoks]⟩
    · exact hlast (prec_eq hop).2
  | cond c question yes colon no => simp [endsInCond] at hend
  | _ => exact hlast (by simp [level])

theorem endsInCond_of_level (h : 2 ≤ e.level) : e.endsInCond = false := by
  cases e with
  | binary op l tok r => cases op <;> first | rfl | simp [level, BinOp.level] at h
  | cond c question yes colon no => simp [level] at h
  | _ => rfl

/-- The tokens of an expression of the evaluator's are those of an expression of C's. -/
theorem exists_wf (h : e.Parsed K) : ∃ d : Expr, d.Wf K ∧ d.toks = e.toks ∧ (2 ≤ e.strength → d.level = e.strength) ∧
    (1 ≤ e.strength → d.endsInCond = false) := by
  induction e with
  | const tok n isUnsigned => exact ⟨const tok n isUnsigned, h, rfl, fun _ => rfl, fun _ => rfl⟩
  | paren opening e closing ih =>
    obtain ⟨hopening, he, hclosing⟩ := h
    obtain ⟨d, hd, htoks, -⟩ := ih he
    exact ⟨paren opening d closing, ⟨hopening, hd, hclosing⟩, by simp only [toks, htoks], fun _ => rfl, fun _ => rfl⟩
  | unary op tok e ih =>
    obtain ⟨hop, he, hstrength⟩ := h
    obtain ⟨d, hd, htoks, hlevel, -⟩ := ih he
    have hlevel' : 12 ≤ d.level := by
      rw [hlevel (by omega)]
      exact hstrength
    exact ⟨unary op tok d, ⟨hop, hd, hlevel'⟩, by simp only [toks, htoks], fun _ => rfl, fun _ => rfl⟩
  | binary op l tok r ihl ihr =>
    obtain ⟨hl, hop, hr, hle, hlt⟩ := h
    obtain ⟨l', hl', hltoks, hllevel, -⟩ := ihl hl
    obtain ⟨r', hr', hrtoks, hrlevel, -⟩ := ihr hr
    have hbounds := op.prec_bounds
    have hr2 : r'.level = r.strength := hrlevel (by omega)
    by_cases hcomma : op = .comma
    · subst hcomma
      have hlt' : 1 < r.strength := hlt
      have hpos : BinOp.comma.level < r'.level := by
        rw [hr2, BinOp.level]
        omega
      have hend : r'.endsInCond = false := endsInCond_of_level (hr2 ▸ hlt')
      exact ⟨binary .comma l' tok r', ⟨hl', hop, hr', Nat.zero_le _, hpos⟩, by simp only [toks, hltoks, hrtoks],
        fun h => absurd h (by decide : ¬ 2 ≤ 1), fun _ => hend⟩
    · obtain ⟨hprec, h2⟩ := prec_eq hcomma
      have hl2 : l'.level = l.strength := hllevel (by omega)
      exact ⟨binary op l' tok r', ⟨hl', hop, hr', by omega, by omega⟩, by simp only [toks, hltoks, hrtoks],
        fun _ => hprec.symm, fun _ => endsInCond_of_level h2⟩
  | cond c question yes colon no ihc ihyes ihno =>
    obtain ⟨⟨hc, hquestion, hyes, hcolon, hno⟩, hstrength⟩ := h
    obtain ⟨c', hc', hctoks, -, hend⟩ := ihc hc
    obtain ⟨yes', hyes', hyestoks, -⟩ := ihyes hyes
    obtain ⟨no', hno', hnotoks, -⟩ := ihno hno
    have hwhole : ∃ d : Expr, d.Wf K ∧ d.toks = c'.toks ++ question :: (yes'.toks ++ [colon]) ++ no'.toks := by
      refine exists_first hno' fun b hb hb1 => ?_
      have hlast : ∃ d : Expr, d.Wf K ∧ d.toks = c'.toks ++ question :: (yes'.toks ++ colon :: b.toks) := by
        refine exists_last hc' (hend hstrength) fun a ha ha2 => ?_
        exact ⟨cond a question yes' colon b, ⟨⟨ha, hquestion, hyes', hcolon, hb⟩, ha2, hb1⟩, le_rfl, rfl⟩
      obtain ⟨d, hd, htoks⟩ := hlast
      exact ⟨d, hd, by simp [htoks]⟩
    obtain ⟨d, hd, htoks⟩ := hwhole
    exact ⟨d, hd, by simp [htoks, toks, hctoks, hyestoks, hnotoks], fun h => absurd h (by decide : ¬ 2 ≤ 0),
      fun h => absurd h (by decide : ¬ 1 ≤ 0)⟩

end Expr

end Rucc.Pp.Cond
