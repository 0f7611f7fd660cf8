import Rucc.Pp.CondParse

/-!
# The values of the operators

The evaluator's operators on sixty-four bits and C's on the integers. An operation that C gives a value is given the
same value by the evaluator, and but for two slips the type C gives it.
-/

namespace Rucc.Pp.Cond

variable {isUnsigned : Bool} {a b n m : ℤ} {v w : Val}

variable {x y : BitVec 64} {op : BinOp}

namespace Val

theorem ofInt_toInt (v : Val) : BitVec.ofInt 64 v.toInt = v.bits := by
  obtain ⟨bits, _ | _⟩ := v <;> simp [toInt]

theorem toInt_unsigned (bits : BitVec 64) : (⟨bits, true⟩ : Val).toInt = bits.toNat := rfl

theorem toInt_signed (bits : BitVec 64) : (⟨bits, false⟩ : Val).toInt = bits.toInt := rfl

theorem isTrue_iff : v.isTrue = true ↔ v.toInt ≠ 0 := by
  obtain ⟨bits, _ | _⟩ := v
  · simp [isTrue, toInt, ← BitVec.toInt_inj]
  · simp [isTrue, toInt, ← BitVec.toNat_inj]

theorem toInt_boolean {b : Bool} {p : Prop} [Decidable p] (h : b = true ↔ p) : (boolean b).toInt = truth p := by
  cases b
  · simp [boolean, signed, toInt, truth, ← h]
  · simp [boolean, signed, toInt, truth, ← h]

/-- A value read in the common type of an operation is converted to it. -/
theorem toInt_convert (h : v.unsigned = true → isUnsigned = true) :
    (⟨v.bits, isUnsigned⟩ : Val).toInt = convert isUnsigned v.toInt := by
  obtain ⟨bits, unsigned⟩ := v
  cases isUnsigned with
  | false =>
    have hsigned : unsigned = false := by simpa using h
    rw [hsigned]
    rfl
  | true =>
    cases unsigned with
    | true => exact (Int.emod_eq_of_lt (Int.natCast_nonneg _) (by exact_mod_cast bits.isLt)).symm
    | false =>
      rw [toInt_unsigned, toInt_signed, convert, if_pos rfl, BitVec.toInt_eq_toNat_bmod]
      have hlt := bits.isLt
      norm_num [Int.bmod] 
      omega

/-- What an operation comes to in its type. -/
theorem toInt_inType (h : inType isUnsigned n = some m) : (⟨BitVec.ofInt 64 n, isUnsigned⟩ : Val).toInt = m := by
  cases isUnsigned with
  | true =>
    obtain rfl := Option.some.inj h
    rw [toInt_unsigned, BitVec.toNat_ofInt]
    exact Int.toNat_of_nonneg (Int.emod_nonneg _ (by norm_num))
  | false =>
    simp only [inType, Bool.false_eq_true, if_false] at h
    split at h
    case isTrue hrange =>
      obtain rfl := Option.some.inj h
      rw [toInt_signed, BitVec.toInt_ofInt]
      norm_num [Int.bmod] at hrange ⊢
      omega
    case isFalse => cases h

end Val

theorem toInt_inj : (⟨x, isUnsigned⟩ : Val).toInt = (⟨y, isUnsigned⟩ : Val).toInt ↔ x = y := by
  cases isUnsigned with
  | true => simp [Val.toInt_unsigned, ← BitVec.toNat_inj]
  | false => simp [Val.toInt_signed, ← BitVec.toInt_inj]

theorem toInt_lt : (⟨x, isUnsigned⟩ : Val).toInt < (⟨y, isUnsigned⟩ : Val).toInt ↔
      (if isUnsigned then x.ult y else x.slt y) = true := by
  cases isUnsigned with
  | true => simp [Val.toInt_unsigned, BitVec.ult]
  | false => simp [Val.toInt_signed, BitVec.slt]

theorem toInt_le : (⟨x, isUnsigned⟩ : Val).toInt ≤ (⟨y, isUnsigned⟩ : Val).toInt ↔
      (if isUnsigned then x.ule y else x.sle y) = true := by
  cases isUnsigned with
  | true => simp [Val.toInt_unsigned, BitVec.ule]
  | false => simp [Val.toInt_signed, BitVec.sle]

theorem div_eq (x y : BitVec 64) : (if isUnsigned then x / y else x.sdiv y) =
    BitVec.ofInt 64 ((⟨x, isUnsigned⟩ : Val).toInt.tdiv (⟨y, isUnsigned⟩ : Val).toInt) := by
  cases isUnsigned with
  | true =>
    rw [if_pos rfl, Val.toInt_unsigned, Val.toInt_unsigned, ← Int.ofNat_tdiv, BitVec.ofInt_natCast, ← BitVec.toNat_udiv,
      BitVec.ofNat_toNat, BitVec.setWidth_eq]
  | false =>
    rw [if_neg Bool.false_ne_true, ← BitVec.toInt_inj, BitVec.toInt_sdiv, BitVec.toInt_ofInt]
    rfl

theorem toInt_mod (x y : BitVec 64) : (⟨if isUnsigned then x % y else x.srem y, isUnsigned⟩ : Val).toInt =
    (⟨x, isUnsigned⟩ : Val).toInt.tmod (⟨y, isUnsigned⟩ : Val).toInt := by
  cases isUnsigned with
  | true =>
    rw [if_pos rfl, Val.toInt_unsigned, BitVec.toNat_umod, Int.ofNat_tmod]
    rfl
  | false =>
    rw [if_neg Bool.false_ne_true, Val.toInt_signed, BitVec.toInt_srem]
    rfl

/-! ## Shifts -/

theorem count_eq (h : 0 ≤ w.toInt) : ¬ (¬ w.unsigned = true ∧ w.bits.msb = true) ∧ (w.bits.toNat : ℤ) = w.toInt := by
  obtain ⟨bits, unsigned⟩ := w
  cases unsigned with
  | true => exact ⟨by simp, rfl⟩
  | false =>
    rw [Val.toInt_signed] at h ⊢
    have hmsb : bits.msb = false := by
      rw [BitVec.msb_eq_toInt, decide_eq_false_iff_not]
      omega
    exact ⟨by simp [hmsb], (BitVec.toInt_eq_toNat_of_msb hmsb).symm⟩

/-- A shift by a count in range. -/
theorem shift_eq (op : Punct) (h : 0 ≤ w.toInt) (hlt : w.toInt < 64) :
    shift op v w = ⟨if op = .Shl then v.bits <<< w.toInt.toNat
      else if v.unsigned then v.bits >>> w.toInt.toNat else v.bits.sshiftRight w.toInt.toNat, v.unsigned⟩ := by
  obtain ⟨hmsb, hcount⟩ := count_eq h
  have hnat : w.bits.toNat = w.toInt.toNat := by omega
  have hsmall : ¬ 64 ≤ w.bits.toNat := by omega
  unfold shift
  rw [if_neg hmsb]
  rw [hnat] at hsmall
  simp only [hnat, if_neg hsmall]

theorem shiftLeft_eq (v : Val) (k : ℕ) : v.bits <<< k = BitVec.ofInt 64 (v.toInt * 2^k) := by
  have hpow : BitVec.ofInt 64 (2^k) = BitVec.twoPow 64 k := by
    have hcast : (2^k : ℤ) = ((2^k : ℕ) : ℤ) := by push_cast; rfl
    rw [hcast, BitVec.ofInt_natCast, ← BitVec.toNat_inj, BitVec.toNat_ofNat, BitVec.toNat_twoPow]
  rw [BitVec.shiftLeft_eq_mul_twoPow, BitVec.ofInt_mul, Val.ofInt_toInt, hpow]

theorem toInt_shiftRight (v : Val) (k : ℕ) :
    (⟨if v.unsigned then v.bits >>> k else v.bits.sshiftRight k, v.unsigned⟩ : Val).toInt = v.toInt / 2^k := by
  obtain ⟨bits, unsigned⟩ := v
  cases unsigned with
  | true =>
    rw [if_pos rfl, Val.toInt_unsigned, Val.toInt_unsigned, BitVec.toNat_ushiftRight, Nat.shiftRight_eq_div_pow]
    push_cast
    rfl
  | false =>
    rw [if_neg Bool.false_ne_true, Val.toInt_signed, Val.toInt_signed, BitVec.toInt_sshiftRight,
      Int.shiftRight_eq_div_pow]
    push_cast
    rfl

theorem toInt_shift (hop : op = .shl ∨ op = .shr) (h : shifted op v.unsigned v.toInt w.toInt = some n) :
    (shift op.punct v w).unsigned = v.unsigned ∧ (shift op.punct v w).toInt = n := by
  unfold shifted at h
  split at h
  case isFalse => cases h
  case isTrue hrange =>
    rw [shift_eq op.punct hrange.1 hrange.2]
    refine ⟨rfl, ?_⟩
    rcases hop with rfl | rfl
    · rw [if_neg (by decide)] at h
      split at h
      case isFalse => cases h
      case isTrue =>
        rw [BinOp.punct, if_pos rfl, shiftLeft_eq]
        exact Val.toInt_inType h
    · obtain rfl := Option.some.inj h
      exact toInt_shiftRight v _

/-! ## Every operator -/

/-- The operators that evaluate both of their operands in their common type. -/
theorem applied_arith (h : arith op (v.unsigned || w.unsigned) (convert (v.unsigned || w.unsigned) v.toInt)
    (convert (v.unsigned || w.unsigned) w.toInt) = some n) :
    ∃ u, applied op.punct v w = some u ∧ u.toInt = n := by
  have hv : v.unsigned = true → (v.unsigned || w.unsigned) = true := fun h => by simp [h]
  have hw : w.unsigned = true → (v.unsigned || w.unsigned) = true := fun h => by simp [h]
  rw [← Val.toInt_convert hv, ← Val.toInt_convert hw] at h
  unfold applied
  generalize (v.unsigned || w.unsigned) = isUnsigned at h
  generalize v.bits = x at h
  generalize w.bits = y at h
  have hx := Val.ofInt_toInt ⟨x, isUnsigned⟩
  have hy := Val.ofInt_toInt ⟨y, isUnsigned⟩
  cases op with
  | comma => cases h
  | pipePipe => cases h
  | ampAmp => cases h
  | shl => cases h
  | shr => cases h
  | pipe => exact ⟨_, rfl, by rw [← Option.some.inj h, bitwise, hx, hy]; rfl⟩
  | caret => exact ⟨_, rfl, by rw [← Option.some.inj h, bitwise, hx, hy]; rfl⟩
  | amp => exact ⟨_, rfl, by rw [← Option.some.inj h, bitwise, hx, hy]; rfl⟩
  | eqEq => exact ⟨_, rfl, (Val.toInt_boolean (decide_eq_true_iff.trans toInt_inj.symm)).trans (Option.some.inj h)⟩
  | ne =>
    exact ⟨_, rfl, (Val.toInt_boolean (decide_eq_true_iff.trans (not_congr toInt_inj.symm))).trans (Option.some.inj h)⟩
  | lt => exact ⟨_, rfl, (Val.toInt_boolean toInt_lt.symm).trans (Option.some.inj h)⟩
  | gt => exact ⟨_, rfl, (Val.toInt_boolean toInt_lt.symm).trans (Option.some.inj h)⟩
  | le => exact ⟨_, rfl, (Val.toInt_boolean toInt_le.symm).trans (Option.some.inj h)⟩
  | ge => exact ⟨_, rfl, (Val.toInt_boolean toInt_le.symm).trans (Option.some.inj h)⟩
  | plus =>
    have hsum := Val.toInt_inType h
    rw [BitVec.ofInt_add, hx, hy] at hsum
    exact ⟨_, rfl, hsum⟩
  | minus =>
    have hdiff := Val.toInt_inType h
    rw [sub_eq_add_neg, BitVec.ofInt_add, BitVec.ofInt_neg, hx, hy, ← BitVec.sub_eq_add_neg] at hdiff
    exact ⟨_, rfl, hdiff⟩
  | star =>
    have hprod := Val.toInt_inType h
    rw [BitVec.ofInt_mul, hx, hy] at hprod
    exact ⟨_, rfl, hprod⟩
  | slash =>
    rw [arith] at h
    split at h
    case isTrue => cases h
    case isFalse hne =>
      have hzero : ¬ y = 0 := fun hy0 => hne (by rw [hy0]; cases isUnsigned <;> rfl)
      refine ⟨_, if_neg hzero, ?_⟩
      rw [div_eq]
      exact Val.toInt_inType h
  | percent =>
    rw [arith] at h
    split at h
    case isTrue => cases h
    case isFalse hne =>
      have hzero : ¬ y = 0 := fun hy0 => hne (by rw [hy0]; cases isUnsigned <;> rfl)
      obtain ⟨-, -, hmod⟩ := Option.map_eq_some_iff.1 h
      exact ⟨_, if_neg hzero, (toInt_mod x y).trans hmod⟩

/-! ## Types -/

/-- The operations of an unsigned type that the evaluator takes for signed ones. -/
def Slips (op : BinOp) (v w : Val) : Prop :=
  match op with
  | .slash | .percent => (v.unsigned || w.unsigned) = true ∧ w.bits = 0
  | .shl | .shr => v.unsigned = true ∧ w.unsigned = false ∧ w.bits.msb = true
  | _ => False

theorem shift_unsigned {op : Punct} (h : ¬ (v.unsigned = true ∧ w.unsigned = false ∧ w.bits.msb = true)) :
    (shift op v w).unsigned = v.unsigned := by
  unfold shift
  split
  case isTrue hneg =>
    have hv : v.unsigned ≠ true := fun hv => h ⟨hv, by simpa using hneg.1, hneg.2⟩
    exact (Bool.eq_false_iff.2 hv).symm
  case isFalse => rfl

theorem applied_unsigned (h : ¬ Slips op v w) :
    ((applied op.punct v w).getD .ZERO).unsigned = op.isUnsigned v.unsigned w.unsigned := by
  cases op with
  | shl => exact shift_unsigned h
  | shr => exact shift_unsigned h
  | slash | percent =>
    by_cases hzero : w.bits = 0
    case pos =>
      have hsigned : (v.unsigned || w.unsigned) = false := Bool.eq_false_iff.2 fun hor => h ⟨hor, hzero⟩
      simp [applied, BinOp.punct, hzero, Val.ZERO, BinOp.isUnsigned, hsigned]
    case neg =>
      simp only [applied, BinOp.punct, if_neg hzero]
      rfl
  | _ => rfl

/-! ## Expressions -/

namespace Expr

/-- Whether an expression ends in a conditional one that is not in parentheses. -/
def endsInCond : Expr → Bool
  | cond _ _ _ _ _ => true
  | binary .comma _ _ r => r.endsInCond
  | _ => false

/-- The expressions that none of the evaluator's slips shows in: no comma behind the last operand of a conditional
expression without parentheses, and no operation whose type the evaluator mistakes. -/
def Plain : Expr → Prop
  | const _ _ _ => True
  | paren _ e _ | unary _ _ e => e.Plain
  | binary op l _ r => l.Plain ∧ r.Plain ∧ (op = .comma → l.endsInCond = false) ∧ ¬ Slips op l.val r.val
  | cond c _ yes _ no => c.Plain ∧ yes.Plain ∧ no.Plain

/-- The evaluator's value of an expression is of the type C gives it. Where C gives it a value it is that one, and no
division by zero is evaluated. -/
structure Agrees (e : Expr) : Prop where
  unsigned : e.val.unsigned = e.isUnsigned
  value : ∀ n, e.sem = some n → e.val.toInt = n ∧ e.Quiet

end Expr

variable {cx : Context} {l r c yes no : Expr} {tok : Tok}

theorem agrees_const (h : Accepted cx tok n isUnsigned) : (Expr.const tok n isUnsigned).Agrees := by
  obtain ⟨v, -, rfl, rfl⟩ := h
  refine ⟨rfl, fun n hn => ⟨?_, trivial⟩⟩
  rw [Expr.val, Val.ofInt_toInt]
  exact Option.some.inj hn

theorem agrees_unary (op : UnOp) (h : l.Agrees) : (Expr.unary op tok l).Agrees := by
  cases op with
  | plus =>
    refine ⟨h.unsigned, fun n hn => ?_⟩
    obtain ⟨a, ha, hn⟩ := Option.bind_eq_some_iff.1 hn
    obtain rfl := Option.some.inj hn
    exact h.value a ha
  | minus =>
    refine ⟨h.unsigned, fun n hn => ?_⟩
    obtain ⟨a, ha, hn⟩ := Option.bind_eq_some_iff.1 hn
    obtain ⟨rfl, hquiet⟩ := h.value a ha
    refine ⟨?_, hquiet⟩
    have hneg := Val.toInt_inType hn
    rwa [BitVec.ofInt_neg, Val.ofInt_toInt, ← h.unsigned] at hneg
  | tilde =>
    refine ⟨h.unsigned, fun n hn => ?_⟩
    obtain ⟨a, ha, hn⟩ := Option.bind_eq_some_iff.1 hn
    obtain ⟨rfl, hquiet⟩ := h.value a ha
    refine ⟨?_, hquiet⟩
    have hnot := Val.toInt_inType hn
    rw [sub_eq_add_neg, BitVec.ofInt_add, BitVec.ofInt_neg, Val.ofInt_toInt, ← h.unsigned] at hnot
    rw [Expr.val, BitVec.not_eq_neg_add, BitVec.sub_eq_add_neg]
    exact hnot
  | bang =>
    refine ⟨rfl, fun n hn => ?_⟩
    obtain ⟨a, ha, hn⟩ := Option.bind_eq_some_iff.1 hn
    obtain ⟨rfl, hquiet⟩ := h.value a ha
    refine ⟨?_, hquiet⟩
    have hzero : (!l.val.isTrue) = true ↔ l.val.toInt = 0 := by
      rw [Bool.not_eq_true', ← Bool.not_eq_true, Val.isTrue_iff, not_not]
    exact (Val.toInt_boolean hzero).trans (Option.some.inj hn)

/-- An operation whose operands are both evaluated. -/
theorem value_of_applied (hl : l.Quiet) (hr : r.Quiet)
    (h : ∃ u, applied op.punct l.val r.val = some u ∧ u.toInt = n) :
    (Expr.binary op l tok r).val.toInt = n ∧ (Expr.binary op l tok r).Quiet := by
  obtain ⟨u, hu, rfl⟩ := h
  exact ⟨by rw [Expr.val, hu]; rfl, hl, fun _ => hr, by rw [hu]; rfl⟩

/-- The logical operators, whose right operand is evaluated where the left one does not decide. -/
theorem value_of_logical (hop : op = .ampAmp ∨ op = .pipePipe) (hl : l.Quiet) (hr : r.Agrees)
    (h : (if l.val.isTrue = decide (op = .ampAmp) then r.sem.map fun b => truth (b ≠ 0)
      else some (truth (op = .pipePipe))) = some n) :
    (Expr.binary op l tok r).val.toInt = n ∧ (Expr.binary op l tok r).Quiet := by
  split at h
  case isTrue hleft =>
    obtain ⟨b, hb, rfl⟩ := Option.map_eq_some_iff.1 h
    obtain ⟨rfl, hquiet⟩ := hr.value b hb
    refine value_of_applied hl hquiet ?_
    rcases hop with rfl | rfl
    · exact ⟨_, rfl, Val.toInt_boolean (by simp [hleft, Val.isTrue_iff])⟩
    · exact ⟨_, rfl, Val.toInt_boolean (by simp [hleft, Val.isTrue_iff])⟩
  case isFalse hleft =>
    obtain rfl := Option.some.inj h
    rcases hop with rfl | rfl
    · have hfalse : l.val.isTrue = false := by simpa using hleft
      exact ⟨by simp [Expr.val, applied, BinOp.punct, hfalse, Val.toInt_boolean (p := False), truth], hl,
        fun hright => by simp [rightLive, BinOp.punct, hfalse] at hright, rfl⟩
    · have htrue : l.val.isTrue = true := by simpa using hleft
      exact ⟨by simp [Expr.val, applied, BinOp.punct, htrue, Val.toInt_boolean (p := True), truth], hl,
        fun hright => by simp [rightLive, BinOp.punct, htrue] at hright, rfl⟩

theorem agrees_binary (hl : l.Agrees) (hr : r.Agrees) (h : ¬ Slips op l.val r.val) :
    (Expr.binary op l tok r).Agrees := by
  refine ⟨(applied_unsigned h).trans (by rw [hl.unsigned, hr.unsigned]; rfl), fun n hn => ?_⟩
  obtain ⟨a, ha, hn⟩ := Option.bind_eq_some_iff.1 hn
  obtain ⟨rfl, hquiet⟩ := hl.value a ha
  cases op with
  | comma =>
    obtain ⟨hvalue, hquiet'⟩ := hr.value n hn
    exact value_of_applied hquiet hquiet' ⟨r.val, rfl, hvalue⟩
  | ampAmp =>
    refine value_of_logical (Or.inl rfl) hquiet hr (hn ▸ ?_)
    by_cases hleft : l.val.isTrue = true
    · rw [if_pos (by simp [hleft]), if_neg (Val.isTrue_iff.1 hleft)]
    · rw [if_neg (by simp [hleft]), if_pos (not_not.1 fun hne => hleft (Val.isTrue_iff.2 hne))]
      rfl
  | pipePipe =>
    refine value_of_logical (Or.inr rfl) hquiet hr (hn ▸ ?_)
    by_cases hleft : l.val.isTrue = true
    · rw [if_neg (by simp [hleft]), if_pos (Val.isTrue_iff.1 hleft)]
      rfl
    · rw [if_pos (by simp [hleft]), if_neg fun hne => hleft (Val.isTrue_iff.2 hne)]
  | shl =>
    obtain ⟨b, hb, hn⟩ := Option.bind_eq_some_iff.1 hn
    obtain ⟨rfl, hquiet'⟩ := hr.value b hb
    refine value_of_applied hquiet hquiet' ⟨_, rfl, ?_⟩
    exact (toInt_shift (Or.inl rfl) (hl.unsigned ▸ hn)).2
  | shr =>
    obtain ⟨b, hb, hn⟩ := Option.bind_eq_some_iff.1 hn
    obtain ⟨rfl, hquiet'⟩ := hr.value b hb
    refine value_of_applied hquiet hquiet' ⟨_, rfl, ?_⟩
    exact (toInt_shift (Or.inr rfl) (hl.unsigned ▸ hn)).2
  | _ =>
    obtain ⟨b, hb, hn⟩ := Option.bind_eq_some_iff.1 hn
    obtain ⟨rfl, hquiet'⟩ := hr.value b hb
    rw [← hl.unsigned, ← hr.unsigned] at hn
    exact value_of_applied hquiet hquiet' (applied_arith hn)

theorem agrees_cond {question colon : Tok} (hc : c.Agrees) (hyes : yes.Agrees) (hno : no.Agrees) :
    (Expr.cond c question yes colon no).Agrees := by
  refine ⟨by rw [Expr.isUnsigned, ← hyes.unsigned, ← hno.unsigned]; rfl, fun n hn => ?_⟩
  obtain ⟨a, ha, hn⟩ := Option.bind_eq_some_iff.1 hn
  obtain ⟨rfl, hquiet⟩ := hc.value a ha
  obtain ⟨b, hb, rfl⟩ := Option.map_eq_some_iff.1 hn
  rw [← hyes.unsigned, ← hno.unsigned]
  have hor : ∀ v : Val, v = yes.val ∨ v = no.val → v.unsigned = true →
      (yes.val.unsigned || no.val.unsigned) = true := by
    rintro v (rfl | rfl) h <;> simp [h]
  by_cases htrue : c.val.isTrue = true
  · rw [if_pos (Val.isTrue_iff.1 htrue)] at hb
    obtain ⟨rfl, hquiet'⟩ := hyes.value b hb
    refine ⟨?_, hquiet, by rwa [if_pos htrue]⟩
    rw [← Val.toInt_convert (hor _ (Or.inl rfl)), Expr.val, chosen, if_pos htrue]
  · rw [if_neg fun hne => htrue (Val.isTrue_iff.2 hne)] at hb
    obtain ⟨rfl, hquiet'⟩ := hno.value b hb
    refine ⟨?_, hquiet, by rwa [if_neg htrue]⟩
    rw [← Val.toInt_convert (hor _ (Or.inr rfl)), Expr.val, chosen, if_neg htrue]

/-- The evaluator agrees with C about every expression none of its slips shows in. -/
theorem agrees {e : Expr} (h : e.Wf (Accepted cx)) (hplain : e.Plain) : e.Agrees := by
  induction e with
  | const tok n isUnsigned => exact agrees_const h
  | paren opening e closing ih =>
    obtain ⟨hunsigned, hvalue⟩ := ih h.2.1 hplain
    exact ⟨hunsigned, hvalue⟩
  | unary op tok e ih => exact agrees_unary op (ih h.2.1 hplain)
  | binary op l tok r ihl ihr =>
    obtain ⟨hl, -, hr, -⟩ := h
    obtain ⟨hpl, hpr, -, hslips⟩ := hplain
    exact agrees_binary (ihl hl hpl) (ihr hr hpr) hslips
  | cond c question yes colon no ihc ihyes ihno =>
    obtain ⟨⟨hc, -, hyes, -, hno⟩, -⟩ := h
    obtain ⟨hpc, hpyes, hpno⟩ := hplain
    exact agrees_cond (ihc hc hpc) (ihyes hyes hpyes) (ihno hno hpno)

end Rucc.Pp.Cond
