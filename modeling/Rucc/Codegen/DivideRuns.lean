import Rucc.Codegen.Divide

/-!
# What the steps of a division program give

A value of a program is an integer as far as its low bits go, `word bits z`, and each opcode is stated on the
integers: addition, subtraction and multiplication as they are, a shift and a high product as the division
that rounds down, wherever the operands are what the opcode reads them as.

`Built` is what writing a value onto a program comes to: the values before it stay, and the last step gives
the new one.
-/

namespace Rucc.Codegen

variable {n width : ℕ} {other : Word}

/-! ## Words -/

theorem word_congr {bits : ℕ} {a b : ℤ} (h : a % 2^bits = b % 2^bits) : word bits a = word bits b := by
  rw [word, h, word]

@[simp]
theorem word_bits (bits : ℕ) (z : ℤ) : (word bits z).bits = bits := rfl

theorem word_number (bits : ℕ) (z : ℤ) : ((word bits z).number : ℤ) = z % 2^bits :=
  Int.toNat_of_nonneg (Int.emod_nonneg _ (by positivity))

/-- A number that fits is the word's own. -/
theorem number_natCast {bits : ℕ} (h : n < 2^bits) : (word bits n).number = n := by
  have hcast : (n : ℤ) < 2^bits := by exact_mod_cast h
  rw [word, Int.emod_eq_of_lt (by positivity) hcast, Int.toNat_natCast]

/-- The bits read as signed are still the same word. -/
theorem word_signedAt (n bits : ℕ) : word bits (signedAt n bits) = word bits n := by
  refine word_congr ?_
  have := Int.bmod_emod (x := n) (m := 2^bits)
  push_cast at this
  exact this

/-- The signed reading of a number that a signed integer of that many bits holds. -/
theorem signedAt_word {bits : ℕ} {z : ℤ} (hlo : -2^(bits - 1) ≤ z) (hhi : z < 2^(bits - 1))
    (h0 : 0 < bits) : signedAt (word bits z).number bits = z := by
  have htwo : (2 : ℤ)^bits = 2 * 2^(bits - 1) := by
    rw [← pow_succ', Nat.sub_add_cancel h0]
  have hcast : ((2^bits : ℕ) : ℤ) = 2^bits := by push_cast; rfl
  rw [signedAt, word_number, ← hcast, Int.emod_bmod]
  refine Int.bmod_eq_of_le ?_ ?_ <;> rw [hcast, htwo] <;> omega

/-! ## Opcodes -/

variable {register bits : ℕ} {a b : ℤ}

theorem same_bits (a b : ℤ) : ¬ ((word bits a).bits ≠ bits ∨ (word bits b).bits ≠ bits) :=
  not_or.2 ⟨not_not.2 rfl, not_not.2 rfl⟩

theorem run_add : Opcode.add.run register bits (word bits a) (word bits b) = some (word bits (a + b)) := by
  refine (if_neg (same_bits a b)).trans ?_
  rw [word_number, word_number]
  exact congrArg some (word_congr (by rw [← Int.add_emod]))

theorem run_sub : Opcode.sub.run register bits (word bits a) (word bits b) = some (word bits (a - b)) := by
  refine (if_neg (same_bits a b)).trans ?_
  rw [word_number, word_number]
  exact congrArg some (word_congr (by rw [← Int.sub_emod]))

theorem run_mul : Opcode.mul.run register bits (word bits a) (word bits b) = some (word bits (a * b)) := by
  refine (if_neg (same_bits a b)).trans ?_
  rw [word_number, word_number]
  exact congrArg some (word_congr (by rw [← Int.mul_emod]))

/-- A mask keeps the remainder. -/
theorem run_and {power : ℕ} (h : power ≤ bits) :
    Opcode.and.run register bits (word bits a) (word bits (2^power - 1)) =
      some (word bits (a % 2^power)) := by
  have hmask : (word bits (2^power - 1)).number = 2^power - 1 := by
    have hcast : ((2 : ℤ)^power - 1) = (2^power - 1 : ℕ) := by
      rw [Nat.cast_sub Nat.one_le_two_pow]
      push_cast
      rfl
    have := Nat.pow_le_pow_right (by norm_num : 0 < 2) h
    rw [hcast]
    exact number_natCast (by have := Nat.two_pow_pos power; omega)
  refine (if_neg (same_bits _ _)).trans ?_
  rw [hmask, Nat.and_two_pow_sub_one_eq_mod]
  push_cast
  rw [word_number, Int.emod_emod_of_dvd _ (pow_dvd_pow 2 h)]

theorem run_lShr {n count : ℕ} (hn : n < 2^bits) (hcount : count < bits) :
    Opcode.lShr.run register bits (word bits n) (word bits count) =
      some (word bits (n / 2^count : ℕ)) := by
  have hc : count < 2^bits := hcount.trans Nat.lt_two_pow_self
  refine (if_neg (same_bits _ _)).trans ?_
  rw [number_natCast hn, number_natCast hc, Nat.shiftRight_eq_div_pow]
  exact if_neg (by omega)

theorem run_aShr {count : ℕ} (hlo : -2^(bits - 1) ≤ a) (hhi : a < 2^(bits - 1)) (hcount : count < bits) :
    Opcode.aShr.run register bits (word bits a) (word bits count) =
      some (word bits (a / 2^count)) := by
  have hc : count < 2^bits := hcount.trans Nat.lt_two_pow_self
  refine (if_neg (same_bits _ _)).trans ?_
  rw [number_natCast hc, signedAt_word hlo hhi (by omega)]
  exact if_neg (by omega)

theorem run_uMulHigh {m : ℕ} (hm : m < 2^bits) (hn : n < 2^bits) (hbits : bits = register) :
    Opcode.uMulHigh.run register bits (word bits m) (word bits n) =
      some (word bits (m * n / 2^bits : ℕ)) := by
  refine (if_neg (same_bits _ _)).trans ((if_neg (not_not.mpr hbits)).trans ?_)
  rw [number_natCast hm, number_natCast hn, Nat.shiftRight_eq_div_pow]

theorem run_sMulHigh (ha : -2^(bits - 1) ≤ a ∧ a < 2^(bits - 1))
    (hb : -2^(bits - 1) ≤ b ∧ b < 2^(bits - 1)) (h0 : 0 < bits) (hbits : bits = register) :
    Opcode.sMulHigh.run register bits (word bits a) (word bits b) =
      some (word bits (a * b / 2^bits)) := by
  refine (if_neg (same_bits _ _)).trans ((if_neg (not_not.mpr hbits)).trans ?_)
  rw [signedAt_word ha.1 ha.2 h0, signedAt_word hb.1 hb.2 h0]

theorem run_zExt (hn : n < 2^width) (hwidth : width < bits) :
    Opcode.zExt.run register bits (word width n) other = some (word bits n) := by
  have hlt : n < 2^bits := hn.trans (Nat.pow_lt_pow_right (by norm_num) hwidth)
  have heq : word bits n = ⟨n, bits⟩ := congrArg (fun number => Word.mk number bits) (number_natCast hlt)
  refine (if_pos hwidth).trans ?_
  rw [heq, number_natCast hn]

theorem run_sExt (hlo : -2^(width - 1) ≤ a) (hhi : a < 2^(width - 1)) (h0 : 0 < width) (hwidth : width < bits) :
    Opcode.sExt.run register bits (word width a) other = some (word bits a) := by
  refine (if_pos hwidth).trans ?_
  rw [word_bits, signedAt_word hlo hhi h0]

theorem run_trunc (hwidth : bits < width) :
    Opcode.trunc.run register bits (word width a) other = some (word bits a) := by
  refine (if_pos hwidth).trans ?_
  rw [word_number]
  exact congrArg some (word_congr (Int.emod_emod_of_dvd _ (pow_dvd_pow 2 hwidth.le)))

/-! ## Values -/

namespace Program

variable {p : Program} {widest : ℕ} {dividend : ℤ}

variable {values : List Word} {value : ℕ} {opcode : Opcode}

/-- A value of the program, as the low bits of an integer. -/
def Gives (p : Program) (widest : ℕ) (dividend : ℤ) (at_ bits : ℕ) (z : ℤ) : Prop :=
  ∃ values, p.values widest dividend = some values ∧ values[at_]? = some (word bits z)

theorem values_push (step : Step) :
    (p.push step).1.values widest dividend = (p.values widest dividend).bind fun values =>
      (step.run p.register widest values).map fun value => values ++ [value] := by
  unfold values push
  dsimp only
  rw [List.foldlM_append]
  simp

/-- There is one value more than there are steps. -/
theorem length_values (h : p.values widest dividend = some values) : values.length = p.steps.length + 1 := by
  obtain ⟨width, register, steps⟩ := p
  induction steps using List.reverseRecOn generalizing values with
  | nil =>
    obtain rfl := Option.some.inj h
    rfl
  | append_singleton steps step ih =>
    have hpush := @values_push ⟨width, register, steps⟩ widest dividend step
    rw [show (⟨width, register, steps ++ [step]⟩ : Program) =
      (push ⟨width, register, steps⟩ step).1 from rfl, hpush, Option.bind_eq_some_iff] at h
    obtain ⟨before, hbefore, hrun⟩ := h
    obtain ⟨value, -, rfl⟩ := Option.map_eq_some_iff.mp hrun
    simp only [List.length_append, ih hbefore, List.length_singleton]

/-- A program written further: the values before stay. -/
structure Kept (p q : Program) (widest : ℕ) (dividend : ℤ) : Prop where
  width : q.width = p.width
  register : q.register = p.register
  keeps : ∀ {at_ wide : ℕ} {y : ℤ}, p.Gives widest dividend at_ wide y →
    q.Gives widest dividend at_ wide y

/-- A value written onto a program: the values before it stay, and the last step gives it. -/
structure Built (p : Program) (r : Program × ℕ) (widest : ℕ) (dividend : ℤ) (bits : ℕ) (z : ℤ) : Prop
    extends Kept p r.1 widest dividend where
  gives : r.1.Gives widest dividend r.2 bits z
  last : r.2 = r.1.steps.length

variable {r : Program × ℕ} {z : ℤ}

/-- A value written after others. -/
theorem Kept.built {q : Program} (h : Kept p q widest dividend)
    (h' : Built q r widest dividend bits z) : Built p r widest dividend bits z :=
  ⟨⟨h'.width.trans h.width, h'.register.trans h.register, fun hy => h'.keeps (h.keeps hy)⟩, h'.gives,
    h'.last⟩

theorem Built.trans {r' : Program × ℕ} {wide : ℕ} {y : ℤ} (h : Built p r widest dividend wide y)
    (h' : Built r.1 r' widest dividend bits z) : Built p r' widest dividend bits z :=
  h.toKept.built h'

theorem push_built {step : Step} (h : p.values widest dividend = some values)
    (hrun : step.run p.register widest values = some (word bits z)) :
    Built p (p.push step) widest dividend bits z := by
  have hpush : (p.push step).1.values widest dividend = some (values ++ [word bits z]) := by
    rw [values_push, h, Option.bind_some, hrun]
    rfl
  have hlen := length_values h
  refine ⟨⟨rfl, rfl, fun hy => ?_⟩, ⟨_, hpush, ?_⟩, rfl⟩
  · obtain ⟨before, hbefore, hat⟩ := hy
    obtain rfl := Option.some.inj (h.symm.trans hbefore)
    refine ⟨_, hpush, ?_⟩
    rw [List.getElem?_append_left (List.getElem?_eq_some_iff.mp hat).1]
    exact hat
  · have : (p.push step).2 = values.length := by
      rw [hlen]
      simp [push]
    rw [this, List.getElem?_concat_length]

variable {at_ wide : ℕ} {y : ℤ}

theorem constant_built {value : ℤ} (h : p.Gives widest dividend at_ wide y) (hw : bits ≤ widest) :
    Built p (p.constant value bits) widest dividend bits value := by
  obtain ⟨values, hvalues, -⟩ := h
  exact push_built hvalues (if_neg (by omega))

theorem op_built {lhs rhs lwide rwide : ℕ}
    (ha : p.Gives widest dividend lhs lwide a) (hb : p.Gives widest dividend rhs rwide b)
    (hw : bits ≤ widest)
    (hrun : opcode.run p.register bits (word lwide a) (word rwide b) = some (word bits z)) :
    Built p (p.op opcode lhs rhs bits) widest dividend bits z := by
  obtain ⟨values, hvalues, hat⟩ := ha
  obtain ⟨values', hvalues', hat'⟩ := hb
  obtain rfl := Option.some.inj (hvalues.symm.trans hvalues')
  refine push_built hvalues ?_
  simp only [Step.run, hat, hat', Option.bind_eq_bind, Option.bind_some, hrun]
  exact if_neg (by omega)

theorem by_built {constant : ℤ} (ha : p.Gives widest dividend value bits a) (hw : bits ≤ widest)
    (hrun : opcode.run p.register bits (word bits a) (word bits constant) = some (word bits z)) :
    Built p (p.by_ opcode value constant bits) widest dividend bits z := by
  have hconst : Built p (p.constant constant bits) widest dividend bits constant :=
    constant_built ha hw
  refine hconst.trans (op_built (hconst.keeps ha) hconst.gives hw ?_)
  rw [hconst.register]
  exact hrun

/-- A shift of none is the value as it is. -/
theorem shifted_built {count : ℕ}
    (h : Built p r widest dividend p.width a) (hr : r.2 = value) (hw : p.width ≤ widest)
    (hrun : count ≠ 0 → opcode.run p.register p.width (word p.width a) (word p.width count) =
      some (word p.width z))
    (hzero : count = 0 → a = z) :
    Built p (r.1.shifted opcode value count) widest dividend p.width z := by
  unfold shifted
  rw [h.width]
  split_ifs with h0
  · obtain rfl := hzero h0
    obtain rfl := hr
    exact h
  · refine h.trans (by_built (hr ▸ h.gives) hw ?_)
    rw [h.register]
    exact hrun h0

/-- The dividend at sixty four bits, where the extension keeps what it holds. -/
theorem widened_kept {extend : Opcode} (hx : p.Gives widest dividend DIVIDEND p.width a) (h64 : 64 ≤ widest)
    (hrun : p.width ≠ 64 →
      extend.run p.register 64 (word p.width a) (word p.width a) = some (word 64 a)) :
    Kept p (p.widened extend).1 widest dividend ∧
      (p.widened extend).1.Gives widest dividend (p.widened extend).2 64 a := by
  unfold widened
  split_ifs with hwidth
  · exact ⟨⟨rfl, rfl, id⟩, hwidth ▸ hx⟩
  · have hbuilt : Built p (p.convert extend DIVIDEND 64) widest dividend 64 a :=
      op_built hx hx h64 (hrun hwidth)
    exact ⟨hbuilt.toKept, hbuilt.gives⟩

/-- A value of sixty four bits back at the width of the division. -/
theorem narrowed_built (h : Built p r widest dividend 64 a) (hwidth : p.width ≤ 64)
    (h64 : 64 ≤ widest) : Built p (r.1.narrowed r.2) widest dividend p.width a := by
  unfold narrowed
  rw [h.width]
  split_ifs with heq
  · rw [heq]
    exact h
  · exact h.trans (op_built h.gives h.gives (by omega) (run_trunc (by omega)))

theorem negated_built (ha : p.Gives widest dividend value p.width a)
    (hw : p.width ≤ widest) : Built p (p.negated value) widest dividend p.width (-a) := by
  have hconst : Built p (p.constant 0 p.width) widest dividend p.width 0 := constant_built ha hw
  unfold negated
  dsimp only
  rw [hconst.width]
  refine hconst.trans (op_built hconst.gives (hconst.keeps ha) hw ?_)
  rw [← zero_sub]
  exact run_sub

theorem leftOver_built {quotient : ℕ} {divisor : ℤ}
    (hx : p.Gives widest dividend DIVIDEND p.width a)
    (hq : p.Gives widest dividend quotient p.width b) (hw : p.width ≤ widest) :
    Built p (p.leftOver quotient divisor) widest dividend p.width (a - b * divisor) := by
  have hback : Built p (p.by_ .mul quotient divisor p.width) widest dividend p.width (b * divisor) :=
    by_built hq hw run_mul
  unfold leftOver
  dsimp only
  rw [hback.width]
  exact hback.trans (op_built (hback.keeps hx) hback.gives hw run_sub)

/-- A program starts with the dividend. -/
theorem new_gives (width register : ℕ) :
    (new width register).Gives widest dividend DIVIDEND width dividend := ⟨_, rfl, rfl⟩

/-- The answer is what the last step gives. -/
theorem run_of_built {width register : ℕ} (h : Built (new width register) r widest dividend width z) :
    r.1.run widest dividend = some (word width z).number := by
  obtain ⟨values, hvalues, hat⟩ := h.gives
  have hlen := length_values hvalues
  have hlast : values.getLast? = some (word width z) := by
    rw [List.getLast?_eq_getElem?, hlen, Nat.add_sub_cancel, ← h.last]
    exact hat
  unfold run
  rw [hvalues, Option.bind_eq_bind, Option.bind_some, hlast, Option.bind_eq_bind, Option.bind_some,
    word_bits, h.width]
  exact if_pos rfl

end Program

end Rucc.Codegen
