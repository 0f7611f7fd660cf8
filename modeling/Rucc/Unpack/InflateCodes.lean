import Rucc.Unpack.InflateBits

/-!
# Which code lengths are a code

A list of code lengths is a code when its codewords use up all of the code space, or when at most one symbol has one,
of one bit, as where every copy of a block is from one distance. `Code::new` says of a list that asks for more that it
is none, but it takes a list that leaves codewords unused as well, where its errors promise it does not. Whatever list
it takes, reading gives a symbol exactly where the codeword of the symbol is written.
-/

namespace Rucc.Unpack

open Canonical

variable {bytes : List UInt8} {lengths : List ℕ} {c : Code} {b b' : Bits} {p s : ℕ}

/-! ## Reading back -/

/-- A symbol that is read is one whose codeword is there. -/
theorem readFrom_sound (hc : c.Of lengths) (n l : ℕ) (hn : l + n = 15) (hb : At bytes b (p + l))
    (hpast : first lengths (l + 1) ≤ 2 * codeAt bytes p l)
    (h : c.readFrom (List.range' (l + 1) n) (codeAt bytes p l <<< 1) (first lengths (l + 1)) (before lengths (l + 1)) b =
      .ok (s, b')) : ∃ q, HasSymbol bytes lengths p s q ∧ At bytes b' q := by
  induction n generalizing l b with
  | zero => cases h
  | succ n ih =>
    rw [List.range'_succ] at h
    obtain hlt | hroom := Nat.lt_or_ge (8 * bytes.length) (p + l + 1)
    · obtain ⟨e, he⟩ := bits_bad hb (by omega) hlt
      rw [Code.readFrom, he] at h
      cases h
    obtain ⟨next, hbits, hat⟩ := @bits_ok bytes _ _ 1 hb (by omega) hroom
    rw [field_one] at hbits
    rw [readFrom_step hc (by omega) _ hbits] at h
    have hcode : codeAt bytes p (l + 1) = 2 * codeAt bytes p l + bit bytes (p + l) := rfl
    split_ifs at h with hfound
    · -- the number read is the codeword of the symbol of its rank
      have hrank : codeAt bytes p (l + 1) - first lengths (l + 1) < used lengths (l + 1) := by omega
      obtain ⟨t, ht, hrank⟩ := exists_rank (by omega) hrank
      obtain ⟨hsize, hsymbol⟩ := hc.symbols t (by omega)
      rw [ht, hrank] at hsize hsymbol
      have hplace : ((before lengths (l + 1) : ℤ) + ((codeAt bytes p (l + 1) : ℕ) - (first lengths (l + 1) : ℕ))).toNat =
          before lengths (l + 1) + (codeAt bytes p (l + 1) - first lengths (l + 1)) := by omega
      dsimp only at h
      rw [hplace, if_pos hsize, hsymbol] at h
      cases h
      refine ⟨p + (l + 1), ⟨by omega, ?_, by rw [ht], by omega⟩, hat⟩
      rw [ht, code, ht, hrank]
      omega
    · refine ih (l + 1) (by omega) hat ?_ h
      rw [first]
      omega

theorem read_sound (hc : c.Of lengths) (hb : At bytes b p) (h : c.read b = .ok (s, b')) :
    ∃ q, HasSymbol bytes lengths p s q ∧ At bytes b' q := by
  refine readFrom_sound hc 15 0 rfl hb ?_ h
  simp [first, used]

/-! ## Which lists are a code -/

/-- The codewords use up the whole code space. -/
def Complete (lengths : List ℕ) : Prop := kraft lengths 15 = 2^15

/-- At most one symbol has a codeword, and it is of one bit. -/
def Single (lengths : List ℕ) : Prop := lengths.count 1 ≤ 1 ∧ ∀ l, 2 ≤ l → lengths.count l = 0

/-- The code that `Code::new` promises of the lengths: a list that describes none is refused, and reading with the one
of any other gives a symbol exactly where its codeword is, and goes on past it. -/
structure Promised (lengths : List ℕ) : Prop where
  accepted : Complete lengths ∨ Single lengths → ∃ c, Code.new lengths = .ok (some c)
  refused : ¬ (Complete lengths ∨ Single lengths) → Code.new lengths = .ok none
  reads : ∀ c bytes b p s q, Code.new lengths = .ok (some c) → At bytes b p →
    ((∃ b', c.read b = .ok (s, b') ∧ At bytes b' q) ↔ HasSymbol bytes lengths p s q)

/-- One codeword of one bit uses up half of the code space. -/
theorem Single.kraft_le (h : Single lengths) : kraft lengths 15 ≤ 2^14 :=
  calc kraft lengths 15
      ≤ ∑ l ∈ Finset.Icc 1 15, if l = 1 then 2^14 else 0 := by
        refine Finset.sum_le_sum fun l hl => ?_
        split_ifs with hone
        · subst hone
          exact Nat.mul_le_of_le_div _ _ _ h.1
        · rw [h.2 l (by have := (Finset.mem_Icc.1 hl).1; omega), Nat.zero_mul]
    _ = 2^14 := by decide

/-- `Code::new` keeps what it promises of a list exactly when the codewords use up at least the whole code space, or at
most one symbol has a codeword, of one bit. -/
theorem promised_iff (hshort : ∀ n ∈ lengths, n ≤ 15) (hfew : lengths.length < 2^16) :
    Promised lengths ↔ 2^15 ≤ kraft lengths 15 ∨ Single lengths := by
  have hshort' (s : ℕ) : length lengths s ≤ 15 := by
    by_cases hs : length lengths s = 0
    · omega
    · refine hshort _ ?_
      rw [length, List.getD_eq_getElem?_getD, List.getElem?_eq_getElem (lt_of_length_ne_zero hs), Option.getD_some]
      exact List.getElem_mem _
  obtain ⟨htaken, hrefused⟩ := new_spec hshort' hfew
  rw [fits_iff_kraft] at htaken hrefused
  constructor
  · intro h
    by_contra hnot
    push Not at hnot
    -- a list that leaves codewords unused is taken
    obtain ⟨c, hc, -⟩ := htaken hnot.1.le
    rw [h.refused fun hcode => hcode.elim hnot.1.ne hnot.2] at hc
    cases hc
  · intro hcond
    refine ⟨fun hcode => ?_, fun hnot => ?_, fun c bytes b p s q hnew hb => ?_⟩
    · obtain ⟨c, hc, -⟩ := htaken (hcode.elim (fun h => h.le) fun h => h.kraft_le.trans (by decide))
      exact ⟨c, hc⟩
    · push Not at hnot
      refine hrefused fun hle => ?_
      exact hcond.elim (fun hge => hnot.1 (le_antisymm hle hge)) hnot.2
    · have hc : c.Of lengths := by
        by_cases hle : kraft lengths 15 ≤ 2^15
        · obtain ⟨c', hc', hof⟩ := htaken hle
          rw [hc'] at hnew
          cases hnew
          exact hof
        · rw [hrefused hle] at hnew
          cases hnew
      constructor
      · rintro ⟨b', hread, hat⟩
        obtain ⟨q', hsymbol, hat'⟩ := read_sound hc hb hread
        have heq : q = q' := by
          have hplace := hat.count
          have hplace' := hat'.count
          omega
        exact heq ▸ hsymbol
      · exact fun hsymbol => read_ok hc hsymbol hb

/-- Two codewords, of one bit and of two, and a third of two bits. -/
theorem promised_iff_full : Promised [1, 2, 2] :=
  (promised_iff (by decide) (by decide)).2 (Or.inl (by decide))

/-- Three codewords of two bits leave the fourth one unused, and are taken for a code. -/
theorem not_promised_unused : ¬ Promised [2, 2, 2] := by
  intro h
  have hrefused := h.refused (by
    rintro (hcomplete | hsingle)
    · exact absurd hcomplete (by unfold Complete; decide)
    · exact absurd (hsingle.2 2 le_rfl) (by decide))
  have htaken : (Code.new [2, 2, 2]).toOption.join.isSome = true := by decide
  rw [hrefused] at htaken
  cases htaken

end Rucc.Unpack
