import Rucc.Object.MatcherSound
import Rucc.Object.ZlibHeader
import Rucc.Unpack.InflateCorrect

/-!
# The body of a block

Every symbol that a block uses is counted, and so has a code. The literals and matches are read back as they were
written, and spell out the same bytes.
-/

namespace Rucc.Object

open Unpack (HasField HasSymbol HasData copied fixedLiterals fixedDistances)

variable {len : ℕ} {out : List UInt8} {sym : Sym} {syms : List Sym}

/-! ## Codes with extra bits -/

/-- A code is the last one whose base is not past the number. -/
structure Based (base extra : List ℕ) (n : ℕ) (r : ℕ × ℕ × ℕ) : Prop where
  lt : r.1 < base.length
  le : base.getD r.1 0 ≤ n
  rest : r.2.1 = n - base.getD r.1 0
  bits : r.2.2 = extra.getD r.1 0
  next : ∀ j, r.1 < j → j < base.length → n < base.getD j 0

theorem baseCode_spec {base extra : List ℕ} (hlength : base.length = extra.length) {n i : ℕ} (hi : i < base.length)
    (hle : base.getD i 0 ≤ n) : Yields (baseCode base extra n) (Based base extra n) := by
  obtain ⟨hsome, hnone⟩ := @rposition_spec ℕ (fun b => decide (b ≤ n)) base
  have hget (j : ℕ) (hj : j < base.length) : base.getD j 0 = base[j] := by
    rw [List.getD_eq_getElem?_getD, List.getElem?_eq_getElem hj, Option.getD_some]
  have hany (j : ℕ) (hj : j < base.length) : base[j]?.any (fun b => decide (b ≤ n)) = decide (base.getD j 0 ≤ n) := by
    rw [List.getElem?_eq_getElem hj, Option.any_some, hget j hj]
  unfold baseCode
  cases hat : rposition (fun b => decide (b ≤ n)) base with
  | none =>
    have hfalse := hnone hat i
    rw [hany i hi, decide_eq_false_iff_not] at hfalse
    exact absurd hle hfalse
  | some at_ =>
    obtain ⟨hlt, hbase, hafter⟩ := hsome at_ hat
    rw [hany at_ hlt, decide_eq_true_eq] at hbase
    have hextra : at_ < extra.length := hlength ▸ hlt
    refine Yields.some_iff.2 (show at_ = at_ from rfl) |>.bind fun at' hat' => ?_
    subst hat'
    refine (Yields.get hlt).bind fun start hstart => (Yields.get hextra).bind fun bits hbits => Yields.pure_iff.2 ?_
    refine ⟨hlt, hbase, by rw [hstart, hget _ hlt], ?_, fun j hj hjlt => ?_⟩
    · rw [hbits, List.getD_eq_getElem?_getD, List.getElem?_eq_getElem hextra, Option.getD_some]
    · have hfalse := hafter j hj
      rw [hany j hjlt, decide_eq_false_iff_not] at hfalse
      exact Nat.lt_of_not_le hfalse

/-- The code of a length that can be said, and what a reader makes of it. -/
theorem lenCode_spec (hmin : MIN_MATCH ≤ len) (hmax : len ≤ MAX_MATCH) : Yields (lenCode len) fun r =>
    257 ≤ r.1 ∧ r.1 ≤ 285 ∧ len = Unpack.LENGTH_BASE.getD (r.1 - 257) 0 + r.2.1 ∧
      r.2.2 = Unpack.LENGTH_EXTRA.getD (r.1 - 257) 0 ∧ r.2.1 < 2^r.2.2 ∧ r.2.2 ≤ 32 ∧ (r.1 = 284 → r.2.1 ≤ 30) := by
  have hgap : ∀ i < 28, LEN_BASE.getD (i + 1) 0 ≤ LEN_BASE.getD i 0 + 2^LEN_EXTRA.getD i 0 := by decide
  have hsmall : ∀ i < 29, LEN_EXTRA.getD i 0 ≤ 32 := by decide
  unfold lenCode
  obtain ⟨⟨at_, extra, bits⟩, hcode, hlt, hle, hrest, hbits, hnext⟩ :=
    @baseCode_spec LEN_BASE LEN_EXTRA rfl len 0 (by decide) hmin
  rw [hcode, Option.map_some]
  dsimp only at hlt hle hrest hbits hnext
  replace hlt : at_ < 29 := hlt
  have hsmall' := hsmall at_ hlt
  refine Yields.some_iff.2 ⟨Nat.le_add_right _ _, by dsimp only; omega, ?_, ?_, ?_, by rw [hbits]; exact hsmall', ?_⟩
  · rw [Nat.add_sub_cancel_left]
    exact (Nat.add_sub_of_le hle).symm.trans (congrArg _ hrest.symm)
  · rw [Nat.add_sub_cancel_left]
    exact hbits
  · dsimp only
    obtain hlast | hinner : at_ = 28 ∨ at_ < 28 := by omega
    · have hpow := Nat.two_pow_pos bits
      have hbase : LEN_BASE.getD 28 0 = MAX_MATCH := rfl
      rw [hlast] at hrest
      omega
    · have hbefore := hnext (at_ + 1) (Nat.lt_succ_self _) (Nat.succ_lt_succ hinner)
      have hstep := hgap at_ hinner
      rw [hbits]
      omega
  · intro heq
    obtain rfl : at_ = 27 := by
      dsimp only at heq
      omega
    have hbefore : len < 258 := hnext 28 (by decide) (by decide)
    have hbase : LEN_BASE.getD 27 0 = 227 := rfl
    dsimp only
    omega

/-- The code of a distance that can be said, and what a reader makes of it. -/
theorem distCode_spec {dist : ℕ} (hmin : 1 ≤ dist) (hmax : dist ≤ WINDOW) : Yields (distCode dist) fun r =>
    r.1 ≤ 29 ∧ dist = Unpack.DISTANCE_BASE.getD r.1 0 + r.2.1 ∧
      r.2.2 = Unpack.DISTANCE_EXTRA.getD r.1 0 ∧ r.2.1 < 2^r.2.2 ∧ r.2.2 ≤ 32 := by
  have hgap : ∀ i < 29, DIST_BASE.getD (i + 1) 0 ≤ DIST_BASE.getD i 0 + 2^DIST_EXTRA.getD i 0 := by decide
  have hsmall : ∀ i < 30, DIST_EXTRA.getD i 0 ≤ 32 := by decide
  unfold distCode
  refine (@baseCode_spec DIST_BASE DIST_EXTRA rfl dist 0 (by decide) hmin).mono fun r ⟨hlt, hle, hrest, hbits, hnext⟩ => ?_
  replace hlt : r.1 < 30 := hlt
  refine ⟨by omega, (Nat.add_sub_of_le hle).symm.trans (congrArg _ hrest.symm), hbits, ?_, hbits ▸ hsmall r.1 hlt⟩
  obtain hlast | hinner : r.1 = 29 ∨ r.1 < 29 := by omega
  · have hbase : DIST_BASE.getD 29 0 + 2^DIST_EXTRA.getD 29 0 = WINDOW + 1 := rfl
    rw [hrest, hbits, hlast]
    rw [hlast] at hle
    omega
  · have hbefore := hnext (r.1 + 1) (Nat.lt_succ_self _) (Nat.succ_lt_succ hinner)
    have hstep := hgap r.1 hinner
    rw [hrest, hbits]
    omega

/-! ## What has a code -/

/-- What a symbol is said with is not zero in the two tables, of counts or of code lengths. -/
def Sym.In (lit dist : List ℕ) : Sym → Prop
  | .lit byte => lit.getD byte.toNat 0 ≠ 0
  | .copy len back => (∀ r, lenCode (len % 2^16) = some r → lit.getD r.1 0 ≠ 0) ∧
      ∀ r, distCode (back % 2^16) = some r → dist.getD r.1 0 ≠ 0

theorem Sym.In.mono {lit dist lit' dist' : List ℕ} {sym : Sym} (h : sym.In lit dist)
    (hlit : ∀ s, lit.getD s 0 ≠ 0 → lit'.getD s 0 ≠ 0) (hdist : ∀ s, dist.getD s 0 ≠ 0 → dist'.getD s 0 ≠ 0) :
    sym.In lit' dist' := by
  cases sym with
  | lit byte => exact hlit _ h
  | copy len back => exact ⟨fun r hr => hlit _ (h.1 r hr), fun r hr => hdist _ (h.2 r hr)⟩

/-- A length and a distance that can be said are not cut off. -/
theorem Sym.Good.codes {back : ℕ} (h : (Sym.copy len back).Good WINDOW MAX_MATCH out) :
    len % 2^16 = len ∧ back % 2^16 = back ∧ back < 2^32 := by
  obtain ⟨-, hmax, -, hback, -⟩ := h
  have hlen : len ≤ 258 := hmax
  have hback' : back ≤ 2^15 := hback
  exact ⟨Nat.mod_eq_of_lt (by omega), Nat.mod_eq_of_lt (by omega), by omega⟩

theorem countSym_spec {lit dist : List ℕ} (hlit : lit.length = 286) (hdist : dist.length = 30)
    (hgood : sym.Good WINDOW MAX_MATCH out) : Yields (countSym (lit, dist) sym) fun r =>
      r.1.length = 286 ∧ r.2.length = 30 ∧ sym.In r.1 r.2 ∧ (∀ s, lit.getD s 0 ≠ 0 → r.1.getD s 0 ≠ 0) ∧
        ∀ s, dist.getD s 0 ≠ 0 → r.2.getD s 0 ≠ 0 := by
  cases sym with
  | lit byte =>
    rw [countSym]
    have hbyte := byte.toNat_lt
    refine (bump_spec (by omega : byte.toNat < lit.length)).bind fun lit' ⟨hlength, hself, hkeep⟩ => ?_
    exact Yields.pure_iff.2 ⟨hlength.trans hlit, hdist, hself, hkeep, fun s hs => hs⟩
  | copy len back =>
    obtain ⟨hlen, hback, -⟩ := hgood.codes
    obtain ⟨hmin, hmax, hpos, hwindow, -⟩ := hgood
    obtain ⟨⟨code, extra, bits⟩, hcode, -, hle, -⟩ := lenCode_spec hmin hmax
    obtain ⟨⟨code', extra', bits'⟩, hcode', hle', -⟩ := distCode_spec hpos hwindow
    dsimp only at hle hle'
    have hin {lit' dist' : List ℕ} (h : lit'.getD code 0 ≠ 0) (h' : dist'.getD code' 0 ≠ 0) :
        (Sym.copy len back).In lit' dist' := by
      rw [Sym.In, hlen, hback, hcode, hcode']
      exact ⟨fun r hr => Option.some.inj hr ▸ h, fun r hr => Option.some.inj hr ▸ h'⟩
    rw [countSym, hlen, hback, hcode, hcode']
    refine (bump_spec (by omega : code < lit.length)).bind fun lit' ⟨hlength, hself, hkeep⟩ => ?_
    refine (bump_spec (by omega : code' < dist.length)).bind fun dist' ⟨hlength', hself', hkeep'⟩ => ?_
    exact Yields.pure_iff.2 ⟨hlength.trans hlit, hlength'.trans hdist, hin hself hself', hkeep, hkeep'⟩

/-- All of the symbols are counted, and so is the end of the block. -/
theorem counts_spec (hgood : ∀ sym ∈ syms, ∃ out, sym.Good WINDOW MAX_MATCH out) :
    Yields (syms.foldlM countSym ((List.replicate 286 0).set 256 1, List.replicate 30 0)) fun r =>
      r.1.length = 286 ∧ r.2.length = 30 ∧ r.1.getD 256 0 ≠ 0 ∧ ∀ sym ∈ syms, sym.In r.1 r.2 := by
  refine Yields.foldlM (I := fun (done : List Sym) (r : List ℕ × List ℕ) =>
    r.1.length = 286 ∧ r.2.length = 30 ∧ r.1.getD 256 0 ≠ 0 ∧ ∀ sym ∈ done, sym.In r.1 r.2)
    ⟨by rw [List.length_set, List.length_replicate], List.length_replicate, by decide +kernel,
      fun _ h => absurd h List.not_mem_nil⟩ ?_
  rintro done sym rest ⟨lit, dist⟩ hsplit ⟨hlit, hdist, hend, hdone⟩
  obtain ⟨out, hsym⟩ := hgood sym (by rw [hsplit]; exact List.mem_append_right _ List.mem_cons_self)
  refine (countSym_spec hlit hdist hsym).mono fun r ⟨hlit', hdist', hin, hkeep, hkeep'⟩ => ?_
  refine ⟨hlit', hdist', hkeep _ hend, fun other hother => ?_⟩
  obtain hother | hother := List.mem_append.1 hother
  · exact (hdone other hother).mono hkeep hkeep'
  · rwa [List.mem_singleton.1 hother]

theorem Spells.good {window most : ℕ} {result : List UInt8}
    (h : Spells window most out syms result) : ∀ sym ∈ syms, ∃ out, sym.Good window most out := by
  induction h with
  | nil => exact fun _ h => absurd h List.not_mem_nil
  | cons hgood _ ih =>
    intro sym hsym
    obtain rfl | hsym := List.mem_cons.1 hsym
    · exact ⟨_, hgood⟩
    · exact ih sym hsym

/-- Every symbol that can be said has a fixed code. -/
theorem in_fixed (hgood : sym.Good WINDOW MAX_MATCH out) : sym.In fixed.1 fixed.2 := by
  have hall : fixed.1.all (· ≠ 0) = true := by decide +kernel
  have hlit (s : ℕ) (hs : s < 286) : fixed.1.getD s 0 ≠ 0 := by
    have hlt : s < fixed.1.length := hs.trans (by decide +kernel)
    rw [List.getD_eq_getElem?_getD, List.getElem?_eq_getElem hlt, Option.getD_some]
    exact of_decide_eq_true (List.all_eq_true.1 hall _ (List.getElem_mem hlt))
  have hdist : ∀ s < 30, fixed.2.getD s 0 ≠ 0 := by decide
  cases sym with
  | lit byte =>
    have hbyte := byte.toNat_lt
    exact hlit _ (by omega)
  | copy len back =>
    obtain ⟨hlen, hback, -⟩ := hgood.codes
    obtain ⟨hmin, hmax, hpos, hwindow, -⟩ := hgood
    obtain ⟨code, hcode, -, hle, -⟩ := lenCode_spec hmin hmax
    obtain ⟨code', hcode', hle', -⟩ := distCode_spec hpos hwindow
    rw [Sym.In, hlen, hback, hcode, hcode']
    exact ⟨fun r hr => hlit _ (Option.some.inj hr ▸ (by omega)), fun r hr => hdist _ (Option.some.inj hr ▸ (by omega))⟩

/-! ## What is written -/

section Data

variable {lit dist lit' dist' litCodes distCodes : List ℕ} (hlitCodes : Coded lit litCodes)
  (hdistCodes : Coded dist distCodes)
  (hlit : ∀ stream p s q, HasSymbol stream lit p s q → HasSymbol stream lit' p s q)
  (hdist : ∀ stream p s q, s ≤ 29 → HasSymbol stream dist p s q → HasSymbol stream dist' p s q)

include hlitCodes hdistCodes hlit hdist

/-- The symbols and the end of the block are read as what the symbols spell. A reader may have tables that say more
symbols than those of the writer. -/
theorem putData_wrote (hend : lit.getD 256 0 ≠ 0) {syms : List Sym} {out result : List UInt8}
    (h : Spells WINDOW MAX_MATCH out syms result) (hin : ∀ sym ∈ syms, sym.In lit dist) {b : Bits} (hb : b.Short) :
    Yields (syms.foldlM (putData litCodes lit distCodes dist) b >>= fun b => putSym litCodes lit b 256) fun b' =>
      b.Wrote b' fun stream p q => HasData stream lit' dist' p out q result := by
  induction h generalizing b with
  | nil =>
    refine (Yields.some_iff.2 (rfl : b = b)).bind fun b₀ hb₀ => ?_
    subst hb₀
    exact (putSym_wrote hlitCodes hb hend).mono fun b' hb' => hb'.mono fun _ _ _ hread => .stop (hlit _ _ _ _ hread)
  | @cons out result sym syms hgood _ ih =>
    have hrest {b : Bits} (hb : b.Short) := ih (fun other hother => hin other (List.mem_cons_of_mem _ hother)) hb
    have hsym := hin sym List.mem_cons_self
    rw [List.foldlM_cons, bind_assoc]
    cases sym with
    | lit byte =>
      rw [putData]
      refine (putSym_wrote hlitCodes hb hsym).bind fun b' hb' => (hrest hb'.1).mono fun b'' hb'' => ?_
      refine (hb'.trans hb'').mono fun stream p q ⟨r, hread, hdata⟩ => ?_
      refine .literal (hlit _ _ _ _ hread) (Nat.le_of_lt_succ byte.toNat_lt) ?_
      rwa [UInt8.ofNat_toNat]
    | copy len back =>
      obtain ⟨hlen, hback, -⟩ := hgood.codes
      obtain ⟨hmin, hmax, hpos, hwindow, hreach⟩ := hgood
      obtain ⟨⟨code, extra, bits⟩, hcode, hge, hle, hsum, hbits, hlt, hfew, hlast⟩ := lenCode_spec hmin hmax
      obtain ⟨⟨code', extra', bits'⟩, hcode', hle', hsum', hbits', hlt', hfew'⟩ := distCode_spec hpos hwindow
      rw [Sym.In, hlen, hback] at hsym
      rw [putData, hlen, hback, hcode, hcode']
      dsimp only at hge hle hsum hbits hlt hfew hlast hle' hsum' hbits' hlt' hfew'
      have hwrote := putSym_wrote hlitCodes hb (hsym.1 _ hcode)
      simp only [Option.bind_eq_bind, Option.bind_some, Option.bind_assoc]
      refine hwrote.bind fun b₁ h₁ => ?_
      have h₂ := Bits.put_wrote h₁.1 hlt hfew
      refine (putSym_wrote hdistCodes h₂.1 (hsym.2 _ hcode')).bind fun b₃ h₃ => ?_
      have h₄ := Bits.put_wrote h₃.1 hlt' hfew'
      refine (hrest h₄.1).mono fun b₅ h₅ => ?_
      refine ((((h₁.trans h₂).trans h₃).trans h₄).trans h₅).mono ?_
      rintro stream p t ⟨r', ⟨r, ⟨q', ⟨q, hq, hq'⟩, hr⟩, hr'⟩, hdata⟩
      exact .copy (hlit _ _ _ _ hq) ⟨hge, hle⟩ (hbits ▸ hq') hsum hlast (hdist _ _ _ _ hle' hr) hle' (hbits' ▸ hr') hsum'
        hreach hdata

end Data

end Rucc.Object
