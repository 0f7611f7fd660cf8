import Rucc.Object.HuffmanLengths
import Rucc.Object.Zlib

/-!
# The codes

The codes of lengths that fit are the canonical ones, and a symbol that is put in with its code is what a reader
finds there.
-/

namespace Rucc.Object

open Canonical (Fits used first rank)
open Unpack (HasField HasSymbol)

variable {lens : List ℕ}

theorem tallied_spec (hshort : ∀ len ∈ lens, len ≤ 15) : Yields (tallied lens) fun count =>
    count.length = 16 ∧ ∀ l < 16, count.getD l 0 = used lens l := by
  have hloop : Yields (lens.foldlM (fun count len => do
      let many ← count[len]?
      put count len (many + 1)) (List.replicate 16 0))
      fun count => count.length = 16 ∧ ∀ l < 16, count.getD l 0 = lens.count l := by
    refine Yields.foldlM (I := fun (done count : List ℕ) => count.length = 16 ∧ ∀ l < 16, count.getD l 0 = done.count l)
      ⟨List.length_replicate, fun l _ => getD_zeros 16 l⟩ ?_
    rintro done len rest count hsplit ⟨hlen, hcount⟩
    have hle := hshort len (by rw [hsplit]; exact List.mem_append_right _ List.mem_cons_self)
    refine (Yields.get (by omega : len < count.length)).bind fun many hmany => ?_
    refine (Yields.set (by omega : len < count.length) _).mono fun count' hcount' => ?_
    have hold : many = done.count len := by
      rw [← hcount len (by omega), hmany, List.getD_eq_getElem?_getD, List.getElem?_eq_getElem (by omega), Option.getD_some]
    refine ⟨by rw [hcount', List.length_set, hlen], fun l hl => ?_⟩
    rw [hcount', List.getD_eq_getElem?_getD, List.count_append, List.count_singleton]
    by_cases heq : len = l
    · subst heq
      rw [List.getElem?_set_self (by omega), Option.getD_some, hold, if_pos (beq_self_eq_true len)]
    · rw [List.getElem?_set_ne heq, ← List.getD_eq_getElem?_getD, hcount l hl, if_neg (by simpa using heq), Nat.add_zero]
  unfold tallied
  refine hloop.bind fun count ⟨hlen, hcount⟩ => Yields.pure_iff.2 ⟨by rw [List.length_set, hlen], fun l hl => ?_⟩
  unfold used
  by_cases hzero : l = 0
  · rw [if_pos hzero, hzero, List.getD_eq_getElem?_getD, List.getElem?_set_self (by omega), Option.getD_some]
  · rw [if_neg hzero, List.getD_eq_getElem?_getD, List.getElem?_set_ne (Ne.symm hzero), ← List.getD_eq_getElem?_getD,
      hcount l hl]

theorem firsts_spec {count : List ℕ} (hcount : ∀ l < 16, count.getD l 0 = used lens l) :
    (firsts count).length = 16 ∧ ∀ l, 1 ≤ l → l < 16 → (firsts count).getD l 0 = first lens l := by
  have hloop : ∀ n ≤ 15, ∃ next, (List.range' 1 n).foldl (fun (s : List ℕ × ℕ) len =>
      (s.1.set len (2 * (s.2 + count.getD (len - 1) 0)), 2 * (s.2 + count.getD (len - 1) 0)))
      (List.replicate 16 0, 0) = (next, first lens n) ∧ next.length = 16 ∧
        ∀ l, 1 ≤ l → l ≤ n → next.getD l 0 = first lens l := by
    intro n
    induction n with
    | zero => exact fun _ => ⟨_, rfl, List.length_replicate, fun l _ _ => by omega⟩
    | succ n ih =>
      intro hn
      obtain ⟨next, hnext, hlen, hfirst⟩ := ih (by omega)
      have hcode : 2 * (first lens n + count.getD (1 + n - 1) 0) = first lens (n + 1) := by
        rw [Nat.add_sub_cancel_left, hcount n (by omega), first]
      refine ⟨next.set (n + 1) (first lens (n + 1)), ?_, by rw [List.length_set, hlen], fun l hl hle => ?_⟩
      · rw [List.range'_concat, List.foldl_append, hnext, List.foldl_cons, List.foldl_nil, Nat.one_mul]
        dsimp only
        rw [hcode, Nat.add_comm 1 n]
      · rw [List.getD_eq_getElem?_getD]
        by_cases heq : n + 1 = l
        · rw [← heq, List.getElem?_set_self (by omega), Option.getD_some]
        · rw [List.getElem?_set_ne heq, ← List.getD_eq_getElem?_getD, hfirst l hl (by omega)]
  obtain ⟨next, hnext, hlen, hfirst⟩ := hloop 15 le_rfl
  unfold firsts
  rw [hnext]
  exact ⟨hlen, fun l hl hlt => hfirst l hl (by omega)⟩

theorem codes_spec (hshort : ∀ len ∈ lens, len ≤ 15) : Yields (codes lens) fun out =>
    out.length = lens.length ∧ ∀ sym, Canonical.length lens sym ≠ 0 →
      out.getD sym 0 = reverseBits 32 (Canonical.code lens sym) >>> (32 - Canonical.length lens sym) := by
  unfold codes
  refine (tallied_spec hshort).bind fun count ⟨_, hcount⟩ => ?_
  obtain ⟨hflen, hfirst⟩ := firsts_spec hcount
  refine Yields.bind (P := fun r => r.2.length = lens.length ∧ ∀ sym < r.2.length, Canonical.length lens sym ≠ 0 →
    r.2.getD sym 0 = reverseBits 32 (Canonical.code lens sym) >>> (32 - Canonical.length lens sym)) ?_ fun r hr => ?_
  · refine (Yields.foldlM (I := fun (done : List ℕ) (r : List ℕ × List ℕ) => r.1.length = 16 ∧
      (∀ l, 1 ≤ l → l < 16 → r.1.getD l 0 = first lens l + done.count l) ∧ r.2.length = done.length ∧
      ∀ sym < r.2.length, Canonical.length lens sym ≠ 0 →
        r.2.getD sym 0 = reverseBits 32 (Canonical.code lens sym) >>> (32 - Canonical.length lens sym)) ?_ ?_).mono ?_
    · dsimp only
      exact ⟨hflen, hfirst, rfl, fun _ h => absurd h (Nat.not_lt_zero _)⟩
    · rintro done len rest ⟨next, out⟩ hsplit ⟨hnlen, hnext, holen, hout⟩
      dsimp only at hnlen hnext holen hout
      have hle := hshort len (by rw [hsplit]; exact List.mem_append_right _ List.mem_cons_self)
      -- the symbol is the one after those that are done
      have hlength : Canonical.length lens done.length = len := by
        unfold Canonical.length
        rw [hsplit, List.getD_eq_getElem?_getD, List.getElem?_append_right le_rfl, Nat.sub_self]
        rfl
      have hrank : rank lens done.length = done.count len := by
        unfold rank
        rw [hlength, hsplit, List.take_left]
      have hgo (code : ℕ) (hcode : Canonical.length lens done.length ≠ 0 →
          code = reverseBits 32 (Canonical.code lens done.length) >>> (32 - Canonical.length lens done.length)) :
          ∀ sym < (out ++ [code]).length, Canonical.length lens sym ≠ 0 → (out ++ [code]).getD sym 0 =
            reverseBits 32 (Canonical.code lens sym) >>> (32 - Canonical.length lens sym) := by
        intro sym hsym hne
        rw [List.length_append, List.length_singleton] at hsym
        rw [List.getD_eq_getElem?_getD]
        by_cases hlt : sym < out.length
        · rw [List.getElem?_append_left hlt, ← List.getD_eq_getElem?_getD]
          exact hout sym hlt hne
        · obtain rfl : sym = done.length := by omega
          rw [List.getElem?_append_right (by omega), holen, Nat.sub_self]
          exact hcode hne
      rw [nextCode]
      split
      · rename_i hzero
        refine Yields.some_iff.2 ⟨hnlen, fun l hl hlt => ?_, ?_, hgo 0 fun h => absurd (hlength.trans hzero) h⟩
        · dsimp only
          rw [hnext l hl hlt, List.count_append, List.count_singleton, if_neg (by simp; omega), Nat.add_zero]
        · dsimp only
          rw [List.length_append, List.length_append, List.length_singleton, List.length_singleton, holen]
      · rename_i hpos
        refine (Yields.get (by omega : len < next.length)).bind fun code hcode => ?_
        refine (Yields.set (by omega : len < next.length) _).bind fun next' hnext' => ?_
        have hcode' : code = Canonical.code lens done.length := by
          unfold Canonical.code
          rw [hlength, hrank, ← hnext len (by omega) (by omega), hcode, List.getD_eq_getElem?_getD,
            List.getElem?_eq_getElem (by omega), Option.getD_some]
        refine Yields.pure_iff.2 ⟨by dsimp only; rw [hnext', List.length_set, hnlen], fun l hl hlt => ?_, ?_,
          hgo _ fun _ => by rw [hcode', hlength]⟩
        · dsimp only
          rw [hnext', List.getD_eq_getElem?_getD, List.count_append, List.count_singleton]
          by_cases heq : len = l
          · subst heq
            rw [List.getElem?_set_self (by omega), Option.getD_some, if_pos (beq_self_eq_true len), hcode']
            unfold Canonical.code
            rw [hlength, hrank]
            ring
          · rw [List.getElem?_set_ne heq, ← List.getD_eq_getElem?_getD, hnext l hl hlt, if_neg (by simpa using heq),
              Nat.add_zero]
        · dsimp only
          rw [List.length_append, List.length_append, List.length_singleton, List.length_singleton, holen]
    · exact fun r ⟨_, _, hlen, hout⟩ => ⟨hlen, hout⟩
  · obtain ⟨next, out⟩ := r
    refine Yields.pure_iff.2 ⟨hr.1, fun sym hne => hr.2 sym ?_ hne⟩
    have hlt := Canonical.lt_of_length_ne_zero hne
    exact hlt.trans_eq hr.1.symm

/-- Codes that are the ones for their lengths, which fit. -/
structure Coded (lens out : List ℕ) : Prop where
  fits : Fits lens 15
  short : ∀ len ∈ lens, len ≤ 15
  length : out.length = lens.length
  codes : ∀ sym, Canonical.length lens sym ≠ 0 →
    out.getD sym 0 = reverseBits 32 (Canonical.code lens sym) >>> (32 - Canonical.length lens sym)

theorem codes_coded (hshort : ∀ len ∈ lens, len ≤ 15) (hfits : Fits lens 15) : Yields (codes lens) (Coded lens) :=
  (codes_spec hshort).mono fun _ ⟨hlen, hcodes⟩ => ⟨hfits, hshort, hlen, hcodes⟩

/-- A symbol is read where it was put. -/
theorem putSym_wrote {out : List ℕ} (h : Coded lens out) {b : Bits} (hb : b.Short) {sym : ℕ}
    (hsym : Canonical.length lens sym ≠ 0) : Yields (putSym out lens b sym) fun b' =>
      b.Wrote b' fun stream p q => HasSymbol stream lens p sym q := by
  have hlt := Canonical.lt_of_length_ne_zero hsym
  have hlength : Canonical.length lens sym = lens[sym] := by
    unfold Canonical.length
    rw [List.getD_eq_getElem?_getD, List.getElem?_eq_getElem hlt, Option.getD_some]
  have hle : Canonical.length lens sym ≤ 15 := hlength ▸ h.short _ (List.getElem_mem hlt)
  have hcode := h.codes sym hsym
  have hcodelt := Canonical.code_lt h.fits hsym hle
  have holen := h.length
  -- what is put in is the code with its bits the other way round
  have hreverse : reverseBits 32 (Canonical.code lens sym) >>> (32 - Canonical.length lens sym) =
      reverseBits (Canonical.length lens sym) (Canonical.code lens sym) := by
    have hadd := reverseBits_add (32 - Canonical.length lens sym) hcodelt
    rw [Nat.add_sub_cancel' (by omega)] at hadd
    rw [hadd, Nat.shiftRight_eq_div_pow, Nat.mul_div_cancel _ (Nat.two_pow_pos _)]
  unfold putSym
  refine (Yields.get (by omega : sym < out.length)).bind fun code hcode' => ?_
  refine (Yields.get hlt).bind fun len hlen => Yields.pure_iff.2 ?_
  have hvalue : code = reverseBits (Canonical.length lens sym) (Canonical.code lens sym) := by
    rw [← hreverse, ← hcode, hcode', List.getD_eq_getElem?_getD, List.getElem?_eq_getElem (by omega), Option.getD_some]
  rw [hvalue, hlen, ← hlength]
  refine (Bits.put_wrote hb (reverseBits_lt _ _) (by omega)).mono fun stream p q ⟨hfield, hq, hend⟩ => ?_
  exact ⟨hsym, codeAt_of_field hcodelt hfield.symm, hq, hend⟩

end Rucc.Object
