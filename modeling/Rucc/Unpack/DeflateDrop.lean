import Rucc.Unpack.InflateCorrect

/-!
# Streams inside of streams

A stream that starts at a byte of the input is the stream of the bytes from there on.
-/

namespace Rucc.Unpack

variable {bytes : List UInt8} {k p q : ℕ}

variable {n v : ℕ} {lengths lit dist : List ℕ} {result out : List UInt8}

theorem bit_drop (bytes : List UInt8) (k i : ℕ) : bit bytes (8 * k + i) = bit (bytes.drop k) i := by
  unfold bit
  rw [Nat.mul_add_div (by decide), Nat.mul_add_mod, List.getD_eq_getElem?_getD, List.getD_eq_getElem?_getD,
    List.getElem?_drop]

theorem field_drop (bytes : List UInt8) (k p n : ℕ) : field bytes (8 * k + p) n = field (bytes.drop k) p n := by
  induction n generalizing p with
  | zero => rfl
  | succ n ih => rw [field, field, bit_drop, Nat.add_assoc, ih]

theorem codeAt_drop (bytes : List UInt8) (k p n : ℕ) : codeAt bytes (8 * k + p) n = codeAt (bytes.drop k) p n := by
  induction n with
  | zero => rfl
  | succ n ih => rw [codeAt, codeAt, ih, Nat.add_assoc, bit_drop]

theorem HasField.drop (h : HasField bytes (8 * k + p) n v q) :
    ∃ q', q = 8 * k + q' ∧ HasField (bytes.drop k) p n v q' := by
  obtain ⟨hv, hq, hend⟩ := h
  refine ⟨p + n, by omega, by rw [hv, field_drop], rfl, ?_⟩
  rw [List.length_drop]
  omega

/-- The same, where the end is known. -/
theorem HasField.drop_add (h : HasField bytes (8 * k + p) n v (8 * k + q)) : HasField (bytes.drop k) p n v q := by
  obtain ⟨q', hq, hfield⟩ := h.drop
  rwa [Nat.add_left_cancel hq]

theorem HasSymbol.drop {s : ℕ} (h : HasSymbol bytes lengths (8 * k + p) s q) :
    ∃ q', q = 8 * k + q' ∧ HasSymbol (bytes.drop k) lengths p s q' := by
  obtain ⟨hne, hcode, hq, hend⟩ := h
  refine ⟨p + Canonical.length lengths s, by omega, hne, by rw [← codeAt_drop, hcode], rfl, ?_⟩
  rw [List.length_drop]
  omega

theorem HasLengths.drop {code : List ℕ} {total : ℕ} {result : List ℕ}
    (h : HasLengths bytes code total p lengths q result) : ∀ p', p = 8 * k + p' →
      ∃ q', q = 8 * k + q' ∧ HasLengths (bytes.drop k) code total p' lengths q' result := by
  induction h with
  | done hlen => exact fun p' hp => ⟨p', hp, .done hlen⟩
  | length hroom hsymbol hs _ ih =>
    rintro p' rfl
    obtain ⟨q', rfl, hsymbol'⟩ := hsymbol.drop
    obtain ⟨r', hr, hrest⟩ := ih q' rfl
    exact ⟨r', hr, .length hroom hsymbol' hs hrest⟩
  | again hroom hsymbol hlast hextra _ ih =>
    rintro p' rfl
    obtain ⟨q', rfl, hsymbol'⟩ := hsymbol.drop
    obtain ⟨r', rfl, hextra'⟩ := hextra.drop
    obtain ⟨s', hs, hrest⟩ := ih r' rfl
    exact ⟨s', hs, .again hroom hsymbol' hlast hextra' hrest⟩
  | zeros hroom hsymbol hextra _ ih =>
    rintro p' rfl
    obtain ⟨q', rfl, hsymbol'⟩ := hsymbol.drop
    obtain ⟨r', rfl, hextra'⟩ := hextra.drop
    obtain ⟨s', hs, hrest⟩ := ih r' rfl
    exact ⟨s', hs, .zeros hroom hsymbol' hextra' hrest⟩
  | manyZeros hroom hsymbol hextra _ ih =>
    rintro p' rfl
    obtain ⟨q', rfl, hsymbol'⟩ := hsymbol.drop
    obtain ⟨r', rfl, hextra'⟩ := hextra.drop
    obtain ⟨s', hs, hrest⟩ := ih r' rfl
    exact ⟨s', hs, .manyZeros hroom hsymbol' hextra' hrest⟩

theorem metaLengths_drop (bytes : List UInt8) (k p written : ℕ) :
    metaLengths bytes (8 * k + p) written = metaLengths (bytes.drop k) p written := by
  unfold metaLengths
  refine List.map_congr_left fun s _ => ?_
  rw [Nat.add_assoc, field_drop]

theorem HasCodes.drop (h : HasCodes bytes (8 * k + p) lit dist q) :
    ∃ q', q = 8 * k + q' ∧ HasCodes (bytes.drop k) p lit dist q' := by
  obtain ⟨hlit, hdist, hclen, lengths, hfirst, hsecond, hthird, hfew, hend, hfits, hlengths, hrest⟩ := h
  rw [Nat.add_assoc (8 * k), metaLengths_drop] at hfits hlengths
  obtain ⟨q', hq, hlengths'⟩ := hlengths.drop (k := k) (p + 14 + 3 * (hclen + 4)) (by omega)
  refine ⟨q', hq, hlit, hdist, hclen, lengths, ?_, ?_, ?_, hfew, ?_, hfits, hlengths', hrest⟩
  · exact HasField.drop_add (by rwa [Nat.add_assoc] at hfirst)
  · exact HasField.drop_add (by rwa [Nat.add_assoc, Nat.add_assoc] at hsecond)
  · exact HasField.drop_add (by rwa [Nat.add_assoc, Nat.add_assoc] at hthird)
  · rw [List.length_drop]
    omega

theorem HasData.drop (h : HasData bytes lit dist p out q result) :
    ∀ p', p = 8 * k + p' → ∃ q', q = 8 * k + q' ∧ HasData (bytes.drop k) lit dist p' out q' result := by
  induction h with
  | stop hsymbol =>
    rintro p' rfl
    obtain ⟨q', hq, hsymbol'⟩ := hsymbol.drop
    exact ⟨q', hq, .stop hsymbol'⟩
  | literal hsymbol hs _ ih =>
    rintro p' rfl
    obtain ⟨q', rfl, hsymbol'⟩ := hsymbol.drop
    obtain ⟨r', hr, hrest⟩ := ih q' rfl
    exact ⟨r', hr, .literal hsymbol' hs hrest⟩
  | copy hsymbol hs hextra hlength hlast hdsymbol hd hdextra hdistance hback _ ih =>
    rintro p' rfl
    obtain ⟨q₁, rfl, hsymbol'⟩ := hsymbol.drop
    obtain ⟨q₂, rfl, hextra'⟩ := hextra.drop
    obtain ⟨q₃, rfl, hdsymbol'⟩ := hdsymbol.drop
    obtain ⟨q₄, rfl, hdextra'⟩ := hdextra.drop
    obtain ⟨r', hr, hrest⟩ := ih q₄ rfl
    exact ⟨r', hr, .copy hsymbol' hs hextra' hlength hlast hdsymbol' hd hdextra' hdistance hback hrest⟩

theorem HasBlock.drop {kind : ℕ} (h : HasBlock bytes kind (8 * k + p) out q result) :
    ∃ q', q = 8 * k + q' ∧ HasBlock (bytes.drop k) kind p out q' result := by
  generalize hp : 8 * k + p = place at h
  cases h with
  | @stored _ start len complement _ hstart hlen hcomplement hsum hdata =>
    subst hp
    obtain rfl : start = k + (p + 7) / 8 := by omega
    rw [Nat.mul_add, Nat.add_assoc (8 * k), Nat.add_assoc (8 * k)] at hcomplement
    rw [Nat.mul_add, Nat.add_assoc (8 * k)] at hlen
    refine ⟨8 * ((p + 7) / 8 + 4 + len), by omega, ?_⟩
    have hblock := @HasBlock.stored (bytes.drop k) p _ len complement out rfl hlen.drop_add hcomplement.drop_add hsum
      (by rw [List.length_drop]; omega)
    rwa [List.drop_drop, ← Nat.add_assoc k] at hblock
  | fixed hdata =>
    obtain ⟨q', hq, hdata'⟩ := hdata.drop p hp.symm
    exact ⟨q', hq, .fixed hdata'⟩
  | dynamic hcodes hdata =>
    subst hp
    obtain ⟨q', rfl, hcodes'⟩ := hcodes.drop
    obtain ⟨r', hr, hdata'⟩ := hdata.drop q' rfl
    exact ⟨r', hr, .dynamic hcodes' hdata'⟩

/-- Blocks that start at a byte of the input are the blocks of the bytes from there on. -/
theorem HasBlocks.drop (h : HasBlocks bytes p out q result) : ∀ p', p = 8 * k + p' →
    ∃ q', q = 8 * k + q' ∧ HasBlocks (bytes.drop k) p' out q' result := by
  induction h with
  | last hlast hkind hblock =>
    rintro p' rfl
    rw [Nat.add_assoc] at hlast hkind hblock
    obtain ⟨q', hq, hblock'⟩ := hblock.drop
    exact ⟨q', hq, .last hlast.drop_add hkind.drop_add hblock'⟩
  | more hlast hkind hblock _ ih =>
    rintro p' rfl
    rw [Nat.add_assoc] at hlast hkind hblock
    obtain ⟨q', rfl, hblock'⟩ := hblock.drop
    obtain ⟨r', hr, hrest⟩ := ih q' rfl
    exact ⟨r', hr, .more hlast.drop_add hkind.drop_add hblock' hrest⟩

end Rucc.Unpack
