import Rucc.Object.ZlibBody

/-!
# Blocks

One block is read as the bytes it was made for, in whichever of the three ways it is written, and the blocks of a
stream are read one after the other, up to the only one that is marked.
-/

namespace Rucc.Object

open Unpack (field HasField HasSymbol HasData HasCodes HasBlock HasBlocks fixedLiterals fixedDistances)

variable {α : Type*} {n rounds : ℕ} {b : Bits} {lens : List ℕ} {out : List UInt8} {syms : List Sym}

/-! ## Pieces -/

theorem flatten_chunks (hn : 0 < n) {l : List α} (hrounds : l.length ≤ rounds) :
    (chunks n rounds l).flatten = l := by
  induction rounds generalizing l with
  | zero =>
    rw [List.eq_nil_of_length_eq_zero (Nat.le_zero.1 hrounds)]
    rfl
  | succ rounds ih =>
    cases l with
    | nil => rfl
    | cons x l =>
      have hless : ((x :: l).drop n).length ≤ rounds := by
        rw [List.length_drop]
        omega
      rw [chunks, List.flatten_cons, ih hless, List.take_append_drop]

theorem length_of_mem_chunks {l piece : List α} (h : piece ∈ chunks n rounds l) : piece.length ≤ n := by
  induction rounds generalizing l with
  | zero =>
    cases l with
    | nil => exact absurd h List.not_mem_nil
    | cons x l => exact absurd h List.not_mem_nil
  | succ rounds ih =>
    cases l with
    | nil => exact absurd h List.not_mem_nil
    | cons x l =>
      obtain rfl | h := List.mem_cons.1 h
      · exact List.length_take_le _ _
      · exact ih h

/-! ## What a block says -/

/-- What is read from one place on goes on at another with more bytes out, unless it is the last, and the stream
ends there. -/
def Says (stream : List UInt8) (last : Bool) (p : ℕ) (out : List UInt8) (q : ℕ) (middle : List UInt8) : Prop :=
  if last then HasBlocks stream p out q middle
  else ∀ r result, HasBlocks stream q middle r result → HasBlocks stream p out r result

section Says

variable {stream out middle result : List UInt8} {last : Bool} {p q r : ℕ}

theorem Says.of_block {kind : ℕ} (hlast : HasField stream p 1 (if last then 1 else 0) (p + 1))
    (hkind : HasField stream (p + 1) 2 kind (p + 3)) (hblock : HasBlock stream kind (p + 3) out q middle) :
    Says stream last p out q middle := by
  cases last with
  | true => exact .last hlast hkind hblock
  | false => exact fun r result hrest => .more hlast hkind hblock hrest

theorem Says.trans (h : Says stream false p out q middle) (h' : Says stream last q middle r result) :
    Says stream last p out r result := by
  cases last with
  | true => exact h r result h'
  | false => exact fun s final hrest => h s final (h' s final hrest)

end Says

/-! ## Blocks with no coding -/

theorem field_le16 {stream bytes : List UInt8} (hn : n < 2^16) (h : bytes ++ le16 n <+: stream) :
    HasField stream (8 * bytes.length) 16 n (8 * bytes.length + 16) := by
  have hbytes : bytes ++ [UInt8.ofNat n] ++ [UInt8.ofNat (n / 2^8)] <+: stream := by rwa [List.append_assoc]
  have hlow := Bits.field_pushed ((List.prefix_append _ _).trans hbytes)
  have hhigh := Bits.field_pushed hbytes
  have hsplit := Unpack.field_add stream (8 * bytes.length) 8 8
  have hlength := h.length_le
  rw [List.length_append, List.length_singleton, Nat.mul_add] at hhigh
  rw [List.length_append] at hlength
  rw [hlow, hhigh, Nat.mod_eq_of_lt (by omega : n / 2^8 < 2^8), Nat.mod_add_div] at hsplit
  refine ⟨hsplit.symm, rfl, ?_⟩
  have htwo : (le16 n).length = 2 := rfl
  omega

/-- A piece with no coding is read as it is. -/
theorem piece_wrote (hb : b.Short) {flag : ℕ} (hflag : flag < 2) {piece : List UInt8}
    (hpiece : piece.length < 2^16) :
    b.Wrote (((((b.put flag 1).put 0 2).align.extend (le16 piece.length)).extend
        (le16 (2^16 - 1 - piece.length))).extend piece) fun stream p q =>
      HasField stream p 1 flag (p + 1) ∧ HasField stream (p + 1) 2 0 (p + 3) ∧
        ∀ out, HasBlock stream 0 (p + 3) out q (out ++ piece) := by
  have hfirst := Bits.put_wrote hb (show flag < 2^1 from hflag) (by decide)
  have hsecond := Bits.put_wrote hfirst.1 (Nat.two_pow_pos 2) (by decide)
  have hhead := hfirst.trans hsecond
  obtain ⟨halign, hcount, hpos, -⟩ := @Bits.align_spec _ [] hhead.1
  obtain ⟨h₁, hcount₁, hpos₁, -⟩ := @Bits.extend_spec _ [] halign hcount (le16 piece.length)
  obtain ⟨h₂, hcount₂, hpos₂, -⟩ := @Bits.extend_spec _ [] h₁ hcount₁ (le16 (2^16 - 1 - piece.length))
  obtain ⟨h₃, -, hpos₃, -⟩ := @Bits.extend_spec _ [] h₂ hcount₂ piece
  refine ⟨h₃, fun stream hon => ?_⟩
  obtain ⟨hon₂, hdata⟩ := (@Bits.extend_spec _ stream h₂ hcount₂ piece).2.2.2 hon
  obtain ⟨hon₁, hcomplement⟩ := (@Bits.extend_spec _ stream h₁ hcount₁ _).2.2.2 hon₂
  obtain ⟨hon₀, hlen⟩ := (@Bits.extend_spec _ stream halign hcount _).2.2.2 hon₁
  obtain ⟨hb', r, hlast, hkind⟩ := hhead.2 stream ((@Bits.align_spec _ stream hhead.1).2.2.2 hon₀)
  obtain rfl : r = b.pos + 1 := hlast.2.1
  have hput : ((b.put flag 1).put 0 2).pos = b.pos + 3 := hkind.2.1
  rw [hput] at hkind hpos
  refine ⟨hb', hlast, hkind, fun out => ?_⟩
  -- everything else is at a byte boundary
  generalize ((b.put flag 1).put 0 2).align = start at *
  have hstart : start.bytes.length = (b.pos + 3 + 7) / 8 := by
    have hplace : start.pos = 8 * start.bytes.length + start.count := rfl
    omega
  have htwo (n : ℕ) : (le16 n).length = 2 := rfl
  rw [hpos₃, hpos₂, hpos₁, hpos, htwo, htwo]
  have hfield := field_le16 hpiece hlen
  have hfield' := field_le16 (by omega : 2^16 - 1 - piece.length < 2^16) hcomplement
  have hbytes : start.bytes ++ le16 piece.length ++ le16 (2^16 - 1 - piece.length) ++ piece <+: stream := hdata
  have hafter : (start.bytes ++ le16 piece.length).length = start.bytes.length + 2 := by
    rw [List.length_append, htwo]
  have hdatalength : (start.bytes ++ le16 piece.length ++ le16 (2^16 - 1 - piece.length)).length =
      start.bytes.length + 4 := by
    rw [List.length_append, hafter, htwo]
  have hend := hbytes.length_le
  rw [List.length_append, hdatalength, hstart] at hend
  rw [show (start.extend (le16 piece.length)).bytes = start.bytes ++ le16 piece.length from rfl, hafter, hstart,
    Nat.mul_add] at hfield'
  rw [hstart] at hfield
  have hread : (stream.drop ((b.pos + 3 + 7) / 8 + 4)).take piece.length = piece := by
    obtain ⟨rest, rfl⟩ := hbytes
    rw [List.append_assoc, List.drop_left' (by rw [hdatalength, hstart]), List.take_left]
  have hblock := @HasBlock.stored stream (b.pos + 3) _ piece.length (2^16 - 1 - piece.length) out rfl hfield hfield'
    (by omega) hend
  rw [hread] at hblock
  have hplace : 8 * ((b.pos + 3 + 7) / 8) + 8 * 2 + 8 * 2 + 8 * piece.length =
      8 * ((b.pos + 3 + 7) / 8 + 4 + piece.length) := by
    omega
  rwa [hplace]

theorem putStored_wrote (last : Bool) {pieces : List (List UInt8)} (hsome : pieces ≠ [])
    (hpieces : ∀ piece ∈ pieces, piece.length < 2^16) (out : List UInt8) (hb : b.Short) :
    b.Wrote (putStored last b pieces) fun stream p q => Says stream last p out q (out ++ pieces.flatten) := by
  induction pieces generalizing out b with
  | nil => exact absurd rfl hsome
  | cons piece rest ih =>
    have hpiece := hpieces piece List.mem_cons_self
    rw [putStored, Nat.mod_eq_of_lt hpiece]
    by_cases hlast : rest = []
    · subst hlast
      have hflag : (if last && List.isEmpty ([] : List (List UInt8)) then 1 else 0) = if last then 1 else 0 := by
        rw [List.isEmpty_nil, Bool.and_true]
      rw [hflag, putStored]
      refine (piece_wrote hb (by split <;> decide) hpiece).mono fun stream p q ⟨hflag, hkind, hblock⟩ => ?_
      rw [List.flatten_cons, List.flatten_nil, List.append_nil]
      exact .of_block hflag hkind (hblock out)
    · have hflag : (if last && rest.isEmpty then 1 else 0) = 0 := by
        rw [List.isEmpty_eq_false_iff.2 hlast, Bool.and_false]
        rfl
      have hfirst := piece_wrote hb (by decide : 0 < 2) hpiece
      have hrest := ih hlast (fun piece hin => hpieces piece (List.mem_cons_of_mem _ hin)) (out ++ piece) hfirst.1
      rw [hflag]
      refine (hfirst.trans hrest).mono fun stream p q ⟨r, ⟨hflag, hkind, hblock⟩, hsays⟩ => ?_
      rw [List.append_assoc] at hsays
      exact Says.trans (.of_block hflag hkind (hblock out)) hsays

/-! ## Any block -/

theorem coded_of_lens {freq : List ℕ} (h : Lens freq 15 lens) : Yields (codes lens) (Coded lens) :=
  codes_coded h.le h.fits

theorem coded_fixed : Yields (codes fixed.1) (Coded fixed.1) ∧ Yields (codes fixed.2) (Coded fixed.2) :=
  ⟨codes_coded (by decide +kernel) (Unpack.fits_of_forall (by decide +kernel)),
    codes_coded (by decide) (Unpack.fits_of_forall (by decide +kernel))⟩

/-- Of a sum over symbols that each come no times but for one, that one is left. -/
theorem sum_once (f : ℕ → ℕ) (n k : ℕ) : ∀ m ≤ n,
    ((List.range m).map fun sym => ((List.replicate n 0).set k 1).getD sym 0 * f sym).sum = if k < m then f k else 0 := by
  intro m hm
  induction m with
  | zero => rfl
  | succ m ih =>
    rw [List.range_succ, List.map_append, List.sum_append, ih (by omega), List.map_singleton, List.sum_singleton,
      List.getD_eq_getElem?_getD, List.getElem?_set]
    rcases lt_trichotomy k m with h | rfl | h
    · simp [h, h.ne, show k < m + 1 by omega, show m < n by omega]
    · simp [show k < n by omega]
    · simp [h.ne', show ¬ k < m by omega, show ¬ k < m + 1 by omega, show m < n by omega]

/-- The end of the block alone takes seven bits with the fixed codes. -/
theorem bodyBits_end : bodyBits ((List.replicate 286 0).set 256 1) (List.replicate 30 0) fixed.1 fixed.2 = 7 := by
  have hlit := sum_once (fun sym => fixed.1.getD sym 0 + if 256 < sym then LEN_EXTRA.getD (sym - 257) 0 else 0) 286 256
    286 le_rfl
  have hdist := sum_once (fun sym => fixed.2.getD sym 0 + DIST_EXTRA.getD sym 0) 30 30 30 le_rfl
  rw [List.set_eq_of_length_le (by simp)] at hdist
  rw [bodyBits, List.length_set, List.length_replicate, List.length_replicate, hlit, hdist]
  decide +kernel

/-- Symbols that say no bytes are no symbols. -/
theorem Spells.eq_nil {window most : ℕ} (h : Spells window most out syms out) : syms = [] := by
  have hlength := h.length
  cases h with
  | nil => rfl
  | @cons _ _ sym syms hgood _ =>
    have hsize : 0 < sym.size := by
      cases sym with
      | lit byte => exact Nat.one_pos
      | copy len back => exact Nat.lt_of_lt_of_le (by decide) hgood.1
    rw [List.map_cons, List.sum_cons] at hlength
    omega

theorem body_wrote {lit dist lit' dist' : List ℕ} (hlitCodes : Yields (codes lit) (Coded lit))
    (hdistCodes : Yields (codes dist) (Coded dist))
    (hlit : ∀ stream p s q, HasSymbol stream lit p s q → HasSymbol stream lit' p s q)
    (hdist : ∀ stream p s q, s ≤ 29 → HasSymbol stream dist p s q → HasSymbol stream dist' p s q)
    (hend : lit.getD 256 0 ≠ 0) {result : List UInt8}
    (h : Spells WINDOW MAX_MATCH out syms result) (hin : ∀ sym ∈ syms, sym.In lit dist) (hb : b.Short) :
    Yields (putBody lit dist b syms) fun b' =>
      b.Wrote b' fun stream p q => HasData stream lit' dist' p out q result := by
  unfold putBody
  exact hlitCodes.bind fun litCodes hlitCodes => hdistCodes.bind fun distCodes hdistCodes =>
    putData_wrote hlitCodes hdistCodes hlit hdist hend h hin hb

theorem hasSymbol_take {k : ℕ} (hzeros : ∀ i, k ≤ i → lens.getD i 0 = 0) (stream : List UInt8)
    (p s q : ℕ) (h : HasSymbol stream lens p s q) : HasSymbol stream (lens.take k) p s q := by
  obtain ⟨hne, hcode, hq, hend⟩ := h
  unfold HasSymbol
  rw [Canonical.length_take_zeros hzeros, Canonical.code_take_zeros hzeros hne]
  exact ⟨hne, hcode, hq, hend⟩

theorem hasSymbol_thirty (stream : List UInt8) (p s q : ℕ) (hs : s ≤ 29) (h : HasSymbol stream fixed.2 p s q) :
    HasSymbol stream fixedDistances p s q := by
  have hcode : ∀ s < 30, Canonical.length fixedDistances s = Canonical.length fixed.2 s ∧
      Canonical.code fixedDistances s = Canonical.code fixed.2 s := by decide
  obtain ⟨hlength, hcode⟩ := hcode s (by omega)
  unfold HasSymbol at h ⊢
  rwa [hlength, hcode]

/-- A block is read as the bytes that it was made for, whichever way it is written. -/
theorem block_wrote {b : Bits} (hb : b.Short) {syms : List Sym} {out raw : List UInt8}
    (h : Spells WINDOW MAX_MATCH out syms (out ++ raw)) (last : Bool) : Yields (block b syms raw last) fun b' =>
      b.Wrote b' fun stream p q => Says stream last p out q (out ++ raw) := by
  obtain ⟨⟨lit, dist⟩, hcounts, hlit, hdist, hend, hcounted⟩ := counts_spec h.good
  dsimp only at hlit hdist hend hcounted
  unfold block
  rw [hcounts, Option.bind_eq_bind, Option.bind_some]
  refine (lengths_spec lit (by omega) (by decide) (by rw [hlit]; decide)).bind fun litLens hlitLens => ?_
  refine (lengths_spec dist (by omega) (by decide) (by rw [hdist]; decide)).bind fun distLens hdistLens => ?_
  have hlitlength := hlitLens.length.trans hlit
  have hdistlength := hdistLens.length.trans hdist
  have htables : Tables litLens distLens :=
    ⟨hlitLens.fits, hdistLens.fits, hlitLens.le, hdistLens.le, by omega, by omega⟩
  refine (header_wrote htables).bind fun header hheader => ?_
  have hflag : (if last = true then 1 else 0) < 2^1 := by
    split
    · decide
    · decide
  dsimp only
  refine Yields.ite (fun hstored => ?_) fun _ => ?_
  · -- a block with no coding says one byte at least, as the fixed codes take less for none
    have hsome : raw ≠ [] := by
      rintro rfl
      rw [List.append_nil] at h
      obtain rfl := h.eq_nil
      obtain ⟨rfl, rfl⟩ := Prod.mk.inj (Option.some.inj hcounts)
      rw [bodyBits_end] at hstored
      exact absurd hstored.2 (by decide)
    have hflatten := flatten_chunks (by decide : 0 < 65535) (le_refl raw.length)
    have hpieces : chunks 65535 raw.length raw ≠ [] := by
      intro hnil
      rw [hnil, List.flatten_nil] at hflatten
      exact hsome hflatten.symm
    refine Yields.pure_iff.2 ((putStored_wrote last hpieces (fun piece hin => ?_) out hb).mono fun stream p q hsays => ?_)
    · exact Nat.lt_succ_of_le (length_of_mem_chunks hin)
    · rwa [hflatten] at hsays
  · have hfirst := Bits.put_wrote hb hflag (by decide)
    refine Yields.ite (fun _ => ?_) fun _ => ?_
    · have hsecond := Bits.put_wrote hfirst.1 (by decide : 1 < 2^2) (by decide)
      have hin : ∀ sym ∈ syms, sym.In fixed.1 fixed.2 := by
        intro sym hsym
        obtain ⟨_, hgood⟩ := h.good sym hsym
        exact in_fixed hgood
      refine (body_wrote coded_fixed.1 coded_fixed.2 (fun _ _ _ _ hread => hread) hasSymbol_thirty (by decide +kernel) h
        hin hsecond.1).mono fun b' hb' => ?_
      refine ((hfirst.trans hsecond).trans hb').mono fun stream p q ⟨s, ⟨r, hlast, hkind⟩, hdata⟩ => ?_
      obtain rfl : r = p + 1 := hlast.2.1
      obtain rfl : s = p + 3 := hkind.2.1
      exact .of_block hlast hkind (.fixed hdata)
    · have hsecond := Bits.put_wrote hfirst.1 (by decide : 2 < 2^2) (by decide)
      refine (hheader _ hsecond.1).bind fun b₁ h₁ => ?_
      have hlitzero := (upTo_spec 257 litLens).2.2
      have hdistzero := (upTo_spec 1 distLens).2.2
      refine (body_wrote (coded_of_lens hlitLens) (coded_of_lens hdistLens) (hasSymbol_take hlitzero)
        (fun stream p s q _ => hasSymbol_take hdistzero stream p s q) (hlitLens.some _ hend) h
        (fun sym hsym => (hcounted sym hsym).mono hlitLens.some hdistLens.some) h₁.1).mono fun b' hb' => ?_
      refine (((hfirst.trans hsecond).trans h₁).trans hb').mono ?_
      rintro stream p q ⟨t, ⟨s, ⟨r, hlast, hkind⟩, hcodes⟩, hdata⟩
      obtain rfl : r = p + 1 := hlast.2.1
      obtain rfl : s = p + 3 := hkind.2.1
      exact .of_block hlast hkind (.dynamic hcodes hdata)

/-! ## All blocks -/

/-- The blocks are read as all of the bytes, whatever way the symbols are cut. -/
theorem blocks_wrote {data : List UInt8} {pieces : List (List Sym)} (hsome : pieces ≠ []) {start : ℕ}
    (hstart : start ≤ data.length) (h : Spells WINDOW MAX_MATCH (data.take start) pieces.flatten data)
    (hb : b.Short) : Yields (blocks data b start pieces) fun b' =>
      b.Wrote b' fun stream p q => HasBlocks stream p (data.take start) q data := by
  induction pieces generalizing start b with
  | nil => exact absurd rfl hsome
  | cons piece rest ih =>
    rw [List.flatten_cons] at h
    obtain ⟨middle, hpiece, hrest⟩ := h.append
    have hlength := hpiece.length
    rw [List.length_take_of_le hstart] at hlength
    have hmiddle := List.prefix_iff_eq_take.1 hrest.prefix
    rw [hlength] at hmiddle
    have hle := hrest.prefix.length_le
    rw [hlength] at hle
    rw [blocks]
    generalize (piece.map Sym.size).sum = len at hlength hmiddle hle ⊢
    rw [if_pos hle]
    rw [hmiddle, List.take_add] at hpiece
    rw [hmiddle] at hrest
    refine (block_wrote hb hpiece rest.isEmpty).bind fun b₁ h₁ => ?_
    by_cases hlast : rest = []
    · subst hlast
      rw [blocks]
      refine Yields.some_iff.2 (h₁.mono fun stream p q hsays => ?_)
      rw [← List.take_add] at hsays
      -- nothing is left over
      have hall : data.take (start + len) = data := by
        have hnone := hrest.length
        rw [List.flatten_nil, List.map_nil, List.sum_nil, Nat.add_zero] at hnone
        exact hrest.prefix.eq_of_length hnone.symm
      rwa [hall] at hsays
    · refine (ih hlast hle hrest h₁.1).mono fun b₂ h₂ => ?_
      refine (h₁.trans h₂).mono fun stream p q ⟨r, hsays, hblocks⟩ => ?_
      rw [List.isEmpty_eq_false_iff.2 hlast, ← List.take_add] at hsays
      exact hsays _ _ hblocks

end Rucc.Object
