import Rucc.Unpack.InflateBits

/-!
# The decompressor returns what the format assigns

Each part of a stream is read as it is written, and on any input at all every part ends.
`inflateInto_correct` is the two together.
-/

namespace Rucc.Unpack

open Canonical

variable {lengths lit dist : List ℕ} {bytes : List UInt8} {p q distance s total times value : ℕ} {b : Bits}
    {code cl cd : Code}

/-! ## Codes that need no description -/

theorem fixedLengths_eq : fixedLengths = fixedLiterals := by decide +kernel

theorem fits_of_forall {longest : ℕ}
    (h : ∀ l < longest + 1, first lengths l + used lengths l ≤ 2^l) : Fits lengths longest :=
  fun l hl => h l (by omega)

theorem length_le_of_forall {m : ℕ} (h : ∀ n ∈ lengths, n ≤ m) (s : ℕ) : length lengths s ≤ m := by
  by_cases hs : s < lengths.length
  · unfold length
    rw [List.getD_eq_getElem?_getD, List.getElem?_eq_getElem hs]
    exact h _ (List.getElem_mem hs)
  · unfold length
    rw [List.getD_eq_getElem?_getD, List.getElem?_eq_none (by omega)]
    exact Nat.zero_le m

/-- Lengths that are not too long and describe codewords that fit make a code. -/
theorem new_of_fits {lengths : List ℕ} (hshort : ∀ n ∈ lengths, n ≤ 15)
    (hfew : lengths.length < 2^16) (hfits : Fits lengths 15) :
    ∃ c, Code.new lengths = .ok (some c) ∧ Code.Of lengths c :=
  (new_spec (length_le_of_forall hshort) hfew).1 hfits

/-- Building a code from any lengths that are not too long ends. -/
theorem new_ends {lengths : List ℕ} (hshort : ∀ n ∈ lengths, n ≤ 15)
    (hfew : lengths.length < 2^16) :
    ∃ o, Code.new lengths = .ok o ∧ ∀ c, o = some c → Code.Of lengths c := by
  obtain ⟨h₁, h₂⟩ := new_spec (length_le_of_forall hshort) hfew
  by_cases hfits : Fits lengths 15
  · obtain ⟨c, hnew, hc⟩ := h₁ hfits
    refine ⟨_, hnew, fun c' heq => ?_⟩
    rwa [← Option.some.inj heq]
  · exact ⟨_, h₂ hfits, fun c heq => by cases heq⟩

theorem fixed_ok : ∃ lit dist, fixed = .ok (lit, dist) ∧ Code.Of fixedLiterals lit ∧
    Code.Of (List.replicate DISTANCES 5) dist := by
  obtain ⟨lit, hlit, hoflit⟩ := @new_of_fits fixedLengths (by decide +kernel) (by decide +kernel)
    (fits_of_forall (by decide +kernel))
  obtain ⟨dist, hdist, hofdist⟩ := @new_of_fits (List.replicate DISTANCES 5) (by decide)
    (by decide) (fits_of_forall (by decide))
  refine ⟨lit, dist, ?_, fixedLengths_eq ▸ hoflit, hofdist⟩
  unfold fixed
  rw [hlit, ok_bind, hdist]
  rfl

/-- The two distance symbols with codewords and no meaning do not move the others. -/
theorem hasSymbol_fixedDistances {d : ℕ} (hd : d ≤ 29) (h : HasSymbol bytes fixedDistances p d q) :
    HasSymbol bytes (List.replicate DISTANCES 5) p d q := by
  have hcode : ∀ d < 30, length fixedDistances d = length (List.replicate DISTANCES 5) d ∧
      code fixedDistances d = code (List.replicate DISTANCES 5) d := by decide
  obtain ⟨hlength, hcode⟩ := hcode d (by omega)
  unfold HasSymbol at h ⊢
  rwa [hlength, hcode] at h

/-! ## Copies -/

/-- Copying a byte at a time repeats the bytes between the start and the end. -/
theorem copyFrom_ok (out : List UInt8) (hpos : 0 < distance) (hback : distance ≤ out.length) (n k : ℕ) :
    copyFrom n (out.length - distance + k) (out ++ copied out k distance) =
      .ok (out ++ copied out (k + n) distance) := by
  induction n generalizing k with
  | zero => rfl
  | succ n ih =>
    have hlen : (copied out k distance).length = k := by simp [copied]
    have hcopied : copied out (k + 1) distance =
        copied out k distance ++ [out.getD (out.length - distance + k % distance) 0] := by
      simp [copied, List.range_succ]
    have hget : (out ++ copied out k distance)[out.length - distance + k]? =
        some (out.getD (out.length - distance + k % distance) 0) := by
      have hmod := Nat.mod_lt k hpos
      rcases Nat.lt_or_ge k distance with hlt | hge
      · rw [List.getElem?_append_left (by omega), Nat.mod_eq_of_lt hlt,
          List.getD_eq_getElem?_getD, List.getElem?_eq_getElem (by omega)]
        rfl
      · -- Past the end of what was there, the bytes are those just copied.
        rw [List.getElem?_append_right (by omega),
          show out.length - distance + k - out.length = k - distance by omega]
        unfold copied
        rw [List.getElem?_map, List.getElem?_range (by omega), Option.map_some,
          ← Nat.mod_eq_sub_mod hge]
    rw [copyFrom, hget]
    dsimp only
    rw [List.append_assoc, ← hcopied, Nat.add_assoc, ih, show k + 1 + n = k + (n + 1) by omega]

theorem copy_ok (b : Bits) (out : List UInt8) {length : ℕ} (hpos : 0 < distance)
    (hback : distance ≤ out.length) (hwindow : distance ≤ WINDOW) :
    copy b out length distance = .ok (out ++ copied out length distance) := by
  have hcopy := copyFrom_ok out hpos hback length 0
  rw [show copied out 0 distance = [] from rfl, List.append_nil, add_zero, zero_add] at hcopy
  unfold copy
  rw [if_neg (by omega), if_neg (by omega), hcopy]

theorem copy_ends (b : Bits) (out : List UInt8) (length : ℕ) (hpos : 0 < distance) :
    Ends (copy b out length distance) fun _ => True := by
  by_cases hback : distance ≤ out.length
  · by_cases hwindow : distance ≤ WINDOW
    · exact Ends.of_ok (copy_ok b out hpos hback hwindow) trivial
    · unfold copy
      rw [if_neg (by omega), if_pos (by omega)]
      trivial
  · unfold copy
    rw [if_pos (by omega)]
    trivial

/-! ## Stored blocks -/

theorem align_at (h : At bytes b p) : At bytes b.align (8 * ((p + 7) / 8)) where
  input := h.input
  count := by
    have := h.pos_eq
    show 8 * ((p + 7) / 8) + 0 = 8 * b.pos
    omega
  held := rfl
  pos := h.pos
  short := Nat.zero_lt_succ 7

/-- The complement the reader compares with is the one of sixteen bits. -/
theorem complement_eq {n : ℕ} (h : n < 2^16) : (2^64 - 1 - n) &&& 0xffff = 2^16 - 1 - n := by
  rw [show (0xffff : ℕ) = 2^16 - 1 by norm_num, Nat.and_two_pow_sub_one_eq_mod]
  omega

/-- The reader past some whole bytes. -/
theorem At.skip {bytes : List UInt8} {b : Bits} {start n : ℕ} (h : At bytes b (8 * start))
    (hroom : start + n ≤ bytes.length) :
    At bytes { b with pos := b.pos + n } (8 * (start + n)) where
  input := h.input
  count := by
    have := h.count
    dsimp only
    omega
  held := by
    have := h.count
    have := h.short
    have hzero : b.count = 0 := by omega
    have := h.held
    dsimp only
    rw [hzero] at this ⊢
    exact this
  pos := by
    have := h.count
    have := h.short
    dsimp only
    omega
  short := h.short

theorem stored_ok {start len complement : ℕ} (h : At bytes b p) (out : List UInt8) (hstart : start = (p + 7) / 8)
    (hlen : HasField bytes (8 * start) 16 len (8 * start + 16))
    (hcomplement : HasField bytes (8 * start + 16) 16 complement (8 * start + 32))
    (hsum : len + complement = 2^16 - 1) (hdata : start + 4 + len ≤ bytes.length) :
    ∃ b', stored b out = .ok (b', out ++ (bytes.drop (start + 4)).take len) ∧
      At bytes b' (8 * (start + 4 + len)) := by
  have halign := align_at h
  rw [← hstart] at halign
  obtain ⟨b₁, hbits₁, h₁⟩ := @bits_ok bytes _ _ 16 halign (by omega) hlen.2.2
  obtain ⟨b₂, hbits₂, h₂⟩ := @bits_ok bytes _ _ 16 h₁ (by omega) hcomplement.2.2
  rw [← hlen.1] at hbits₁
  rw [← hcomplement.1] at hbits₂
  have hpos : b₂.pos = start + 4 := by
    have := h₂.pos_eq
    omega
  have hskip := @At.skip bytes b₂ (start + 4) len (by
    rwa [show 8 * (start + 4) = 8 * start + 16 + 16 by omega]) hdata
  have hsame : ¬ len ≠ 2^16 - 1 - complement := by omega
  have hfits : ¬ bytes.length < start + 4 + len := by omega
  refine ⟨_, ?_, hskip⟩
  unfold stored
  rw [hbits₁, ok_bind]
  dsimp only
  rw [hbits₂, ok_bind]
  dsimp only
  rw [@complement_eq complement (by omega), if_neg hsame, h₂.input, hpos, if_neg hfits]

theorem stored_ends (h : At bytes b p) (out : List UInt8) :
    Ends (stored b out) fun r => ∃ q, p ≤ q ∧ At bytes r.1 q := by
  unfold stored
  apply (bits_ends (align_at h) (by omega)).bind
  rintro ⟨len, b₁⟩ h₁
  apply (bits_ends h₁ (by omega)).bind
  rintro ⟨complement, b₂⟩ h₂
  dsimp only
  split_ifs with hsum hroom
  · trivial
  · trivial
  · dsimp only at h₂
    rw [h₂.input] at hroom
    rw [show 8 * ((p + 7) / 8) + 16 + 16 = 8 * ((p + 7) / 8 + 4) by omega] at h₂
    have hpos := h₂.pos_eq
    exact ⟨8 * ((p + 7) / 8 + 4 + len), by omega,
      @At.skip bytes b₂ ((p + 7) / 8 + 4) len h₂ (by omega)⟩

/-! ## The lengths of the code-length code -/

/-- Fields of three bits put in the places a list names. -/
def setAll (bytes : List UInt8) : ℕ → List ℕ → List ℕ → List ℕ
  | _, [], lengths => lengths
  | p, pos :: order, lengths => setAll bytes (p + 3) order (lengths.set pos (field bytes p 3))

theorem readMeta_ok (order : List ℕ) (h : At bytes b p)
    (lengths : List ℕ) (horder : ∀ pos ∈ order, pos < lengths.length)
    (hroom : p + 3 * order.length ≤ 8 * bytes.length) :
    ∃ b', readMeta order b lengths = .ok (setAll bytes p order lengths, b') ∧
      At bytes b' (p + 3 * order.length) := by
  induction order generalizing b p lengths with
  | nil => exact ⟨b, rfl, h⟩
  | cons pos order ih =>
    rw [List.length_cons] at hroom ⊢
    obtain ⟨b₁, hbits, h₁⟩ := @bits_ok bytes b p 3 h (by omega) (by omega)
    obtain ⟨b', hread, h'⟩ := ih h₁ (lengths.set pos (field bytes p 3))
      (fun q hq => by
        rw [List.length_set]
        exact horder q (List.mem_cons_of_mem _ hq)) (by omega)
    refine ⟨b', ?_, by rwa [show p + 3 * (order.length + 1) = p + 3 + 3 * order.length by omega]⟩
    rw [readMeta, hbits, ok_bind]
    dsimp only
    rw [if_pos (horder pos (List.mem_cons_self ..)), hread]
    rfl

theorem readMeta_ends (order : List ℕ) (h : At bytes b p)
    (lengths : List ℕ) (horder : ∀ pos ∈ order, pos < lengths.length)
    (hshort : ∀ n ∈ lengths, n ≤ 15) :
    Ends (readMeta order b lengths) fun r => r.1.length = lengths.length ∧
      (∀ n ∈ r.1, n ≤ 15) ∧ ∃ q, p ≤ q ∧ At bytes r.2 q := by
  induction order generalizing b p lengths with
  | nil => exact ⟨rfl, hshort, p, le_rfl, h⟩
  | cons pos order ih =>
    rcases Nat.lt_or_ge (8 * bytes.length) (p + 3) with hlt | hroom
    · obtain ⟨e, he⟩ := bits_bad h (by omega) hlt
      rw [readMeta, he]
      trivial
    · obtain ⟨b₁, hbits, h₁⟩ := @bits_ok bytes b p 3 h (by omega) hroom
      have hlt := field_lt bytes p 3
      rw [readMeta, hbits, ok_bind]
      dsimp only
      rw [if_pos (horder pos (List.mem_cons_self ..))]
      apply (ih h₁ (lengths.set pos (field bytes p 3)) _ _).mono
      · rintro ⟨result, b'⟩ ⟨hlength, hall, q, hle, hq⟩
        rw [List.length_set] at hlength
        exact ⟨hlength, hall, q, by omega, hq⟩
      · intro q hq
        rw [List.length_set]
        exact horder q (List.mem_cons_of_mem _ hq)
      · intro n hn
        rcases List.mem_or_eq_of_mem_set hn with hn | rfl
        · exact hshort n hn
        · omega

/-- What is put in each place is the field written for it. -/
theorem setAll_getElem (bytes : List UInt8) (order : List ℕ) (hnodup : order.Nodup) (p : ℕ)
    (lengths : List ℕ) (hs : s < lengths.length) :
    (setAll bytes p order lengths)[s]? =
      if s ∈ order then some (field bytes (p + 3 * order.idxOf s) 3) else lengths[s]? := by
  induction order generalizing p lengths with
  | nil => rfl
  | cons pos order ih =>
    rw [List.nodup_cons] at hnodup
    rw [setAll, ih hnodup.2 _ _ (by rwa [List.length_set])]
    by_cases heq : s = pos
    · subst heq
      rw [if_neg hnodup.1, if_pos (List.mem_cons_self ..), List.getElem?_set_self hs]
      simp
    · rw [List.getElem?_set_ne (Ne.symm heq)]
      by_cases hmem : s ∈ order
      · rw [if_pos hmem, if_pos (List.mem_cons_of_mem _ hmem),
          List.idxOf_cons_ne _ (Ne.symm heq)]
        rw [show p + 3 + 3 * order.idxOf s = p + 3 * (order.idxOf s + 1) by ring]
      · rw [if_neg hmem, if_neg (by simp [heq, hmem])]

theorem length_setAll (bytes : List UInt8) (order : List ℕ) (p : ℕ) (lengths : List ℕ) :
    (setAll bytes p order lengths).length = lengths.length := by
  induction order generalizing p lengths with
  | nil => rfl
  | cons pos order ih => rw [setAll, ih, List.length_set]

theorem setAll_eq_metaLengths (bytes : List UInt8) (p : ℕ) {written : ℕ} (hw : written ≤ 19) :
    setAll bytes p (ORDER.take written) (List.replicate 19 0) = metaLengths bytes p written := by
  have htake : ∀ w ≤ 19, ∀ s < 19, (s ∈ ORDER.take w ↔ ORDER.idxOf s < w) ∧
      (s ∈ ORDER.take w → (ORDER.take w).idxOf s = ORDER.idxOf s) := by decide +kernel
  apply List.ext_getElem?
  intro s
  by_cases hs : s < 19
  · obtain ⟨hmem, hidx⟩ := htake written hw s hs
    have hnodup : (ORDER.take written).Nodup :=
      List.Sublist.nodup (List.take_sublist _ _) (by decide)
    rw [setAll_getElem bytes _ hnodup p _ (by simpa using hs)]
    unfold metaLengths
    rw [List.getElem?_map, List.getElem?_range hs, Option.map_some]
    by_cases hin : s ∈ ORDER.take written
    · rw [if_pos hin, if_pos (hmem.mp hin), hidx hin]
    · rw [if_neg hin, if_neg (fun h => hin (hmem.mpr h)), List.getElem?_replicate, if_pos hs]
  · rw [List.getElem?_eq_none (by rw [length_setAll]; simpa using hs),
      List.getElem?_eq_none (by simpa [metaLengths] using hs)]

/-! ## The lengths of the two codes -/

/-- The vector the lengths are written in, after some of them. -/
def spread (lengths : List ℕ) (total : ℕ) : List ℕ :=
  lengths ++ List.replicate (total - lengths.length) 0

theorem length_spread (h : lengths.length ≤ total) : (spread lengths total).length = total := by
  unfold spread
  rw [List.length_append, List.length_replicate]
  omega

theorem spread_full (h : lengths.length = total) : spread lengths total = lengths := by
  unfold spread
  rw [h, Nat.sub_self, List.replicate_zero, List.append_nil]

theorem set_spread (h : lengths.length < total) (n : ℕ) :
    (spread lengths total).set lengths.length n = spread (lengths ++ [n]) total := by
  unfold spread
  rw [List.set_append_right _ _ le_rfl, Nat.sub_self, List.length_append, List.length_singleton,
    show total - lengths.length = total - (lengths.length + 1) + 1 by omega, List.replicate_succ,
    List.set_cons_zero, List.append_assoc]
  rfl

theorem fill_spread (value : ℕ) (h : lengths.length + times ≤ total) :
    fill (spread lengths total) lengths.length value times =
      some (spread (lengths ++ List.replicate times value) total,
        (lengths ++ List.replicate times value).length) := by
  unfold fill
  rw [length_spread (by omega), if_pos h, List.length_append, List.length_replicate]
  congr 2
  unfold spread
  rw [List.take_left, List.drop_append, List.drop_replicate, List.length_append,
    List.length_replicate, List.drop_of_length_le (by omega), List.nil_append]
  rw [show total - lengths.length - (lengths.length + times - lengths.length) =
    total - (lengths.length + times) by omega]

theorem fill_none (value : ℕ) (hle : lengths.length ≤ total) (h : ¬ lengths.length + times ≤ total) :
    fill (spread lengths total) lengths.length value times = none := by
  unfold fill
  rw [length_spread hle, if_neg h]

theorem getElem_spread_last {lengths : List ℕ} {total last : ℕ}
    (h : lengths.getLast? = some last) :
    lengths.length ≠ 0 ∧ (spread lengths total)[lengths.length - 1]? = some last := by
  obtain ⟨init, rfl⟩ := List.getLast?_eq_some_iff.mp h
  unfold spread
  constructor
  · simp
  · rw [List.getElem?_append_left (by simp)]
    simp

/-- The rest of the lengths after a run of one value. -/
theorem readLengths_run {rounds want base : ℕ}
    {b' : Bits} {extra : ℕ} (hroom : lengths.length + (extra + base) ≤ total)
    (hbits : b.bits want = .ok (extra, b')) :
    (do
      let (extra, b) ← b.bits want
      let (lengths, pos) ← orBad b .lengths
        (fill (spread lengths total) lengths.length value (extra + base))
      readLengths code rounds b lengths pos) =
    readLengths code rounds b' (spread (lengths ++ List.replicate (extra + base) value) total)
      (lengths ++ List.replicate (extra + base) value).length := by
  rw [hbits, ok_bind]
  dsimp only
  rw [fill_spread value hroom]
  rfl

theorem readLengths_ok {meta' : List ℕ} (hcode : code.Of meta') {result : List ℕ}
    (h : HasLengths bytes meta' total p lengths q result) (rounds : ℕ)
    (hrounds : total ≤ lengths.length + rounds) (hb : At bytes b p) :
    ∃ b', readLengths code rounds b (spread lengths total) lengths.length = .ok (result, b') ∧
      At bytes b' q := by
  induction h generalizing rounds b with
  | @done p lengths hlen =>
    refine ⟨b, ?_, hb⟩
    have hfull : ¬ lengths.length < (spread lengths total).length := by
      rw [length_spread hlen.le]
      omega
    cases rounds with
    | zero => rw [readLengths, if_neg hfull, spread_full hlen]
    | succ rounds => rw [readLengths, if_neg hfull, spread_full hlen]
  | @length p q r s lengths result hroom hsymbol hs _ ih =>
    obtain ⟨b₁, hread, h₁⟩ := read_ok hcode hsymbol hb
    cases rounds with
    | zero => omega
    | succ rounds =>
      obtain ⟨b', hrest, h'⟩ := ih rounds (by simp; omega) h₁
      refine ⟨b', ?_, h'⟩
      rw [readLengths, length_spread hroom.le, if_pos hroom, hread, ok_bind]
      dsimp only
      rw [if_pos hs, set_spread hroom]
      rw [List.length_append, List.length_singleton] at hrest
      exact hrest
  | @again p q q' r last extra lengths result hroom hsymbol hlast hextra _ ih =>
    obtain ⟨b₁, hread, h₁⟩ := read_ok hcode hsymbol hb
    obtain ⟨b₂, hbits, h₂⟩ := @bits_ok bytes _ _ 2 h₁ (by omega)
      (by have := hextra.2.1; have := hextra.2.2; omega)
    rw [← hextra.1] at hbits
    rw [← hextra.2.1] at h₂
    obtain ⟨hne, hget⟩ := @getElem_spread_last _ total _ hlast
    cases rounds with
    | zero => omega
    | succ rounds =>
      obtain ⟨b', hrest, h'⟩ := ih rounds (by simp; omega) h₂
      refine ⟨b', ?_, h'⟩
      rw [readLengths, length_spread (by omega), if_pos (by omega), hread, ok_bind]
      dsimp only
      rw [if_neg (by omega), if_pos rfl, if_neg hne, hget]
      dsimp only
      rw [ok_bind, readLengths_run hroom hbits]
      exact hrest
  | @zeros p q q' r extra lengths result hroom hsymbol hextra _ ih =>
    obtain ⟨b₁, hread, h₁⟩ := read_ok hcode hsymbol hb
    obtain ⟨b₂, hbits, h₂⟩ := @bits_ok bytes _ _ 3 h₁ (by omega)
      (by have := hextra.2.1; have := hextra.2.2; omega)
    rw [← hextra.1] at hbits
    rw [← hextra.2.1] at h₂
    cases rounds with
    | zero => omega
    | succ rounds =>
      obtain ⟨b', hrest, h'⟩ := ih rounds (by simp; omega) h₂
      refine ⟨b', ?_, h'⟩
      rw [readLengths, length_spread (by omega), if_pos (by omega), hread, ok_bind]
      dsimp only
      rw [if_neg (by omega), if_neg (by omega), if_pos rfl, readLengths_run hroom hbits]
      exact hrest
  | @manyZeros p q q' r extra lengths result hroom hsymbol hextra _ ih =>
    obtain ⟨b₁, hread, h₁⟩ := read_ok hcode hsymbol hb
    obtain ⟨b₂, hbits, h₂⟩ := @bits_ok bytes _ _ 7 h₁ (by omega)
      (by have := hextra.2.1; have := hextra.2.2; omega)
    rw [← hextra.1] at hbits
    rw [← hextra.2.1] at h₂
    cases rounds with
    | zero => omega
    | succ rounds =>
      obtain ⟨b', hrest, h'⟩ := ih rounds (by simp; omega) h₂
      refine ⟨b', ?_, h'⟩
      rw [readLengths, length_spread (by omega), if_pos (by omega), hread, ok_bind]
      dsimp only
      rw [if_neg (by omega), if_neg (by omega), if_neg (by omega), if_pos rfl,
        readLengths_run hroom hbits]
      exact hrest

theorem forall_append_replicate (h : ∀ n ∈ lengths, n ≤ 15)
    (hvalue : value ≤ 15) : ∀ n ∈ lengths ++ List.replicate times value, n ≤ 15 := by
  intro n hn
  rcases List.mem_append.mp hn with hn | hn
  · exact h n hn
  · rwa [(List.mem_replicate.mp hn).2]

/-- The lengths a run describes are as many as there are to be, and none is too long. -/
theorem HasLengths.result {bytes : List UInt8} {code : List ℕ} {total p q : ℕ}
    {lengths result : List ℕ} (h : HasLengths bytes code total p lengths q result)
    (hshort : ∀ n ∈ lengths, n ≤ 15) : result.length = total ∧ ∀ n ∈ result, n ≤ 15 := by
  induction h with
  | done hlen => exact ⟨hlen, hshort⟩
  | length _ _ hs _ ih =>
    apply ih
    intro n hn
    rcases List.mem_append.mp hn with hn | hn
    · exact hshort n hn
    · rwa [List.mem_singleton.mp hn]
  | again _ _ hlast _ _ ih =>
    exact ih (forall_append_replicate hshort (hshort _ (List.mem_of_getLast? hlast)))
  | zeros _ _ _ _ ih => exact ih (forall_append_replicate hshort (Nat.zero_le _))
  | manyZeros _ _ _ _ ih => exact ih (forall_append_replicate hshort (Nat.zero_le _))

theorem readLengths_ends {bytes : List UInt8} {meta' : List ℕ} {code : Code} (hcode : code.Of meta')
    {total : ℕ} (rounds : ℕ) {lengths : List ℕ} (hle : lengths.length ≤ total)
    (hshort : ∀ n ∈ lengths, n ≤ 15) (hrounds : total ≤ lengths.length + rounds) {b : Bits} {p : ℕ}
    (hb : At bytes b p) :
    Ends (readLengths code rounds b (spread lengths total) lengths.length) fun r =>
      r.1.length = total ∧ (∀ n ∈ r.1, n ≤ 15) ∧ ∃ q, p ≤ q ∧ At bytes r.2 q := by
  induction rounds generalizing lengths b p with
  | zero =>
    have hfull : lengths.length = total := by omega
    rw [readLengths, length_spread hle, if_neg (by omega), spread_full hfull]
    exact ⟨hfull, hshort, p, le_rfl, hb⟩
  | succ rounds ih =>
    rw [readLengths, length_spread hle]
    by_cases hroom : lengths.length < total
    · rw [if_pos hroom]
      apply (read_ends hcode hb).bind
      rintro ⟨symbol, b₁⟩ ⟨p₁, hlt₁, h₁⟩
      -- A run of one value either has room or is refused.
      have hrun (b₁ : Bits) (p₁ : ℕ) (hle₁ : p ≤ p₁) (h₁ : At bytes b₁ p₁) (want base value : ℕ)
          (hwant : want ≤ 16) (hbase : 0 < base) (hvalue : value ≤ 15) :
          Ends (do
            let (extra, b) ← b₁.bits want
            let (lengths, pos) ← orBad b .lengths
              (fill (spread lengths total) lengths.length value (extra + base))
            readLengths code rounds b lengths pos) fun r =>
            r.1.length = total ∧ (∀ n ∈ r.1, n ≤ 15) ∧ ∃ q, p ≤ q ∧ At bytes r.2 q := by
        apply (bits_ends h₁ hwant).bind
        rintro ⟨extra, b₂⟩ h₂
        dsimp only at h₂ ⊢
        by_cases hfits : lengths.length + (extra + base) ≤ total
        · rw [fill_spread value hfits]
          have hnext := @ih (lengths ++ List.replicate (extra + base) value) (by simp; omega)
            (forall_append_replicate hshort hvalue) (by simp; omega) _ _ h₂
          apply hnext.mono
          rintro ⟨result, b'⟩ ⟨hlength, hall, q, hq, hat⟩
          exact ⟨hlength, hall, q, by omega, hat⟩
        · rw [fill_none value hle hfits]
          trivial
      dsimp only
      by_cases hsmall : symbol ≤ 15
      · rw [if_pos hsmall, set_spread hroom]
        have hnext := @ih (lengths ++ [symbol]) (by simp; omega)
          (by
            intro n hn
            rcases List.mem_append.mp hn with hn | hn
            · exact hshort n hn
            · rwa [List.mem_singleton.mp hn]) (by simp; omega) _ _ h₁
        rw [List.length_append, List.length_singleton] at hnext
        apply hnext.mono
        rintro ⟨result, b'⟩ ⟨hlength, hall, q, hq, hat⟩
        exact ⟨hlength, hall, q, by omega, hat⟩
      · rw [if_neg hsmall]
        by_cases h16 : symbol = 16
        · rw [if_pos h16]
          rcases List.eq_nil_or_concat' lengths with rfl | ⟨init, last, hlast⟩
          · trivial
          · have hget : lengths.getLast? = some last := by rw [hlast, List.getLast?_concat]
            obtain ⟨hne, hlast⟩ := @getElem_spread_last _ total _ hget
            rw [if_neg hne, hlast]
            exact hrun b₁ p₁ (by omega) h₁ 2 3 last (by omega) (by omega)
              (hshort _ (List.mem_of_getLast? hget))
        · rw [if_neg h16]
          split_ifs
          · exact hrun b₁ p₁ (by omega) h₁ 3 3 0 (by omega) (by omega) (by omega)
          · exact hrun b₁ p₁ (by omega) h₁ 7 11 0 (by omega) (by omega) (by omega)
          · trivial
    · have hfull : lengths.length = total := by omega
      rw [if_neg hroom, spread_full hfull]
      exact ⟨hfull, hshort, p, le_rfl, hb⟩

/-! ## Dynamic blocks -/

theorem metaLengths_short (bytes : List UInt8) (p written : ℕ) : ∀ n ∈ metaLengths bytes p written, n ≤ 15 := by
  intro n hn
  obtain ⟨s, -, rfl⟩ := List.mem_map.mp hn
  split_ifs
  · have := field_lt bytes (p + 3 * ORDER.idxOf s) 3
    omega
  · exact Nat.zero_le _

theorem order_lt (written : ℕ) : ∀ pos ∈ ORDER.take written, pos < (List.replicate 19 0).length := by
  have h : ∀ pos ∈ ORDER, pos < (List.replicate 19 0).length := by decide
  exact fun pos hpos => h pos (List.mem_of_mem_take hpos)

theorem dynamic_ok (h : HasCodes bytes p lit dist q) (hb : At bytes b p) :
    ∃ cl cd b', dynamic b = .ok ((cl, cd), b') ∧ cl.Of lit ∧ cd.Of dist ∧ At bytes b' q := by
  obtain ⟨hlit, hdist, hclen, lengths, h₁, h₂, h₃, hmost, hroom, hmeta, hlengths, rfl, rfl, hfits₁,
    hfits₂⟩ := h
  obtain ⟨b₁, hbits₁, hat₁⟩ := @bits_ok bytes _ _ 5 hb (by omega) h₁.2.2
  obtain ⟨b₂, hbits₂, hat₂⟩ := @bits_ok bytes _ _ 5 hat₁ (by omega) h₂.2.2
  obtain ⟨b₃, hbits₃, hat₃⟩ := @bits_ok bytes _ _ 4 hat₂ (by omega) h₃.2.2
  have hlt₂ := field_lt bytes (p + 5) 5
  have hlt₃ := field_lt bytes (p + 5 + 5) 4
  rw [← h₁.1] at hbits₁
  rw [← h₂.1] at hbits₂ hlt₂
  rw [show p + 5 + 5 = p + 10 by omega, ← h₃.1] at hbits₃ hlt₃
  rw [show p + 5 + 5 + 4 = p + 14 by omega] at hat₃
  have hwritten : (ORDER.take (hclen + 4)).length = hclen + 4 := by
    rw [List.length_take, show ORDER.length = 19 from rfl]
    omega
  obtain ⟨b₄, hread₄, hat₄⟩ := readMeta_ok (ORDER.take (hclen + 4)) hat₃ (List.replicate 19 0)
    (order_lt _) (by rw [hwritten]; exact hroom)
  rw [setAll_eq_metaLengths bytes _ (by omega)] at hread₄
  rw [hwritten] at hat₄
  obtain ⟨code, hcode, hofcode⟩ :=
    new_of_fits (metaLengths_short bytes _ _) (by simp [metaLengths]) hmeta
  obtain ⟨b₅, hread₅, hat₅⟩ :=
    readLengths_ok hofcode hlengths (hlit + 257 + (hdist + 1)) (by simp) hat₄
  obtain ⟨htotal, hshort⟩ := hlengths.result (by simp)
  obtain ⟨cl, hcl, hofcl⟩ := new_of_fits (fun n hn => hshort n (List.mem_of_mem_take hn))
    (by rw [List.length_take]; omega) hfits₁
  obtain ⟨cd, hcd, hofcd⟩ := new_of_fits (fun n hn => hshort n (List.mem_of_mem_drop hn))
    (by rw [List.length_drop]; omega) hfits₂
  have hallowed : ¬ (hlit + 257 > LITERALS ∨ hdist + 1 > DISTANCES + 2) := by
    unfold LITERALS DISTANCES
    omega
  refine ⟨cl, cd, b₅, ?_, hofcl, hofcd, hat₅⟩
  unfold dynamic
  rw [hbits₁, ok_bind]
  dsimp only
  rw [hbits₂, ok_bind]
  dsimp only
  rw [hbits₃, ok_bind]
  dsimp only
  rw [if_neg hallowed, hread₄, ok_bind]
  dsimp only
  rw [hcode, ok_bind]
  show (readLengths code (hlit + 257 + (hdist + 1)) b₄ (spread [] (hlit + 257 + (hdist + 1))) 0 >>= _) =
    _
  rw [show (0 : ℕ) = ([] : List ℕ).length from rfl, hread₅, ok_bind]
  dsimp only
  rw [hcl, ok_bind]
  show (Code.new (lengths.drop (hlit + 257)) >>= _) = _
  rw [hcd]
  rfl

theorem orBad_ends {α β : Type} {what : Bad} {o : Option α} {f : α → Except Stop β}
    {P : β → Prop} (h : ∀ x, o = some x → Ends (f x) P) : Ends (orBad b what o >>= f) P := by
  cases o with
  | none => trivial
  | some x => exact h x rfl

theorem dynamic_ends (hb : At bytes b p) : Ends (dynamic b) fun r => ∃ lit dist, r.1.1.Of lit ∧ r.1.2.Of dist ∧
      ∃ q, p ≤ q ∧ At bytes r.2 q := by
  unfold dynamic
  apply (bits_ends hb (by omega)).bind
  rintro ⟨nlit, b₁⟩ h₁
  apply (bits_ends h₁ (by omega)).bind
  rintro ⟨ndist, b₂⟩ h₂
  apply (bits_ends h₂ (by omega)).bind
  rintro ⟨ncode, b₃⟩ h₃
  dsimp only at h₃ ⊢
  by_cases hallowed : nlit + 257 > LITERALS ∨ ndist + 1 > DISTANCES + 2
  · rw [if_pos hallowed]
    trivial
  · rw [if_neg hallowed]
    unfold LITERALS DISTANCES at hallowed
    apply (readMeta_ends (ORDER.take (ncode + 4)) h₃ (List.replicate 19 0) (order_lt _)
      (by simp)).bind
    rintro ⟨lengths, b₄⟩ ⟨hlength, hshort, p₄, hle₄, h₄⟩
    rw [List.length_replicate] at hlength
    dsimp only at hlength hshort h₄ ⊢
    obtain ⟨o, hnew, hof⟩ := new_ends hshort (by omega)
    rw [hnew, ok_bind]
    apply orBad_ends
    intro code hcode
    have hread := @readLengths_ends bytes lengths code (hof code hcode) (nlit + 257 + (ndist + 1))
      (nlit + 257 + (ndist + 1)) [] (Nat.zero_le _) (by simp) (by simp) b₄ p₄ h₄
    apply hread.bind
    rintro ⟨lengths', b₅⟩ ⟨hlength', hshort', p₅, hle₅, h₅⟩
    dsimp only at hlength' hshort' h₅ ⊢
    obtain ⟨ol, hnewl, hofl⟩ := @new_ends (lengths'.take (nlit + 257))
      (fun n hn => hshort' n (List.mem_of_mem_take hn)) (by rw [List.length_take]; omega)
    rw [hnewl, ok_bind]
    apply orBad_ends
    intro lit hlit
    obtain ⟨od, hnewd, hofd⟩ := @new_ends (lengths'.drop (nlit + 257))
      (fun n hn => hshort' n (List.mem_of_mem_drop hn)) (by rw [List.length_drop]; omega)
    rw [hnewd, ok_bind]
    apply orBad_ends
    intro dist hdist
    exact ⟨_, _, hofl lit hlit, hofd dist hdist, p₅, by omega, h₅⟩

/-! ## Literals and copies -/

theorem entry_ok {table : List ℕ} {i : ℕ} (h : i < table.length) :
    entry table i = .ok (table.getD i 0) := by
  unfold entry
  rw [List.getD_eq_getElem?_getD, List.getElem?_eq_getElem h]
  rfl

theorem distance_bounds {d extra : ℕ} (hd : d ≤ 29) (hextra : extra < 2^(DISTANCE_EXTRA.getD d 0)) :
    0 < DISTANCE_BASE.getD d 0 + extra ∧ DISTANCE_BASE.getD d 0 + extra ≤ WINDOW := by
  have h : ∀ d ≤ 29, 0 < DISTANCE_BASE.getD d 0 ∧
      DISTANCE_BASE.getD d 0 + 2^(DISTANCE_EXTRA.getD d 0) ≤ WINDOW + 1 := by decide +kernel
  have := h d hd
  omega

theorem extra_bounds : (∀ i, LENGTH_EXTRA.getD i 0 ≤ 16) ∧ ∀ i, DISTANCE_EXTRA.getD i 0 ≤ 16 := by
  have h₁ : ∀ n ∈ LENGTH_EXTRA, n ≤ 15 := by decide
  have h₂ : ∀ n ∈ DISTANCE_EXTRA, n ≤ 15 := by decide
  exact ⟨fun i => (length_le_of_forall h₁ i).trans (by omega),
    fun i => (length_le_of_forall h₂ i).trans (by omega)⟩

/-- A symbol takes at least a bit. -/
theorem HasSymbol.lt (h : HasSymbol bytes lengths p s q) : p < q := by
  have := Nat.pos_of_ne_zero h.1
  have := h.2.2.1
  omega

theorem block_ok {dist' : List ℕ} (hcl : cl.Of lit) (hcd : cd.Of dist')
    (hdist : ∀ p d q, d ≤ 29 → HasSymbol bytes dist p d q → HasSymbol bytes dist' p d q)
    {out result : List UInt8} (h : HasData bytes lit dist p out q result) (rounds : ℕ)
    (hrounds : 8 * bytes.length < p + rounds) (hb : At bytes b p) :
    ∃ b', block cl cd rounds b out = .ok (b', result) ∧ At bytes b' q := by
  induction h generalizing rounds b with
  | @stop p q out hsymbol =>
    obtain ⟨b₁, hread, h₁⟩ := read_ok hcl hsymbol hb
    have hle := hb.le
    cases rounds with
    | zero => omega
    | succ rounds =>
      refine ⟨b₁, ?_, h₁⟩
      rw [block, hread]
      rfl
  | @literal p q r s out result hsymbol hs _ ih =>
    obtain ⟨b₁, hread, h₁⟩ := read_ok hcl hsymbol hb
    have hle := hb.le
    have hlt := hsymbol.lt
    cases rounds with
    | zero => omega
    | succ rounds =>
      obtain ⟨b', hrest, h'⟩ := ih rounds (by omega) h₁
      refine ⟨b', ?_, h'⟩
      rw [block, hread, ok_bind]
      dsimp only
      rw [if_pos hs, hrest]
  | @copy p q q' r r' t s extra length d extra' distance out result hsymbol hs hextra hlength _
      hdsymbol hd hdextra hdistance hback _ ih =>
    obtain ⟨b₁, hread₁, h₁⟩ := read_ok hcl hsymbol hb
    have hle := hb.le
    have hlt := hsymbol.lt
    have hlt' := hdsymbol.lt
    have hplace : s - 257 < 29 := by omega
    obtain ⟨b₂, hbits₂, h₂⟩ := @bits_ok bytes _ _ (LENGTH_EXTRA.getD (s - 257) 0) h₁
      (extra_bounds.1 _) (by have := hextra.2.1; have := hextra.2.2; omega)
    rw [← hextra.1] at hbits₂
    rw [← hextra.2.1] at h₂
    obtain ⟨b₃, hread₃, h₃⟩ := read_ok hcd (hdist _ _ _ hd hdsymbol) h₂
    obtain ⟨b₄, hbits₄, h₄⟩ := @bits_ok bytes _ _ (DISTANCE_EXTRA.getD d 0) h₃
      (extra_bounds.2 _) (by have := hdextra.2.1; have := hdextra.2.2; omega)
    rw [← hdextra.1] at hbits₄
    rw [← hdextra.2.1] at h₄
    have hbounds := @distance_bounds d extra' hd (by
      rw [hdextra.1]
      exact field_lt _ _ _)
    rw [← hdistance] at hbounds
    have hq := hextra.2.1
    have hr := hdextra.2.1
    have hd30 : d < 30 := by omega
    have hmeaning : ¬ d ≥ DISTANCES := by
      unfold DISTANCES
      omega
    cases rounds with
    | zero => omega
    | succ rounds =>
      obtain ⟨b', hrest, h'⟩ := ih rounds (by omega) h₄
      refine ⟨b', ?_, h'⟩
      rw [block, hread₁, ok_bind]
      dsimp only
      rw [if_neg (by omega), if_neg (by omega), if_pos hs.2, @entry_ok LENGTH_BASE _ hplace,
        ok_bind, @entry_ok LENGTH_EXTRA _ hplace, ok_bind, hbits₂, ok_bind]
      dsimp only
      rw [← hlength, hread₃, ok_bind]
      dsimp only
      rw [if_neg hmeaning, @entry_ok DISTANCE_BASE _ hd30, ok_bind, @entry_ok DISTANCE_EXTRA _ hd30,
        ok_bind, hbits₄, ok_bind]
      dsimp only
      rw [← hdistance, copy_ok _ out hbounds.1 hback hbounds.2, ok_bind, hrest]

theorem block_ends (hcl : cl.Of lit) (hcd : cd.Of dist) (rounds : ℕ) (hrounds : 8 * bytes.length < p + rounds)
    (hb : At bytes b p) (out : List UInt8) :
    Ends (block cl cd rounds b out) fun r => ∃ q, p ≤ q ∧ At bytes r.1 q := by
  induction rounds generalizing p b out with
  | zero =>
    have := hb.le
    omega
  | succ rounds ih =>
    have hnext {b : Bits} {q : ℕ} (hlt : p < q) (h : At bytes b q) (out : List UInt8) :
        Ends (block cl cd rounds b out) fun r => ∃ q, p ≤ q ∧ At bytes r.1 q := by
      apply (ih (by omega) h out).mono
      rintro ⟨b', result⟩ ⟨q', hle, h'⟩
      exact ⟨q', by omega, h'⟩
    rw [block]
    apply (read_ends hcl hb).bind
    rintro ⟨symbol, b₁⟩ ⟨p₁, hlt₁, h₁⟩
    dsimp only at h₁ ⊢
    by_cases hliteral : symbol ≤ 255
    · rw [if_pos hliteral]
      exact hnext hlt₁ h₁ _
    · rw [if_neg hliteral]
      by_cases hstop : symbol = 256
      · rw [if_pos hstop]
        exact ⟨p₁, hlt₁.le, h₁⟩
      · rw [if_neg hstop]
        by_cases hlength : symbol ≤ 285
        · have hplace : symbol - 257 < 29 := by omega
          rw [if_pos hlength, @entry_ok LENGTH_BASE _ hplace, ok_bind,
            @entry_ok LENGTH_EXTRA _ hplace, ok_bind]
          have hextra := extra_bounds.1 (symbol - 257)
          generalize LENGTH_EXTRA.getD (symbol - 257) 0 = want at hextra ⊢
          generalize LENGTH_BASE.getD (symbol - 257) 0 = base
          apply (bits_ends h₁ hextra).bind
          rintro ⟨extra, b₂⟩ h₂
          apply (read_ends hcd h₂).bind
          rintro ⟨d, b₃⟩ ⟨p₃, hlt₃, h₃⟩
          dsimp only at h₃ ⊢
          by_cases hreserved : d ≥ DISTANCES
          · rw [if_pos hreserved]
            trivial
          · have hd : d < 30 := by
              unfold DISTANCES at hreserved
              omega
            rw [if_neg hreserved, @entry_ok DISTANCE_BASE _ hd, ok_bind,
              @entry_ok DISTANCE_EXTRA _ hd, ok_bind]
            have hextra' := extra_bounds.2 d
            have hpos := (@distance_bounds d 0 (by omega) (by positivity)).1
            generalize DISTANCE_EXTRA.getD d 0 = want' at hextra' ⊢
            generalize DISTANCE_BASE.getD d 0 = base' at hpos ⊢
            apply (bits_ends h₃ hextra').bind
            rintro ⟨extra', b₄⟩ h₄
            apply (copy_ends _ out _ (by omega)).bind
            intro out' _
            exact hnext (by omega) h₄ out'
        · rw [if_neg hlength]
          trivial

/-! ## Streams -/

/-- One block read as it is written. -/
theorem oneBlock_ok {kind : ℕ} {out result : List UInt8}
    (h : HasBlock bytes kind p out q result) (hb : At bytes b p) :
    ∃ b', oneBlock kind b out = .ok (b', result) ∧ At bytes b' q := by
  unfold oneBlock
  cases h with
  | stored hstart hlen hcomplement hsum hdata =>
    exact stored_ok hb out hstart hlen hcomplement hsum hdata
  | fixed hdata =>
    obtain ⟨lit, dist, hfixed, hlit, hdist⟩ := fixed_ok
    rw [if_neg (by omega), if_pos rfl, hfixed, ok_bind]
    apply block_ok hlit hdist (fun p d q hd hs => hasSymbol_fixedDistances hd hs) hdata _ _ hb
    rw [hb.input]
    omega
  | dynamic hcodes hdata =>
    obtain ⟨cl, cd, b₁, hdynamic, hlit, hdist, h₁⟩ := dynamic_ok hcodes hb
    rw [if_neg (by omega), if_neg (by omega), if_pos rfl, hdynamic, ok_bind]
    apply block_ok hlit hdist (fun _ _ _ _ hs => hs) hdata _ _ h₁
    rw [h₁.input]
    omega

theorem oneBlock_ends (kind : ℕ) (hb : At bytes b p)
    (out : List UInt8) : Ends (oneBlock kind b out) fun r => ∃ q, p ≤ q ∧ At bytes r.1 q := by
  unfold oneBlock
  by_cases h₀ : kind = 0
  · rw [if_pos h₀]
    exact stored_ends hb out
  · rw [if_neg h₀]
    by_cases h₁ : kind = 1
    · obtain ⟨lit, dist, hfixed, hlit, hdist⟩ := fixed_ok
      rw [if_pos h₁, hfixed, ok_bind]
      apply block_ends hlit hdist _ _ hb out
      rw [hb.input]
      omega
    · rw [if_neg h₁]
      by_cases h₂ : kind = 2
      · rw [if_pos h₂]
        apply (dynamic_ends hb).bind
        rintro ⟨⟨lit, dist⟩, b₁⟩ ⟨ll, ld, hlit, hdist, q, hle, hat⟩
        dsimp only at hlit hdist hat ⊢
        have hblock := block_ends hlit hdist (8 * b₁.bytes.length + 1) (by rw [hat.input]; omega)
          hat out
        apply hblock.mono
        rintro ⟨b', result⟩ ⟨q', hle', h'⟩
        exact ⟨q', by omega, h'⟩
      · rw [if_neg h₂]
        trivial

theorem blocks_ok {out result : List UInt8}
    (h : HasBlocks bytes p out q result) (rounds : ℕ) (hrounds : 8 * bytes.length < p + rounds)
    (hb : At bytes b p) : blocks rounds b out = .ok ((q + 7) / 8, result) := by
  induction h generalizing rounds b with
  | @last p q kind out result hlast hkind hblock =>
    have hle := hb.le
    obtain ⟨b₁, hbits₁, h₁⟩ := @bits_ok bytes _ _ 1 hb (by omega) hlast.2.2
    obtain ⟨b₂, hbits₂, h₂⟩ := @bits_ok bytes _ _ 2 h₁ (by omega) hkind.2.2
    rw [← hlast.1] at hbits₁
    rw [← hkind.1] at hbits₂
    obtain ⟨b₃, hread, h₃⟩ := oneBlock_ok hblock h₂
    cases rounds with
    | zero => omega
    | succ rounds =>
      rw [blocks, hbits₁, ok_bind]
      dsimp only
      rw [hbits₂, ok_bind]
      dsimp only
      rw [hread, ok_bind]
      dsimp only
      rw [if_pos rfl, h₃.pos_eq]
  | @more p q r kind out middle result hlast hkind hblock _ ih =>
    have hle := hb.le
    obtain ⟨b₁, hbits₁, h₁⟩ := @bits_ok bytes _ _ 1 hb (by omega) hlast.2.2
    obtain ⟨b₂, hbits₂, h₂⟩ := @bits_ok bytes _ _ 2 h₁ (by omega) hkind.2.2
    rw [← hlast.1] at hbits₁
    rw [← hkind.1] at hbits₂
    obtain ⟨b₃, hread, h₃⟩ := oneBlock_ok hblock h₂
    cases rounds with
    | zero => omega
    | succ rounds =>
      -- The block after is further on, whatever kind this one is.
      have hends := oneBlock_ends kind h₂ out
      rw [hread] at hends
      obtain ⟨q', hle', h'⟩ := hends
      have hsame : q = q' := by
        have := h₃.count
        have := h'.count
        dsimp only at this
        omega
      rw [blocks, hbits₁, ok_bind]
      dsimp only
      rw [hbits₂, ok_bind]
      dsimp only
      rw [hread, ok_bind]
      dsimp only
      rw [if_neg (by omega), ih rounds (by omega) h₃]

theorem blocks_ends (rounds : ℕ) (hrounds : 8 * bytes.length < p + rounds) (hb : At bytes b p) (out : List UInt8) :
    Ends (blocks rounds b out) fun _ => True := by
  induction rounds generalizing p b out with
  | zero =>
    have := hb.le
    omega
  | succ rounds ih =>
    rw [blocks]
    apply (bits_ends hb (by omega)).bind
    rintro ⟨last, b₁⟩ h₁
    apply (bits_ends h₁ (by omega)).bind
    rintro ⟨kind, b₂⟩ h₂
    apply (oneBlock_ends kind h₂ out).bind
    rintro ⟨b₃, out'⟩ ⟨q, hle, h₃⟩
    dsimp only at h₃ ⊢
    split_ifs
    · trivial
    · exact ih (by omega) h₃ out'

/-- The decompressor returns exactly what the format assigns to a stream, onto any history, with the
number of bytes it used; and on any input at all it ends with a result or an error. -/
theorem inflateInto_correct (bytes history : List UInt8) :
    (∀ consumed out, Deflates bytes history consumed out →
      inflateInto bytes history = .ok (consumed, out)) ∧
    ((∃ r, inflateInto bytes history = .ok r) ∨
      ∃ e, inflateInto bytes history = .error (.bad e)) := by
  constructor
  · rintro consumed out ⟨q, hblocks, rfl⟩
    exact blocks_ok hblocks _ (by omega) (at_start bytes)
  · have hends := blocks_ends (8 * bytes.length + 1) (by omega) (at_start bytes) history
    unfold inflateInto
    match blocks (8 * bytes.length + 1) ⟨bytes, 0, 0, 0⟩ history, hends with
    | .ok r, _ => exact Or.inl ⟨r, rfl⟩
    | .error (.bad e), _ => exact Or.inr ⟨e, rfl⟩

/-- A literal and a copy over what it writes: one byte four times. -/
theorem deflates_run : Deflates [0x4b, 0x04, 0x02, 0x00] [] 4 [97, 97, 97, 97] := by
  have hliteral : HasSymbol [0x4b, 0x04, 0x02, 0x00] fixedLiterals 3 97 11 :=
    ⟨by decide +kernel, by decide +kernel, by decide +kernel, by decide⟩
  have hlength : HasSymbol [0x4b, 0x04, 0x02, 0x00] fixedLiterals 11 257 18 :=
    ⟨by decide +kernel, by decide +kernel, by decide +kernel, by decide⟩
  have hdistance : HasSymbol [0x4b, 0x04, 0x02, 0x00] fixedDistances 18 0 23 :=
    ⟨by decide +kernel, by decide +kernel, by decide +kernel, by decide⟩
  have hstop : HasSymbol [0x4b, 0x04, 0x02, 0x00] fixedLiterals 23 256 30 :=
    ⟨by decide +kernel, by decide +kernel, by decide +kernel, by decide⟩
  have hcopy : HasData [0x4b, 0x04, 0x02, 0x00] fixedLiterals fixedDistances 11 [97] 30
      [97, 97, 97, 97] :=
    .copy hlength (by omega) ⟨rfl, rfl, by decide⟩ rfl (by omega) hdistance (by omega)
      ⟨rfl, rfl, by decide⟩ rfl (by decide) (.stop hstop)
  exact ⟨30, .last ⟨rfl, rfl, by decide⟩ ⟨rfl, rfl, by decide⟩
    (.fixed (.literal hliteral (by omega) hcopy)), rfl⟩

/-- The decompressor gives it. -/
theorem inflateInto_run : inflateInto [0x4b, 0x04, 0x02, 0x00] [] = .ok (4, [97, 97, 97, 97]) :=
  (inflateInto_correct _ _).1 _ _ deflates_run

end Rucc.Unpack
