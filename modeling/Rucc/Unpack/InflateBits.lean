import Rucc.Unpack.Deflate

/-!
# The bit reader and the codes read

The reader holds the bits between the place it is at and the next byte boundary. Reading as many
bits as wanted gives the number in them, or the error that the input ends; reading a symbol gives
the one whose codeword is there.
-/

namespace Rucc.Unpack

open Canonical

variable {bytes : List UInt8} {b : Bits} {p want l m s q : ℕ} {α β : Type} {r : Except Stop α} {P : α → Prop}
    {lengths : List ℕ} {counts offsets : ℕ → ℕ} {c : Code}

/-! ## Numbers in bits -/

theorem bit_lt (bytes : List UInt8) (i : ℕ) : bit bytes i < 2 := Nat.mod_lt _ (by omega)

theorem field_lt (bytes : List UInt8) (p n : ℕ) : field bytes p n < 2^n := by
  induction n generalizing p with
  | zero => simp [field]
  | succ n ih =>
    have := ih (p + 1)
    have := bit_lt bytes p
    rw [field, pow_succ]
    omega

theorem field_add (bytes : List UInt8) (p m n : ℕ) :
    field bytes p (m + n) = field bytes p m + 2^m * field bytes (p + m) n := by
  induction m generalizing p with
  | zero => simp [field]
  | succ m ih =>
    rw [show m + 1 + n = m + n + 1 by omega, field, field, ih, pow_succ,
      show p + 1 + m = p + (m + 1) by omega]
    ring

theorem field_one (bytes : List UInt8) (p : ℕ) : field bytes p 1 = bit bytes p := by
  simp [field]

/-- The low bits of a byte are the field at its start. -/
theorem field_byte (bytes : List UInt8) (i n : ℕ) (hn : n ≤ 8) (j : ℕ) (hj : n + j = 8) :
    field bytes (8 * i + j) n = (bytes.getD i 0).toNat / 2^j := by
  induction n generalizing j with
  | zero =>
    have hlt : (bytes.getD i 0).toNat < 2^8 := (bytes.getD i 0).toNat_lt
    have : j = 8 := by omega
    rw [field, this, Nat.div_eq_of_lt hlt]
  | succ n ih =>
    have hdiv : (8 * i + j) / 8 = i := by omega
    have hmod : (8 * i + j) % 8 = j := by omega
    rw [field, add_assoc, ih (by omega) (j + 1) (by omega), bit, hdiv, hmod, pow_succ,
      ← Nat.div_div_eq_div_mul]
    omega

/-! ## The reader -/

/-- The reader holds the bits from a place up to the byte it takes next. -/
structure Holding (bytes : List UInt8) (b : Bits) (p : ℕ) : Prop where
  input : b.bytes = bytes
  count : p + b.count = 8 * b.pos
  held : b.held = field bytes p b.count
  pos : b.pos ≤ bytes.length

/-- The reader is at a place, with less than a byte held. -/
structure At (bytes : List UInt8) (b : Bits) (p : ℕ) : Prop extends Holding bytes b p where
  short : b.count < 8

theorem at_start (bytes : List UInt8) : At bytes ⟨bytes, 0, 0, 0⟩ 0 where
  input := rfl
  count := rfl
  held := rfl
  pos := Nat.zero_le _
  short := Nat.zero_lt_succ 7

theorem At.le (h : At bytes b p) : p ≤ 8 * bytes.length := by
  have := h.count
  have := h.pos
  omega

/-- The next byte after the place is the one the reader takes. -/
theorem At.pos_eq (h : At bytes b p) : b.pos = (p + 7) / 8 := by
  have := h.count
  have := h.short
  omega

/-- One more byte held. -/
theorem Holding.take (h : Holding bytes b p) (hlt : b.pos < bytes.length) (hcount : b.count < 24) :
    Holding bytes { b with pos := b.pos + 1,
                           held := b.held ||| ((bytes.getD b.pos 0).toNat <<< b.count) % 2^32,
                           count := b.count + 8 } p where
  input := h.input
  count := by
    have := h.count
    dsimp only
    omega
  held := by
    have hbyte : (bytes.getD b.pos 0).toNat < 2^8 := (bytes.getD b.pos 0).toNat_lt
    have hfield : field bytes (p + b.count) 8 = (bytes.getD b.pos 0).toNat := by
      have := field_byte bytes b.pos 8 le_rfl 0 rfl
      rw [pow_zero, Nat.div_one, add_zero] at this
      rw [h.count, this]
    have hfits : (bytes.getD b.pos 0).toNat <<< b.count < 2^32 := by
      rw [Nat.shiftLeft_eq]
      calc (bytes.getD b.pos 0).toNat * 2^b.count < 2^8 * 2^b.count := by
            apply Nat.mul_lt_mul_of_pos_right hbyte (by positivity)
        _ = 2^(8 + b.count) := by rw [pow_add]
        _ ≤ 2^32 := Nat.pow_le_pow_right (by omega) (by omega)
    have hheld := field_lt bytes p b.count
    dsimp only
    rw [Nat.mod_eq_of_lt hfits, h.held, Nat.or_comm, ← Nat.shiftLeft_add_eq_or_of_lt hheld,
      field_add, hfield, Nat.shiftLeft_eq]
    ring
  pos := hlt

/-- The reader refilled: it holds as many bits as wanted, or the input ends before. -/
theorem refill_spec (hwant : want ≤ 24) (rounds : ℕ) (b : Bits)
    (h : Holding bytes b p) (hrounds : want ≤ b.count + 8 * rounds)
    (hshort : b.count < want + 8) :
    (p + want ≤ 8 * bytes.length → ∃ b', Bits.refill want rounds b = .ok b' ∧
        Holding bytes b' p ∧ want ≤ b'.count ∧ b'.count < want + 8) ∧
      (8 * bytes.length < p + want → ∃ e, Bits.refill want rounds b = .error (.bad e)) := by
  have hdone (hle : want ≤ b.count) : Bits.refill want rounds b = .ok b := by
    cases rounds with
    | zero => exact if_neg (by omega)
    | succ rounds => exact if_neg (by omega)
  have hcount := h.count
  have hpos := h.pos
  induction rounds generalizing b with
  | zero =>
    refine ⟨fun _ => ⟨b, hdone (by omega), h, by omega, hshort⟩, fun hlt => ?_⟩
    omega
  | succ rounds ih =>
    by_cases hle : want ≤ b.count
    · refine ⟨fun _ => ⟨b, hdone hle, h, hle, hshort⟩, fun hlt => ?_⟩
      omega
    · by_cases hlt : b.pos < bytes.length
      · have hbyte : b.bytes[b.pos]? = some (bytes.getD b.pos 0) := by
          rw [h.input, List.getD_eq_getElem?_getD, List.getElem?_eq_getElem hlt]
          rfl
        have hnext := h.take hlt (by omega)
        have hstep : Bits.refill want (rounds + 1) b = Bits.refill want rounds
            { b with pos := b.pos + 1,
                     held := b.held ||| ((bytes.getD b.pos 0).toNat <<< b.count) % 2^32,
                     count := b.count + 8 } := by
          rw [Bits.refill, if_pos (by omega), hbyte]
          exact if_neg (by omega)
        rw [hstep]
        apply ih _ hnext
        · dsimp only
          omega
        · dsimp only
          omega
        · intro hle'
          dsimp only at hle'
          cases rounds with
          | zero => exact if_neg (by dsimp only; omega)
          | succ rounds => exact if_neg (by dsimp only; omega)
        · exact hnext.count
        · exact hnext.pos
      · constructor
        · intro hroom
          omega
        · intro _
          have hnone : b.bytes[b.pos]? = none := by
            rw [h.input]
            exact List.getElem?_eq_none (by omega)
          refine ⟨⟨b.pos, .truncated⟩, ?_⟩
          rw [Bits.refill, if_pos (by omega), hnone]
          rfl

/-- Reading bits gives the number in them, when the input has as many. -/
theorem bits_ok {bytes : List UInt8} {b : Bits} {p want : ℕ} (h : At bytes b p)
    (hwant : want ≤ 16) (hroom : p + want ≤ 8 * bytes.length) :
    ∃ b', b.bits want = .ok (field bytes p want, b') ∧ At bytes b' (p + want) := by
  have hshort := h.short
  obtain ⟨b', hrefill, hholding, hle, hlt⟩ :=
    (refill_spec (by omega) want b h.toHolding (by omega) (by omega)).1 hroom
  have hsplit : field bytes p b'.count =
      field bytes p want + 2^want * field bytes (p + want) (b'.count - want) := by
    rw [← field_add, show want + (b'.count - want) = b'.count by omega]
  have hfield := field_lt bytes p want
  refine ⟨{ b' with held := b'.held >>> want, count := b'.count - want }, ?_, ⟨⟨?_, ?_, ?_, ?_⟩, ?_⟩⟩
  · unfold Bits.bits
    rw [hrefill]
    show (if 32 ≤ want then Except.error Stop.panic else _) = _
    rw [if_neg (by omega), hholding.held, Nat.one_shiftLeft, Nat.and_two_pow_sub_one_eq_mod, hsplit,
      Nat.add_mul_mod_self_left, Nat.mod_eq_of_lt hfield]
  · exact hholding.input
  · have := hholding.count
    dsimp only
    omega
  · dsimp only
    rw [hholding.held, hsplit, Nat.shiftRight_eq_div_pow, Nat.add_mul_div_left _ _ (by positivity),
      Nat.div_eq_of_lt hfield, zero_add]
  · exact hholding.pos
  · dsimp only
    omega

/-- Reading bits the input does not have is an error. -/
theorem bits_bad (h : At bytes b p) (hwant : want ≤ 16) (hroom : 8 * bytes.length < p + want) :
    ∃ e, b.bits want = .error (.bad e) := by
  have hshort := h.short
  obtain ⟨e, hrefill⟩ :=
    (refill_spec (by omega) want b h.toHolding (by omega) (by omega)).2 hroom
  refine ⟨e, ?_⟩
  unfold Bits.bits
  rw [hrefill]
  rfl

/-! ## Calls that end -/

/-- A call ends with a result that has a property, or with an error. -/
def Ends {α : Type} (r : Except Stop α) (P : α → Prop) : Prop :=
  match r with
  | .ok x => P x
  | .error (.bad _) => True
  | .error .panic => False
  | .error .going => False

theorem Ends.bind {f : α → Except Stop β}
    {Q : β → Prop} (h : Ends r P) (hf : ∀ x, P x → Ends (f x) Q) : Ends (r >>= f) Q := by
  match r, h with
  | .ok x, h => exact hf x h
  | .error (.bad e), _ => trivial

theorem Ends.mono {α : Type} {r : Except Stop α} {P Q : α → Prop} (h : Ends r P)
    (hpq : ∀ x, P x → Q x) : Ends r Q := by
  match r, h with
  | .ok x, h => exact hpq x h
  | .error (.bad e), _ => trivial

theorem Ends.of_ok {x : α} (h : r = .ok x) (hx : P x) : Ends r P := by
  rw [h]
  exact hx

theorem bits_ends (h : At bytes b p) (hwant : want ≤ 16) : Ends (b.bits want) fun r => At bytes r.2 (p + want) := by
  rcases Nat.lt_or_ge (8 * bytes.length) (p + want) with hlt | hle
  · obtain ⟨e, he⟩ := bits_bad h hwant hlt
    rw [he]
    trivial
  · obtain ⟨b', hb', hat⟩ := bits_ok h hwant hle
    exact Ends.of_ok hb' hat

theorem ok_bind (x : α) (f : α → Except Stop β) : (Except.ok x >>= f) = f x := rfl

theorem fit_of_lt {width n : ℕ} (h : n < 2^width) : fit width n = .ok n := if_pos h

/-! ## Building a code -/

/-- A code is the one the lengths describe. -/
structure Code.Of (lengths : List ℕ) (c : Code) : Prop where
  counts : ∀ l, 1 ≤ l → l ≤ 15 → c.counts l = used lengths l
  symbols : ∀ s, length lengths s ≠ 0 →
    before lengths (length lengths s) + rank lengths s < c.size ∧
      c.symbols (before lengths (length lengths s) + rank lengths s) = s
  fits : Fits lengths 15
  short : ∀ s, length lengths s ≤ 15
  few : lengths.length < 2^16

theorem foldlM_tally (lengths : List ℕ) (counts : ℕ → ℕ) (hshort : ∀ n ∈ lengths, n ≤ 15)
    (hfew : ∀ l, counts l + lengths.length < 2^16) :
    lengths.foldlM Code.tally counts = .ok fun l => counts l + lengths.count l := by
  induction lengths generalizing counts with
  | nil => rfl
  | cons n lengths ih =>
    have hn := hshort n (List.mem_cons_self ..)
    have hlt := hfew n
    rw [List.length_cons] at hlt
    have hstep : Code.tally counts n = .ok (Function.update counts n (counts n + 1)) := by
      unfold Code.tally
      rw [if_neg (by omega), fit_of_lt (by omega)]
      rfl
    rw [List.foldlM_cons, hstep]
    show lengths.foldlM Code.tally (Function.update counts n (counts n + 1)) = _
    rw [ih _ (fun m hm => hshort m (List.mem_cons_of_mem _ hm))]
    · congr 1
      funext l
      by_cases hl : l = n
      · subst hl
        simp
        omega
      · simp [hl, Ne.symm hl]
    · intro l
      have := hfew l
      rw [List.length_cons] at this
      by_cases hl : l = n
      · subst hl
        rw [Function.update_self]
        omega
      · rw [Function.update_of_ne hl]
        omega

/-- What is left of each length is what the codewords do not use, as long as they fit. -/
theorem left_spec (n : ℕ) (hn : n ≤ 15) (hcounts : ∀ l, 1 ≤ l → l ≤ 15 → counts l = used lengths l) :
    (Fits lengths n →
        Code.left counts n = some ((2 : ℤ)^n - ((first lengths n + used lengths n : ℕ) : ℤ))) ∧
      (¬ Fits lengths n → Code.left counts n = none) := by
  induction n with
  | zero =>
    have hfits : Fits lengths 0 := by
      intro l hl
      have : l = 0 := by omega
      subst this
      simp [first, used]
    exact ⟨fun _ => by simp [Code.left, first, used], fun h => absurd hfits h⟩
  | succ n ih =>
    obtain ⟨ih₁, ih₂⟩ := ih (by omega)
    have hstep : Fits lengths (n + 1) ↔ Fits lengths n ∧
        first lengths (n + 1) + used lengths (n + 1) ≤ 2^(n + 1) := by
      constructor
      · exact fun h => ⟨fun l hl => h l (by omega), h (n + 1) le_rfl⟩
      · rintro ⟨h, hlast⟩ l hl
        rcases Nat.eq_or_lt_of_le hl with rfl | hlt
        · exact hlast
        · exact h l (by omega)
    by_cases hfits : Fits lengths n
    · have hvalue : ((2^n - (first lengths n + used lengths n : ℕ) : ℤ)) * 2 - counts (n + 1) =
          2^(n + 1) - (first lengths (n + 1) + used lengths (n + 1) : ℕ) := by
        rw [hcounts (n + 1) (by omega) hn, first, pow_succ]
        push_cast
        ring
      have hpow : ((2^(n + 1) : ℕ) : ℤ) = 2^(n + 1) := by push_cast; rfl
      rw [Code.left, ih₁ hfits, Option.bind_some, hvalue]
      constructor
      · intro h
        have := (hstep.mp h).2
        rw [if_neg (by omega)]
      · intro h
        rw [hstep, and_iff_right hfits] at h
        rw [if_pos (by omega)]
    · rw [Code.left, ih₂ hfits]
      exact ⟨fun h => absurd (hstep.mp h).1 hfits, fun _ => rfl⟩

/-- The symbols of each length begin after all the shorter ones. -/
theorem foldlM_offset (hfew : lengths.length < 2^16)
    (hcounts : ∀ l, 1 ≤ l → l ≤ 15 → counts l = used lengths l) (m : ℕ) (hm : m ≤ 14) :
    ∃ offsets, (List.range' 1 m).foldlM (Code.offset counts) (fun _ => 0) = .ok offsets ∧
      ∀ l, l ≤ m + 1 → offsets l = before lengths l := by
  induction m with
  | zero =>
    refine ⟨_, rfl, fun l hl => ?_⟩
    have hcases : l = 0 ∨ l = 1 := by omega
    rcases hcases with rfl | rfl
    · rfl
    · simp [before, used]
  | succ m ih =>
    obtain ⟨offsets, hfold, hoffsets⟩ := ih (by omega)
    have hnext : offsets (1 + m) + counts (1 + m) = before lengths (m + 2) := by
      rw [hoffsets _ (by omega), hcounts _ (by omega) (by omega), Nat.add_comm 1 m]
      rfl
    have hle := @before_le lengths (m + 2)
    refine ⟨Function.update offsets (1 + m + 1) (before lengths (m + 2)), ?_, fun l hl => ?_⟩
    · rw [List.range'_1_concat, List.foldlM_append, hfold]
      show (List.foldlM (Code.offset counts) offsets [1 + m]) = _
      rw [List.foldlM_cons]
      unfold Code.offset
      rw [hnext, fit_of_lt (by omega)]
      rfl
    · by_cases heq : l = m + 2
      · subst heq
        rw [Nat.add_comm 1 m, Function.update_self]
      · rw [Function.update_of_ne (by omega), hoffsets l (by omega)]

/-- The symbols below a bound that have a codeword. -/
def coded (lengths : List ℕ) (m : ℕ) : List ℕ :=
  (List.range m).filter (fun s => decide (length lengths s ≠ 0))

theorem filter_coded (lengths : List ℕ) (m : ℕ) (hl : l ≠ 0) :
    (coded lengths m).filter (fun s => decide (length lengths s = l)) =
      (List.range m).filter (fun s => decide (length lengths s = l)) := by
  unfold coded
  rw [List.filter_filter]
  apply List.filter_congr
  intro s _
  by_cases h : length lengths s = l
  · simp [h, hl]
  · simp [h]

theorem countP_coded (hm : m ≤ lengths.length) (hl : l ≠ 0) :
    (coded lengths m).countP (fun s => decide (length lengths s = l)) =
      (lengths.take m).count l := by
  rw [List.countP_eq_length_filter, filter_coded lengths m hl, length_filter_range hm]

/-- Placing the symbols by length leaves each length the room it was counted. -/
theorem room_coded (hshort : ∀ s, length lengths s ≤ 15)
    (hoffsets : ∀ l, l ≤ 15 → offsets l = before lengths l) (hm : m ≤ lengths.length) :
    ∀ x ∈ coded lengths m, ∀ y ∈ coded lengths m, length lengths x < length lengths y →
      offsets (length lengths x) +
        (coded lengths m).countP (fun z => decide (length lengths z = length lengths x)) ≤
      offsets (length lengths y) := by
  intro x hx y _ hlt
  have hne : length lengths x ≠ 0 := by
    have := (List.mem_filter.mp hx).2
    simpa using this
  have hcount := (List.take_sublist m lengths).count_le (length lengths x)
  rw [countP_coded hm hne, hoffsets _ (hshort x), hoffsets _ (hshort y)]
  calc before lengths (length lengths x) + (lengths.take m).count (length lengths x)
      ≤ before lengths (length lengths x) + used lengths (length lengths x) := by
        rw [used_of_pos hne]
        omega
    _ ≤ before lengths (length lengths y) := before_mono hlt

/-- Putting the symbols in their places one at a time is sorting those that have a codeword by its
length. -/
theorem foldlM_put (hfew : lengths.length < 2^16)
    (hshort : ∀ s, length lengths s ≤ 15) (hoffsets : ∀ l, l ≤ 15 → offsets l = before lengths l)
    (m : ℕ) (hm : m ≤ lengths.length) :
    (List.range m).foldlM (Code.put lengths) (offsets, fun _ => 0) =
      .ok ((coded lengths m).foldl (Buckets.place (length lengths)) (offsets, fun _ => 0)) := by
  induction m with
  | zero => rfl
  | succ m ih =>
    have hnext := (Buckets.foldl_place (length lengths) offsets 0 (coded lengths m)
      (room_coded hshort hoffsets (by omega))).1 (length lengths m)
    unfold coded at hnext ih ⊢
    rw [List.range_succ, List.foldlM_append, ih (by omega), List.filter_append, List.foldl_append]
    show (List.foldlM (Code.put lengths) _ [m]) = _
    generalize ((List.range m).filter (fun s => decide (length lengths s ≠ 0))).foldl
      (Buckets.place (length lengths)) (offsets, fun _ => 0) = s at hnext ⊢
    rw [List.foldlM_cons]
    by_cases hm0 : length lengths m = 0
    · rw [List.filter_cons_of_neg (by simp [hm0]), List.filter_nil]
      have hput : Code.put lengths s m = .ok s := if_neg (not_not.mpr hm0)
      rw [hput]
      rfl
    · have hlt : s.1 (length lengths m) < lengths.length := by
        have hcount := countP_coded (show m ≤ lengths.length by omega) hm0
        unfold coded at hcount
        rw [hnext, hcount, hoffsets _ (hshort m)]
        have hrank := rank_lt hm0
        have hle := @before_le lengths (length lengths m + 1)
        unfold rank at hrank
        rw [before] at hle
        omega
      rw [List.filter_cons_of_pos (by simp [hm0]), List.filter_nil]
      have hput : Code.put lengths s m = .ok (Buckets.place (length lengths) s m) := by
        unfold Code.put
        show (if length lengths m ≠ 0 then if lengths.length ≤ s.1 (length lengths m) then _ else _
          else _) = _
        rw [if_pos hm0, if_neg (by omega)]
        show (fit 16 (s.1 (length lengths m) + 1) >>= _) = _
        rw [fit_of_lt (by omega), if_pos (by omega)]
        rfl
      rw [hput]
      rfl

/-- Building a code from lengths succeeds exactly when the codewords fit. -/
theorem new_spec {lengths : List ℕ} (hshort : ∀ s, length lengths s ≤ 15)
    (hfew : lengths.length < 2^16) :
    (Fits lengths 15 → ∃ c, Code.new lengths = .ok (some c) ∧ Code.Of lengths c) ∧
      (¬ Fits lengths 15 → Code.new lengths = .ok none) := by
  have hmem (n : ℕ) (hn : n ∈ lengths) : ∃ s, length lengths s = n := by
    obtain ⟨s, hs, rfl⟩ := List.getElem_of_mem hn
    refine ⟨s, ?_⟩
    unfold length
    rw [List.getD_eq_getElem?_getD, List.getElem?_eq_getElem hs]
    rfl
  have htally := foldlM_tally lengths (fun _ => 0)
    (fun n hn => by obtain ⟨s, rfl⟩ := hmem n hn; exact hshort s) (fun l => by omega)
  simp only [zero_add] at htally
  have hcounts (l : ℕ) (h₁ : 1 ≤ l) (_ : l ≤ 15) : lengths.count l = used lengths l :=
    (used_of_pos (by omega)).symm
  unfold Code.new
  rw [htally]
  show (Fits lengths 15 → ∃ c, (if lengths.count 0 = lengths.length then _ else _) = _ ∧ _) ∧
    (¬ Fits lengths 15 → (if lengths.count 0 = lengths.length then _ else _) = _)
  by_cases hnone : lengths.count 0 = lengths.length
  · -- No symbol has a codeword, and none at all fit.
    have hzero (l : ℕ) : used lengths l = 0 := by
      unfold used
      split_ifs with hl
      · rfl
      · rw [List.count_eq_zero]
        intro hmem
        have := List.count_eq_length.mp hnone l hmem
        omega
    have hfirst (l : ℕ) : first lengths l = 0 := by
      induction l with
      | zero => rfl
      | succ l ih => rw [first, ih, hzero]
    have hfits : Fits lengths 15 := by
      intro l _
      rw [hfirst, hzero]
      exact Nat.zero_le _
    rw [if_pos hnone]
    refine ⟨fun _ => ⟨_, rfl, ?_⟩, fun h => absurd hfits h⟩
    constructor
    · exact hcounts
    · intro s hs
      have := rank_lt hs
      rw [hzero] at this
      omega
    · exact hfits
    · exact hshort
    · exact hfew
  · rw [if_neg hnone]
    obtain ⟨hleft₁, hleft₂⟩ := left_spec 15 le_rfl hcounts
    constructor
    · intro hfits
      obtain ⟨offsets, hfold, hoffsets⟩ := foldlM_offset hfew hcounts 14 le_rfl
      have hput := foldlM_put hfew hshort (fun l hl => hoffsets l (by omega)) lengths.length le_rfl
      rw [hleft₁ hfits]
      dsimp only
      rw [hfold]
      show ∃ c, (List.foldlM (Code.put lengths) (offsets, fun _ => 0) (List.range lengths.length) >>=
        _) = _ ∧ _
      rw [hput]
      refine ⟨_, rfl, hcounts, fun s hs => ?_, hfits, hshort, hfew⟩
      -- The symbols of a length lie in order from where it begins.
      have hrank := rank_lt hs
      have hle := @before_le lengths (length lengths s + 1)
      rw [before] at hle
      have hplace := (Buckets.foldl_place (length lengths) offsets 0 (coded lengths lengths.length)
        (room_coded hshort (fun l hl => hoffsets l (by omega)) le_rfl)).2 (length lengths s)
      rw [filter_coded lengths _ hs, countP_coded le_rfl hs, List.take_length,
        hoffsets _ (by have := hshort s; omega)] at hplace
      have hget := congrArg (fun l => l[rank lengths s]?) hplace
      rw [used_of_pos hs] at hrank
      rw [Buckets.getElem_slice _ (by omega), getElem_rank (lt_of_length_ne_zero hs)] at hget
      constructor
      · rw [used_of_pos hs] at hle
        exact lt_of_lt_of_le (by omega) hle
      · exact Option.some.inj hget
    · intro hfits
      rw [hleft₂ hfits]

/-! ## Reading a symbol -/

theorem codeAt_succ_or (bytes : List UInt8) (p n : ℕ) :
    codeAt bytes p n <<< 1 ||| bit bytes (p + n) = codeAt bytes p (n + 1) := by
  rw [← Nat.shiftLeft_add_eq_or_of_lt (bit_lt bytes (p + n)), Nat.shiftLeft_eq, codeAt]
  omega

/-- A codeword cut short is its first bits. -/
theorem codeAt_div (bytes : List UInt8) (p l m : ℕ) : codeAt bytes p (l + m) / 2^m = codeAt bytes p l := by
  induction m with
  | zero => simp
  | succ m ih =>
    have := bit_lt bytes (p + (l + m))
    rw [show l + (m + 1) = l + m + 1 by omega, codeAt, pow_succ, mul_comm (2^m),
      ← Nat.div_div_eq_div_mul, show (2 * codeAt bytes p (l + m) + bit bytes (p + (l + m))) / 2 =
        codeAt bytes p (l + m) by omega, ih]

/-- One round of reading a symbol: the bits read so far are a codeword of their length, or more
are read. -/
theorem readFrom_step (hc : c.Of lengths) {b' : Bits} (hl : l + 1 ≤ 15) (rest : List ℕ)
    (hbits : b.bits 1 = .ok (bit bytes (p + l), b')) :
    c.readFrom ((l + 1) :: rest) (codeAt bytes p l <<< 1) (first lengths (l + 1))
        (before lengths (l + 1)) b =
      if codeAt bytes p (l + 1) < first lengths (l + 1) + used lengths (l + 1) then
        let place := ((before lengths (l + 1) : ℤ) +
          (codeAt bytes p (l + 1) - first lengths (l + 1))).toNat
        if place < c.size then .ok (c.symbols place, b') else .error (b'.bad .symbol)
      else c.readFrom rest (codeAt bytes p (l + 1) <<< 1) (first lengths (l + 2))
        (before lengths (l + 2)) b' := by
  have hfits := hc.fits (l + 1) hl
  have hpow : 2^(l + 1) ≤ 2^15 := Nat.pow_le_pow_right (by omega) hl
  have hbefore := @before_le lengths (l + 2)
  have hfew := hc.few
  have hnext : before lengths (l + 1) + used lengths (l + 1) = before lengths (l + 2) := rfl
  rw [Code.readFrom, hbits]
  show (if ((codeAt bytes p l <<< 1 ||| bit bytes (p + l) : ℕ) : ℤ) - first lengths (l + 1) <
    (c.counts (l + 1) : ℕ) then _ else _) = _
  rw [codeAt_succ_or, hc.counts (l + 1) (by omega) hl]
  by_cases hlt : codeAt bytes p (l + 1) < first lengths (l + 1) + used lengths (l + 1)
  · rw [if_pos (by omega), if_pos hlt]
  · rw [if_neg (by omega), if_neg hlt]
    show (fit 31 (before lengths (l + 1) + used lengths (l + 1)) >>= _) = _
    rw [hnext, fit_of_lt (by omega)]
    show (fit 31 (first lengths (l + 1) + used lengths (l + 1)) >>= _) = _
    rw [fit_of_lt (by omega)]
    show c.readFrom rest _ ((first lengths (l + 1) + used lengths (l + 1)) <<< 1) _ _ = _
    rw [Nat.shiftLeft_eq, pow_one, mul_comm]
    rfl

/-- Reading where a codeword is written gives its symbol. -/
theorem readFrom_ok (hc : c.Of lengths) (hs : HasSymbol bytes lengths p s q) (n l : ℕ) (hn : l + n = 15)
    (hl : l < length lengths s) (hb : At bytes b (p + l)) :
    ∃ b', c.readFrom (List.range' (l + 1) n) (codeAt bytes p l <<< 1) (first lengths (l + 1))
      (before lengths (l + 1)) b = .ok (s, b') ∧ At bytes b' q := by
  obtain ⟨hne, hcode, hq, hroom⟩ := hs
  have hshort := hc.short s
  induction n generalizing l b with
  | zero => omega
  | succ n ih =>
    obtain ⟨b', hbits, hat⟩ := @bits_ok bytes _ _ 1 hb (by omega) (by omega)
    rw [field_one] at hbits
    rw [List.range'_succ, readFrom_step hc (by omega) _ hbits]
    rcases Nat.eq_or_lt_of_le (show l + 1 ≤ length lengths s by omega) with heq | hlt
    · -- All of the codeword has been read.
      obtain ⟨hsize, hsymbol⟩ := hc.symbols s hne
      have hrank := rank_lt hne
      have hread : codeAt bytes p (l + 1) = first lengths (l + 1) + rank lengths s := by
        rw [heq, hcode]
        rfl
      rw [heq] at hread ⊢
      have hplace : ((before lengths (length lengths s) : ℤ) +
          ((codeAt bytes p (length lengths s) : ℕ) - (first lengths (length lengths s) : ℕ))).toNat =
          before lengths (length lengths s) + rank lengths s := by omega
      rw [if_pos (by omega)]
      dsimp only
      rw [hplace, if_pos hsize, hsymbol]
      refine ⟨b', rfl, ?_⟩
      rwa [show p + l + 1 = q by omega] at hat
    · -- What has been read is past every shorter codeword.
      have hpast := le_code_div hlt
      have hcut := codeAt_div bytes p (l + 1) (length lengths s - (l + 1))
      rw [show l + 1 + (length lengths s - (l + 1)) = length lengths s by omega, hcode] at hcut
      rw [hcut] at hpast
      rw [if_neg (by omega)]
      exact ih (l + 1) (by omega) hlt hat

theorem read_ok (hc : c.Of lengths) (hs : HasSymbol bytes lengths p s q) (hb : At bytes b p) :
    ∃ b', c.read b = .ok (s, b') ∧ At bytes b' q := by
  have hpos : 0 < length lengths s := Nat.pos_of_ne_zero hs.1
  exact readFrom_ok hc hs 15 0 rfl hpos hb

/-- Reading from any input ends, and takes at least a bit when it gives a symbol. -/
theorem readFrom_ends (hc : c.Of lengths) (n l : ℕ) (hn : l + n = 15) (hb : At bytes b (p + l)) :
    Ends (c.readFrom (List.range' (l + 1) n) (codeAt bytes p l <<< 1) (first lengths (l + 1))
      (before lengths (l + 1)) b) fun r => ∃ q, p < q ∧ At bytes r.2 q := by
  induction n generalizing l b with
  | zero => trivial
  | succ n ih =>
    rw [List.range'_succ]
    rcases Nat.lt_or_ge (8 * bytes.length) (p + l + 1) with hlt | hroom
    · obtain ⟨e, he⟩ := bits_bad hb (by omega) hlt
      rw [Code.readFrom, he]
      trivial
    · obtain ⟨b', hbits, hat⟩ := @bits_ok bytes _ _ 1 hb (by omega) hroom
      rw [field_one] at hbits
      rw [readFrom_step hc (by omega) _ hbits]
      split_ifs with hfound
      · dsimp only
        split_ifs
        · exact ⟨p + l + 1, by omega, hat⟩
        · trivial
      · exact ih (l + 1) (by omega) hat

theorem read_ends (hc : c.Of lengths) (hb : At bytes b p) : Ends (c.read b) fun r => ∃ q, p < q ∧ At bytes r.2 q :=
  readFrom_ends hc 15 0 rfl hb

end Rucc.Unpack
