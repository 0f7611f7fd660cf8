import Rucc.CTypes.RecordLaid
import Mathlib.Order.CompletePartialOrder

/-!
# The layout keeps C's rules

Each way of placing a member keeps the invariant, so the whole run does, and the finished record is sized
over the members it has placed.
-/

namespace Rucc.CTypes

open Builder (memberLayout flexible)

variable {s s' : Builder} {ms : List Member} {m : Member}

variable {width boundary align : ℕ} {types : Types} {target : TargetInfo}

/-! ## The arithmetic -/

theorem le_nextMultipleOf {boundary : ℕ} (value : ℕ) (hpos : 0 < boundary) : value ≤ nextMultipleOf value boundary := by
  unfold nextMultipleOf
  have hdiv := Nat.div_add_mod (value + boundary - 1) boundary
  have hmod := Nat.mod_lt (value + boundary - 1) hpos
  rw [Nat.mul_comm] at hdiv
  omega

theorem nextMultipleOf_lt {boundary : ℕ} (value : ℕ) (hpos : 0 < boundary) :
    nextMultipleOf value boundary < value + boundary := by
  unfold nextMultipleOf
  have hle := Nat.div_mul_le_self (value + boundary - 1) boundary
  omega

theorem dvd_nextMultipleOf (value boundary : ℕ) : boundary ∣ nextMultipleOf value boundary := Dvd.intro_left _ rfl

/-- Bits that start in the room which a unit leaves are in no more units than the room is. -/
theorem unitsSpanned_le {start unit room : ℕ} (hunit : 0 < unit) (hwidth : 0 < width)
    (hroom : start % unit + width ≤ room) : unitsSpanned start width unit ≤ unitsSpanned 0 room unit := by
  unfold unitsSpanned
  have hsplit : start + width - 1 = start % unit + width - 1 + unit * (start / unit) := by
    have := Nat.div_add_mod start unit
    omega
  have hmono : (start % unit + width - 1) / unit ≤ (0 + room - 1) / unit := Nat.div_le_div_right (by omega)
  rw [hsplit, Nat.add_mul_div_left _ _ hunit, Nat.zero_div]
  omega

theorem roundUp_spec {value : ℕ} :
    Post Overflows (roundUp value boundary) fun r => r = nextMultipleOf value boundary := by
  unfold roundUp
  refine Post.ite (fun _ => rfl) fun _ => ?_
  simp [Overflows]

theorem narrow_spec (n : ℕ) : Post Overflows (narrow n) fun r => r = n ∧ n < 2^64 := by
  unfold narrow
  refine Post.ite (fun h => ⟨rfl, h⟩) fun _ => ?_
  simp [Overflows]

theorem addWords_spec {bits a b : ℕ} (h : a + b < 2^bits) :
    Post Overflows (addWords bits a b) fun r => r = a + b := by
  rw [addWords, if_pos h]
  rfl

/-! ## The pieces of a placement -/

theorem memberAlign_pos (decl : FieldDecl) (natural : ℕ) : 0 < s.memberAlign decl natural := by
  unfold Builder.memberAlign
  exact lt_of_lt_of_le Nat.one_pos (Nat.le_max_right _ _)

theorem memberAlign_lt (h : m.Words) {natural : ℕ}
    (hnatural : natural < 2^64) : s.memberAlign m.1 natural < 2^64 := by
  have hfirst : (if (s.options.packed || m.1.packed) = true then 1 else natural) < 2^64 := by
    split
    · norm_num
    · exact hnatural
  unfold Builder.memberAlign
  dsimp only
  generalize (if (s.options.packed || m.1.packed) = true then 1 else natural) = a at hfirst
  -- what was asked for raises the alignment, and the pragma caps it
  have hmax : ∀ b, b < 2^64 → Nat.max b 1 < 2^64 := fun b hb => Nat.max_lt.mpr ⟨hb, by norm_num⟩
  cases halign : m.1.align with
  | none =>
    cases s.options.pack with
    | none => exact hmax a hfirst
    | some pack => exact hmax _ ((min_le_left _ _).trans_lt hfirst)
  | some asked =>
    have hasked := Nat.max_lt.mpr ⟨hfirst, h.asked asked halign⟩
    cases s.options.pack with
    | none => exact hmax _ hasked
    | some pack => exact hmax _ ((min_le_left _ _).trans_lt hasked)

/-- What `push` adds, as a field that starts at the bit it is given. -/
theorem push_spec (s : Builder) (decl : FieldDecl) (start : ℕ) (bits : Option ℕ) (align : ℕ) :
    Post Overflows (s.push decl start bits align) fun s' => start < 2^67 ∧ ∃ f offsets,
      s' = { s with fields := s.fields ++ [f], offsets := offsets } ∧ f.name = decl.name ∧ f.ty = decl.ty ∧
      f.bits = bits ∧ f.bit < 8 ∧ f.bitOffset = start ∧ f.align = align := by
  unfold Builder.push
  refine (narrow_spec _).bind ?_
  rintro offset ⟨rfl, hlt⟩
  refine ⟨by omega, ⟨decl.name, decl.ty, start / 8, start % 8, align, bits⟩, _, rfl, rfl, rfl, rfl, ?_, ?_, rfl⟩
  · exact Nat.mod_lt _ (by norm_num)
  · unfold Field.bitOffset
    dsimp only
    omega

/-- Closing the unit leaves the invariant and no unit. -/
theorem Laid.closeUnit (h : Laid s ms) : Laid s.closeUnit ms ∧ SameRules s s.closeUnit ∧
    s.closeUnit.unit = none ∧ s.closeUnit.fields = s.fields ∧ s.next ≤ s.closeUnit.next ∧
    s.bits ≤ s.closeUnit.bits ∧ s.closeUnit.align = s.align := by
  unfold Builder.closeUnit
  cases hunit : s.unit with
  | none => exact ⟨h, SameRules.refl s, hunit, rfl, le_rfl, le_rfl, rfl⟩
  | some u =>
    have hopen := h.unit u hunit
    obtain ⟨hkind, hstyle, hnext, hused, hinside, hsize, hstart, hrun⟩ := hopen
    -- the end of the unit is no number that saturates
    have hstop : min (u.start + u.size * 8) (2^128 - 1) = u.start + u.size * 8 := min_eq_left (by omega)
    dsimp only
    rw [hstop, if_pos hkind]
    have hle : s.next ≤ Nat.max s.next (u.start + u.size * 8) := Nat.le_max_left _ _
    have hbits : s.bits ≤ Nat.max s.bits (u.start + u.size * 8) := Nat.le_max_left _ _
    have hrules : SameRules s { s with
        unit := none
        next := Nat.max s.next (u.start + u.size * 8)
        bits := Nat.max s.bits (u.start + u.size * 8) } := ⟨rfl, rfl, rfl, rfl, rfl, rfl, rfl⟩
    refine ⟨?_, hrules, rfl, rfl, hle, hbits, rfl⟩
    constructor
    case base => exact h.base
    case widest => exact h.widest
    case align => exact h.align
    case length => exact h.length
    case fits => exact fun i m f hm hf => (h.fits i m f hm hf).mono hrules hbits le_rfl
    case apart => exact h.apart
    case before => exact fun hkind i m f hm hf => (h.before hkind i m f hm hf).trans hle
    case union => exact fun hunion => absurd (hkind.symm.trans hunion) (by decide)
    case le =>
      have := h.le
      exact Nat.max_le.mpr ⟨this.trans (Nat.le_max_left _ _), Nat.le_max_right _ _⟩
    case small =>
      have := h.small
      exact Nat.max_lt.mpr ⟨this, by omega⟩
    case unit => exact fun u' hu' => absurd hu' (by simp)
    case microsoft => exact h.microsoft

theorem stepTo_spec (hbase : s.base = none) (align : ℕ) :
    Post Overflows (s.stepTo align) fun r => r = (nextMultipleOf s.next (align * 8), s) := by
  unfold Builder.stepTo
  rw [hbase]
  dsimp only
  refine roundUp_spec.bind ?_
  rintro start rfl
  rfl

/-! ## The ways of placing a member -/

/-- An ordinary member starts on a boundary of its alignment. -/
theorem ordinary_spec (h : Laid s ms) (hm : m.Words) (hbits : m.1.bits = none) (hpos : 0 < align) :
    Post Overflows (s.ordinary m.1 m.2 align) fun s' => Laid s' (ms ++ [m]) ∧ SameRules s s' := by
  unfold Builder.ordinary
  obtain ⟨h, hrules, hunit, -⟩ := h.closeUnit
  generalize s.closeUnit = c at h hrules hunit ⊢
  have hsize := hm.size
  have htaken : taken m = m.2.size * 8 := by rw [taken, hbits]; rfl
  -- where the member goes: the next boundary, or the start of the union
  refine Post.bind (P := fun r => r.2 = c ∧ align * 8 ∣ r.1 ∧ (c.kind = .struct → c.next ≤ r.1) ∧
    (c.kind = .union → r.1 = 0)) ?_ ?_
  · cases hkind : c.kind with
    | struct =>
      refine (stepTo_spec h.base align).mono ?_
      rintro r rfl
      exact ⟨rfl, dvd_nextMultipleOf _ _, fun _ => le_nextMultipleOf _ (by omega), by simp⟩
    | union => exact ⟨rfl, Dvd.intro 0 rfl, by simp, fun _ => rfl⟩
  rintro ⟨start, c'⟩ ⟨rfl, hdvd, hle, hzero⟩
  dsimp only at hdvd hle hzero ⊢
  refine (push_spec c' m.1 start none align).bind ?_
  rintro s' ⟨hlt, f, offsets, rfl, hname, hty, hfbits, hbit, hoffset, halign⟩
  have hstop : min (start + m.2.size * 8) (2^128 - 1) = start + m.2.size * 8 := min_eq_left (by omega)
  refine ⟨h.place (f := f) ?_, hrules.trans ⟨rfl, rfl, rfl, rfl, rfl, rfl, rfl⟩⟩
  have hnext : (({ c' with fields := c'.fields ++ [f], offsets := offsets } : Builder).advance start
      (m.2.size * 8)).raise align = { c' with
        fields := c'.fields ++ [f]
        offsets := offsets
        next := if c'.kind = .struct then start + m.2.size * 8 else c'.next
        bits := Nat.max c'.bits (start + m.2.size * 8)
        align := Nat.max c'.align align } := by
    rw [Builder.advance, Builder.raise, hstop]
  rw [hnext]
  have hend : start + m.2.size * 8 ≤ Nat.max c'.bits (start + m.2.size * 8) := Nat.le_max_right _ _
  constructor
  case rules => exact ⟨rfl, rfl, rfl, rfl, rfl, rfl, rfl⟩
  case fields => rfl
  case bits => exact Nat.le_max_left _ _
  case align => exact Nat.le_max_left _ _
  case fits =>
    refine ⟨hname, hty, by rw [hfbits, hbits], hbit, ?_, fun _ => ?_, fun _ _ w hw => ?_⟩
    · rw [hoffset, htaken]
      exact hend
    · -- a multiple of so many bytes is at a whole byte
      obtain ⟨k, hk⟩ := hdvd
      rw [Field.bitOffset] at hoffset
      have heq : f.offset * 8 + f.bit = align * k * 8 := by rw [hoffset, hk]; ring
      have hbyte : f.bit = 0 := by omega
      refine ⟨hbyte, ⟨k, ?_⟩, ?_⟩
      · rw [halign]
        omega
      · rw [halign]
        exact Nat.le_max_right _ _
    · rw [hfbits] at hw
      exact absurd hw (by simp)
  case next =>
    intro hkind
    dsimp only
    rw [hoffset, htaken, if_pos hkind]
    exact ⟨hle hkind, le_rfl⟩
  case union =>
    intro hkind
    have hne : ¬ c'.kind = .struct := by rw [hkind]; decide
    dsimp only
    rw [if_neg hne]
    exact h.union hkind
  case le =>
    dsimp only
    split
    · exact hend
    · exact h.le.trans (Nat.le_max_left _ _)
  case small =>
    have := h.small
    dsimp only
    split <;> omega
  case unit => exact fun u hu => absurd (hunit.symm.trans hu) (by simp)
  case microsoft =>
    intro _ w hw
    rw [hbits] at hw
    exact absurd hw (by simp)

/-- Where the Itanium rule puts a bit-field: at the next bit or at a boundary, and without packing in no
more units than its type. -/
theorem itanium_spec (h : Laid s ms) (hm : m.Words) (hbits : m.1.bits = some width)
    (hle : width ≤ m.2.size * 8) (hpos : 0 < align) (hlt : align < 2^64) :
    Post Overflows (s.itanium m.1 align (min (m.2.size * 8) (2^32 - 1)) width) fun r =>
      (s.kind = .struct → s.next ≤ r.1) ∧ (s.kind = .union → r.1 = 0) ∧
        (s.packing m.1 = false → r.1 % (align * 8) + width ≤ m.2.size * 8) ∧
        r.2 = { s with
          next := if s.kind = .struct then r.1 + width else s.next
          bits := Nat.max s.bits (r.1 + width) } := by
  have hsmall := h.small
  have hcap : min (m.2.size * 8) (2^32 - 1) = m.2.size * 8 := by
    have := hm.capacity width hbits
    exact min_eq_left (by omega)
  have hwidth := hm.width width hbits
  unfold Builder.itanium
  rw [hcap]
  -- an alignment that was asked for moves the field to a boundary first
  have hfirst : Post Overflows (if s.kind = .struct ∧ m.1.align.isSome then
      (s.stepTo align).map fun r => { r.2 with next := r.1 }
    else .ok s : Except Stop Builder) fun s' => ∃ n, s' = { s with next := n } ∧ s.next ≤ n ∧ n < 2^69 + 2^67 ∧
        (s.kind = .union → n = s.next) := by
    refine Post.ite (fun hand => ((stepTo_spec h.base align).mono ?_).map) fun _ => ?_
    · rintro r rfl
      have := @nextMultipleOf_lt (align * 8) s.next (by omega)
      exact ⟨_, rfl, le_nextMultipleOf _ (by omega), by omega, by simp [hand.1]⟩
    · exact ⟨s.next, rfl, le_rfl, by omega, fun _ => rfl⟩
  refine hfirst.bind ?_
  rintro s' ⟨n, rfl, hn, hnlt, hsame⟩
  dsimp only
  refine Post.bind (P := fun start => (s.kind = .struct → s.next ≤ start) ∧ (s.kind = .union → start = 0) ∧
    (s.packing m.1 = false → start % (align * 8) + width ≤ m.2.size * 8) ∧ start < 2^70) ?_ ?_
  · cases hkind : s.kind with
    | union =>
      refine ⟨by simp, fun _ => rfl, fun _ => ?_, by norm_num⟩
      rw [Nat.zero_mod]
      omega
    | struct =>
      refine Post.ite (fun hpack => ?_) fun hpack => ?_
      · refine ⟨fun _ => hn, by simp, fun hno => ?_, by omega⟩
        rw [h.base] at hpack
        rcases hpack with hpack | hpack
        · exact absurd (hno.symm.trans hpack) (by decide)
        · exact absurd hpack (by decide)
      · have hmod := Nat.mod_le n (align * 8)
        refine (addWords_spec (by omega)).bind ?_
        rintro used rfl
        refine Post.ite (fun hover => roundUp_spec.mono ?_) fun hfit => ?_
        · rintro start rfl
          have := @nextMultipleOf_lt (align * 8) n (by omega)
          have hstart := @le_nextMultipleOf (align * 8) n (by omega)
          refine ⟨fun _ => hn.trans hstart, by simp, fun _ => ?_, by omega⟩
          rw [Nat.mod_eq_zero_of_dvd (dvd_nextMultipleOf n (align * 8))]
          omega
        · exact ⟨fun _ => hn, by simp, fun _ => not_lt.mp hfit, by omega⟩
  rintro start ⟨hstruct, hunion, hroom, hstart⟩
  refine ⟨hstruct, hunion, hroom, ?_⟩
  have hstop : min (start + width) (2^128 - 1) = start + width := min_eq_left (by omega)
  rw [Builder.advance, hstop]
  cases hkind : s.kind with
  | struct => rfl
  | union =>
    -- nothing moves in a union, where no boundary is stepped to
    rw [hsame hkind]

/-- Where Microsoft's rule puts a bit-field: in a union at the start, in a struct into the unit that is open
or into a new one. -/
theorem microsoft_spec (h : Laid s ms) (hm : m.Words) (hbits : m.1.bits = some width)
    (hpos : 0 < align) (hlt : align < 2^64) :
    Post Overflows (s.microsoft m.2 align width) fun r =>
      (s.kind = .union ∧ r = (0, { s with bits := Nat.max s.bits (m.2.size * 8) })) ∨
      (∃ u, s.unit = some u ∧ u.size = m.2.size ∧ u.used + width ≤ u.size * 8 ∧
        r = (s.next, { s with unit := some { u with used := u.used + width }, next := s.next + width })) ∨
      ∃ start, s.kind = .struct ∧ s.closeUnit.next ≤ start ∧ align * 8 ∣ start ∧ r = (start, { s.closeUnit with
        unit := some ⟨start, m.2.size, width⟩
        next := start + width
        bits := Nat.max s.closeUnit.bits (start + m.2.size * 8) }) := by
  have hwidth := hm.width width hbits
  have hcap := hm.capacity width hbits
  unfold Builder.microsoft
  refine Post.ite (fun hunion => Or.inl ⟨hunion, rfl⟩) fun hunion => ?_
  have hstruct : s.kind = .struct := by
    cases hkind : s.kind with
    | struct => rfl
    | union => exact absurd hkind hunion
  have hjoins : Post Overflows (s.joins m.2 width) fun r => ∀ u, r = some u →
      s.unit = some u ∧ u.size = m.2.size ∧ u.used + width ≤ u.size * 8 := by
    unfold Builder.joins
    cases hunit : s.unit with
    | none => exact fun u hu => absurd hu (by simp)
    | some u =>
      have hused := (h.unit u hunit).used
      have hsize := (h.unit u hunit).size
      refine Post.ite (fun hsame => ?_) fun _ => fun u' hu' => absurd hu' (by simp)
      refine (addWords_spec (by omega)).bind ?_
      rintro used rfl u' hu'
      split at hu'
      · rename_i hroom
        rw [← Option.some.inj hu']
        exact ⟨rfl, hsame, hroom⟩
      · exact absurd hu' (by simp)
  refine hjoins.bind ?_
  intro r hr
  cases r with
  | some u =>
    obtain ⟨hunit, hsame, hroom⟩ := hr u rfl
    obtain ⟨-, -, hnext, hused, -, hsize, hstart, -⟩ := h.unit u hunit
    dsimp only
    -- the sums are of bits of one unit
    refine (addWords_spec (by omega)).bind ?_
    rintro offset rfl
    refine (addWords_spec (by omega)).bind ?_
    rintro used rfl
    refine (addWords_spec (by omega)).bind ?_
    rintro next rfl
    refine Or.inr (Or.inl ⟨u, hunit, hsame, hroom, ?_⟩)
    rw [hnext]
  | none =>
    have hclosed := h.closeUnit.1.small
    dsimp only
    refine roundUp_spec.bind ?_
    rintro start rfl
    have hstart := @nextMultipleOf_lt (align * 8) s.closeUnit.next (by omega)
    refine (addWords_spec (by omega)).bind ?_
    rintro next rfl
    refine (addWords_spec (by omega)).bind ?_
    rintro stop rfl
    exact Or.inr (Or.inr ⟨_, hstruct, le_nextMultipleOf _ (by omega), dvd_nextMultipleOf _ _, rfl⟩)

/-- Raising the alignment of the record keeps a placement. -/
theorem Placed.raise {f : Field} (h : Placed s s' ms m f) (align : ℕ) : Placed s (s'.raise align) ms m f := by
  have hle : s'.align ≤ (s'.raise align).align := Nat.le_max_left _ _
  have hrules : SameRules s' (s'.raise align) := ⟨rfl, rfl, rfl, rfl, rfl, rfl, rfl⟩
  constructor
  case rules => exact h.rules.trans hrules
  case fields => exact h.fields
  case bits => exact h.bits
  case align => exact h.align.trans hle
  case fits => exact h.fits.mono hrules le_rfl hle
  case next => exact h.next
  case union => exact h.union
  case le => exact h.le
  case small => exact h.small
  case unit =>
    intro u hu
    obtain ⟨hkind, hstyle, hnext, hused, hinside, hsize, hstart, hrun⟩ := h.unit u hu
    exact ⟨hkind, hstyle, hnext, hused, hinside, hsize, hstart, hrun⟩
  case microsoft => exact h.microsoft

/-- A bit-field goes where its rule says, in no more units than it may. -/
theorem bitField_spec (h : Laid s ms) (hm : m.Words) (hbits : m.1.bits = some width)
    (hwidth : 0 < width) (hpos : 0 < align) (hlt : align < 2^64) (target : TargetInfo) (index : ℕ) :
    Post Overflows (s.bitField target index m.1 m.2 align width) fun s' =>
      Laid s' (ms ++ [m]) ∧ SameRules s s' := by
  have hcap := hm.capacity width hbits
  have hwlt := hm.width width hbits
  have htaken : taken m = width := by rw [taken, hbits]; rfl
  unfold Builder.bitField
  dsimp only
  refine Post.ite (fun _ => by simp [Overflows]) fun hfit => ?_
  have hle : width ≤ m.2.size * 8 := (not_lt.mp hfit).trans (min_le_left _ _)
  -- the record's alignment is raised behind the placement or is not
  have hraise : ∀ {c s' : Builder} {f : Field}, Laid c ms → SameRules s c → Placed c s' ms m f →
      Laid (if s'.contributesAlignment target m.1.name.isSome then s'.raise align else s') (ms ++ [m]) ∧
        SameRules s (if s'.contributesAlignment target m.1.name.isSome then s'.raise align else s') := by
    intro c s' f hc hrules hplaced
    split
    · exact ⟨hc.place (hplaced.raise align), hrules.trans (hplaced.raise align).rules⟩
    · exact ⟨hc.place hplaced, hrules.trans hplaced.rules⟩
  cases hstyle : s.style with
  | itanium =>
    refine (itanium_spec h hm hbits hle hpos hlt).bind ?_
    rintro ⟨start, s'⟩ ⟨hstruct, hunion, hroom, hs'⟩
    dsimp only at hstruct hunion hroom hs' ⊢
    subst hs'
    refine (push_spec _ m.1 start (some width) align).bind ?_
    rintro s' ⟨hslt, f, offsets, rfl, hname, hty, hfbits, hbit, hoffset, halign⟩
    refine hraise (f := f) h (SameRules.refl s) ?_
    have hend : start + width ≤ Nat.max s.bits (start + width) := Nat.le_max_right _ _
    constructor
    case rules => exact ⟨rfl, rfl, rfl, rfl, rfl, rfl, rfl⟩
    case fields => rfl
    case bits => exact Nat.le_max_left _ _
    case align => exact le_rfl
    case fits =>
      refine ⟨hname, hty, by rw [hfbits, hbits], hbit, by rw [hoffset, htaken]; exact hend, fun hnone => ?_,
        fun _ hpack w hw hpos' => ?_⟩
      · rw [hfbits] at hnone
        exact absurd hnone (by simp)
      · obtain rfl : width = w := Option.some.inj (hfbits.symm.trans hw)
        rw [hoffset, halign]
        exact unitsSpanned_le (by omega) hwidth (hroom hpack)
    case next =>
      intro hkind
      dsimp only
      rw [hoffset, htaken, if_pos hkind]
      exact ⟨hstruct hkind, le_rfl⟩
    case union =>
      intro hkind
      have hne : ¬ s.kind = .struct := by rw [hkind]; decide
      dsimp only
      rw [if_neg hne]
      exact h.union hkind
    case le =>
      dsimp only
      split
      · exact hend
      · exact h.le.trans (Nat.le_max_left _ _)
    case small =>
      have := h.small
      dsimp only
      split <;> omega
    case unit =>
      intro u hu
      -- the Itanium rule has no units
      have := (h.unit u hu).style
      exact absurd (hstyle.symm.trans this) (by decide)
    case microsoft => exact fun hms => absurd (hstyle.symm.trans hms) (by decide)
  | microsoft =>
    have hfits : ∀ {s' : Builder} {f : Field}, f.name = m.1.name → f.ty = m.1.ty → f.bits = some width →
        f.bit < 8 → f.bitOffset + width ≤ s'.bits → s'.style = s.style → Fits s' m f := by
      intro s' f hname hty hfbits hbit hend hsame
      refine ⟨hname, hty, by rw [hfbits, hbits], hbit, by rw [htaken]; exact hend, fun hnone => ?_, fun hit => ?_⟩
      · rw [hfbits] at hnone
        exact absurd hnone (by simp)
      · exact absurd ((hstyle.symm.trans hsame.symm).trans hit) (by decide)
    -- the new member is one more of the run
    have hrun : ∀ {fields : List Field} {size start j : ℕ}, RunOf (ms ++ [m]) fields size start j ms.length →
        size = m.2.size → RunOf (ms ++ [m]) fields size start j (ms.length + 1) := by
      intro fields size start j hrun hsize
      refine ⟨hrun.1, fun k hjk hk => ?_⟩
      by_cases hlast : k = ms.length
      · rw [hlast, List.getElem?_append_right le_rfl, Nat.sub_self]
        exact ⟨m, width, rfl, hbits, hwidth, hsize.symm⟩
      · exact hrun.2 k hjk (by omega)
    refine (microsoft_spec h hm hbits hpos hlt).bind ?_
    rintro ⟨start, s'⟩ (⟨hkind, heq⟩ | ⟨u, hunit, hsize, hroom, heq⟩ | ⟨start', hkind, hnext, hdvd, heq⟩)
    · obtain ⟨rfl, rfl⟩ := Prod.mk.inj heq
      dsimp only
      refine (push_spec _ m.1 0 (some width) align).bind ?_
      rintro s' ⟨hslt, f, offsets, rfl, hname, hty, hfbits, hbit, hoffset, halign⟩
      refine hraise (f := f) h (SameRules.refl s) ?_
      have hend : m.2.size * 8 ≤ Nat.max s.bits (m.2.size * 8) := Nat.le_max_right _ _
      have hstruct : ¬ s.kind = .struct := by rw [hkind]; decide
      constructor
      case rules => exact ⟨rfl, rfl, rfl, rfl, rfl, rfl, rfl⟩
      case fields => rfl
      case bits => exact Nat.le_max_left _ _
      case align => exact le_rfl
      case fits => exact hfits hname hty hfbits hbit (by rw [hoffset]; dsimp only; omega) rfl
      case next => exact fun hk => absurd hk hstruct
      case union => exact h.union
      case le => exact h.le.trans (Nat.le_max_left _ _)
      case small => exact h.small
      case unit => exact fun u hu => absurd (h.unit u hu).kind hstruct
      case microsoft =>
        intro _ w hw _
        obtain rfl : width = w := Option.some.inj (hbits.symm.trans hw)
        refine ⟨ms.length, le_rfl, 0, hrun ⟨⟨f, ?_, hoffset, dvd_zero _⟩, fun k hk hk' => by omega⟩ rfl, ?_⟩
        · rw [← h.length, List.getElem?_append_right le_rfl, Nat.sub_self]
          rfl
        · omega
    · obtain ⟨rfl, rfl⟩ := Prod.mk.inj heq
      obtain ⟨hkind, -, hnext, hused, hinside, husize, hustart, j, hj, hjrun⟩ := h.unit u hunit
      dsimp only
      refine (push_spec _ m.1 s.next (some width) align).bind ?_
      rintro s' ⟨hslt, f, offsets, rfl, hname, hty, hfbits, hbit, hoffset, halign⟩
      refine hraise (f := f) h (SameRules.refl s) ?_
      have hrun' : RunOf (ms ++ [m]) (s.fields ++ [f]) u.size u.start j (ms.length + 1) :=
        hrun (hjrun.append le_rfl (by rw [h.length]; exact hj)) hsize
      constructor
      case rules => exact ⟨rfl, rfl, rfl, rfl, rfl, rfl, rfl⟩
      case fields => rfl
      case bits => exact le_rfl
      case align => exact le_rfl
      case fits => exact hfits hname hty hfbits hbit (by rw [hoffset]; dsimp only; omega) rfl
      case next => exact fun _ => ⟨hoffset.ge, by rw [hoffset, htaken]⟩
      case union => exact fun hk => absurd (hkind.symm.trans hk) (by decide)
      case le => dsimp only; omega
      case small => dsimp only; omega
      case unit =>
        intro u' hu'
        obtain rfl := Option.some.inj hu'
        refine ⟨hkind, hstyle, by dsimp only; omega, hroom, hinside, husize, hustart, j, ?_, ?_⟩
        · rw [List.length_append]
          omega
        · rw [List.length_append]
          exact hrun'
      case microsoft =>
        intro _ w hw _
        obtain rfl : width = w := Option.some.inj (hbits.symm.trans hw)
        refine ⟨j, hj.le, u.start, hsize ▸ hrun', ?_⟩
        omega
    · obtain ⟨rfl, rfl⟩ := Prod.mk.inj heq
      obtain ⟨hclosed, hrules, -⟩ := h.closeUnit
      generalize s.closeUnit = c at hnext hclosed hrules ⊢
      dsimp only
      refine (push_spec _ m.1 start (some width) align).bind ?_
      rintro s' ⟨hslt, f, offsets, rfl, hname, hty, hfbits, hbit, hoffset, halign⟩
      refine hraise (f := f) hclosed hrules ?_
      have hend : start + m.2.size * 8 ≤ Nat.max c.bits (start + m.2.size * 8) := Nat.le_max_right _ _
      have hrun' : RunOf (ms ++ [m]) (c.fields ++ [f]) m.2.size start ms.length (ms.length + 1) := by
        refine hrun ⟨⟨f, ?_, hoffset, by rw [halign]; exact hdvd⟩, fun k hk hk' => by omega⟩ rfl
        rw [← hclosed.length, List.getElem?_append_right le_rfl, Nat.sub_self]
        rfl
      constructor
      case rules => exact ⟨rfl, rfl, rfl, rfl, rfl, rfl, rfl⟩
      case fields => rfl
      case bits => exact Nat.le_max_left _ _
      case align => exact le_rfl
      case fits => exact hfits hname hty hfbits hbit (by rw [hoffset]; dsimp only; omega) hrules.style
      case next => exact fun _ => ⟨by rw [hoffset]; exact hnext, by rw [hoffset, htaken]⟩
      case union => exact fun hk => absurd ((hrules.kind.trans hkind).symm.trans hk) (by decide)
      case le => dsimp only; omega
      case small => dsimp only; omega
      case unit =>
        intro u' hu'
        obtain rfl := Option.some.inj hu'
        refine ⟨hrules.kind.trans hkind, hrules.style.trans hstyle, rfl, hle, hend, hcap, hslt, ms.length, ?_, ?_⟩
        · rw [List.length_append, List.length_singleton]
          omega
        · rw [List.length_append]
          exact hrun'
      case microsoft =>
        intro _ w hw _
        obtain rfl : width = w := Option.some.inj (hbits.symm.trans hw)
        exact ⟨ms.length, le_rfl, start, hrun', by omega⟩

/-- The state moved on with no unit open and no member placed. -/
structure Moved (s s' : Builder) : Prop where
  rules : SameRules s s'
  fields : s'.fields = s.fields
  unit : s'.unit = none
  next : s.next ≤ s'.next
  union : s.kind = .union → s'.next = s.next
  bits : s.bits ≤ s'.bits
  le : s'.next ≤ s'.bits
  align : s.align ≤ s'.align

theorem Moved.raise (h : Moved s s') (align : ℕ) : Moved s (s'.raise align) :=
  ⟨h.rules.trans ⟨rfl, rfl, rfl, rfl, rfl, rfl, rfl⟩, h.fields, h.unit, h.next, h.union, h.bits, h.le,
    h.align.trans (Nat.le_max_left _ _)⟩

/-- A step to a boundary. -/
theorem moved_step (hkind : s.kind = .struct) (hunit : s.unit = none) (hpos : 0 < boundary) : Moved s { s with
      next := nextMultipleOf s.next boundary
      bits := Nat.max s.bits (nextMultipleOf s.next boundary) } :=
  ⟨⟨rfl, rfl, rfl, rfl, rfl, rfl, rfl⟩, rfl, hunit, le_nextMultipleOf _ hpos,
    fun hunion => absurd (hkind.symm.trans hunion) (by decide), Nat.le_max_left _ _, Nat.le_max_right _ _, le_rfl⟩

theorem Laid.stay (h : Laid s ms) (hunit : s.unit = none) : Moved s s :=
  ⟨SameRules.refl s, rfl, hunit, le_rfl, fun _ => rfl, le_rfl, h.le, le_rfl⟩

/-- A zero width bit-field takes no bits. -/
theorem zeroWidth_spec (h : Laid s ms) (hbits : m.1.bits = some 0) (target : TargetInfo) (natural : ℕ) :
    Post Overflows (s.zeroWidth target m.1 natural) fun s' => Laid s' (ms ++ [m]) ∧ SameRules s s' := by
  have hone : 0 < Nat.max natural 1 := lt_of_lt_of_le Nat.one_pos (Nat.le_max_right _ _)
  have htaken : taken m = 0 := by rw [taken, hbits]; rfl
  unfold Builder.zeroWidth
  refine Post.bind (P := fun s' => ∃ c, Laid c ms ∧ SameRules s c ∧ Moved c s') ?_ ?_
  · split
    case h_1 hstyle =>
      have hunit : s.unit = none := by
        by_contra hne
        obtain ⟨u, hu⟩ := Option.ne_none_iff_exists'.mp hne
        exact absurd (hstyle.symm.trans (h.unit u hu).style) (by decide)
      have hraise : ∀ {s' : Builder}, Moved s s' → ∃ c, Laid c ms ∧ SameRules s c ∧
          Moved c (if s'.contributesAlignment target false then s'.raise (Nat.max natural 1) else s') := by
        intro s' hmoved
        refine ⟨s, h, SameRules.refl s, ?_⟩
        split
        · exact hmoved.raise _
        · exact hmoved
      refine Post.map (Post.ite (fun hkind => Post.map (roundUp_spec.mono ?_)) fun _ => hraise (h.stay hunit))
      rintro next rfl
      exact hraise (moved_step hkind hunit (by omega))
    case h_2 =>
      obtain ⟨hclosed, hrules, hunit, -⟩ := h.closeUnit
      refine Post.ite (fun hand => Post.map (roundUp_spec.mono ?_)) fun _ =>
        ⟨s.closeUnit, hclosed, hrules, hclosed.stay hunit⟩
      rintro next rfl
      have hpos := memberAlign_pos (s := s.closeUnit) m.1 (Nat.max natural 1)
      exact ⟨s.closeUnit, hclosed, hrules,
        (moved_step (hrules.kind.trans hand.2) hunit (by omega)).raise _⟩
  rintro s' ⟨c, hc, hrules, hmoved⟩
  refine (push_spec s' m.1 s'.next (some 0) (Nat.max natural 1)).mono ?_
  rintro s'' ⟨hlt, f, offsets, rfl, hname, hty, hfbits, hbit, hoffset, halign⟩
  refine ⟨hc.place (f := f) ?_, hrules.trans (hmoved.rules.trans ⟨rfl, rfl, rfl, rfl, rfl, rfl, rfl⟩)⟩
  constructor
  case rules => exact hmoved.rules.trans ⟨rfl, rfl, rfl, rfl, rfl, rfl, rfl⟩
  case fields => exact congrArg (· ++ [f]) hmoved.fields
  case bits => exact hmoved.bits
  case align => exact hmoved.align
  case fits =>
    refine ⟨hname, hty, by rw [hfbits, hbits], hbit, by rw [hoffset, htaken]; exact hmoved.le, fun hnone => ?_,
      fun _ _ w hw hpos => ?_⟩
    · rw [hfbits] at hnone
      exact absurd hnone (by simp)
    · rw [hfbits] at hw
      rw [← Option.some.inj hw] at hpos
      exact absurd hpos (lt_irrefl 0)
  case next =>
    intro _
    rw [hoffset, htaken]
    exact ⟨hmoved.next, le_rfl⟩
  case union => exact fun hkind => (hmoved.union hkind).trans (hc.union hkind)
  case le => exact hmoved.le
  case small => dsimp only; omega
  case unit => exact fun u hu => absurd (hmoved.unit.symm.trans hu) (by simp)
  case microsoft =>
    intro _ w hw hpos
    rw [hbits] at hw
    rw [← Option.some.inj hw] at hpos
    exact absurd hpos (lt_irrefl 0)

/-! ## The whole record -/

theorem place_spec (h : Laid s ms) (hm : m.Words) {index : ℕ} {last : Bool}
    (hlayout : memberLayout types m.1.ty (flexible s.kind types m.1 last) = .ok m.2) :
    Post Overflows (s.place types target index m.1 last) fun s' => Laid s' (ms ++ [m]) ∧ SameRules s s' := by
  have hpos := memberAlign_pos (s := s) m.1 m.2.align
  have hlt := memberAlign_lt (s := s) hm hm.align
  unfold Builder.place
  rw [hlayout, h.base]
  dsimp only
  cases hbits : m.1.bits with
  | none => exact ordinary_spec h hm hbits hpos
  | some width =>
    refine Post.ite (fun hvar => absurd hvar.1 (by simp)) fun _ => Post.ite (fun hzero => ?_) fun hwidth => ?_
    · exact zeroWidth_spec h (hzero ▸ hbits) target m.2.align
    · exact bitField_spec h hm hbits (by omega) hpos hlt target index

/-- The members of a record with the layouts that they occupy. -/
def members (types : Types) (kind : RecordKind) (count : ℕ) : ℕ → List FieldDecl → Except LayoutError (List Member)
  | _, [] => .ok []
  | index, decl :: rest =>
    (memberLayout types decl.ty (flexible kind types decl (index + 1 = count))).bind fun layout =>
      (members types kind count (index + 1) rest).map fun ms => (decl, layout) :: ms

theorem placeAll_spec {count : ℕ} (rest : List FieldDecl) :
    ∀ index s ms after, Laid s ms → members types s.kind count index rest = .ok after →
      (∀ m ∈ after, m.Words) → Post Overflows (Builder.placeAll types target count index rest s) fun s' =>
        Laid s' (ms ++ after) ∧ SameRules s s' := by
  induction rest with
  | nil =>
    intro index s ms after h hafter _
    obtain rfl : [] = after := Except.ok.inj hafter
    exact ⟨by rwa [List.append_nil], SameRules.refl s⟩
  | cons decl rest ih =>
    intro index s ms after h hafter hwords
    rw [members] at hafter
    cases hlayout : memberLayout types decl.ty (flexible s.kind types decl (index + 1 = count)) with
    | error e =>
      rw [hlayout] at hafter
      exact absurd hafter (by simp [Except.bind])
    | ok layout =>
      rw [hlayout] at hafter
      cases hrest : members types s.kind count (index + 1) rest with
      | error e =>
        rw [hrest] at hafter
        exact absurd hafter (by simp [Except.bind, Except.map])
      | ok after' =>
        rw [hrest] at hafter
        obtain rfl : (decl, layout) :: after' = after := Except.ok.inj hafter
        have hfirst := hwords (decl, layout) List.mem_cons_self
        refine (place_spec (m := (decl, layout)) h hfirst hlayout).bind ?_
        rintro s' ⟨h', hrules⟩
        refine (ih (index + 1) s' (ms ++ [(decl, layout)]) after' h' (hrules.kind.symm ▸ hrest)
          fun m hm => hwords m (List.mem_cons_of_mem _ hm)).mono ?_
        rintro s'' ⟨h'', hrules'⟩
        rw [List.append_assoc] at h''
        exact ⟨h'', hrules.trans hrules'⟩

/-- The bits that a placed member takes. -/
def bitsOf (m : Member) (f : Field) : Set ℕ := Set.Ico f.bitOffset (f.bitOffset + taken m)

/-- C's layout rules, for a record over its members. -/
structure Keeps (kind : RecordKind) (options : RecordOptions) (target : TargetInfo) (ms : List Member)
    (r : RecordLayout) : Prop where
  count : r.fields.length = ms.length
  same : ∀ (i : ℕ) m f, ms[i]? = some m → r.fields[i]? = some f →
    f.name = m.1.name ∧ f.ty = m.1.ty ∧ f.bits = m.1.bits
  ordinary : ∀ f ∈ r.fields, f.bits = none → f.bit = 0 ∧ f.align ∣ f.offset ∧ f.align ≤ r.layout.align
  disjoint : kind = .struct → ∀ (i j : ℕ) m n f g, i ≠ j → ms[i]? = some m → r.fields[i]? = some f →
    ms[j]? = some n → r.fields[j]? = some g → Disjoint (bitsOf m f) (bitsOf n g)
  after : kind = .struct → ∀ (i j : ℕ) m f g, i < j → ms[i]? = some m → r.fields[i]? = some f →
    r.fields[j]? = some g → f.bitOffset + taken m ≤ g.bitOffset
  inside : ∀ (i : ℕ) m f, ms[i]? = some m → r.fields[i]? = some f → f.bitOffset + taken m ≤ r.layout.size * 8
  size : r.layout.align ∣ r.layout.size ∧ r.layout.size ≤ target.maxObjectSize
  itanium : options.bitFields.getD target.bitFieldStyle = .itanium → ∀ (i : ℕ) m f w, ms[i]? = some m →
    r.fields[i]? = some f → m.1.bits = some w → 0 < w →
    ¬ (options.packed ∨ m.1.packed ∨ options.pack.isSome) →
    unitsSpanned f.bitOffset w (f.align * 8) ≤ unitsSpanned 0 (m.2.size * 8) (f.align * 8)
  microsoft : options.bitFields.getD target.bitFieldStyle = .microsoft → ∀ (i : ℕ) m f w, ms[i]? = some m →
    r.fields[i]? = some f → m.1.bits = some w → 0 < w →
    ∃ j ≤ i, ∃ start, RunOf ms r.fields m.2.size start j (i + 1) ∧ f.bitOffset + w ≤ start + m.2.size * 8

theorem finish_spec {kind : RecordKind} {options : RecordOptions} (h : Laid s ms)
    (hrules : SameRules (Builder.new kind options target) s) :
    Post Overflows s.finish fun r => r.varying = none ∧ r.fields = s.fields ∧ Keeps kind options target ms r := by
  unfold Builder.finish
  have hfixed : ¬ (s.base.isSome = true ∨ s.widest ≠ []) := by
    rw [h.base, h.widest]
    simp
  have hle : s.align ≤ s.wholeAlign := by
    unfold Builder.wholeAlign
    split
    · exact Nat.le_max_left _ _
    · exact le_rfl
  have hpos : 0 < s.wholeAlign := h.align.trans hle
  dsimp only
  rw [if_neg hfixed]
  generalize s.wholeAlign = align at hle hpos ⊢
  refine (narrow_spec _).bind ?_
  rintro bytes ⟨rfl, -⟩
  refine (narrow_spec _).bind ?_
  rintro size ⟨hsize, -⟩
  refine Post.ite (fun _ => by simp [Overflows]) fun hmax => ?_
  refine ⟨rfl, rfl, ?_⟩
  have hbits : s.bits ≤ size * 8 := by
    have hbytes : s.bits ≤ (if s.bits = 0 then s.empty else (s.bits + 7) / 8) * 8 := by
      split
      · omega
      · omega
    have hround := le_nextMultipleOf (if s.bits = 0 then s.empty else (s.bits + 7) / 8) hpos
    omega
  have hkind : s.kind = kind := hrules.kind
  have hstyle : s.style = options.bitFields.getD target.bitFieldStyle := hrules.style
  have hoptions : s.options = options := hrules.options
  have hmember : ∀ f ∈ s.fields, ∃ (i : ℕ) (m : Member), ms[i]? = some m ∧ s.fields[i]? = some f := by
    intro f hf
    obtain ⟨i, hi⟩ := List.mem_iff_getElem?.mp hf
    have hlt := (List.getElem?_eq_some_iff.mp hi).1
    rw [h.length] at hlt
    exact ⟨i, ms[i], List.getElem?_eq_getElem hlt, hi⟩
  have hafter : kind = .struct → ∀ (i j : ℕ) m f g, i < j → ms[i]? = some m → s.fields[i]? = some f →
      s.fields[j]? = some g → f.bitOffset + taken m ≤ g.bitOffset := fun hk => h.apart (hkind.trans hk)
  constructor
  case count => exact h.length
  case same =>
    intro i m f hm hf
    have := h.fits i m f hm hf
    exact ⟨this.name, this.ty, this.bits⟩
  case ordinary =>
    intro f hf hnone
    obtain ⟨i, m, hm, hf⟩ := hmember f hf
    obtain ⟨hbit, hdvd, hfle⟩ := (h.fits i m f hm hf).ordinary hnone
    exact ⟨hbit, hdvd, hfle.trans hle⟩
  case disjoint =>
    intro hk i j m n f g hne hm hf hn hg
    rcases Nat.lt_or_gt_of_ne hne with hij | hij
    · have := hafter hk i j m f g hij hm hf hg
      exact Set.Ico_disjoint_Ico.mpr (by omega)
    · have := hafter hk j i n g f hij hn hg hf
      exact Set.Ico_disjoint_Ico.mpr (by omega)
  case after => exact hafter
  case inside => exact fun i m f hm hf => (h.fits i m f hm hf).inside.trans hbits
  case size =>
    have hmaxeq : s.max = target.maxObjectSize := hrules.max
    exact ⟨hsize ▸ dvd_nextMultipleOf _ _, hmaxeq ▸ not_lt.mp hmax⟩
  case itanium =>
    intro hit i m f w hm hf hw hpos' hpack
    have hfit := h.fits i m f hm hf
    refine hfit.itanium (hstyle.trans hit) ?_ w (hfit.bits.trans hw) hpos'
    rw [Builder.packing, hoptions]
    simpa [not_or, and_assoc] using hpack
  case microsoft => exact fun hms => h.microsoft (hstyle.trans hms)

/-- What the layout of a record whose members have layouts gives: a record that keeps the rules, whose members
start in their first byte. -/
theorem layoutRecord_spec {types : Types} {kind : RecordKind} {fields : List FieldDecl} {options : RecordOptions}
    {target : TargetInfo} {ms : List Member} (hms : members types kind fields.length 0 fields = .ok ms)
    (hwords : ∀ m ∈ ms, m.Words) :
    Post Overflows (layoutRecord types kind fields options target) fun r =>
      r.varying = none ∧ Keeps kind options target ms r ∧ ∀ f ∈ r.fields, f.bit < 8 := by
  have hnew : Laid (Builder.new kind options target) [] := by
    constructor
    case base => rfl
    case widest => rfl
    case align => exact le_rfl
    case length => rfl
    case fits => exact fun i m f hm => absurd hm (by simp)
    case apart => exact fun _ i j m f g _ hm => absurd hm (by simp)
    case before => exact fun _ i m f hm => absurd hm (by simp)
    case union => exact fun _ => rfl
    case le => exact le_rfl
    case small =>
      rw [Builder.new]
      norm_num
    case unit => exact fun u hu => absurd hu (by simp [Builder.new])
    case microsoft => exact fun _ i m f w hm => absurd hm (by simp)
  unfold layoutRecord
  refine (placeAll_spec fields 0 _ [] ms hnew hms hwords).bind ?_
  rintro s ⟨h, hrules⟩
  refine (finish_spec h hrules).mono ?_
  rintro r ⟨hvarying, hfields, hkeeps⟩
  refine ⟨hvarying, hkeeps, fun f hf => ?_⟩
  rw [hfields] at hf
  obtain ⟨i, hi⟩ := List.mem_iff_getElem?.mp hf
  have hlt := (List.getElem?_eq_some_iff.mp hi).1
  rw [h.length] at hlt
  exact (h.fits i _ f (List.getElem?_eq_getElem hlt) hi).bit

/-- A record whose members have layouts is laid out by C's rules, and no sum on the way overflows. -/
theorem layoutRecord_keeps (types : Types) (kind : RecordKind) (fields : List FieldDecl) (options : RecordOptions)
    (target : TargetInfo) (ms : List Member) (hms : members types kind fields.length 0 fields = .ok ms)
    (hwords : ∀ m ∈ ms, m.Words) :
    layoutRecord types kind fields options target ≠ .error .overflow ∧
      ∀ r, layoutRecord types kind fields options target = .ok r →
        r.varying = none ∧ Keeps kind options target ms r := by
  have hpost := @layoutRecord_spec types kind fields options target ms hms hwords
  refine ⟨fun herror => hpost.not_bad herror rfl, fun r hr => ?_⟩
  obtain ⟨hvarying, hkeeps, -⟩ := hpost.of_ok hr
  exact ⟨hvarying, hkeeps⟩

section

/-- Types named by their size, each as aligned as it is large. -/
private def scalars : Types := ⟨fun ty => .ok ⟨ty, ty⟩, fun ty => .ok ty, fun _ => false, fun ty => .ok ⟨ty, ty⟩⟩

/-- The rules of x86-64 Linux. -/
private def sysv : TargetInfo := ⟨.itanium, fun _ => false, 2^63 - 1, 0, false⟩

/-- `struct { char c; int b : 30; int : 0; long long d; }` -/
private def mixed : List FieldDecl :=
  [⟨some 0, 1, none, none, false⟩, ⟨some 1, 4, some 30, none, false⟩, ⟨none, 4, some 0, none, false⟩,
    ⟨some 2, 8, none, none, false⟩]

example : ((layoutRecord scalars .struct mixed ⟨false, none, none, none⟩ sysv).toOption.map
    RecordLayout.layout) = some ⟨16, 8⟩ := by decide +kernel

theorem layoutRecord_keeps_mixed :
    layoutRecord scalars .struct mixed ⟨false, none, none, none⟩ sysv ≠ .error .overflow ∧
      ∀ r, layoutRecord scalars .struct mixed ⟨false, none, none, none⟩ sysv = .ok r → r.varying = none ∧
        Keeps .struct ⟨false, none, none, none⟩ sysv (mixed.map fun d => (d, ⟨d.ty, d.ty⟩)) r := by
  refine layoutRecord_keeps scalars .struct mixed ⟨false, none, none, none⟩ sysv _ rfl fun m hm => ?_
  simp only [mixed, List.map_cons, List.map_nil, List.mem_cons, List.not_mem_nil, or_false] at hm
  rcases hm with rfl | rfl | rfl | rfl <;> constructor <;> simp

end

end Rucc.CTypes
