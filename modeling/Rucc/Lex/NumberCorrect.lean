import Rucc.Lex.NumberSpelling

/-!
# The type of an integer constant

A constant has the first type that can represent it of the list C has for its base and its suffix: the standard types
from the one the suffix names, and past them the extended types of the target. `typed_iff` says when `integer` finds
that one, and `again_iff` when a constant put back with the suffix of its type is read as the same one.
-/

namespace Rucc.Lex

/-! ## The types of C -/

/-- The standard types from the one a suffix names, each signed and unsigned. There is no `long long` before C99 unless
it is asked for. -/
def ranks (length : Option Length) (std : Std) : List (IntKind × IntKind) :=
  match length with
  | none => (.int, .uInt) :: (.long, .uLong) :: if std = .C89 then [] else [(.longLong, .uLongLong)]
  | some .long => (.long, .uLong) :: if std = .C89 then [] else [(.longLong, .uLongLong)]
  | some .longLong => [(.longLong, .uLongLong)]
  | some .bitInt => []

/-- The standard types a constant may have. A decimal one is unsigned only where it says so, or where C89 has no signed
type left. -/
def standardTypes (decimal : Bool) (suffix : Suffix) (std : Std) : List IntKind :=
  ((ranks suffix.length std).flatMap fun (signed, unsigned) =>
    if suffix.unsigned then [unsigned] else if decimal then [signed] else [signed, unsigned]) ++
  if std = .C89 ∧ decimal ∧ !suffix.unsigned ∧ (suffix.length = none ∨ suffix.length = some .long) then [.uLong]
  else []

/-- The extended types past some standard ones: signed, unsigned or both as the standard ones are. -/
def extendedTypes (types : List IntKind) : List IntKind :=
  (if types.any (·.isSigned false) then [.int128] else []) ++
    if types.any (!·.isSigned false) then [.uInt128] else []

/-- How many bits the values of a type have. -/
def valueBits (kind : IntKind) (target : TargetInfo) : ℕ :=
  intWidth kind target - if kind.isSigned false then 1 else 0

/-- The widest `_BitInt` there is. -/
def BITINT_MAXWIDTH : ℕ := 128

/-- The bit-precise types, the narrowest first. A signed one has at least two bits. -/
def bitPreciseTypes (unsigned : Bool) : List ℕ :=
  if unsigned then List.range' 1 BITINT_MAXWIDTH else List.range' 2 (BITINT_MAXWIDTH - 1)

/-- The first type of C's list for a base and a suffix that can represent a value. -/
def firstType (decimal : Bool) (suffix : Suffix) (std : Std) (target : TargetInfo) (value : ℕ) :
    Option IntConstantType :=
  if suffix.length = some .bitInt then
    ((bitPreciseTypes suffix.unsigned).find? fun width => value < 2^(if suffix.unsigned then width else width - 1)).map
      (.bitInt (!suffix.unsigned))
  else
    let types := standardTypes decimal suffix std
    ((types ++ if target.hasInt128 then extendedTypes types else []).find? fun kind =>
      value < 2^valueBits kind target).map .standard

/-- The value and the type of what is read. -/
def valued (read : Except IntError IntConstant) : Option (ℕ × IntConstantType) :=
  read.toOption.map fun c => (c.value, c.ty)

/-- A constant is read as its value and the first type of C's list, or is an error where there is none, and put back
with the suffix of its type it is read as the same one. -/
structure Meets (s : Spelling) (std : Std) (target : TargetInfo) : Prop where
  typed : valued (integer s.text std target) =
    (firstType (s.radix = .decimal) s.ending.suffix std target s.value).map (s.value, ·)
  again : ∀ c, integer s.text std target = .ok c → valued (integer c.spelling std target) = some (c.value, c.ty)

/-! ## The type that is found -/

/-- The type `constant` gives a value. -/
def constantType (base : ℕ) (suffix : Suffix) (std : Std) (target : TargetInfo) (value : ℕ) : Option IntConstantType :=
  if suffix.length = some .bitInt then some (bitInt value suffix.unsigned)
  else ((candidates base suffix std).find? (fits value · target)).map .standard

variable {base value : ℕ} {suffix : Suffix} {std : Std} {target : TargetInfo} {kind : IntKind}

theorem valued_constant (remarks : Remarks) :
    valued (constant base std target value suffix remarks) =
      (constantType base suffix std target value).map (value, ·) := by
  unfold constant constantType
  dsimp only
  by_cases hbit : suffix.length = some .bitInt
  · rw [if_pos hbit, if_pos hbit]
    rfl
  · rw [if_neg hbit, if_neg hbit]
    cases (candidates base suffix std).find? (fits value · target) <;> rfl

theorem valued_integer (s : Spelling) (std : Std) (target : TargetInfo) :
    valued (integer s.text std target) =
      if s.value < 2^128 then (constantType s.readBase s.ending.suffix std target s.value).map (s.value, ·) else none := by
  obtain ⟨hfits, hlarge⟩ := s.integer_text std target
  split_ifs with hlt
  · obtain ⟨remarks, hread⟩ := hfits hlt
    rw [hread, valued_constant]
  · rw [hlarge (not_lt.1 hlt)]
    rfl

/-- The candidates are the standard types and the extended ones past them. -/
theorem candidates_eq (base : ℕ) (suffix : Suffix) (std : Std) :
    candidates base suffix std =
      standardTypes (base = 10) suffix std ++ extendedTypes (standardTypes (base = 10) suffix std) := by
  obtain ⟨unsigned, length, imaginary⟩ := suffix
  by_cases hbase : base = 10 <;> by_cases hstd : std = .C89 <;> cases unsigned <;>
    obtain _ | _ | _ | _ := length <;>
    simp [candidates, standardTypes, ranks, extendedTypes, hbase, hstd, IntKind.isSigned]

/-- A value that is held fits in a type when it has no more bits than the values of the type. -/
theorem fits_eq (hlt : value < 2^128) : fits value kind target = decide (value < 2^valueBits kind target) := by
  have hbits : (if kind.isSigned false then intWidth kind target - 1 else intWidth kind target) =
      valueBits kind target := by
    unfold valueBits
    split_ifs <;> rfl
  unfold fits
  dsimp only
  rw [hbits, decide_eq_decide, Nat.shiftRight_eq_div_pow, Nat.div_eq_zero_iff]
  constructor
  · rintro (hwide | hzero | hfits)
    · exact hlt.trans_le (Nat.pow_le_pow_right (by decide) hwide)
    · exact absurd hzero (by positivity)
    · exact hfits
  · exact fun h => Or.inr (Or.inr h)

theorem find?_candidates (hlt : value < 2^128) :
    (candidates base suffix std).find? (fits value · target) =
      ((standardTypes (base = 10) suffix std).find? fun kind => value < 2^valueBits kind target).or
        ((extendedTypes (standardTypes (base = 10) suffix std)).find? fun kind => value < 2^valueBits kind target) := by
  rw [candidates_eq, List.find?_append, List.find?_congr fun kind _ => fits_eq hlt, List.find?_congr fun kind _ => fits_eq hlt]

theorem valueBits_le (kind : IntKind) (target : TargetInfo) : valueBits kind target ≤ 128 := by
  refine (Nat.sub_le _ _).trans ?_
  obtain ⟨_ | _ | _ | _, hasInt128⟩ := target <;> cases kind <;> simp [intWidth, DataModel.longWidth]

/-- The first number of a range with a property that none below it has. -/
theorem find?_range' {p : ℕ → Bool} {start n w : ℕ} (hle : start ≤ w) (hw : p w = true)
    (hbelow : ∀ x, start ≤ x → x < w → p x = false) :
    (List.range' start n).find? p = if w < start + n then some w else none := by
  induction n generalizing start with
  | zero => rw [if_neg (by omega)]; rfl
  | succ n ih =>
    rw [List.range'_succ, List.find?_cons]
    obtain rfl | hlt := hle.eq_or_lt
    · rw [hw, if_pos (by omega)]
    · rw [hbelow start le_rfl hlt]
      dsimp only
      rw [ih hlt fun x hx hxw => hbelow x (by omega) hxw]
      rw [Nat.succ_add, Nat.add_succ]

/-- The width of a `wb` constant is that of the first bit-precise type for it, if there is one as wide. -/
theorem find?_bitPrecise (value : ℕ) (unsigned : Bool) :
    ((bitPreciseTypes unsigned).find? fun width => value < 2^(if unsigned then width else width - 1)).map
        (IntConstantType.bitInt (!unsigned)) =
      if value < 2^(if unsigned then 128 else 127) then some (bitInt value unsigned) else none := by
  cases unsigned with
  | true =>
    have hfind := @find?_range' (fun width => decide (value < 2^width)) 1 BITINT_MAXWIDTH (max (Nat.size value) 1)
      (le_max_right _ _) (decide_eq_true (Nat.size_le.1 (le_max_left _ _))) fun x hx hlt => by
        rw [decide_eq_false_iff_not, ← Nat.size_le]
        omega
    have hwidth : max (Nat.size value) 1 < 1 + BITINT_MAXWIDTH ↔ value < 2^128 := by
      rw [← Nat.size_le, BITINT_MAXWIDTH]
      omega
    simp only [bitPreciseTypes, if_true, hfind, hwidth]
    split_ifs
    · simp [bitInt]
    · rfl
  | false =>
    have hfind := @find?_range' (fun width => decide (value < 2^(width - 1))) 2 (BITINT_MAXWIDTH - 1)
      (max (Nat.size value + 1) 2) (le_max_right _ _)
      (decide_eq_true (Nat.size_le.1 (by omega))) fun x hx hlt => by
        rw [decide_eq_false_iff_not, ← Nat.size_le]
        omega
    have hwidth : max (Nat.size value + 1) 2 < 2 + (BITINT_MAXWIDTH - 1) ↔ value < 2^127 := by
      rw [← Nat.size_le, BITINT_MAXWIDTH]
      omega
    simp only [bitPreciseTypes, Bool.false_eq_true, if_false, hfind, hwidth]
    split_ifs <;> rfl

/-- A zero has the first type of the list, which is the same one in every base. -/
theorem firstType_zero (decimal decimal' : Bool) (suffix : Suffix) (std : Std) (target : TargetInfo) :
    firstType decimal suffix std target 0 = firstType decimal' suffix std target 0 := by
  obtain ⟨unsigned, length, imaginary⟩ := suffix
  cases unsigned <;> obtain _ | _ | _ | _ := length <;> cases decimal <;> cases decimal' <;>
    simp [firstType, standardTypes, ranks]

theorem firstType_readBase (s : Spelling) (std : Std) (target : TargetInfo) :
    firstType (s.radix = .decimal) s.ending.suffix std target s.value =
      firstType (s.readBase = 10) s.ending.suffix std target s.value := by
  by_cases hzero : s.radix = .octal ∧ s.rest = []
  · have hvalue : s.value = 0 := by
      obtain ⟨radix, first, rest, ending, starts, hfirst, hrest⟩ := s
      obtain ⟨rfl, rfl⟩ := hzero
      obtain rfl : first = '0' := starts
      rfl
    rw [hvalue]
    exact firstType_zero _ _ _ _ _
  · have hten : s.radix = .decimal ↔ s.readBase = 10 := by
      rw [Spelling.readBase, if_neg hzero]
      cases s.radix <;> simp [Radix.base]
    rw [decide_eq_decide.2 hten]

/-- Where the type that is found is the one of C: a signed bit-precise one has room for its sign bit, and an extended
type is only taken where the target has it. -/
def TypedWhen (s : Spelling) (std : Std) (target : TargetInfo) : Prop :=
  let types := standardTypes (s.readBase = 10) s.ending.suffix std
  if s.ending.suffix.length = some .bitInt then
    s.ending.suffix.unsigned = true ∨ s.value < 2^127 ∨ 2^128 ≤ s.value
  else
    target.hasInt128 = true ∨ (∃ kind ∈ types, s.value < 2^valueBits kind target) ∨
      ∀ kind ∈ extendedTypes types, 2^valueBits kind target ≤ s.value

theorem typed_iff (s : Spelling) (std : Std) (target : TargetInfo) :
    valued (integer s.text std target) =
        (firstType (s.radix = .decimal) s.ending.suffix std target s.value).map (s.value, ·) ↔
      TypedWhen s std target := by
  have hinj : Function.Injective (Option.map (Prod.mk s.value : IntConstantType → _)) :=
    Option.map_injective (Prod.mk_right_injective s.value)
  have hstandard : Function.Injective IntConstantType.standard := fun _ _ h => IntConstantType.standard.inj h
  rw [valued_integer, firstType_readBase, TypedWhen, firstType]
  dsimp only
  have hlarge (hlt : ¬ s.value < 2^128) {kind : IntKind} : 2^valueBits kind target ≤ s.value :=
    (Nat.pow_le_pow_right (by decide) (valueBits_le kind target)).trans (not_lt.1 hlt)
  by_cases hbit : s.ending.suffix.length = some .bitInt
  · rw [if_pos hbit, if_pos hbit, find?_bitPrecise]
    by_cases hlt : s.value < 2^128
    · rw [if_pos hlt, constantType, if_pos hbit]
      by_cases hroom : s.value < 2^(if s.ending.suffix.unsigned then 128 else 127)
      · rw [if_pos hroom]
        refine iff_of_true rfl ?_
        split_ifs at hroom with hunsigned
        · exact Or.inl hunsigned
        · exact Or.inr (Or.inl hroom)
      · rw [if_neg hroom]
        refine iff_of_false (fun h => by cases h) ?_
        split_ifs at hroom with hunsigned
        · exact absurd hlt hroom
        · exact fun h => h.elim hunsigned fun h => h.elim hroom (not_le.2 hlt)
    · have hroom : ¬ s.value < 2^(if s.ending.suffix.unsigned then 128 else 127) := by
        split_ifs <;> omega
      rw [if_neg hlt, if_neg hroom]
      exact iff_of_true rfl (Or.inr (Or.inr (not_lt.1 hlt)))
  · rw [if_neg hbit, if_neg hbit, List.find?_append]
    by_cases hlt : s.value < 2^128
    · rw [if_pos hlt, constantType, if_neg hbit, find?_candidates hlt, hinj.eq_iff,
        (Option.map_injective hstandard).eq_iff]
      generalize standardTypes (s.readBase = 10) s.ending.suffix std = types
      -- the extended types only matter where no standard one can represent the value
      cases hfind : types.find? (fun kind => decide (s.value < 2^valueBits kind target)) with
      | some kind =>
        refine iff_of_true rfl (Or.inr (Or.inl ⟨kind, List.mem_of_find?_eq_some hfind, ?_⟩))
        simpa using List.find?_some hfind
      | none =>
        have hnone : ¬ ∃ kind ∈ types, s.value < 2^valueBits kind target := by
          rintro ⟨kind, hin, hrep⟩
          simpa [hrep] using List.find?_eq_none.1 hfind kind hin
        simp only [Option.none_or, hnone, false_or]
        by_cases hhas : target.hasInt128 = true
        · simp [hhas]
        · rw [if_neg hhas, List.find?_nil, List.find?_eq_none]
          simp [hhas]
    · rw [if_neg hlt]
      refine iff_of_true ?_ (Or.inr (Or.inr fun kind _ => hlarge hlt))
      have hnone (l : List IntKind) : l.find? (fun kind => decide (s.value < 2^valueBits kind target)) = none :=
        List.find?_eq_none.2 fun kind _ => by simpa using hlarge hlt
      rw [hnone, hnone]
      rfl

/-! ## Putting a constant back -/

/-- The suffix a type is put back with, as one of the grammar. -/
def IntConstantType.ending : IntConstantType → Ending
  | .standard kind =>
    match kind with
    | .uInt | .uInt128 => ⟨some false, none, true⟩
    | .long => ⟨none, some (.long, false), true⟩
    | .uLong => ⟨some false, some (.long, false), true⟩
    | .longLong => ⟨none, some (.longLong, false), true⟩
    | .uLongLong => ⟨some false, some (.longLong, false), true⟩
    | _ => ⟨none, none, true⟩
  | .bitInt true _ => ⟨none, some (.bitInt, false), true⟩
  | .bitInt false _ => ⟨some false, some (.bitInt, false), true⟩

theorem ending_text (ty : IntConstantType) : ty.ending.text = ty.suffix := by
  obtain kind | ⟨_ | _, width⟩ := ty
  · cases kind <;> rfl
  · rfl
  · rfl

/-- A constant that is put back is read as its value and the type there is for it behind its suffix. -/
theorem valued_spelling (c : IntConstant) (hlt : c.value < 2^128) (std : Std) (target : TargetInfo) :
    valued (integer c.spelling std target) =
      (constantType 10 c.ty.ending.suffix std target c.value).map (c.value, ·) := by
  obtain ⟨s, htext, hvalue, hbase, hending⟩ := Spelling.exists_toDigits c.value c.ty.ending
  rw [IntConstant.spelling, ← ending_text, ← htext, valued_integer, hvalue, if_pos hlt, hbase, hending]

/-- What comes before an element that is found first does not have the property. -/
theorem not_of_before {l : List IntKind} {p : IntKind → Bool} (h : l.find? p = some kind) {other : IntKind}
    (hbefore : other ∈ l.takeWhile (· ≠ kind)) : p other = false := by
  induction l with
  | nil => cases h
  | cons first l ih =>
    rw [List.find?_cons] at h
    cases hp : p first with
    | true =>
      rw [hp] at h
      obtain rfl := Option.some.inj h
      rw [List.takeWhile_cons_of_neg (by simp)] at hbefore
      cases hbefore
    | false =>
      rw [hp] at h
      by_cases heq : first = kind
      · rw [List.takeWhile_cons_of_neg (by simp [heq])] at hbefore
        cases hbefore
      · rw [List.takeWhile_cons_of_pos (by simp [heq])] at hbefore
        obtain rfl | hin := List.mem_cons.1 hbefore
        · exact hp
        · exact ih h hin

theorem mem_candidates (base : ℕ) (suffix : Suffix) (std : Std) : ∀ kind ∈ candidates base suffix std,
    kind ∈ [.int, .uInt, .long, .uLong, .longLong, .uLongLong, .int128, .uInt128] := by
  unfold candidates
  dsimp only
  split <;> (try split_ifs) <;> decide

/-- A standard type is the first one for its own suffix. -/
theorem candidates_standard (h : kind ∈ candidates base suffix std) (hsigned : kind ≠ .int128)
    (hunsigned : kind ≠ .uInt128) :
    ∃ l, candidates 10 (IntConstantType.standard kind).ending.suffix std = kind :: l := by
  have hmem := mem_candidates base suffix std kind h
  simp only [List.mem_cons, List.not_mem_nil, or_false, hsigned, hunsigned] at hmem
  by_cases hstd : std = .C89 <;> obtain rfl | rfl | rfl | rfl | rfl | rfl := hmem <;>
    exact ⟨_, by simp [candidates, IntConstantType.ending, Ending.suffix, hstd]; rfl⟩

/-- The suffix `ll` on a decimal constant of C89. -/
def LongDecimal (base : ℕ) (suffix : Suffix) (std : Std) : Prop :=
  std = .C89 ∧ base = 10 ∧ suffix.unsigned = false ∧ suffix.length = some .longLong

/-- Before the signed extended type come the widest standard ones, except that C89 has no `long long` and offers it
only where it is asked for. -/
theorem before_int128 (h : .int128 ∈ candidates base suffix std) :
    LongDecimal base suffix std ∨
      (if std = .C89 then .uLong else .longLong) ∈ (candidates base suffix std).takeWhile (· ≠ .int128) ∨
      .uLongLong ∈ (candidates base suffix std).takeWhile (· ≠ .int128) := by
  obtain ⟨unsigned, length, imaginary⟩ := suffix
  by_cases hbase : base = 10 <;> by_cases hstd : std = .C89 <;> cases unsigned <;>
    obtain _ | _ | _ | _ := length <;> simp [candidates, LongDecimal, hbase, hstd] at h ⊢

theorem before_uInt128 (h : .uInt128 ∈ candidates base suffix std) :
    .int128 ∈ (candidates base suffix std).takeWhile (· ≠ .uInt128) ∨
      (if std = .C89 then .uLong else .uLongLong) ∈ (candidates base suffix std).takeWhile (· ≠ .uInt128) ∨
      .uLongLong ∈ (candidates base suffix std).takeWhile (· ≠ .uInt128) := by
  obtain ⟨unsigned, length, imaginary⟩ := suffix
  by_cases hbase : base = 10 <;> by_cases hstd : std = .C89 <;> cases unsigned <;>
    obtain _ | _ | _ | _ := length <;> simp [candidates, hbase, hstd] at h ⊢

/-- What does not fit in a type does not fit in one whose values have no more bits. -/
theorem fits_narrower {narrow wide : IntKind} (hlt : value < 2^128) (h : fits value wide target = false)
    (hle : valueBits narrow target ≤ valueBits wide target) : fits value narrow target = false := by
  rw [fits_eq hlt, decide_eq_false_iff_not, not_lt] at h ⊢
  exact (Nat.pow_le_pow_right (by decide) hle).trans h

@[simp] theorem valueBits_int : valueBits .int target = 31 := rfl
@[simp] theorem valueBits_uInt : valueBits .uInt target = 32 := rfl
@[simp] theorem valueBits_long : valueBits .long target = target.dataModel.longWidth - 1 := rfl
@[simp] theorem valueBits_uLong : valueBits .uLong target = target.dataModel.longWidth := rfl
@[simp] theorem valueBits_longLong : valueBits .longLong target = 63 := rfl
@[simp] theorem valueBits_uLongLong : valueBits .uLongLong target = 64 := rfl
@[simp] theorem valueBits_int128 : valueBits .int128 target = 127 := rfl
@[simp] theorem valueBits_uInt128 : valueBits .uInt128 target = 128 := rfl

theorem longWidth_between (model : DataModel) : 32 ≤ model.longWidth ∧ model.longWidth ≤ 64 := by
  cases model <;> decide

/-- Past the standard types a decimal constant with no suffix is the signed extended one. -/
theorem find?_int128 (hlt : value < 2^128) (hfits : fits value .int128 target = true)
    (hwide : fits value (if std = .C89 then .uLong else .longLong) target = false) :
    (candidates 10 (IntConstantType.standard .int128).ending.suffix std).find? (fits value · target) =
      some .int128 := by
  obtain ⟨hge, hle⟩ := longWidth_between target.dataModel
  have hint : fits value .int target = false := fits_narrower hlt hwide (by split_ifs <;> simp; omega)
  have hlong : fits value .long target = false := fits_narrower hlt hwide (by split_ifs <;> simp; omega)
  by_cases hstd : std = .C89
  · rw [if_pos hstd] at hwide
    simp [candidates, IntConstantType.ending, Ending.suffix, hstd, hint, hlong, hwide, hfits]
  · rw [if_neg hstd] at hwide
    simp [candidates, IntConstantType.ending, Ending.suffix, hstd, hint, hlong, hwide, hfits]

/-- Past the standard types a constant that is unsigned is the unsigned extended one. -/
theorem find?_uInt128 (hlt : value < 2^128) (hfits : fits value .uInt128 target = true)
    (hwide : fits value (if std = .C89 then .uLong else .uLongLong) target = false) :
    (candidates 10 (IntConstantType.standard .uInt128).ending.suffix std).find? (fits value · target) =
      some .uInt128 := by
  obtain ⟨hge, hle⟩ := longWidth_between target.dataModel
  have huInt : fits value .uInt target = false := fits_narrower hlt hwide (by split_ifs <;> simp; omega)
  have huLong : fits value .uLong target = false := fits_narrower hlt hwide (by split_ifs <;> simp; omega)
  by_cases hstd : std = .C89
  · simp [candidates, IntConstantType.ending, Ending.suffix, hstd, huInt, huLong, hfits]
  · rw [if_neg hstd] at hwide
    simp [candidates, IntConstantType.ending, Ending.suffix, hstd, huInt, huLong, hwide, hfits]

/-- Where C89 offers `unsigned long` for what was asked to be `long long`. -/
def Taken (base value : ℕ) (suffix : Suffix) (std : Std) (target : TargetInfo) : Prop :=
  LongDecimal base suffix std ∧ 2^63 ≤ value ∧ value < 2^64 ∧ target.dataModel = .lp64

theorem constantType_again {ty : IntConstantType} (hlt : value < 2^128)
    (h : constantType base suffix std target value = some ty) :
    constantType 10 ty.ending.suffix std target value = some ty ∨ Taken base value suffix std target := by
  unfold constantType at h
  split_ifs at h with hbit
  · obtain rfl := Option.some.inj h
    refine Or.inl ?_
    cases suffix.unsigned <;> rfl
  obtain ⟨kind, hfind, rfl⟩ := Option.map_eq_some_iff.1 h
  have hmem := List.mem_of_find?_eq_some hfind
  have hfits := List.find?_some hfind
  have hstandard : (IntConstantType.standard kind).ending.suffix.length ≠ some .bitInt := by cases kind <;> decide
  rw [constantType, if_neg hstandard]
  obtain ⟨hge, hle⟩ := longWidth_between target.dataModel
  by_cases hsigned : kind = .int128
  · subst hsigned
    obtain hlong | hbefore | hbefore := before_int128 hmem
    · -- only `long long` was tried, where the constant that is put back also tries `unsigned long`
      obtain ⟨hstd, hbase, hsuffix, hlength⟩ := hlong
      have hlongLong : fits value .longLong target = false :=
        not_of_before hfind (by simp [candidates, hbase, hsuffix, hlength])
      by_cases huLong : fits value .uLong target = false
      · rw [find?_int128 hlt hfits (by rwa [if_pos hstd])]
        exact Or.inl rfl
      · rw [fits_eq hlt, decide_eq_false_iff_not, not_lt] at hlongLong
        rw [fits_eq hlt, decide_eq_false_iff_not, not_not, valueBits_uLong] at huLong
        refine Or.inr ⟨⟨hstd, hbase, hsuffix, hlength⟩, hlongLong, huLong.trans_le ?_, ?_⟩
        · exact Nat.pow_le_pow_right (by decide) hle
        · have hwidth := (Nat.pow_lt_pow_iff_right (by decide)).1 (hlongLong.trans_lt huLong)
          rw [valueBits_longLong] at hwidth
          cases hmodel : target.dataModel <;> rw [hmodel] at hwidth <;> first | rfl | exact absurd hwidth (by decide)
    · rw [find?_int128 hlt hfits (not_of_before hfind hbefore)]
      exact Or.inl rfl
    · have hwide := not_of_before hfind hbefore
      rw [find?_int128 hlt hfits (fits_narrower hlt hwide (by split_ifs <;> simp; omega))]
      exact Or.inl rfl
  by_cases hunsigned : kind = .uInt128
  · subst hunsigned
    refine Or.inl ?_
    obtain hbefore | hbefore | hbefore := before_uInt128 hmem
    · have hwide := not_of_before hfind hbefore
      rw [find?_uInt128 hlt hfits (fits_narrower hlt hwide (by split_ifs <;> simp; omega))]
      rfl
    · rw [find?_uInt128 hlt hfits (not_of_before hfind hbefore)]
      rfl
    · have hwide := not_of_before hfind hbefore
      rw [find?_uInt128 hlt hfits (fits_narrower hlt hwide (by split_ifs <;> simp; omega))]
      rfl
  · obtain ⟨l, hl⟩ := candidates_standard hmem hsigned hunsigned
    rw [hl, List.find?_cons, hfits]
    exact Or.inl rfl

theorem not_again (hlt : value < 2^128) (htaken : Taken base value suffix std target) :
    constantType base suffix std target value = some (.standard .int128) ∧
      constantType 10 (IntConstantType.standard .int128).ending.suffix std target value = some (.standard .uLong) := by
  obtain ⟨⟨hstd, hbase, hsuffix, hlength⟩, hge, hlt64, hmodel⟩ := htaken
  have hlongLong : fits value .longLong target = false := (fits_eq hlt).trans (decide_eq_false (not_lt.2 hge))
  have hint128 : fits value .int128 target = true :=
    (fits_eq hlt).trans (decide_eq_true (hlt64.trans (by rw [valueBits_int128]; decide)))
  have huLong : fits value .uLong target = true :=
    (fits_eq hlt).trans (decide_eq_true (by rw [valueBits_uLong, hmodel]; exact hlt64))
  have hlong : fits value .long target = false :=
    fits_narrower hlt hlongLong (by rw [valueBits_long, hmodel]; rfl)
  have hint : fits value .int target = false := fits_narrower hlt hlongLong (by simp)
  constructor
  · simp [constantType, candidates, hbase, hsuffix, hlength, hlongLong, hint128]
  · simp [constantType, candidates, IntConstantType.ending, Ending.suffix, hstd, hint, hlong, huLong]

/-- A constant that is put back is read as the same one, except where C89 takes a smaller type for it. -/
theorem again_iff (s : Spelling) (std : Std) (target : TargetInfo) :
    (∀ c, integer s.text std target = .ok c → valued (integer c.spelling std target) = some (c.value, c.ty)) ↔
      ¬ Taken s.readBase s.value s.ending.suffix std target := by
  have hvalued := valued_integer s std target
  by_cases hlt : s.value < 2^128
  · rw [if_pos hlt] at hvalued
    constructor
    · intro hagain htaken
      obtain ⟨hfirst, hsecond⟩ := not_again hlt htaken
      cases hread : integer s.text std target with
      | error e =>
        rw [hread, hfirst] at hvalued
        cases hvalued
      | ok c =>
        rw [hread, hfirst] at hvalued
        obtain ⟨hvalue, hty⟩ := Prod.mk.inj (Option.some.inj hvalued)
        have hspelling := hagain c hread
        rw [valued_spelling c (hvalue ▸ hlt), hty, hvalue, hsecond] at hspelling
        cases hspelling
    · intro hnot c hread
      rw [hread] at hvalued
      obtain ⟨ty, hty, hpair⟩ := Option.map_eq_some_iff.1 hvalued.symm
      obtain ⟨hvalue, rfl⟩ := Prod.mk.inj hpair
      rw [valued_spelling c (hvalue ▸ hlt), ← hvalue,
        (constantType_again hlt hty).resolve_right hnot]
      rfl
  · rw [if_neg hlt] at hvalued
    refine iff_of_true (fun c hread => ?_) fun htaken => hlt (htaken.2.2.1.trans (by decide))
    rw [hread] at hvalued
    cases hvalued

/-- A constant has the value it says and the type of C for it, also when it is put back, exactly when a signed
bit-precise type has room for its sign bit, an extended type is only taken where the target has it, and no `ll` of C89
is past `long long` and not past `unsigned long`. -/
theorem meets_iff (s : Spelling) (std : Std) (target : TargetInfo) :
    Meets s std target ↔ TypedWhen s std target ∧ ¬ Taken s.readBase s.value s.ending.suffix std target :=
  ⟨fun h => ⟨(typed_iff s std target).1 h.typed, (again_iff s std target).1 h.again⟩,
    fun h => ⟨(typed_iff s std target).2 h.1, (again_iff s std target).2 h.2⟩⟩

/-- The constant `0x80000000000000000000000000000000wb`, a bit too large for the widest signed type. -/
def tooWide : Spelling where
  radix := .hexadecimal false
  first := '8'
  rest := List.replicate 31 (false, '0')
  ending := ⟨none, some (.bitInt, false), true⟩
  starts := trivial
  first_digit := ⟨8, by decide, rfl⟩
  rest_digits digit h := by
    obtain rfl := List.eq_of_mem_replicate h
    exact ⟨0, by decide, rfl⟩

/-- It is given a type that there is not, one bit wider than the widest there is. -/
theorem not_meets_tooWide : ¬ Meets tooWide .C23 ⟨.lp64, true⟩ := by
  intro h
  have hread : valued (integer tooWide.text .C23 ⟨.lp64, true⟩) = some (2^127, .bitInt true 129) := by decide +kernel
  have htyped := h.typed
  rw [hread] at htyped
  have hnone : firstType (tooWide.radix = .decimal) tooWide.ending.suffix .C23 ⟨.lp64, true⟩ tooWide.value = none := by
    decide +kernel
  rw [hnone] at htyped
  cases htyped

end Rucc.Lex
