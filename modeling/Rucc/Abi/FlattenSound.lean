import Mathlib.Data.List.Destutter
import Rucc.Abi.Flatten

/-!
# What flattening gives

The types a C program can have, and what is known of the pieces of one: every piece is inside the object and
is a scalar the machine has, and the halves of a `_Complex` and the lanes of a vector do not overlap. The
members of a `union` may.
-/

namespace Rucc.Abi

open CTypes (Field Layout LayoutError RecordKind)

variable {s : Scalar} {p q : Piece} {ty elem : CType} {field : Field} {stride at_ : ℕ} {l : Layout}
    {before after pieces : List Piece}

/-! ## Bytes -/

/-- How many bytes of a scalar hold its value, which for an x87 value is not all of them. -/
def Scalar.used (s : Scalar) : ℕ :=
  match s.kind with
  | .float .x87Extended => Format.bytes .x87Extended
  | _ => s.size

/-- The bytes of a piece, without the padding of an x87 value. -/
def Piece.bytes (p : Piece) : Set ℕ := Set.Ico p.offset (p.offset + p.scalar.used)

/-- Two pieces have no byte in common. -/
def Piece.Apart (p q : Piece) : Prop := Disjoint p.bytes q.bytes

/-- A scalar a machine has: a floating point one is as large as its format, and an integer has bytes. -/
def Scalar.Laid (s : Scalar) : Prop :=
  match s.kind with
  | .integer => 0 < s.size ∧ s.size < 2^32
  | .float .x87Extended => Format.bytes .x87Extended ≤ s.size
  | .float format => s.size = format.bytes

/-- A scalar inside a range of bytes. -/
structure Piece.Within (p : Piece) (first stop : ℕ) : Prop where
  first : first ≤ p.offset
  stop : p.offset + p.scalar.size ≤ stop
  laid : p.scalar.Laid

/-- A shape as flattening makes it. -/
structure Shape.Laid (s : Shape) : Prop where
  within : ∀ p ∈ s.pieces, p.Within 0 s.size
  apart : (s.isComplex || s.vector) = true → s.pieces.Pairwise Piece.Apart

theorem Format.bytes_pos (format : Format) : 0 < format.bytes := by cases format <;> decide

theorem Scalar.Laid.size_pos (h : s.Laid) : 0 < s.size := by
  unfold Scalar.Laid at h
  split at h
  · exact h.1
  · exact lt_of_lt_of_le (by decide) h
  · rw [h]
    exact Format.bytes_pos _

theorem Scalar.Laid.used_le (h : s.Laid) : s.used ≤ s.size := by
  unfold Scalar.used
  split
  · rename_i hkind
    simp only [Scalar.Laid, hkind] at h
    exact h
  · exact le_rfl

/-- What a floating point scalar uses is the bytes of its format. -/
theorem Scalar.Laid.used_float (h : s.Laid) {format : Format} (hkind : s.kind = .float format) :
    s.used = format.bytes := by
  cases format <;> simp_all only [Scalar.Laid, Scalar.used]

theorem Piece.bytes_subset {first stop : ℕ} (h : p.Within first stop) : p.bytes ⊆ Set.Ico first stop :=
  Set.Ico_subset_Ico h.first ((Nat.add_le_add_left h.laid.used_le _).trans h.stop)

/-- A piece that ends before another one starts has no byte in common with it. -/
theorem Piece.Apart.of_le (hp : p.scalar.Laid) (h : p.offset + p.scalar.size ≤ q.offset) : p.Apart q := by
  refine Set.disjoint_left.2 fun b hb hb' => ?_
  have hlt := hb.2
  have hused := hp.used_le
  have hle := hb'.1
  omega

theorem Piece.Apart.symm (h : p.Apart q) : q.Apart p := Disjoint.symm h

theorem Piece.Within.mono {p : Piece} {first stop first' stop' : ℕ} (h : p.Within first stop) (hfirst : first' ≤ first)
    (hstop : stop ≤ stop') : p.Within first' stop' := ⟨hfirst.trans h.first, h.stop.trans hstop, h.laid⟩

/-! ## Types -/

/-- How many bytes of an object a member of the type takes, which for an array of no length is none. -/
def extent (target : Target) : CType → ℕ
  | .array _ .unknown => 0
  | ty => sizeOf target ty

/-- The members are where the layout of some record puts them. -/
def LaidOut (target : Target) (kind : RecordKind) (layout : Layout) (placed : List (Field × CType)) : Prop :=
  ∃ (types : CTypes.Types) (decls : List CTypes.FieldDecl) (options : CTypes.RecordOptions)
    (info : CTypes.TargetInfo) (ms : List CTypes.Member) (r : CTypes.RecordLayout),
    CTypes.members types kind decls.length 0 decls = .ok ms ∧ (∀ m ∈ ms, m.Words) ∧
      CTypes.layoutRecord types kind decls options info = .ok r ∧ r.layout = layout ∧
      r.fields = placed.map Prod.fst ∧
      ∀ (i : ℕ) m p, ms[i]? = some m → placed[i]? = some p → m.2.size = extent target p.2

mutual

/-- A type as C has it: its scalars are ones the machine has, an array and a vector have a size, the lanes of
a vector are scalars, and a record is laid out. -/
def CType.Laid (target : Target) : CType → Prop
  | .void | .incomplete | .function | .array _ .varying => True
  | .integer layout | .bitInt layout => 0 < layout.size ∧ layout.size < 2^32
  | .float format layout => Scalar.Laid ⟨.float format, layout.size, layout.align⟩
  | .complex part => part.Laid target
  | .atomic inner => inner.Laid target
  | .array elem .unknown => elem.Laid target
  | .array elem (.fixed count) => elem.Laid target ∧ ∃ l, layout target (.array elem (.fixed count)) = .ok l
  | .vector elem len =>
    elem.Laid target ∧ (∃ s, scalar elem = some s) ∧ ∃ l, layout target (.vector elem len) = .ok l
  | .record kind layout members => members.Laid target ∧ LaidOut target kind layout members.toList

/-- The types of the members are laid out, and that of a bit-field is a scalar. -/
def Members.Laid (target : Target) : Members → Prop
  | .nil => True
  | .cons field ty rest =>
    ty.Laid target ∧ (field.bits.isSome = true → ∃ s, scalar ty = some s) ∧ rest.Laid target

end

theorem extent_le_sizeOf (target : Target) (ty : CType) : extent target ty ≤ sizeOf target ty := by
  unfold extent
  split
  · exact Nat.zero_le _
  · exact le_rfl

/-- The scalar that a type is has the size of the type. -/
theorem scalar_size {target : Target} {s : Scalar} {ty : CType} (h : scalar ty = some s) :
    ∃ align, layout target ty = .ok ⟨s.size, align⟩ := by
  fun_induction scalar ty with
  | case1 | case2 | case3 =>
    obtain rfl := Option.some.inj h
    exact ⟨_, rfl⟩
  | case4 inner ih =>
    obtain ⟨align, hlayout⟩ := ih h
    rw [layout, hlayout]
    simp only [bind, Except.bind]
    split
    · exact ⟨_, rfl⟩
    · exact ⟨_, rfl⟩
  | case5 => cases h

theorem sizeOf_scalar {target : Target} {s : Scalar} {ty : CType} (h : scalar ty = some s) :
    sizeOf target ty = s.size := by
  obtain ⟨align, hlayout⟩ := scalar_size h
  rw [sizeOf, hlayout]

theorem scalar_laid {target : Target} (ty : CType) (hty : ty.Laid target) (h : scalar ty = some s) : s.Laid := by
  fun_induction scalar ty with
  | case1 | case2 | case3 =>
    obtain rfl := Option.some.inj h
    exact hty
  | case4 inner ih => exact ih hty h
  | case5 => cases h

/-- A vector that is read as one value is one as large as itself. -/
theorem wholeVector_spec {target : Target} (h : wholeVector target ty = some s) :
    s.Laid ∧ s.size = sizeOf target ty ∧ ∃ elem len, ty = .vector elem len := by
  unfold wholeVector at h
  split at h
  · split_ifs at h
    split at h
    · rename_i hlayout
      obtain rfl := Option.some.inj h
      exact ⟨rfl, by rw [sizeOf, hlayout], _, _, rfl⟩
    · rename_i hlayout
      obtain rfl := Option.some.inj h
      exact ⟨rfl, by rw [sizeOf, hlayout], _, _, rfl⟩
    · exact absurd h (by simp)
  · exact absurd h (by simp)

/-- A type that is one scalar, or one that is read as one, is as large as the scalar. -/
theorem single_spec {target : Target} (hty : ty.Laid target)
    (h : (scalar ty).or (wholeVector target ty) = some s) : s.Laid ∧ s.size = extent target ty := by
  rcases Option.or_eq_some_iff.1 h with hscalar | ⟨-, hvector⟩
  · refine ⟨scalar_laid ty hty hscalar, ?_⟩
    rw [← @sizeOf_scalar target s ty hscalar]
    cases ty <;> first | rfl | exact absurd hscalar (by simp [scalar])
  · obtain ⟨hlaid, hsize, elem, len, rfl⟩ := wholeVector_spec hvector
    exact ⟨hlaid, hsize⟩

/-! ## Members -/

/-- A member that is inside a record of this size. -/
structure Fits (target : Target) (size : ℕ) (field : Field) (ty : CType) : Prop where
  ordinary : field.bits = none → field.offset + extent target ty ≤ size
  bitField : ∀ w, field.bits = some w → field.offset * 8 + field.bit + w ≤ size * 8 ∧ field.bit < 8 ∧ w < 2^32

/-- The members of a record that is laid out are inside it. -/
theorem LaidOut.fits {target : Target} {kind : RecordKind} {layout : Layout} {placed : List (Field × CType)}
    (h : LaidOut target kind layout placed) (hmem : (field, ty) ∈ placed) :
    Fits target layout.size field ty := by
  obtain ⟨types, decls, options, info, ms, r, hms, hwords, hr, rfl, hfields, hsizes⟩ := h
  obtain ⟨-, hkeeps, hbit⟩ := (CTypes.layoutRecord_spec hms hwords).of_ok hr
  obtain ⟨i, hi⟩ := List.mem_iff_getElem?.1 hmem
  have hfield : r.fields[i]? = some field := by rw [hfields, List.getElem?_map, hi, Option.map_some]
  have hlt : i < ms.length := by
    rw [← hkeeps.count]
    exact (List.getElem?_eq_some_iff.1 hfield).1
  have hm : ms[i]? = some ms[i] := List.getElem?_eq_getElem hlt
  have hinside := hkeeps.inside i _ field hm hfield
  obtain ⟨-, -, hbits⟩ := hkeeps.same i _ field hm hfield
  have hsize := hsizes i _ _ hm hi
  rw [CTypes.taken, ← hbits, CTypes.Field.bitOffset] at hinside
  constructor
  case ordinary =>
    intro hnone
    rw [hnone, Option.getD_none, hsize] at hinside
    have hzero := (hkeeps.ordinary field (List.mem_of_getElem? hfield) hnone).1
    dsimp only at hinside
    omega
  case bitField =>
    intro w hw
    rw [hw, Option.getD_some] at hinside
    have hwidth := (hwords _ (List.getElem_mem hlt)).width w (hbits ▸ hw)
    exact ⟨hinside, hbit field (List.mem_of_getElem? hfield), hwidth⟩

/-- The integer that holds a bit-field is inside what the field is inside. -/
theorem Fits.within {target : Target} {size : ℕ} (h : Fits target size field ty)
    {w : ℕ} (hw : field.bits = some (w + 1)) (at_ : ℕ) :
    Piece.Within ⟨at_ + field.offset, bitFieldScalar field (w + 1)⟩ at_ (at_ + size) := by
  obtain ⟨hinside, hbit, hlt⟩ := h.bitField _ hw
  constructor
  case first => exact Nat.le_add_right _ _
  case stop =>
    rw [bitFieldScalar]
    dsimp only
    omega
  case laid =>
    rw [bitFieldScalar, Scalar.Laid]
    dsimp only
    omega

/-! ## The walk -/

variable {target : Target} {capped : Bool}

/-- What is there after is what there was before and pieces inside a range of bytes. -/
def Adds (before after : List Piece) (first stop : ℕ) : Prop :=
  ∃ new, after = before ++ new ∧ ∀ p ∈ new, p.Within first stop

namespace Adds

variable {before between after : List Piece} {first stop : ℕ}

theorem refl (before : List Piece) (first stop : ℕ) : Adds before before first stop :=
  ⟨[], (List.append_nil _).symm, fun _ hp => absurd hp List.not_mem_nil⟩

theorem trans (h : Adds before between first stop) (h' : Adds between after first stop) :
    Adds before after first stop := by
  obtain ⟨new, rfl, hnew⟩ := h
  obtain ⟨new', rfl, hnew'⟩ := h'
  refine ⟨new ++ new', List.append_assoc .., fun p hp => ?_⟩
  rcases List.mem_append.1 hp with hp | hp
  · exact hnew p hp
  · exact hnew' p hp

theorem mono {first' stop' : ℕ} (h : Adds before after first stop) (hfirst : first' ≤ first) (hstop : stop ≤ stop') :
    Adds before after first' stop' := by
  obtain ⟨new, rfl, hnew⟩ := h
  exact ⟨new, rfl, fun p hp => (hnew p hp).mono hfirst hstop⟩

theorem one {p : Piece} (h : p.Within first stop) : Adds before (before ++ [p]) first stop :=
  ⟨[p], rfl, fun _ hq => List.mem_singleton.1 hq ▸ h⟩

/-- No piece is inside no bytes. -/
theorem eq_of_empty (h : Adds before after first first) : after = before := by
  obtain ⟨new, rfl, hnew⟩ := h
  rw [List.append_right_eq_self, List.eq_nil_iff_forall_not_mem]
  intro p hp
  have hp := hnew p hp
  have hpos := hp.laid.size_pos
  have hfirst := hp.first
  have hstop := hp.stop
  omega

end Adds

theorem pushEach_spec {one : ℕ → List Piece → Option (List Piece)}
    (hone : ∀ at_ before after, one at_ before = some after → Adds before after at_ (at_ + stride)) :
    ∀ count at_ before after, pushEach capped one stride count at_ before = some after →
      Adds before after at_ (at_ + stride * count) := by
  intro count
  induction count with
  | zero =>
    intro at_ before after h
    obtain rfl := Option.some.inj h
    exact Adds.refl _ _ _
  | succ count ih =>
    intro at_ before after h
    obtain ⟨between, hbetween, h⟩ := Option.bind_eq_some_iff.1 h
    have hfirst : Adds before between at_ (at_ + stride * (count + 1)) := (hone _ _ _ hbetween).mono le_rfl (by
      rw [Nat.mul_succ]
      omega)
    split at h
    · obtain rfl := Option.some.inj h
      exact hfirst
    · refine hfirst.trans ((ih _ _ _ h).mono (Nat.le_add_right _ _) ?_)
      rw [Nat.mul_succ]
      omega

/-- An array is as large as its elements. -/
theorem extent_array {count : ℕ} (h : layout target (.array elem (.fixed count)) = .ok l) :
    extent target (.array elem (.fixed count)) = sizeOf target elem * count := by
  rw [extent, sizeOf, h]
  · rw [layout] at h
    cases helem : layout target elem with
    | error e =>
      rw [helem] at h
      exact absurd h (by simp [bind, Except.bind])
    | ok elem' =>
      rw [helem] at h
      rw [sizeOf, helem]
      simp only [bind, Except.bind] at h
      split at h
      · exact absurd h (by simp)
      · exact (congrArg Layout.size (Except.ok.inj h)).symm
  · exact fun _ h => by injection h with _ h; cases h

/-- A vector is at least as large as its lanes. -/
theorem le_extent_vector {len : ℕ} (h : layout target (.vector elem len) = .ok l) :
    sizeOf target elem * len ≤ extent target (.vector elem len) := by
  rw [extent, sizeOf, sizeOf, h]
  · rw [layout] at h
    cases helem : layout target elem with
    | error e =>
      rw [helem] at h
      exact absurd h (by simp [bind, Except.bind])
    | ok elem' =>
      rw [helem] at h
      simp only [bind, Except.bind] at h
      split at h
      · exact absurd h (by simp)
      · rw [← Except.ok.inj h]
        exact (le_max_left _ _).trans (Nat.le_pow_clog one_lt_two _)
  · exact fun _ h => by cases h

mutual

/-- Everything that is pushed of a type is inside it. -/
theorem push_spec : ∀ (ty : CType), ty.Laid target → ∀ at_ before after,
    push target capped ty at_ before = some after → Adds before after at_ (at_ + extent target ty) := by
  intro ty hty at_ before after h
  rw [push.eq_def] at h
  dsimp only at h
  split at h
  · obtain rfl := Option.some.inj h
    exact Adds.refl _ _ _
  cases hsingle : (scalar ty).or (wholeVector target ty) with
  | some s =>
    obtain ⟨hlaid, hsize⟩ := single_spec hty hsingle
    rw [hsingle] at h
    obtain rfl := Option.some.inj h
    exact Adds.one ⟨le_rfl, Nat.add_le_add_left hsize.le _, hlaid⟩
  | none =>
    rw [hsingle] at h
    cases ty with
    | complex part =>
      -- the two halves are next to each other
      obtain ⟨s, hs, h⟩ := Option.bind_eq_some_iff.1 h
      obtain rfl := Option.some.inj h
      obtain ⟨align, hlayout⟩ := @scalar_size target s part hs
      have hlaid := scalar_laid part hty hs
      have hextent : extent target (.complex part) = s.size * 2 := by
        simp only [extent, sizeOf, layout, hlayout, bind, Except.bind, pure, Except.pure]
      rw [hextent]
      have hlow : Piece.Within ⟨at_, s⟩ at_ (at_ + s.size * 2) := ⟨le_rfl, by dsimp only; omega, hlaid⟩
      have hhigh : Piece.Within ⟨at_ + s.size, s⟩ at_ (at_ + s.size * 2) :=
        ⟨Nat.le_add_right _ _, by dsimp only; omega, hlaid⟩
      have htwo := (@Adds.one before _ _ _ hlow).trans (Adds.one hhigh)
      rwa [List.append_assoc] at htwo
    | vector elem len =>
      obtain ⟨helem, -, l, hlayout⟩ := hty
      exact (pushEach_spec (fun at_ before after hone => (push_spec elem helem _ _ _ hone).mono le_rfl
        (Nat.add_le_add_left (extent_le_sizeOf target elem) _)) _ _ _ _ h).mono le_rfl
        (Nat.add_le_add_left (le_extent_vector hlayout) _)
    | array elem len =>
      cases len with
      | fixed count =>
        obtain ⟨helem, l, hlayout⟩ := hty
        rw [extent_array hlayout]
        exact pushEach_spec (fun at_ before after hone => (push_spec elem helem _ _ _ hone).mono le_rfl
          (Nat.add_le_add_left (extent_le_sizeOf target elem) _)) _ _ _ _ h
      | unknown =>
        obtain rfl := Option.some.inj h
        exact Adds.refl _ _ _
      | varying => exact absurd h (by simp)
    | record kind layout members =>
      obtain ⟨hmembers, hlaid⟩ := hty
      exact pushMembers_spec members hmembers layout.size (fun field ty hmem => hlaid.fits hmem) _ _ _ h
    | _ => exact absurd h (by simp)

/-- Everything that is pushed of the members of a record is inside it. -/
theorem pushMembers_spec : ∀ (members : Members), members.Laid target → ∀ size,
    (∀ field ty, (field, ty) ∈ members.toList → Fits target size field ty) → ∀ at_ before after,
      pushMembers target capped members at_ before = some after → Adds before after at_ (at_ + size)
  | .nil, _, size, _, at_, before, after, h => by
    obtain rfl := Option.some.inj h
    exact Adds.refl _ _ _
  | .cons field ty rest, hmembers, size, hfits, at_, before, after, h => by
    obtain ⟨hty, -, hrest⟩ := hmembers
    have hfit := hfits field ty List.mem_cons_self
    obtain ⟨between, hbetween, h⟩ := Option.bind_eq_some_iff.1 h
    have hfirst : Adds before between at_ (at_ + size) := by
      split at hbetween
      · obtain rfl := Option.some.inj hbetween
        exact Adds.refl _ _ _
      · rename_i w hw
        obtain rfl := Option.some.inj hbetween
        exact Adds.one (hfit.within hw at_)
      · rename_i hnone
        refine (push_spec ty hty _ _ _ hbetween).mono (Nat.le_add_right _ _) ?_
        have hordinary := hfit.ordinary hnone
        omega
    split at h
    · obtain rfl := Option.some.inj h
      exact hfirst
    · exact hfirst.trans (pushMembers_spec rest hrest size
        (fun field ty hmem => hfits field ty (List.mem_cons_of_mem _ hmem)) _ _ _ h)

end

/-! ## Vectors -/

/-- What is there after is what there was before and pieces inside a range of bytes, none of which overlap. -/
def AddsApart (before after : List Piece) (first stop : ℕ) : Prop :=
  ∃ new, after = before ++ new ∧ (∀ p ∈ new, p.Within first stop) ∧ new.Pairwise Piece.Apart

namespace AddsApart

variable {before between after : List Piece} {first middle stop : ℕ}

theorem refl (before : List Piece) (first stop : ℕ) : AddsApart before before first stop :=
  ⟨[], (List.append_nil _).symm, fun _ hp => absurd hp List.not_mem_nil, List.Pairwise.nil⟩

theorem one {p : Piece} (h : p.Within first stop) : AddsApart before (before ++ [p]) first stop :=
  ⟨[p], rfl, fun _ hq => List.mem_singleton.1 hq ▸ h, List.pairwise_singleton _ _⟩

/-- Pieces in one range of bytes and then pieces in the next one. -/
theorem trans (h : AddsApart before between first middle) (h' : AddsApart between after middle stop)
    (hfirst : first ≤ middle) (hstop : middle ≤ stop) : AddsApart before after first stop := by
  obtain ⟨new, rfl, hnew, hapart⟩ := h
  obtain ⟨new', rfl, hnew', hapart'⟩ := h'
  refine ⟨new ++ new', List.append_assoc .., fun p hp => ?_, List.pairwise_append.2 ⟨hapart, hapart', ?_⟩⟩
  · rcases List.mem_append.1 hp with hp | hp
    · exact (hnew p hp).mono le_rfl hstop
    · exact (hnew' p hp).mono hfirst le_rfl
  · intro p hp q hq
    exact Piece.Apart.of_le (hnew p hp).laid ((hnew p hp).stop.trans (hnew' q hq).first)

theorem mono {first' stop' : ℕ} (h : AddsApart before after first stop) (hfirst : first' ≤ first)
    (hstop : stop ≤ stop') : AddsApart before after first' stop' := by
  obtain ⟨new, rfl, hnew, hapart⟩ := h
  exact ⟨new, rfl, fun p hp => (hnew p hp).mono hfirst hstop, hapart⟩

end AddsApart

theorem pushEach_apart {one : ℕ → List Piece → Option (List Piece)}
    (hone : ∀ at_ before after, one at_ before = some after → AddsApart before after at_ (at_ + stride)) :
    ∀ count at_ before after, pushEach capped one stride count at_ before = some after →
      AddsApart before after at_ (at_ + stride * count) := by
  intro count
  induction count with
  | zero =>
    intro at_ before after h
    obtain rfl := Option.some.inj h
    exact AddsApart.refl _ _ _
  | succ count ih =>
    intro at_ before after h
    obtain ⟨between, hbetween, h⟩ := Option.bind_eq_some_iff.1 h
    have hstop : at_ + stride * (count + 1) = at_ + stride + stride * count := by
      rw [Nat.mul_succ]
      omega
    rw [hstop]
    split at h
    · obtain rfl := Option.some.inj h
      exact (hone _ _ _ hbetween).mono le_rfl (Nat.le_add_right _ _)
    · exact (hone _ _ _ hbetween).trans (ih _ _ _ h) (Nat.le_add_right _ _) (Nat.le_add_right _ _)

/-- A type that is one scalar is one piece. -/
theorem push_single (hty : ty.Laid target) (hsingle : (scalar ty).or (wholeVector target ty) = some s)
    (h : push target capped ty at_ before = some after) :
    AddsApart before after at_ (at_ + extent target ty) := by
  obtain ⟨hlaid, hsize⟩ := single_spec hty hsingle
  rw [push.eq_def] at h
  dsimp only at h
  split at h
  · obtain rfl := Option.some.inj h
    exact AddsApart.refl _ _ _
  · rw [hsingle] at h
    obtain rfl := Option.some.inj h
    exact AddsApart.one ⟨le_rfl, Nat.add_le_add_left hsize.le _, hlaid⟩

/-- A member without bytes is nothing of what is pushed. -/
theorem pushMember_empty (hty : ty.Laid target) (hbits : field.bits.isSome = true → ∃ s, scalar ty = some s)
    (hempty : hasBytes target field ty = false)
    (h : (match field.bits with
      | some 0 => some before
      | some (bits + 1) => some (before ++ [⟨at_ + field.offset, bitFieldScalar field (bits + 1)⟩])
      | none => push target capped ty (at_ + field.offset) before : Option (List Piece)) = some after) :
    after = before := by
  split at h
  · exact (Option.some.inj h).symm
  · -- a bit-field has the bytes of its type
    rename_i w hw
    obtain ⟨s, hs⟩ := hbits (by rw [hw]; rfl)
    have hpos := (scalar_laid ty hty hs).size_pos
    rw [hasBytes, hw, sizeOf_scalar hs, decide_eq_true hpos] at hempty
    exact absurd hempty (by simp)
  · rename_i hnone
    have hzero : sizeOf target ty = 0 := by
      rw [hasBytes, hnone] at hempty
      simpa using hempty
    have hadds := push_spec ty hty _ _ _ h
    have hextent : extent target ty = 0 := Nat.le_zero.1 (hzero ▸ extent_le_sizeOf target ty)
    rw [hextent] at hadds
    exact hadds.eq_of_empty

theorem pushMembers_empty {at_ : ℕ} {before after : List Piece} :
    ∀ members : Members, members.Laid target → members.allEmpty target = true →
      pushMembers target capped members at_ before = some after → after = before
  | .nil, _, _, h => (Option.some.inj h).symm
  | .cons field ty rest, hmembers, hempty, h => by
    obtain ⟨hty, hbits, hrest⟩ := hmembers
    rw [Members.allEmpty, Bool.and_eq_true, Bool.not_eq_true'] at hempty
    obtain ⟨between, hbetween, hafter⟩ := Option.bind_eq_some_iff.1 h
    obtain rfl := pushMember_empty hty hbits hempty.1 hbetween
    split at hafter
    · exact (Option.some.inj hafter).symm
    · exact pushMembers_empty rest hrest hempty.2 hafter

mutual

/-- The lanes of a type that is passed as a vector do not overlap. -/
theorem push_apart : ∀ (ty : CType), ty.Laid target → singleVector target ty = true → ∀ at_ before after,
    push target capped ty at_ before = some after → AddsApart before after at_ (at_ + extent target ty) := by
  intro ty hty hvector at_ before after h
  cases hsingle : (scalar ty).or (wholeVector target ty) with
  | some s => exact push_single hty hsingle h
  | none =>
    rw [push.eq_def] at h
    dsimp only at h
    split at h
    · obtain rfl := Option.some.inj h
      exact AddsApart.refl _ _ _
    rw [hsingle] at h
    cases ty with
    | vector elem len =>
      obtain ⟨helem, ⟨s, hs⟩, l, hlayout⟩ := hty
      have hone : (scalar elem).or (wholeVector target elem) = some s := by rw [hs, Option.some_or]
      exact (pushEach_apart (fun at_ before after h => (push_single helem hone h).mono le_rfl
        (Nat.add_le_add_left (extent_le_sizeOf target elem) _)) _ _ _ _ h).mono le_rfl
        (Nat.add_le_add_left (le_extent_vector hlayout) _)
    | array elem len =>
      match len, hvector, h with
      | .fixed 1, hvector, h =>
        obtain ⟨helem, l, hlayout⟩ := hty
        rw [extent_array hlayout]
        exact pushEach_apart (fun at_ before after h => (push_apart elem helem hvector _ _ _ h).mono le_rfl
          (Nat.add_le_add_left (extent_le_sizeOf target elem) _)) _ _ _ _ h
    | record kind layout members =>
      obtain ⟨hmembers, hlaid⟩ := hty
      exact pushMembers_apart members hmembers layout.size (fun field ty hmem => hlaid.fits hmem) hvector _ _ _ h
    | _ => exact absurd hvector (by simp [singleVector])

theorem pushMembers_apart : ∀ (members : Members), members.Laid target → ∀ size,
    (∀ field ty, (field, ty) ∈ members.toList → Fits target size field ty) →
      onlyVector target size members = true → ∀ at_ before after,
        pushMembers target capped members at_ before = some after → AddsApart before after at_ (at_ + size)
  | .nil, _, _, _, hvector, _, _, _, _ => absurd hvector (by simp [onlyVector])
  | .cons field ty rest, hmembers, size, hfits, hvector, at_, before, after, h => by
    obtain ⟨hty, hbits, hrest⟩ := hmembers
    obtain ⟨between, hbetween, hafter⟩ := Option.bind_eq_some_iff.1 h
    rw [onlyVector] at hvector
    cases hhas : hasBytes target field ty with
    | true =>
      simp only [hhas, if_true, Bool.and_eq_true, decide_eq_true_eq, Option.isNone_iff_eq_none] at hvector
      obtain ⟨⟨⟨⟨hempty, hnone⟩, -⟩, -⟩, hvector⟩ := hvector
      have hordinary := (hfits field ty List.mem_cons_self).ordinary hnone
      rw [hnone] at hbetween
      have hfirst : AddsApart before between at_ (at_ + size) :=
        (push_apart ty hty hvector _ _ _ hbetween).mono (Nat.le_add_right at_ _) (by omega)
      split at hafter
      · obtain rfl := Option.some.inj hafter
        exact hfirst
      · obtain rfl := pushMembers_empty rest hrest hempty hafter
        exact hfirst
    | false =>
      rw [hhas, if_neg Bool.false_ne_true] at hvector
      obtain rfl := pushMember_empty hty hbits hhas hbetween
      split at hafter
      · obtain rfl := Option.some.inj hafter
        exact AddsApart.refl _ _ _
      · exact pushMembers_apart rest hrest size (fun field ty hmem => hfits field ty (List.mem_cons_of_mem _ hmem))
          hvector _ _ _ hafter

end

/-! ## Shapes -/

theorem inOrder_sublist (pieces : List Piece) :
    (inOrder pieces).Sublist (pieces.insertionSort fun p q => p.offset ≤ q.offset) := List.destutter_sublist _ _

theorem mem_of_mem_inOrder (h : p ∈ inOrder pieces) : p ∈ pieces :=
  (List.perm_insertionSort _ pieces).subset ((inOrder_sublist pieces).subset h)

/-- Pieces that do not overlap do not overlap in offset order. -/
theorem inOrder_apart (h : pieces.Pairwise Piece.Apart) : (inOrder pieces).Pairwise Piece.Apart := by
  have hsorted := ((List.perm_insertionSort (fun p q : Piece => p.offset ≤ q.offset) pieces).pairwise_iff
    fun hpq => Piece.Apart.symm hpq).2 h
  exact hsorted.sublist (inOrder_sublist pieces)

/-- The words of a `_BitInt` are a shape as any other. -/
theorem chunks_laid {target : Target} {s : Shape} (h : chunks target ty = some s) : s.Laid := by
  unfold chunks at h
  split at h
  · split_ifs at h
    obtain rfl := Option.some.inj h
    constructor
    case within =>
      intro p hp
      obtain ⟨index, hindex, rfl⟩ := List.mem_map.1 hp
      rw [List.mem_range] at hindex
      exact ⟨Nat.zero_le _, by dsimp only; omega, by norm_num [Scalar.Laid]⟩
    case apart => exact fun hvector => absurd hvector (by simp)
  · exact absurd h (by simp)

/-- The two halves of a `_Complex` do not overlap. -/
theorem push_complex {part : CType} (hpart : part.Laid target) {at_ : ℕ} {before after : List Piece}
    (h : push target capped (.complex part) at_ before = some after) :
    ∃ stop, AddsApart before after at_ stop := by
  rw [push.eq_def] at h
  dsimp only at h
  split at h
  · obtain rfl := Option.some.inj h
    exact ⟨at_, AddsApart.refl _ _ _⟩
  · obtain ⟨s, hs, h⟩ := Option.bind_eq_some_iff.1 h
    obtain rfl := Option.some.inj h
    have hlaid := scalar_laid part hpart hs
    have hlow : Piece.Within ⟨at_, s⟩ at_ (at_ + s.size) := ⟨le_rfl, le_rfl, hlaid⟩
    have hhigh : Piece.Within ⟨at_ + s.size, s⟩ (at_ + s.size) (at_ + s.size + s.size) := ⟨le_rfl, le_rfl, hlaid⟩
    have htwo := (@AddsApart.one before _ _ _ hlow).trans (AddsApart.one hhigh) (Nat.le_add_right _ _)
      (Nat.le_add_right _ _)
    rw [List.append_assoc] at htwo
    exact ⟨_, htwo⟩

/-- The shape of a C type is as flattening makes it. -/
theorem shape_laid {target : Target} (hty : ty.Laid target) {s : Shape}
    (h : shape target ty = some (.aggregate s)) : s.Laid := by
  unfold shape at h
  split at h
  · exact absurd h (by simp)
  · rename_i hchunks
    injection h with h
    injection h with h
    exact h ▸ chunks_laid hchunks
  · exact absurd h (by simp)
  · rename_i ty _ _ _ _ _ _
    obtain ⟨pieces, hpieces, h⟩ := Option.bind_eq_some_iff.1 h
    injection h with h
    injection h with h
    subst h
    constructor
    case within =>
      obtain ⟨new, rfl, hnew⟩ := push_spec ty hty _ _ _ hpieces
      intro p hp
      refine (hnew p (mem_of_mem_inOrder hp)).mono le_rfl ?_
      rw [Nat.zero_add]
      exact extent_le_sizeOf _ _
    case apart =>
      intro hapart
      rw [Bool.or_eq_true] at hapart
      rcases hapart with hcomplex | hvector
      · cases ty with
        | complex part =>
          obtain ⟨stop, new, rfl, -, hnew⟩ := @push_complex target _ part hty _ _ _ hpieces
          exact inOrder_apart hnew
        | _ => exact absurd hcomplex (by simp [CType.isComplex])
      · obtain ⟨new, rfl, -, hnew⟩ := push_apart ty hty hvector _ _ _ hpieces
        exact inOrder_apart hnew

end Rucc.Abi
