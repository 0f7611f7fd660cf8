import Rucc.CTypes.Record
import Rucc.Lib.Post
import Rucc.Lib.Lists

/-!
# What the layout keeps

The invariant of a record being laid out, over the members placed so far, and what each way of placing a
member does to the state. No sum of an operation overflows from a state that has the invariant.
-/

namespace Rucc.CTypes

/-- A member with the layout that it occupies. -/
abbrev Member := FieldDecl × Layout

/-- How many bits a member takes. -/
def taken (m : Member) : ℕ := m.1.bits.getD (m.2.size * 8)

/-- How many units of a size the bits from a start on are in. -/
def unitsSpanned (start width unit : ℕ) : ℕ := (start + width - 1) / unit + 1 - start / unit

/-- The layout stops in a sum that overflows. -/
def Overflows (e : Stop) : Prop := e = .overflow

/-- A member whose numbers are the ones that machine words hold, and a bit-field of an integer type. -/
structure Member.Words (m : Member) : Prop where
  size : m.2.size < 2^64
  align : m.2.align < 2^64
  asked : ∀ a, m.1.align = some a → a < 2^64
  width : ∀ w, m.1.bits = some w → w < 2^32
  capacity : ∀ w, m.1.bits = some w → m.2.size * 8 < 2^32

/-- What is known of one placed member. -/
structure Fits (s : Builder) (m : Member) (f : Field) : Prop where
  name : f.name = m.1.name
  ty : f.ty = m.1.ty
  bits : f.bits = m.1.bits
  bit : f.bit < 8
  inside : f.bitOffset + taken m ≤ s.bits
  ordinary : f.bits = none → f.bit = 0 ∧ f.align ∣ f.offset ∧ f.align ≤ s.align
  itanium : s.style = .itanium → s.packing m.1 = false → ∀ w, f.bits = some w → 0 < w →
    unitsSpanned f.bitOffset w (f.align * 8) ≤ unitsSpanned 0 (m.2.size * 8) (f.align * 8)

/-- The members from one place up to another one are bit-fields of types of one size, and the first of
them starts on a boundary of its alignment. -/
def RunOf (ms : List Member) (fields : List Field) (size start j stop : ℕ) : Prop :=
  (∃ g, fields[j]? = some g ∧ g.bitOffset = start ∧ g.align * 8 ∣ start) ∧
    ∀ k, j ≤ k → k < stop → ∃ m w, ms[k]? = some m ∧ m.1.bits = some w ∧ 0 < w ∧ m.2.size = size

/-- What is known of the unit that is open. -/
structure Open (s : Builder) (ms : List Member) (u : BitUnit) : Prop where
  kind : s.kind = .struct
  style : s.style = .microsoft
  next : s.next = u.start + u.used
  used : u.used ≤ u.size * 8
  inside : u.start + u.size * 8 ≤ s.bits
  size : u.size * 8 < 2^32
  start : u.start < 2^67
  run : ∃ j < ms.length, RunOf ms s.fields u.size u.start j ms.length

/-- What the layout keeps. -/
structure Laid (s : Builder) (ms : List Member) : Prop where
  base : s.base = none
  widest : s.widest = []
  align : 1 ≤ s.align
  length : s.fields.length = ms.length
  fits : ∀ (i : ℕ) m f, ms[i]? = some m → s.fields[i]? = some f → Fits s m f
  apart : s.kind = .struct → ∀ (i j : ℕ) m f g, i < j → ms[i]? = some m → s.fields[i]? = some f →
    s.fields[j]? = some g → f.bitOffset + taken m ≤ g.bitOffset
  before : s.kind = .struct → ∀ (i : ℕ) m f, ms[i]? = some m → s.fields[i]? = some f → f.bitOffset + taken m ≤ s.next
  union : s.kind = .union → s.next = 0
  le : s.next ≤ s.bits
  small : s.next < 2^69
  unit : ∀ u, s.unit = some u → Open s ms u
  microsoft : s.style = .microsoft → ∀ (i : ℕ) m f w, ms[i]? = some m → s.fields[i]? = some f → m.1.bits = some w →
    0 < w → ∃ j ≤ i, ∃ start, RunOf ms s.fields m.2.size start j (i + 1) ∧
      f.bitOffset + w ≤ start + m.2.size * 8

/-- The parts of the state that no member changes. -/
structure SameRules (s s' : Builder) : Prop where
  kind : s'.kind = s.kind
  options : s'.options = s.options
  style : s'.style = s.style
  max : s'.max = s.max
  empty : s'.empty = s.empty
  base : s'.base = s.base
  widest : s'.widest = s.widest

theorem SameRules.refl (s : Builder) : SameRules s s := ⟨rfl, rfl, rfl, rfl, rfl, rfl, rfl⟩

theorem SameRules.trans {s s' s'' : Builder} (h : SameRules s s') (h' : SameRules s' s'') : SameRules s s'' :=
  ⟨h'.kind.trans h.kind, h'.options.trans h.options, h'.style.trans h.style, h'.max.trans h.max,
    h'.empty.trans h.empty, h'.base.trans h.base, h'.widest.trans h.widest⟩

/-- A member placed: the field it got, and where the record stands now. -/
structure Placed (s s' : Builder) (ms : List Member) (m : Member) (f : Field) : Prop where
  rules : SameRules s s'
  fields : s'.fields = s.fields ++ [f]
  bits : s.bits ≤ s'.bits
  align : s.align ≤ s'.align
  fits : Fits s' m f
  next : s.kind = .struct → s.next ≤ f.bitOffset ∧ f.bitOffset + taken m ≤ s'.next
  union : s.kind = .union → s'.next = 0
  le : s'.next ≤ s'.bits
  small : s'.next < 2^69
  unit : ∀ u, s'.unit = some u → Open s' (ms ++ [m]) u
  microsoft : s.style = .microsoft → ∀ w, m.1.bits = some w → 0 < w → ∃ j ≤ ms.length, ∃ start,
    RunOf (ms ++ [m]) s'.fields m.2.size start j (ms.length + 1) ∧ f.bitOffset + w ≤ start + m.2.size * 8

variable {s s' : Builder} {ms : List Member} {m : Member} {f : Field}

theorem Fits.mono (h : Fits s m f) (hr : SameRules s s') (hbits : s.bits ≤ s'.bits) (halign : s.align ≤ s'.align) :
    Fits s' m f := by
  refine ⟨h.name, h.ty, h.bits, h.bit, h.inside.trans hbits, fun hnone => ?_, fun hstyle hpack => ?_⟩
  · obtain ⟨hbit, hdvd, hle⟩ := h.ordinary hnone
    exact ⟨hbit, hdvd, hle.trans halign⟩
  · refine h.itanium (hr.style ▸ hstyle) ?_
    rw [← hpack, Builder.packing, Builder.packing, hr.options]

/-- A run of bit-fields stays one as members follow. -/
theorem RunOf.append {fields : List Field} {size start j stop : ℕ} (h : RunOf ms fields size start j stop)
    (hstop : stop ≤ ms.length) (hj : j < fields.length) :
    RunOf (ms ++ [m]) (fields ++ [f]) size start j stop := by
  obtain ⟨⟨g, hg, hstart, hdvd⟩, hall⟩ := h
  refine ⟨⟨g, by rw [List.getElem?_append_left hj, hg], hstart, hdvd⟩, fun k hjk hk => ?_⟩
  rw [List.getElem?_append_left (by omega)]
  exact hall k hjk hk

/-- Placing a member keeps the invariant. -/
theorem Laid.place (h : Laid s ms) (hp : Placed s s' ms m f) : Laid s' (ms ++ [m]) := by
  have hlen := h.length
  constructor
  case base => rw [hp.rules.base, h.base]
  case widest => rw [hp.rules.widest, h.widest]
  case align => exact h.align.trans hp.align
  case length => rw [hp.fields, List.length_append, List.length_append, hlen, List.length_singleton, List.length_singleton]
  case fits =>
    intro i n g hn hg
    rw [hp.fields] at hg
    rcases getElem?_snoc hn with ⟨hi, hn⟩ | ⟨rfl, rfl⟩
    · rw [List.getElem?_append_left (by omega)] at hg
      exact (h.fits i n g hn hg).mono hp.rules hp.bits hp.align
    · rcases getElem?_snoc hg with ⟨hi, -⟩ | ⟨-, rfl⟩
      · omega
      · exact hp.fits
  case apart =>
    intro hkind i j n g g' hij hn hg hg'
    rw [hp.rules.kind] at hkind
    rw [hp.fields] at hg hg'
    rcases getElem?_snoc hg' with ⟨hj, hg'⟩ | ⟨hj, rfl⟩
    · rw [List.getElem?_append_left (by omega)] at hn hg
      exact h.apart hkind i j n g g' hij hn hg hg'
    · -- what was placed before ends where the state stood
      rw [List.getElem?_append_left (by omega)] at hn hg
      exact (h.before hkind i n g hn hg).trans (hp.next hkind).1
  case before =>
    intro hkind i n g hn hg
    rw [hp.rules.kind] at hkind
    rw [hp.fields] at hg
    obtain ⟨hle, hend⟩ := hp.next hkind
    rcases getElem?_snoc hn with ⟨hi, hn⟩ | ⟨rfl, rfl⟩
    · rw [List.getElem?_append_left (by omega)] at hg
      exact (h.before hkind i n g hn hg).trans (hle.trans ((Nat.le_add_right _ _).trans hend))
    · rcases getElem?_snoc hg with ⟨hi, -⟩ | ⟨-, rfl⟩
      · omega
      · exact hend
  case union => exact fun hkind => hp.union (hp.rules.kind ▸ hkind)
  case le => exact hp.le
  case small => exact hp.small
  case unit => exact hp.unit
  case microsoft =>
    intro hstyle i n g w hn hg hw hpos
    rw [hp.rules.style] at hstyle
    rw [hp.fields] at hg ⊢
    rcases getElem?_snoc hn with ⟨hi, hn⟩ | ⟨rfl, rfl⟩
    · rw [List.getElem?_append_left (by omega)] at hg
      obtain ⟨j, hj, start, hrun, hend⟩ := h.microsoft hstyle i n g w hn hg hw hpos
      exact ⟨j, hj, start, hrun.append (by omega) (by omega), hend⟩
    · rcases getElem?_snoc hg with ⟨hi, -⟩ | ⟨-, rfl⟩
      · omega
      · obtain ⟨j, hj, start, hrun, hend⟩ := hp.microsoft hstyle w hw hpos
        rw [hp.fields] at hrun
        exact ⟨j, hj, start, hrun, hend⟩

end Rucc.CTypes
