import Rucc.Object.Huffman
import Rucc.Unpack.InflateBits

/-!
# Bits packed into bytes

The bit writer of `zlib.rs`, and what a reader finds in a stream that begins with what was written. A stream that
goes on from a writer has in it whatever was put into the writer before, so what is written is read back from the
last thing to the first.
-/

namespace Rucc.Object

open Unpack (field HasField HasSymbol codeAt bit)

/-- Bits packed bottom first into bytes, and those that do not make up a byte yet. -/
structure Bits where
  bytes : List UInt8
  held : ℕ
  count : ℕ

namespace Bits

variable {held value bits : ℕ}

def empty : Bits := ⟨[], 0, 0⟩

/-- Writes out whole bytes. -/
def drain : ℕ → Bits → Bits
  | 0, b => b
  | rounds + 1, b =>
    if 8 ≤ b.count then drain rounds ⟨b.bytes ++ [UInt8.ofNat b.held], b.held >>> 8, b.count - 8⟩ else b

/-- Puts in the bits of a number. Less than a byte is held, so no shift is past the width of a word. -/
def put (b : Bits) (value bits : ℕ) : Bits :=
  drain (b.count + bits) ⟨b.bytes, b.held ||| (value <<< b.count) % 2^64, b.count + bits⟩

/-- Out to the next byte boundary. -/
def align (b : Bits) : Bits := if 0 < b.count then ⟨b.bytes ++ [UInt8.ofNat b.held], 0, 0⟩ else b

/-- Puts whole bytes at the end of those that are out. -/
def extend (b : Bits) (bytes : List UInt8) : Bits := ⟨b.bytes ++ bytes, b.held, b.count⟩

/-- How many bits have been put in. -/
def pos (b : Bits) : ℕ := 8 * b.bytes.length + b.count

/-- The bits that are held are as many as are counted. -/
def Within (b : Bits) : Prop := b.held < 2^b.count

/-- Less than a byte is held. -/
structure Short (b : Bits) : Prop where
  within : b.Within
  lt : b.count < 8

/-- A stream that goes on from what was put in. -/
structure GoesOn (b : Bits) (stream : List UInt8) : Prop where
  bytes : b.bytes <+: stream
  held : field stream (8 * b.bytes.length) b.count = b.held
  le : b.pos ≤ 8 * stream.length

theorem short_empty : empty.Short := ⟨Nat.one_pos, Nat.zero_lt_succ 7⟩

variable {b : Bits} {stream : List UInt8}

theorem getD_prefix {l l' : List UInt8} (h : l <+: l') {i : ℕ} (hi : i < l.length) : l'.getD i 0 = l.getD i 0 := by
  obtain ⟨rest, rfl⟩ := h
  rw [List.getD_eq_getElem?_getD, List.getElem?_append_left hi, ← List.getD_eq_getElem?_getD]

/-- The byte after what is out is the low byte of what is held. -/
theorem field_pushed {bytes : List UInt8} (h : bytes ++ [UInt8.ofNat held] <+: stream) :
    field stream (8 * bytes.length) 8 = held % 2^8 := by
  have hbyte := Unpack.field_byte stream bytes.length 8 le_rfl 0 rfl
  rw [Nat.add_zero, pow_zero, Nat.div_one] at hbyte
  rw [hbyte, getD_prefix h (by simp), List.getD_eq_getElem?_getD, List.getElem?_append_right le_rfl, Nat.sub_self]
  rfl

/-- A byte that is written out is read as the bits that were held. -/
theorem drain_spec (rounds : ℕ) (hb : b.Within) (hrounds : b.count < 8 * rounds + 8) :
    (drain rounds b).Short ∧ (drain rounds b).pos = b.pos ∧ ((drain rounds b).GoesOn stream → b.GoesOn stream) := by
  induction rounds generalizing b with
  | zero =>
    rw [drain]
    exact ⟨⟨hb, by omega⟩, rfl, fun h => h⟩
  | succ rounds ih =>
    rw [drain]
    split
    · rename_i hmany
      have hpow : (2 : ℕ)^b.count = 2^(b.count - 8) * 2^8 := by
        rw [← pow_add, Nat.sub_add_cancel hmany]
      have hwithin : Within ⟨b.bytes ++ [UInt8.ofNat b.held], b.held >>> 8, b.count - 8⟩ := by
        unfold Within at hb ⊢
        dsimp only
        rw [Nat.shiftRight_eq_div_pow]
        exact Nat.div_lt_of_lt_mul (by rw [mul_comm, ← hpow]; exact hb)
      have hpos : pos ⟨b.bytes ++ [UInt8.ofNat b.held], b.held >>> 8, b.count - 8⟩ = b.pos := by
        unfold pos
        dsimp only
        rw [List.length_append, List.length_singleton]
        omega
      obtain ⟨hshort, hpos', hon⟩ := ih hwithin (by dsimp only; omega)
      refine ⟨hshort, hpos'.trans hpos, fun h => ?_⟩
      obtain ⟨hbytes, hheld, hle⟩ := hon h
      dsimp only at hbytes hheld
      refine ⟨(List.prefix_append _ _).trans hbytes, ?_, by rwa [hpos] at hle⟩
      have hsplit := Unpack.field_add stream (8 * b.bytes.length) 8 (b.count - 8)
      rw [Nat.add_sub_cancel' hmany, field_pushed hbytes] at hsplit
      rw [List.length_append, List.length_singleton, Nat.shiftRight_eq_div_pow] at hheld
      rw [hsplit, show 8 * b.bytes.length + 8 = 8 * (b.bytes.length + 1) by omega, hheld]
      exact Nat.mod_add_div _ _
    · exact ⟨⟨hb, by omega⟩, rfl, fun h => h⟩

/-- What is put in does not run into what is held. -/
theorem held_or {count : ℕ} (hheld : held < 2^count) (hcount : count < 8) (hvalue : value < 2^bits)
    (hbits : bits ≤ 32) : held ||| (value <<< count) % 2^64 = held + 2^count * value := by
  have hle : (2 : ℕ)^(count + bits) ≤ 2^64 := Nat.pow_le_pow_right (by decide) (by omega)
  have hshifted : value * 2^count < 2^(count + bits) := by
    rw [pow_add, mul_comm]
    exact Nat.mul_lt_mul_of_pos_left hvalue (Nat.two_pow_pos _)
  rw [Nat.shiftLeft_eq, Nat.mod_eq_of_lt (hshifted.trans_le hle), Nat.or_comm, mul_comm]
  rw [← Nat.two_pow_add_eq_or_of_lt hheld, Nat.add_comm]

/-- A number that was put in is read where it was put. -/
theorem put_spec (hb : b.Short) {value bits : ℕ} (hvalue : value < 2^bits) (hbits : bits ≤ 32) :
    (b.put value bits).Short ∧ (b.put value bits).pos = b.pos + bits ∧ ((b.put value bits).GoesOn stream →
      b.GoesOn stream ∧ HasField stream b.pos bits value (b.pos + bits)) := by
  obtain ⟨hwithin, hlt⟩ := hb
  have hheld := held_or hwithin hlt hvalue hbits
  have hwithin' : Within ⟨b.bytes, b.held + 2^b.count * value, b.count + bits⟩ := by
    unfold Within at hwithin ⊢
    dsimp only
    have hmul : 2^b.count * (value + 1) ≤ 2^b.count * 2^bits := Nat.mul_le_mul_left _ hvalue
    rw [pow_add]
    linarith
  unfold put
  rw [hheld]
  obtain ⟨hshort, hpos, hon⟩ := @drain_spec ⟨b.bytes, b.held + 2^b.count * value, b.count + bits⟩ stream
    (b.count + bits) hwithin' (by dsimp only; omega)
  have hpos' : pos ⟨b.bytes, b.held + 2^b.count * value, b.count + bits⟩ = b.pos + bits := by
    unfold pos
    dsimp only
    omega
  refine ⟨hshort, hpos.trans hpos', fun h => ?_⟩
  obtain ⟨hbytes, hfield, hend⟩ := hon h
  dsimp only at hbytes hfield
  rw [hpos'] at hend
  -- the bits that were held before are the low ones, and the number is the rest
  rw [Unpack.field_add] at hfield
  have hlow := Unpack.field_lt stream (8 * b.bytes.length) b.count
  have hfirst : field stream (8 * b.bytes.length) b.count = b.held := by
    have hmod := congrArg (· % 2^b.count) hfield
    rwa [Nat.add_mul_mod_self_left, Nat.add_mul_mod_self_left, Nat.mod_eq_of_lt hlow, Nat.mod_eq_of_lt hwithin] at hmod
  have hsecond : field stream (8 * b.bytes.length + b.count) bits = value := by
    rw [hfirst] at hfield
    exact Nat.eq_of_mul_eq_mul_left (Nat.two_pow_pos b.count) (Nat.add_left_cancel hfield)
  exact ⟨⟨hbytes, hfirst, by omega⟩, hsecond.symm, rfl, hend⟩

/-- A byte boundary is the next one after what was put in. -/
theorem align_spec (hb : b.Short) : b.align.Short ∧ b.align.count = 0 ∧ b.align.pos = 8 * ((b.pos + 7) / 8) ∧
    (b.align.GoesOn stream → b.GoesOn stream) := by
  obtain ⟨hwithin, hlt⟩ := hb
  unfold align
  split
  · rename_i hsome
    have hpos : pos ⟨b.bytes ++ [UInt8.ofNat b.held], 0, 0⟩ = 8 * (b.bytes.length + 1) := by
      unfold pos
      dsimp only
      rw [List.length_append, List.length_singleton, Nat.add_zero]
    refine ⟨⟨Nat.one_pos, by dsimp only; omega⟩, rfl, ?_, fun ⟨hbytes, _, hle⟩ => ?_⟩
    · rw [hpos]
      unfold pos
      omega
    · dsimp only at hbytes
      rw [hpos] at hle
      have hbyte := field_pushed hbytes
      have hsmall : b.held < 2^8 := hwithin.trans_le (Nat.pow_le_pow_right (by decide) hlt.le)
      have hsplit := Unpack.field_add stream (8 * b.bytes.length) b.count (8 - b.count)
      rw [Nat.add_sub_cancel' hlt.le, hbyte, Nat.mod_eq_of_lt hsmall] at hsplit
      have hlow := Unpack.field_lt stream (8 * b.bytes.length) b.count
      have hmod := congrArg (· % 2^b.count) hsplit
      rw [Nat.add_mul_mod_self_left, Nat.mod_eq_of_lt hlow, Nat.mod_eq_of_lt hwithin] at hmod
      refine ⟨(List.prefix_append _ _).trans hbytes, hmod.symm, ?_⟩
      unfold pos
      omega
  · rename_i hnone
    have hcount : b.count = 0 := by omega
    refine ⟨⟨hwithin, hlt⟩, hcount, ?_, fun h => h⟩
    unfold pos
    omega

/-- Bytes that were put at the end of whole bytes are there. -/
theorem extend_spec (hb : b.Short) (hcount : b.count = 0) (bytes : List UInt8) :
    (b.extend bytes).Short ∧ (b.extend bytes).count = 0 ∧ (b.extend bytes).pos = b.pos + 8 * bytes.length ∧
      ((b.extend bytes).GoesOn stream → b.GoesOn stream ∧ b.bytes ++ bytes <+: stream) := by
  refine ⟨⟨hb.within, hb.lt⟩, hcount, ?_, fun ⟨hbytes, _, hle⟩ => ⟨⟨(List.prefix_append _ _).trans hbytes, ?_, ?_⟩, hbytes⟩⟩
  · unfold pos extend
    dsimp only
    rw [List.length_append]
    omega
  · have hheld := hb.within
    unfold Within at hheld
    rw [hcount] at hheld ⊢
    exact (Nat.lt_one_iff.1 hheld).symm
  · unfold pos extend at hle
    dsimp only at hle
    rw [List.length_append] at hle
    unfold pos
    omega

/-- What was written from one writer on to another is something that any stream that goes on has between the places
of the two. -/
def Wrote (b b' : Bits) (P : List UInt8 → ℕ → ℕ → Prop) : Prop :=
  b'.Short ∧ ∀ stream, b'.GoesOn stream → b.GoesOn stream ∧ P stream b.pos b'.pos

namespace Wrote

variable {b b' b'' : Bits} {P Q : List UInt8 → ℕ → ℕ → Prop}

theorem mono (h : b.Wrote b' P) (hPQ : ∀ stream p q, P stream p q → Q stream p q) : b.Wrote b' Q :=
  ⟨h.1, fun stream hon => (h.2 stream hon).imp_right (hPQ stream _ _)⟩

/-- One thing and then another one. -/
theorem trans (h : b.Wrote b' P) (h' : b'.Wrote b'' Q) :
    b.Wrote b'' fun stream p r => ∃ q, P stream p q ∧ Q stream q r := by
  refine ⟨h'.1, fun stream hon => ?_⟩
  obtain ⟨hmiddle, hQ⟩ := h'.2 stream hon
  obtain ⟨hfirst, hP⟩ := h.2 stream hmiddle
  exact ⟨hfirst, _, hP, hQ⟩

/-- What is written ends inside the stream. -/
theorem within (h : b.Wrote b' P) : b.Wrote b' fun stream p q => P stream p q ∧ q ≤ 8 * stream.length :=
  ⟨h.1, fun stream hon => ⟨(h.2 stream hon).1, (h.2 stream hon).2, hon.le⟩⟩

theorem refl (hb : b.Short) : b.Wrote b fun _ p q => p = q := ⟨hb, fun _ hon => ⟨hon, rfl⟩⟩

end Wrote

theorem put_wrote (hb : b.Short) (hvalue : value < 2^bits) (hbits : bits ≤ 32) :
    b.Wrote (b.put value bits) fun stream p q => HasField stream p bits value q := by
  refine ⟨(@put_spec b [] hb _ _ hvalue hbits).1, fun stream hon => ?_⟩
  obtain ⟨-, hpos, hread⟩ := @put_spec b stream hb _ _ hvalue hbits
  rw [hpos]
  exact hread hon

end Bits

/-! ## Codes -/

theorem reverseBits_lt (n v : ℕ) : reverseBits n v < 2^n := by
  induction n generalizing v with
  | zero => exact Nat.one_pos
  | succ n ih =>
    have hlow := Nat.mod_lt v (by decide : 0 < 2)
    have hrest := ih (v / 2)
    rw [reverseBits, pow_succ]
    nlinarith

theorem reverseBits_zero (n : ℕ) : reverseBits n 0 = 0 := by
  induction n with
  | zero => rfl
  | succ n ih => rw [reverseBits, Nat.zero_mod, Nat.zero_mul, Nat.zero_div, ih]

theorem reverseBits_add {n v : ℕ} (k : ℕ) (hv : v < 2^n) : reverseBits (n + k) v = reverseBits n v * 2^k := by
  induction n generalizing v with
  | zero =>
    obtain rfl := Nat.lt_one_iff.1 hv
    rw [reverseBits_zero, reverseBits_zero, Nat.zero_mul]
  | succ n ih =>
    rw [pow_succ] at hv
    rw [Nat.add_right_comm, reverseBits, reverseBits, ih (by omega), pow_add]
    ring

/-- A code that is sent top bit first is the one that is read. -/
theorem codeAt_of_field {stream : List UInt8} {p n v : ℕ} (hv : v < 2^n) (h : field stream p n = reverseBits n v) :
    codeAt stream p n = v := by
  induction n generalizing v with
  | zero => exact (Nat.lt_one_iff.1 hv).symm
  | succ n ih =>
    rw [pow_succ] at hv
    have hsplit := Unpack.field_add stream p n 1
    rw [h, reverseBits, Unpack.field_one] at hsplit
    have hfield := Unpack.field_lt stream p n
    have hrest := reverseBits_lt n (v / 2)
    have hbit : bit stream (p + n) = v % 2 := by
      have hdiv := congrArg (· / 2^n) hsplit
      rw [Nat.add_mul_div_left _ _ (Nat.two_pow_pos n), Nat.div_eq_of_lt hfield, mul_comm, Nat.mul_add_div (Nat.two_pow_pos n),
        Nat.div_eq_of_lt hrest] at hdiv
      omega
    have hlow : field stream p n = reverseBits n (v / 2) := by
      rw [hbit, mul_comm] at hsplit
      omega
    rw [codeAt, ih (by omega) hlow, hbit]
    exact Nat.div_add_mod v 2

end Rucc.Object
