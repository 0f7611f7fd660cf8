import Rucc.Object.ZlibBlocks
import Rucc.Unpack.DeflateDrop

/-!
# Compressed streams

What the compressor returns is a stream of the zlib format, RFC 1950, that holds the bytes it was given, and the
decompressor of `rucc-unpack` gives them back.
-/

namespace Rucc.Object

open Unpack (HasBlocks Deflates inflateInto)

variable {b : Bits}

/-! ## The format -/

/-- The two sums with one more byte. -/
def adlerStep (sums : ℕ × ℕ) (byte : UInt8) : ℕ × ℕ :=
  ((sums.1 + byte.toNat) % 65521, (sums.2 + (sums.1 + byte.toNat) % 65521) % 65521)

/-- The Adler-32 checksum. -/
def adler32 (data : List UInt8) : ℕ := (data.foldl adlerStep (1, 0)).2 * 65536 + (data.foldl adlerStep (1, 0)).1

/-- The stream holds the bytes: a header that says deflate, a window of 32 KiB at the most and no dictionary, then the
blocks, and then the checksum of the bytes, the high byte first. -/
def HasZlib (stream out : List UInt8) : Prop :=
  ∃ cmf flg consumed trailer, stream.take 2 = [cmf, flg] ∧ cmf.toNat % 16 = 8 ∧ cmf.toNat / 16 ≤ 7 ∧
    (cmf.toNat * 256 + flg.toNat) % 31 = 0 ∧ flg.toNat / 32 % 2 = 0 ∧ Deflates (stream.drop 2) [] consumed out ∧
      stream.drop (2 + consumed) = trailer ∧ trailer.length = 4 ∧
        trailer.foldl (fun n byte => 256 * n + byte.toNat) 0 = adler32 out

/-! ## The checksum -/

/-- The sums that are not brought back yet are those of the format, and are not past what so many bytes can make
them. -/
structure Sums (done : List UInt8) (few : ℕ) (sums : ℕ × ℕ) : Prop where
  fst : sums.1 % 65521 = (done.foldl adlerStep (1, 0)).1
  snd : sums.2 % 65521 = (done.foldl adlerStep (1, 0)).2
  fst_le : sums.1 ≤ 65520 + 255 * few
  snd_le : 2 * sums.2 ≤ 131040 * (few + 1) + 255 * (few * (few + 1))

theorem adlerByte_spec {done : List UInt8} {few : ℕ} {sums : ℕ × ℕ} (h : Sums done few sums) (hfew : few < 5552)
    (byte : UInt8) : Yields (adlerByte sums byte) (Sums (done ++ [byte]) (few + 1)) := by
  obtain ⟨a, b⟩ := sums
  obtain ⟨hfst, hsnd, hfstle, hsndle⟩ := h
  dsimp only at hfst hsnd hfstle hsndle
  have hbyte := byte.toNat_lt
  have hmul : (few + 1) * (few + 1 + 1) ≤ 5552 * 5553 := Nat.mul_le_mul hfew (Nat.succ_le_succ hfew)
  have hnext : (few + 1) * (few + 1 + 1) = few * (few + 1) + 2 * (few + 1) := by ring
  have ha : a + byte.toNat < 2^32 := by omega
  have hb : b + (a + byte.toNat) < 2^32 := by omega
  rw [adlerByte, sum32, if_pos ha, Option.bind_eq_bind, Option.bind_some, sum32, if_pos hb]
  refine Yields.some_iff.2 ⟨?_, ?_, by dsimp only; omega, by dsimp only; omega⟩
  · rw [List.foldl_append, List.foldl_cons, List.foldl_nil, adlerStep, ← hfst]
    dsimp only
    omega
  · rw [List.foldl_append, List.foldl_cons, List.foldl_nil, adlerStep, ← hfst, ← hsnd]
    dsimp only
    omega

/-- The checksum of the format comes out, and no sum is past a word on the way. -/
theorem adler_spec (data : List UInt8) : adler data = some (adler32 data) := by
  have hchunks := flatten_chunks (by decide : 0 < 5552) (le_refl data.length)
  have hlength {piece : List UInt8} (h : piece ∈ chunks 5552 data.length data) := length_of_mem_chunks h
  unfold adler
  generalize chunks 5552 data.length data = pieces at hchunks hlength ⊢
  have hloop := @Yields.foldlM (ℕ × ℕ) (List UInt8) (fun sums chunk =>
    (chunk.foldlM adlerByte sums).bind fun s => some (s.1 % 65521, s.2 % 65521)) (fun done sums => Sums done.flatten 0 sums) pieces (1, 0)
    ⟨rfl, rfl, by decide, by decide⟩ ?_
  · obtain ⟨⟨a, b⟩, hsums, hfst, hsnd, hfstle, hsndle⟩ := hloop
    dsimp only at hfst hsnd hfstle hsndle
    rw [hchunks] at hfst hsnd
    change ((pieces.foldlM (fun sums (chunk : List UInt8) =>
      (chunk.foldlM adlerByte sums).bind fun s => some (s.1 % 65521, s.2 % 65521)) (1, 0)).bind
        fun s => some (s.2 <<< 16 ||| s.1)) = _
    rw [hsums, Option.bind_some]
    rw [Nat.mod_eq_of_lt (by omega)] at hfst hsnd
    refine congrArg some ?_
    unfold adler32
    rw [← hfst, ← hsnd, ← Nat.shiftLeft_add_eq_or_of_lt (by omega), Nat.shiftLeft_eq]
  · intro done piece rest sums hsplit hsums
    have hpiece := hlength (by rw [hsplit]; exact List.mem_append_right _ List.mem_cons_self)
    refine (@Yields.foldlM (ℕ × ℕ) UInt8 adlerByte
      (fun front sums => Sums (done.flatten ++ front) front.length sums) piece sums ?_ ?_).bind fun sums' hsums' => ?_
    · rwa [List.append_nil, List.length_nil]
    · intro front byte rest' sums hfront hsums
      rw [← List.append_assoc, List.length_append, List.length_singleton]
      refine adlerByte_spec hsums ?_ byte
      rw [hfront, List.length_append, List.length_cons] at hpiece
      omega
    · obtain ⟨a, b⟩ := sums'
      obtain ⟨hfst, hsnd, -, -⟩ := hsums'
      rw [List.flatten_append, List.flatten_singleton]
      refine Yields.pure_iff.2 ⟨(Nat.mod_mod _ _).trans hfst, (Nat.mod_mod _ _).trans hsnd, ?_, ?_⟩
      · have hlt := Nat.mod_lt a (by decide : 0 < 65521)
        dsimp only
        omega
      · have hlt := Nat.mod_lt b (by decide : 0 < 65521)
        dsimp only
        omega

theorem adler32_lt (data : List UInt8) : adler32 data < 2^32 := by
  have hstep : ∀ (data : List UInt8) (sums : ℕ × ℕ), sums.1 < 65521 ∧ sums.2 < 65521 →
      (data.foldl adlerStep sums).1 < 65521 ∧ (data.foldl adlerStep sums).2 < 65521 := by
    intro data
    induction data with
    | nil => exact fun _ h => h
    | cons byte data ih => exact fun sums _ => ih _ ⟨Nat.mod_lt _ (by decide), Nat.mod_lt _ (by decide)⟩
  obtain ⟨hfst, hsnd⟩ := hstep data (1, 0) ⟨by decide, by decide⟩
  unfold adler32
  omega

theorem foldl_be32 {n : ℕ} (hn : n < 2^32) : (be32 n).foldl (fun n byte => 256 * n + byte.toNat) 0 = n := by
  simp only [be32, List.foldl_cons, List.foldl_nil, UInt8.toNat_ofNat']
  omega

/-! ## The stream -/

/-- A stream that goes on from whole bytes is any that begins with them. -/
theorem Bits.goesOn_append (hb : b.Short) (hcount : b.count = 0) (rest : List UInt8) :
    b.GoesOn (b.bytes ++ rest) := by
  have hheld := hb.within
  unfold Bits.Within at hheld
  rw [hcount] at hheld
  refine ⟨List.prefix_append _ _, ?_, ?_⟩
  · rw [hcount, Nat.lt_one_iff.1 hheld]
    rfl
  · unfold Bits.pos
    rw [hcount, List.length_append]
    omega

/-- The blocks of all the bytes, after the header. -/
theorem allBlocks_wrote {data : List UInt8} {syms : List Sym} (h : Spells WINDOW MAX_MATCH [] syms data)
    (hb : b.Short) : Yields (if syms.isEmpty then block b [] [] true else blocks data b 0 (chunks BLOCK syms.length syms))
      fun b' => b.Wrote b' fun stream p q => HasBlocks stream p [] q data := by
  refine Yields.ite (fun hempty => ?_) fun hsome => ?_
  · obtain rfl := List.isEmpty_iff.1 hempty
    cases h
    exact @block_wrote b hb [] [] [] .nil true
  · rw [List.isEmpty_iff] at hsome
    have hflatten := flatten_chunks (by decide : 0 < BLOCK) (le_refl syms.length)
    refine blocks_wrote (fun hnil => ?_) (Nat.zero_le _) (by rwa [hflatten]) hb
    rw [hnil, List.flatten_nil] at hflatten
    exact hsome hflatten.symm

/-- Every byte string is compressed without a panic. The matches that are handed out are copies of bytes that are
out already, and the stream holds the bytes, which the decompressor gives back. -/
theorem compress_correct (data : List UInt8) : ∃ m syms stream,
    (Matcher.new data WINDOW MAX_MATCH).run data.length (data.length + 1) 0 = some (m, syms) ∧
      Spells WINDOW MAX_MATCH [] syms data ∧ compress data = some stream ∧ HasZlib stream data ∧
        inflateInto (stream.drop 2) [] = .ok (stream.length - 6, data) := by
  have hnew := Matcher.new_ok data (by decide : 0 < WINDOW) (by decide : 0 < MAX_MATCH)
  obtain ⟨⟨m, syms⟩, hrun, -, hspells⟩ := Matcher.run_spec hnew (le_refl data.length) (data.length + 1) (Nat.zero_le _)
    (by omega)
  have hall : Spells WINDOW MAX_MATCH [] syms data := by
    have htake : data.take data.length = data := List.take_length
    exact htake ▸ hspells
  obtain ⟨hhead, -, hpos, -⟩ := @Bits.extend_spec Bits.empty [] Bits.short_empty rfl [0x78, 0x9c]
  obtain ⟨b, hblocks, hshort, hread⟩ := allBlocks_wrote hall hhead
  obtain ⟨halign, hcount, hend, -⟩ := @Bits.align_spec b [] hshort
  have hlength : 8 * b.align.bytes.length + 0 = 8 * ((b.pos + 7) / 8) := hcount ▸ hend
  refine ⟨m, syms, b.align.bytes ++ be32 (adler32 data), hrun, hall, ?_, ?_⟩
  · unfold compress
    rw [hrun, Option.bind_eq_bind, Option.bind_some]
    dsimp only
    rw [adler_spec]
    split at hblocks
    · rw [if_pos ‹_›, hblocks]
      rfl
    · rw [if_neg ‹_›, hblocks]
      rfl
  have hon := Bits.goesOn_append halign hcount (be32 (adler32 data))
  obtain ⟨hon₀, hstream⟩ := hread _ ((@Bits.align_spec b _ hshort).2.2.2 hon)
  have hprefix : [0x78, 0x9c] <+: b.align.bytes ++ be32 (adler32 data) := hon₀.bytes
  rw [hpos] at hstream
  obtain ⟨q, hq, hblocks'⟩ := hstream.drop (k := 2) 0 rfl
  -- the checksum comes after the byte that the last block ends in
  have hconsumed : 2 + (q + 7) / 8 = b.align.bytes.length := by omega
  have hdeflates : Deflates ((b.align.bytes ++ be32 (adler32 data)).drop 2) [] ((q + 7) / 8) data := ⟨q, hblocks', rfl⟩
  refine ⟨⟨0x78, 0x9c, (q + 7) / 8, be32 (adler32 data), (List.prefix_iff_eq_take.1 hprefix).symm, by decide, by decide,
    by decide, by decide, hdeflates, List.drop_left' hconsumed.symm, rfl, foldl_be32 (adler32_lt data)⟩, ?_⟩
  have hfour : (be32 (adler32 data)).length = 4 := rfl
  rw [List.length_append, hfour, show b.align.bytes.length + 4 - 6 = (q + 7) / 8 by omega]
  exact Unpack.blocks_ok hblocks' _ (by omega) (Unpack.at_start _)

end Rucc.Object
