import Rucc.Base.Intern
import Rucc.Lib.Probing

/-!
# What an interner stands for

An interner stands for the list of the spellings it has a symbol for, in the order of the symbols, each once.
`Stored` relates the buffer, the spans and the maps to that list, and `Tabled` the table: its entries are those
of the spellings that are text, each reached from the slot its tag names (`Lib/Probing.lean`). No more than half
of the slots are taken, although what the table grows by is the number of all symbols, those that are in no slot
of it included, which is why every probe comes to a vacant slot. Interning a spelling adds it to the list unless
it is there, and finding one changes nothing.
-/

namespace Rucc.Base

open Probing (walk entries Reached Clear after put)

variable {b a : List UInt8} {entry : Slot}

/-! ## Texts and bytes -/

theorem bytes_append (s t : String) : bytes (s ++ t) = bytes s ++ bytes t := by
  unfold bytes
  rw [String.toByteArray_append, ByteArray.data_append, Array.toList_append]

theorem length_bytes (s : String) : (bytes s).length = s.utf8ByteSize := rfl

theorem fromUtf8_eq_some {text : String} : fromUtf8 b = some text ↔ bytes text = b := by
  unfold fromUtf8 String.fromUTF8? bytes
  constructor
  · intro h
    split_ifs at h
    rw [← Option.some.inj h]
    rfl
  · intro h
    have hbytes : (⟨b.toArray⟩ : ByteArray) = text.toByteArray := by rw [← h]
    rw [hbytes, dif_pos text.isValidUTF8]
    rfl

theorem fromUtf8_bytes (text : String) : fromUtf8 (bytes text) = some text := fromUtf8_eq_some.mpr rfl

theorem bytes_inj {s t : String} : bytes s = bytes t ↔ s = t := by
  refine ⟨fun h => ?_, fun h => by rw [h]⟩
  have hs := fromUtf8_bytes s
  rw [h, fromUtf8_bytes] at hs
  exact (Option.some.inj hs).symm

/-- The bytes between what is in front of a text and what is behind it. -/
theorem take_drop_bytes (front text back : String) :
    ((bytes (front ++ text ++ back)).take (front.utf8ByteSize + text.utf8ByteSize)).drop front.utf8ByteSize =
      bytes text := by
  rw [bytes_append, bytes_append, ← length_bytes front, ← length_bytes text, ← List.length_append,
    List.take_left, List.drop_left]

theorem byteSlice_append (front text back : String) :
    byteSlice (front ++ text ++ back) front.utf8ByteSize (front.utf8ByteSize + text.utf8ByteSize) =
      some (bytes text) := by
  rw [byteSlice, if_pos, take_drop_bytes]
  rw [String.utf8ByteSize_append, String.utf8ByteSize_append]
  omega

theorem slice_append (front text back : String) :
    slice (front ++ text ++ back) front.utf8ByteSize (front.utf8ByteSize + text.utf8ByteSize) = some text := by
  rw [slice, if_pos, take_drop_bytes, fromUtf8_bytes]
  refine ⟨?_, ?_, Nat.le_add_right _ _⟩
  · exact String.Pos.Raw.isValid_iff_exists_append.mpr ⟨front, text ++ back, String.append_assoc .., rfl⟩
  · refine String.Pos.Raw.isValid_iff_exists_append.mpr ⟨front ++ text, back, rfl, ?_⟩
    rw [String.Pos.Raw.ext_iff, String.byteIdx_rawEndPos, String.utf8ByteSize_append]

theorem fromLeBytes_inj (hlen : a.length = b.length) : fromLeBytes a = fromLeBytes b ↔ a = b := by
  refine ⟨fun h => ?_, fun h => by rw [h]⟩
  have hlt (c : List UInt8) : ∀ x ∈ c.map UInt8.toNat, x < 256 := by
    intro x hx
    obtain ⟨y, -, rfl⟩ := List.mem_map.mp hx
    exact y.toNat_lt
  have hmap := Nat.ofDigits_inj_of_len_eq (by norm_num) (by simpa using hlen) (hlt a) (hlt b) h
  exact List.map_injective_iff.mpr (fun _ _ => UInt8.toNat_inj.mp) hmap

/-- Two lists that agree up to one place and from one that is no later are the same. -/
theorem eq_of_take_drop {k m : ℕ} (hk : k ≤ m) (htake : a.take m = b.take m)
    (hdrop : a.drop k = b.drop k) : a = b := by
  have hfront : a.take k = b.take k := by
    have := congrArg (List.take k) htake
    rwa [List.take_take, List.take_take, Nat.min_eq_left hk] at this
  rw [← List.take_append_drop k a, hfront, hdrop, List.take_append_drop]

/-- Two words that between them read every byte. -/
theorem words_eq_iff {k : ℕ} (hlen : a.length = b.length) (hk : k ≤ a.length) (h2 : a.length ≤ 2 * k) :
    fromLeBytes ((a.drop 0).take k) = fromLeBytes ((b.drop 0).take k) ∧
      fromLeBytes ((a.drop (a.length - k)).take k) = fromLeBytes ((b.drop (a.length - k)).take k) ↔ a = b := by
  have hlast (c : List UInt8) (hc : a.length = c.length) :
      (c.drop (a.length - k)).take k = c.drop (a.length - k) :=
    List.take_of_length_le (by rw [List.length_drop]; omega)
  rw [List.drop_zero, List.drop_zero, hlast a rfl, hlast b hlen,
    fromLeBytes_inj (by rw [List.length_take, List.length_take, hlen]),
    fromLeBytes_inj (by rw [List.length_drop, List.length_drop, hlen])]
  exact ⟨fun h => eq_of_take_drop (by omega) h.1 h.2, fun h => by rw [h]; exact ⟨rfl, rfl⟩⟩

/-- The comparison by words is that of the bytes. -/
theorem same_iff : same a b = true ↔ a = b := by
  unfold same
  dsimp only
  split_ifs with hlen h8 h4 h1
  · exact ⟨False.elim, fun h => absurd (congrArg List.length h) hlen⟩
  · rw [decide_eq_true_iff, words_eq_iff (not_not.mp hlen) h8.1 (by omega)]
  · rw [decide_eq_true_iff, words_eq_iff (not_not.mp hlen) h4.1 (by omega)]
  · rw [decide_eq_true_iff]
    refine ⟨fun h => ?_, fun h => by rw [h]; exact ⟨rfl, rfl, rfl⟩⟩
    obtain ⟨h0, hmid, hlast⟩ := h
    refine List.ext_getElem? fun i => ?_
    have hi : i = 0 ∨ i = a.length / 2 ∨ i = a.length - 1 ∨ a.length ≤ i := by omega
    rcases hi with rfl | rfl | rfl | hi
    · exact h0
    · exact hmid
    · exact hlast
    · rw [List.getElem?_eq_none hi, List.getElem?_eq_none (by omega)]
  · rw [decide_eq_true_iff]

/-! ## The table -/

/-- Whether nothing is in a slot. -/
def vacant (entry : Slot) : Bool := entry.2 == 0

/-- Where an entry's tag starts in a table of some slots. -/
def home (size : ℕ) (entry : Slot) : ℕ := slot entry.1 (size - 1)

theorem vacant_eq_true : vacant entry = true ↔ entry.2 = 0 := beq_iff_eq

theorem vacant_eq_false : vacant entry = false ↔ entry.2 ≠ 0 := by
  rw [← Bool.not_eq_true, vacant_eq_true]

/-- A tag starts in the table, even when the product is too large for its 64 bits. -/
theorem slot_lt (tag : BitVec 32) {size : ℕ} (h : 0 < size) : slot tag (size - 1) < size := by
  have htag : tag.toNat < 2^32 := tag.isLt
  unfold slot
  rw [Nat.sub_add_cancel h, BitVec.toNat_ushiftRight, BitVec.toNat_mul, BitVec.toNat_setWidth,
    Nat.shiftRight_eq_div_pow, BitVec.toNat_ofNat, Nat.mod_eq_of_lt (by omega : tag.toNat < 2^64)]
  rw [Nat.div_lt_iff_lt_mul (by norm_num)]
  rcases Nat.lt_or_ge (2^32) size with hbig | hsmall
  · calc tag.toNat * (size % 2^64) % 2^64 < 2^64 := Nat.mod_lt _ (by norm_num)
      _ ≤ size * 2^32 := by omega
  · calc tag.toNat * (size % 2^64) % 2^64 ≤ tag.toNat * (size % 2^64) := Nat.mod_le _ _
      _ = tag.toNat * size := by rw [Nat.mod_eq_of_lt (by omega : size < 2^64)]
      _ < 2^32 * size := Nat.mul_lt_mul_of_pos_right htag h
      _ = size * 2^32 := Nat.mul_comm _ _

section Walks

variable {table : List Slot} {k : ℕ}

/-- The next slot of a table whose size is a power of two. -/
theorem and_mask (hk : table.length = 2^k) (i : ℕ) : i &&& (table.length - 1) = i % table.length := by
  rw [hk, Nat.and_two_pow_sub_one_eq_mod]

theorem vacantSlot_eq (hk : table.length = 2^k) (fuel i : ℕ) :
    vacantSlot table (table.length - 1) fuel i = walk table vacant fuel i := by
  induction fuel generalizing i with
  | zero => rfl
  | succ fuel ih =>
    rw [vacantSlot, walk]
    cases hi : table[i]? with
    | none => rfl
    | some entry =>
      rw [Option.bind_eq_bind, Option.bind_some, Option.bind_some, and_mask hk, ih]
      by_cases h : entry.2 = 0
      · rw [if_neg (not_not.mpr h), if_pos (vacant_eq_true.mpr h)]
      · rw [if_pos h, if_neg (by rw [vacant_eq_true]; exact h)]

/-- Copying a slot into the new table puts its entry there, if it has one. -/
theorem regrow_eq (hk : table.length = 2^k) (entry : Slot) : regrow (table.length - 1) table entry =
      if vacant entry then some table else put vacant (home table.length) table entry := by
  unfold regrow
  by_cases h : entry.2 = 0
  · rw [if_neg (not_not.mpr h), if_pos (vacant_eq_true.mpr h)]
  · rw [if_pos h, if_neg (by rw [vacant_eq_true]; exact h), vacantSlot_eq hk]
    unfold put home
    rw [Option.bind_eq_bind, Option.map_eq_bind]
    rfl

theorem length_put {size : ℕ} {table' : List Slot} {entry : Slot}
    (h : put vacant (home size) table entry = some table') : table'.length = table.length := by
  obtain ⟨i, -, rfl⟩ := Option.map_eq_some_iff.mp h
  exact List.length_set

/-- Copying all slots puts all entries into the new table. -/
theorem foldlM_regrow (hk : table.length = 2^k) (old : List Slot) : old.foldlM (regrow (table.length - 1)) table =
      (entries vacant old).foldlM (put vacant (home table.length)) table := by
  induction old generalizing table with
  | nil => rfl
  | cons entry old ih =>
    rw [List.foldlM_cons, regrow_eq hk]
    cases h : vacant entry with
    | true =>
      have hskip : entries vacant (entry :: old) = entries vacant old :=
        List.filter_cons_of_neg (by rw [h]; decide)
      rw [if_pos rfl, hskip, Option.bind_eq_bind, Option.bind_some, ih hk]
    | false =>
      have hkeep : entries vacant (entry :: old) = entry :: entries vacant old :=
        List.filter_cons_of_pos (by rw [h]; decide)
      rw [if_neg (by decide), hkeep, List.foldlM_cons]
      cases hput : put vacant (home table.length) table entry with
      | none => rfl
      | some table' =>
        have hlen := length_put hput
        rw [Option.bind_eq_bind, Option.bind_some, Option.bind_some, ← hlen, ih (hlen.trans hk)]

end Walks

/-! ## What the table holds -/

section Hash

variable (hash : String → BitVec 32)

variable {entry : Slot} {d j i n : ℕ} {sym : Symbol} {b' : List UInt8} {s' : Interner}

/-- The entries of the spellings that are text. -/
def placed (l : List (List UInt8)) : List Slot :=
  l.zipIdx.filterMap fun x => (fromUtf8 x.1).map fun text => (hash text, x.2 + 1)

/-- A table for the texts among some spellings, no more than half of its slots taken. -/
structure Tabled (table : List Slot) (l : List (List UInt8)) : Prop where
  power : ∃ k, table.length = 2^k
  wide : 2 ≤ table.length
  room : 2 * (placed hash l).length ≤ table.length
  reached : Reached vacant (home table.length) table
  perm : (entries vacant table).Perm (placed hash l)

variable {hash} {l : List (List UInt8)} {table : List Slot} {b : List UInt8} {text : String}

theorem mem_placed : entry ∈ placed hash l ↔
      ∃ i b text, l[i]? = some b ∧ fromUtf8 b = some text ∧ entry = (hash text, i + 1) := by
  unfold placed
  rw [List.mem_filterMap]
  constructor
  · rintro ⟨⟨b, i⟩, hmem, h⟩
    obtain ⟨text, htext, rfl⟩ := Option.map_eq_some_iff.mp h
    exact ⟨i, b, text, List.mem_zipIdx_iff_getElem?.mp hmem, htext, rfl⟩
  · rintro ⟨i, b, text, hi, htext, rfl⟩
    exact ⟨(b, i), List.mem_zipIdx_iff_getElem?.mpr hi, by rw [htext]; rfl⟩

theorem length_placed_le : (placed hash l).length ≤ l.length :=
  (List.length_filterMap_le _ _).trans_eq List.length_zipIdx

theorem placed_append (b : List UInt8) :
    placed hash (l ++ [b]) = placed hash l ++ ((fromUtf8 b).map fun text => (hash text, l.length + 1)).toList := by
  unfold placed
  rw [List.zipIdx_append, List.filterMap_append, Nat.zero_add]
  cases h : fromUtf8 b with
  | none => simp [h]
  | some text => simp [h]

/-- A spelling that is not text changes nothing about the table. -/
theorem Tabled.push_raw (h : Tabled hash table l) (hb : fromUtf8 b = none) : Tabled hash table (l ++ [b]) := by
  have hplaced : placed hash (l ++ [b]) = placed hash l := by
    rw [placed_append, hb]
    exact List.append_nil _
  obtain ⟨hpower, hwide, hroom, hreached, hentries⟩ := h
  rw [← hplaced] at hroom hentries
  exact ⟨hpower, hwide, hroom, hreached, hentries⟩

/-- The table doubled, which makes room for one more text than there was room for. -/
theorem Tabled.doubled {k : ℕ} (hk : table.length = 2^k) (hroom : (placed hash l).length ≤ table.length)
    (hentries : (entries vacant table).Perm (placed hash l)) :
    ∃ table', table.foldlM (regrow (table.length * 2 - 1)) (List.replicate (table.length * 2) (0, 0)) = some table' ∧
      Tabled hash table' l := by
  have hlen : (List.replicate (table.length * 2) ((0, 0) : Slot)).length = table.length * 2 := List.length_replicate
  have hk' : (List.replicate (table.length * 2) ((0, 0) : Slot)).length = 2^(k + 1) := by
    rw [hlen, hk, pow_succ]
  have hpos : 0 < table.length := by rw [hk]; positivity
  have hnone : entries vacant (List.replicate (table.length * 2) ((0, 0) : Slot)) = [] :=
    Probing.entries_replicate (by rfl)
  have hfold := foldlM_regrow hk' table
  rw [hlen] at hfold
  obtain ⟨table', hput, hlen', hreached, hperm⟩ :=
    @Probing.foldlM_put_spec _ vacant (home (table.length * 2)) (List.replicate (table.length * 2) (0, 0))
      (entries vacant table) (Probing.reached_of_entries hnone)
      (fun e he => ⟨by rw [hlen]; exact slot_lt _ (by omega), (Probing.mem_entries.mp he).2⟩)
      (by rw [hnone, hlen, hentries.length_eq, List.length_nil]; omega)
  rw [hnone, List.append_nil] at hperm
  rw [hlen] at hlen'
  refine ⟨table', hfold.trans hput, ⟨k + 1, ?_⟩, ?_, ?_, ?_, hperm.trans hentries⟩
  · rw [hlen', hk, pow_succ]
  · omega
  · omega
  · rw [hlen']
    exact hreached

/-- A text put into the vacant slot its probe ended at, with room for one more. -/
theorem Tabled.set {old : Slot} (h : Tabled hash table l) (hb : fromUtf8 b = some text)
    (hj : j = after table (slot (hash text) (table.length - 1)) d) (hold : table[j]? = some old)
    (hvacant : vacant old = true) (hclear : Clear table vacant (slot (hash text) (table.length - 1)) d) :
    (entries vacant (table.set j (hash text, l.length + 1))).Perm (placed hash (l ++ [b])) ∧
      Reached vacant (home table.length) (table.set j (hash text, l.length + 1)) := by
  have hentry : vacant ((hash text, l.length + 1) : Slot) = false := vacant_eq_false.mpr (Nat.succ_ne_zero _)
  refine ⟨?_, h.reached.set hentry hj hclear⟩
  rw [placed_append, hb]
  exact (Probing.entries_set hold hvacant hentry).trans
    ((List.Perm.cons _ h.perm).trans (List.perm_append_singleton _ _).symm)

/-! ## What is stored -/

/-- What the buffer holds for a spelling: itself when it is text, and its lossy reading when it is not. -/
def reading (b : List UInt8) : String := (fromUtf8 b).getD (fromUtf8Lossy b)

theorem reading_of_text (h : fromUtf8 b = some text) : reading b = text := by rw [reading, h, Option.getD_some]

/-- The buffer, the spans and the maps of an interner with these spellings. -/
structure Stored (memory : ℕ → UInt8) (s : Interner) (l : List (List UInt8)) : Prop where
  nodup : l.Nodup
  count : s.spans.length = l.length
  small : l.length < 2^32
  kept : ∀ {i : ℕ} {b}, l[i]? = some b → ∃ front back, s.buf = front ++ reading b ++ back ∧
    s.spans[i]? = some (front.utf8ByteSize, front.utf8ByteSize + (reading b).utf8ByteSize)
  raw : ∀ sym b, s.raw sym = some b ↔ l[sym.raw]? = some b ∧ fromUtf8 b = none
  rawMap : ∀ sym b, s.rawMap b = some sym ↔ l[sym.raw]? = some b ∧ fromUtf8 b = none
  joined : ∀ (first name : StaticStr memory) sym,
    s.joined (first.addr, first.text.utf8ByteSize, name.addr, name.text.utf8ByteSize) = some sym →
      l[sym.raw]? = some (bytes first.text ++ bytes name.text)

variable (hash) in
/-- An interner stands for the spellings it has a symbol for. -/
structure Represents (memory : ℕ → UInt8) (s : Interner) (l : List (List UInt8)) : Prop where
  stored : Stored memory s l
  tabled : Tabled hash s.table l

variable {memory : ℕ → UInt8} {s : Interner}

/-- A symbol resolves to the spelling it stands for. -/
theorem Stored.resolveBytes (h : Stored memory s l) (hb : l[sym.raw]? = some b) : s.resolveBytes sym = some b := by
  unfold Interner.resolveBytes
  cases htext : fromUtf8 b with
  | none => rw [(h.raw sym b).mpr ⟨hb, htext⟩]
  | some text =>
    have hraw : s.raw sym = none := by
      by_contra hraw
      obtain ⟨b', hraw⟩ := Option.ne_none_iff_exists'.mp hraw
      obtain ⟨hb', hnone⟩ := (h.raw sym b').mp hraw
      rw [hb] at hb'
      rw [← Option.some.inj hb', htext] at hnone
      cases hnone
    obtain ⟨front, back, hbuf, hspan⟩ := h.kept hb
    rw [reading_of_text htext] at hbuf hspan
    rw [hraw]
    unfold Interner.resolve
    rw [hspan, Option.bind_eq_bind, Option.bind_some, hbuf, slice_append, Option.map_some,
      fromUtf8_eq_some.mp htext]

/-- A spelling has no two symbols. -/
theorem Stored.eq_of_spelling (h : Stored memory s l) {x y : Symbol} (hx : l[x.raw]? = some b)
    (hy : l[y.raw]? = some b) : x = y := by
  obtain ⟨hlt, hx⟩ := List.getElem?_eq_some_iff.mp hx
  obtain ⟨hlt', hy⟩ := List.getElem?_eq_some_iff.mp hy
  have hindex : x.raw = y.raw := (h.nodup.getElem_inj_iff).mp (hx.trans hy.symm)
  rw [Symbol.mk.injEq]
  exact hindex

/-! ## Probing -/

/-- Whether a slot is that of a text, by the spellings. -/
def wanted (hash : String → BitVec 32) (l : List (List UInt8)) (text : String) (entry : Slot) : Bool :=
  decide (entry.1 = hash text ∧ l[entry.2 - 1]? = some (bytes text))

/-- A slot is found to be a text's when it is. -/
theorem Represents.holds (h : Represents hash memory s l) (text : String)
    (hentry : entry ∈ entries vacant s.table) :
    s.holds text (hash text) entry = some (wanted hash l text entry) := by
  obtain ⟨i, b, t, hi, ht, rfl⟩ := mem_placed.mp (h.tabled.perm.mem_iff.mp hentry)
  obtain ⟨front, back, hbuf, hspan⟩ := h.stored.kept hi
  rw [reading_of_text ht] at hbuf hspan
  unfold Interner.holds wanted
  by_cases htag : hash t = hash text
  · rw [if_pos htag]
    dsimp only
    rw [Nat.add_sub_cancel, hspan, Option.bind_eq_bind, Option.bind_some, hbuf, byteSlice_append,
      Option.bind_eq_bind, Option.bind_some, hi, fromUtf8_eq_some.mp ht]
    congr 1
    rw [Bool.eq_iff_iff, same_iff, decide_eq_true_iff, Option.some_inj]
    exact ⟨fun h => ⟨htag, h⟩, fun h => h.2⟩
  · rw [if_neg htag, decide_eq_false fun h => htag h.1]

/-- The answer for the slot that a probe ends at. -/
def ending (table : List Slot) (i : ℕ) : Except ℕ Symbol :=
  match table[i]? with
  | some entry => if entry.2 = 0 then .error i else .ok ⟨entry.2 - 1⟩
  | none => .error i

/-- A probe walks to the first slot that is vacant or the text's. -/
theorem Represents.probeFrom (h : Represents hash memory s l) (text : String) (fuel i : ℕ) :
    s.probeFrom text (hash text) (s.table.length - 1) fuel i =
      (walk s.table (fun e => vacant e || wanted hash l text e) fuel i).map (ending s.table) := by
  obtain ⟨k, hk⟩ := h.tabled.power
  induction fuel generalizing i with
  | zero => rfl
  | succ fuel ih =>
    rw [Interner.probeFrom, walk]
    cases hi : s.table[i]? with
    | none => rfl
    | some entry =>
      simp only [Option.bind_eq_bind, Option.bind_some]
      by_cases hzero : entry.2 = 0
      · rw [if_pos hzero, if_pos (by rw [vacant_eq_true.mpr hzero, Bool.true_or]), Option.map_some, ending, hi]
        dsimp only
        rw [if_pos hzero]
      · have hmem : entry ∈ entries vacant s.table :=
          Probing.mem_entries.mpr ⟨List.mem_of_getElem? hi, vacant_eq_false.mpr hzero⟩
        rw [if_neg hzero, h.holds text hmem, Option.bind_some, vacant_eq_false.mpr hzero, Bool.false_or]
        cases hwanted : wanted hash l text entry with
        | true =>
          obtain ⟨-, hb⟩ := of_decide_eq_true hwanted
          have hlt := (List.getElem?_eq_some_iff.mp hb).1
          have hsmall := h.stored.small
          dsimp only
          rw [fromUsize, if_pos (by omega), if_pos rfl, Option.map_some, Option.map_some, ending, hi]
          dsimp only
          rw [if_neg hzero]
        | false =>
          dsimp only
          rw [if_neg (by decide), and_mask hk, ih]

/-- A probe ends: at the text's symbol when it has one, and else at the vacant slot a walk from its tag's comes
to first. -/
theorem Represents.probe (h : Represents hash memory s l) (text : String) :
    (∃ sym, s.probe text (hash text) = some (.ok sym) ∧ l[sym.raw]? = some (bytes text)) ∨
    ∃ j d old, s.probe text (hash text) = some (.error j) ∧ bytes text ∉ l ∧
      j = after s.table (slot (hash text) (s.table.length - 1)) d ∧ s.table[j]? = some old ∧
      vacant old = true ∧ Clear s.table vacant (slot (hash text) (s.table.length - 1)) d := by
  have hwide := h.tabled.wide
  have hroom := h.tabled.room
  have hstart : slot (hash text) (s.table.length - 1) < s.table.length := slot_lt _ (by omega)
  obtain ⟨v, hv, hvacant⟩ := Probing.exists_vacant (by rw [h.tabled.perm.length_eq]; omega :
    (entries vacant s.table).length < s.table.length)
  obtain ⟨j, hj⟩ := Option.isSome_iff_exists.mp
    (@Probing.walk_isSome _ s.table (fun e => vacant e || wanted hash l text e) _ hstart
      ⟨v, hv, by rw [hvacant, Bool.true_or]⟩)
  have hprobe : s.probe text (hash text) = some (ending s.table j) := by
    unfold Interner.probe
    rw [h.probeFrom, hj, Option.map_some]
  obtain ⟨d, e, hafter, he, hclear, hfound, hmissing⟩ := h.tabled.reached.walk hj
  cases hvac : vacant e with
  | false =>
    obtain ⟨-, hb⟩ := of_decide_eq_true (hfound hvac)
    refine .inl ⟨⟨e.2 - 1⟩, ?_, hb⟩
    rw [hprobe, ending, he]
    dsimp only
    rw [if_neg (vacant_eq_false.mp hvac)]
  | true =>
    refine .inr ⟨j, d, e, ?_, fun hmem => ?_, hafter, he, hvac, hclear⟩
    · rw [hprobe, ending, he]
      dsimp only
      rw [if_pos (vacant_eq_true.mp hvac)]
    · -- a text with a symbol has an entry, which the walk would have met
      obtain ⟨i, hi⟩ := List.mem_iff_getElem?.mp hmem
      have hplaced : ((hash text, i + 1) : Slot) ∈ entries vacant s.table :=
        h.tabled.perm.mem_iff.mpr (mem_placed.mpr ⟨i, _, text, hi, fromUtf8_bytes text, rfl⟩)
      have hnot := hmissing hvac _ hplaced rfl
      rw [wanted, decide_eq_false_iff_not] at hnot
      exact hnot ⟨rfl, hi⟩

/-! ## Interning -/

/-- The spellings there are with one more interned. -/
def added (l : List (List UInt8)) (b : List UInt8) : List (List UInt8) := if b ∈ l then l else l ++ [b]

theorem prefix_added (l : List (List UInt8)) (b : List UInt8) : l <+: added l b := by
  unfold added
  split_ifs
  · exact List.prefix_refl l
  · exact List.prefix_append l [b]

theorem mem_added : b' ∈ added l b ↔ b' ∈ l ∨ b' = b := by
  unfold added
  split_ifs with h
  · exact ⟨.inl, fun h' => h'.elim id fun heq => heq ▸ h⟩
  · rw [List.mem_append, List.mem_singleton]

theorem getElem?_push : (l ++ [b])[i]? = some b' ↔ l[i]? = some b' ∨ i = l.length ∧ b' = b := by
  rcases Nat.lt_trichotomy i l.length with h | rfl | h
  · rw [List.getElem?_append_left h]
    exact ⟨.inl, fun h' => h'.elim id fun h'' => absurd h''.1 (by omega)⟩
  · rw [List.getElem?_concat_length, List.getElem?_eq_none le_rfl, Option.some_inj]
    exact ⟨fun h' => .inr ⟨rfl, h'.symm⟩, fun h' => h'.elim (fun h'' => by cases h'') fun h'' => h''.2.symm⟩
  · rw [List.getElem?_eq_none (by rw [List.length_append, List.length_singleton]; omega),
      List.getElem?_eq_none (by omega)]
    refine ⟨fun h' => ?_, fun h' => h'.elim (fun h'' => ?_) fun h'' => absurd h''.1 (by omega)⟩
    · cases h'
    · cases h''

/-- What an interner has no room for: a buffer of no more than 32 bits' worth of bytes, or as many symbols. -/
def Full (s : Interner) (b : List UInt8) : Prop :=
  2^32 ≤ s.buf.utf8ByteSize + (reading b).utf8ByteSize ∨ 2^32 - 1 ≤ s.spans.length

/-- The buffer and the spans with one more spelling. -/
theorem Stored.kept_push (h : Stored memory s l) (hi : (l ++ [b])[i]? = some b') :
    ∃ front back, s.buf ++ reading b = front ++ reading b' ++ back ∧
      (s.spans ++ [(s.buf.utf8ByteSize, (s.buf ++ reading b).utf8ByteSize)])[i]? =
        some (front.utf8ByteSize, front.utf8ByteSize + (reading b').utf8ByteSize) := by
  rcases getElem?_push.mp hi with hi | ⟨rfl, rfl⟩
  · obtain ⟨front, back, hbuf, hspan⟩ := h.kept hi
    refine ⟨front, back ++ reading b, by rw [hbuf, String.append_assoc], ?_⟩
    rw [List.getElem?_append_left (List.getElem?_eq_some_iff.mp hspan).1, hspan]
  · refine ⟨s.buf, "", by rw [String.append_empty], ?_⟩
    rw [← h.count, List.getElem?_concat_length, String.utf8ByteSize_append]

/-- An interner with the text of a new spelling behind the others. -/
theorem Stored.push_text (h : Stored memory s l) (hb : fromUtf8 b = some text) (hnew : b ∉ l)
    (hsmall : l.length + 1 < 2^32) (table : List Slot) :
    Stored memory { s with
      buf := s.buf ++ text, spans := s.spans ++ [(s.buf.utf8ByteSize, (s.buf ++ text).utf8ByteSize)],
      table := table } (l ++ [b]) where
  nodup := h.nodup.append (List.nodup_singleton b) (List.disjoint_singleton.mpr hnew)
  count := by rw [List.length_append, List.length_append, h.count, List.length_singleton, List.length_singleton]
  small := by rwa [List.length_append, List.length_singleton]
  kept := fun hi => by
    rw [← reading_of_text hb]
    exact h.kept_push hi
  raw := fun sym b' => by
    rw [h.raw, getElem?_push]
    refine ⟨fun h' => ⟨.inl h'.1, h'.2⟩, fun h' => ⟨h'.1.resolve_right fun h'' => ?_, h'.2⟩⟩
    rw [h''.2, hb] at h'
    cases h'.2
  rawMap := fun sym b' => by
    rw [h.rawMap, getElem?_push]
    refine ⟨fun h' => ⟨.inl h'.1, h'.2⟩, fun h' => ⟨h'.1.resolve_right fun h'' => ?_, h'.2⟩⟩
    rw [h''.2, hb] at h'
    cases h'.2
  joined := fun first name sym hsym => getElem?_push.mpr (.inl (h.joined first name sym hsym))

/-- An interner with a new spelling that is not text, its bytes in the maps. -/
theorem Stored.push_raw (h : Stored memory s l) (hb : fromUtf8 b = none) (hnew : b ∉ l)
    (hsmall : l.length + 1 < 2^32) :
    Stored memory { s with
      buf := s.buf ++ fromUtf8Lossy b,
      spans := s.spans ++ [(s.buf.utf8ByteSize, (s.buf ++ fromUtf8Lossy b).utf8ByteSize)],
      raw := Function.update s.raw ⟨s.spans.length⟩ (some b),
      rawMap := Function.update s.rawMap b (some ⟨s.spans.length⟩) } (l ++ [b]) where
  nodup := h.nodup.append (List.nodup_singleton b) (List.disjoint_singleton.mpr hnew)
  count := by rw [List.length_append, List.length_append, h.count, List.length_singleton, List.length_singleton]
  small := by rwa [List.length_append, List.length_singleton]
  kept := fun hi => by
    have hread : reading b = fromUtf8Lossy b := by rw [reading, hb, Option.getD_none]
    rw [← hread]
    exact h.kept_push hi
  raw := fun sym b' => by
    dsimp only
    rw [Function.update_apply, getElem?_push, h.count]
    split_ifs with hsym
    · subst hsym
      rw [List.getElem?_eq_none le_rfl, Option.some_inj]
      exact ⟨fun h' => ⟨.inr ⟨rfl, h'.symm⟩, h' ▸ hb⟩,
        fun h' => h'.1.elim (fun h'' => by cases h'') fun h'' => h''.2.symm⟩
    · rw [h.raw]
      refine ⟨fun h' => ⟨.inl h'.1, h'.2⟩, fun h' => ⟨h'.1.resolve_right fun h'' => hsym ?_, h'.2⟩⟩
      rw [← h''.1]
  rawMap := fun sym b' => by
    dsimp only
    rw [Function.update_apply, getElem?_push, h.count]
    split_ifs with hsame
    · subst hsame
      rw [Option.some_inj]
      refine ⟨fun h' => ⟨.inr ⟨h' ▸ rfl, rfl⟩, hb⟩, fun h' => h'.1.elim (fun h'' => ?_) fun h'' => ?_⟩
      · exact absurd (List.mem_of_getElem? h'') hnew
      · rw [← h''.1]
    · rw [h.rawMap]
      exact ⟨fun h' => ⟨.inl h'.1, h'.2⟩, fun h' => ⟨h'.1.resolve_right fun h'' => hsame h''.2, h'.2⟩⟩
  joined := fun first name sym hsym => getElem?_push.mpr (.inl (h.joined first name sym hsym))

/-- A new text's symbol, in a table that is doubled when the symbols are more than half its slots. -/
theorem Represents.push_text (h : Represents hash memory s l) {old : Slot} (hb : fromUtf8 b = some text)
    (hnew : b ∉ l) (hsmall : l.length + 1 < 2^32)
    (hj : j = after s.table (slot (hash text) (s.table.length - 1)) d) (hold : s.table[j]? = some old)
    (hvacant : vacant old = true) (hclear : Clear s.table vacant (slot (hash text) (s.table.length - 1)) d)
    (hs' : s' = { s with
      buf := s.buf ++ text, spans := s.spans ++ [(s.buf.utf8ByteSize, (s.buf ++ text).utf8ByteSize)],
      table := s.table.set j (hash text, l.length + 1) }) :
    ∃ s'', (if s'.spans.length * 2 > s'.table.length then s'.grow else some s') = some s'' ∧
      Represents hash memory s'' (l ++ [b]) := by
  subst hs'
  obtain ⟨hperm, hreached⟩ := h.tabled.set hb hj hold hvacant hclear
  obtain ⟨k, hk⟩ := h.tabled.power
  have hwide := h.tabled.wide
  have hroom := h.tabled.room
  have hcount : (placed hash (l ++ [b])).length = (placed hash l).length + 1 := by
    rw [placed_append, hb, List.length_append]
    rfl
  split_ifs with hgrow
  · obtain ⟨table', hfold, htabled⟩ := Tabled.doubled (List.length_set.trans hk)
      (by rw [hcount, List.length_set]; omega) hperm
    refine ⟨_, ?_, h.stored.push_text hb hnew hsmall table', htabled⟩
    unfold Interner.grow
    dsimp only
    rw [hfold]
    rfl
  · refine ⟨_, rfl, h.stored.push_text hb hnew hsmall _, ⟨k, List.length_set.trans hk⟩, ?_, ?_, ?_, hperm⟩
    · rwa [List.length_set]
    · have hle : (placed hash (l ++ [b])).length ≤ (l ++ [b]).length := length_placed_le
      dsimp only at hgrow ⊢
      rw [List.length_append, h.stored.count, List.length_singleton] at hgrow
      rw [List.length_append, List.length_singleton] at hle
      omega
    · dsimp only
      rwa [List.length_set]

/-- What interning a spelling does: it has a symbol from then on, unless the interner is full. -/
def Interned (hash : String → BitVec 32) (memory : ℕ → UInt8) (s : Interner) (l : List (List UInt8))
    (b : List UInt8) (result : Option (Symbol × Interner)) : Prop :=
  (∃ sym s', result = some (sym, s') ∧ Represents hash memory s' (added l b) ∧ (added l b)[sym.raw]? = some b) ∨
    result = none ∧ Full s b

theorem Interned.old (h : Represents hash memory s l) (hb : l[sym.raw]? = some b) :
    Interned hash memory s l b (some (sym, s)) := by
  have hadded : added l b = l := if_pos (List.mem_of_getElem? hb)
  exact .inl ⟨sym, s, rfl, by rwa [hadded], by rwa [hadded]⟩

theorem u32_eq (h : n < 2^32) : u32 n = some n := if_pos h

theorem u32_none (h : 2^32 ≤ n) : u32 n = none := if_neg (by omega)

theorem fromUsize_eq (h : n < 2^32 - 1) : fromUsize n = some ⟨n⟩ := if_pos (by omega)

theorem fromUsize_none (h : 2^32 - 1 ≤ n) : fromUsize n = none := if_neg (by omega)

theorem Represents.intern (h : Represents hash memory s l) (text : String) :
    Interned hash memory s l (bytes text) (s.intern hash text) := by
  have hb := fromUtf8_bytes text
  have hsize := String.utf8ByteSize_append (s := s.buf) (t := text)
  unfold Interner.intern
  rcases h.probe text with ⟨sym, hprobe, hsym⟩ | ⟨j, d, old, hprobe, hnew, hj, hold, hvacant, hclear⟩
  · rw [hprobe]
    exact Interned.old h hsym
  · rw [hprobe, Option.bind_eq_bind, Option.bind_some]
    dsimp only
    by_cases hfull : Full s (bytes text)
    · refine .inr ⟨?_, hfull⟩
      unfold Full at hfull
      rw [reading_of_text hb] at hfull
      rcases hfull with hbuf | hspans
      · rw [u32_none (by omega : 2^32 ≤ (s.buf ++ text).utf8ByteSize)]
        cases u32 s.buf.utf8ByteSize <;> rfl
      · rw [fromUsize_none hspans]
        cases u32 s.buf.utf8ByteSize <;> cases u32 (s.buf ++ text).utf8ByteSize <;> rfl
    · unfold Full at hfull
      rw [reading_of_text hb, not_or, not_le, not_le] at hfull
      have hcount := h.stored.count
      have hindex : u32 (s.spans ++ [(s.buf.utf8ByteSize, (s.buf ++ text).utf8ByteSize)]).length =
          some (l.length + 1) := by
        rw [List.length_append, List.length_singleton, hcount, u32_eq (by omega)]
      obtain ⟨s'', hs'', hrep⟩ := h.push_text hb hnew (by omega) hj hold hvacant hclear rfl
      have hadded : added l (bytes text) = l ++ [bytes text] := if_neg hnew
      refine .inl ⟨⟨s.spans.length⟩, s'', ?_, by rwa [hadded], by rw [hadded, hcount, List.getElem?_concat_length]⟩
      rw [u32_eq (by omega : s.buf.utf8ByteSize < 2^32), u32_eq (by omega : (s.buf ++ text).utf8ByteSize < 2^32),
        fromUsize_eq hfull.2]
      simp only [Option.bind_eq_bind, Option.bind_some]
      rw [hindex, Option.bind_some]
      dsimp only at hs'' ⊢
      split_ifs at hs'' ⊢ with hgrow
      · rw [hs'', Option.map_some]
      · rw [Option.some.inj hs'']

theorem Represents.internBytes (h : Represents hash memory s l) (b : List UInt8) :
    Interned hash memory s l b (s.internBytes hash b) := by
  unfold Interner.internBytes
  cases hb : fromUtf8 b with
  | some text =>
    obtain rfl := fromUtf8_eq_some.mp hb
    exact h.intern text
  | none =>
    dsimp only
    cases hmap : s.rawMap b with
    | some sym => exact Interned.old h ((h.stored.rawMap sym b).mp hmap).1
    | none =>
      have hnew : b ∉ l := by
        intro hmem
        obtain ⟨i, hi⟩ := List.mem_iff_getElem?.mp hmem
        rw [(h.stored.rawMap ⟨i⟩ b).mpr ⟨hi, hb⟩] at hmap
        cases hmap
      have hread : reading b = fromUtf8Lossy b := by rw [reading, hb, Option.getD_none]
      have hsize := String.utf8ByteSize_append (s := s.buf) (t := fromUtf8Lossy b)
      dsimp only
      by_cases hfull : Full s b
      · refine .inr ⟨?_, hfull⟩
        unfold Full at hfull
        rw [hread] at hfull
        rcases hfull with hbuf | hspans
        · rw [u32_none (by omega : 2^32 ≤ (s.buf ++ fromUtf8Lossy b).utf8ByteSize)]
          cases u32 s.buf.utf8ByteSize <;> rfl
        · rw [fromUsize_none hspans]
          cases u32 s.buf.utf8ByteSize <;> cases u32 (s.buf ++ fromUtf8Lossy b).utf8ByteSize <;> rfl
      · unfold Full at hfull
        rw [hread, not_or, not_le, not_le] at hfull
        have hcount := h.stored.count
        have hadded : added l b = l ++ [b] := if_neg hnew
        have hstored := h.stored.push_raw hb hnew (by omega)
        have hsym : (added l b)[s.spans.length]? = some b := by rw [hadded, hcount, List.getElem?_concat_length]
        rw [← hadded] at hstored
        have htabled := h.tabled.push_raw hb
        rw [← hadded] at htabled
        refine .inl ⟨⟨s.spans.length⟩, _, ?_, ⟨hstored, htabled⟩, hsym⟩
        rw [u32_eq (by omega : s.buf.utf8ByteSize < 2^32),
          u32_eq (by omega : (s.buf ++ fromUtf8Lossy b).utf8ByteSize < 2^32), fromUsize_eq hfull.2]
        rfl

/-- Two texts in memory at one place and of one length are the same. -/
theorem StaticStr.text_eq {first first' : StaticStr memory} (haddr : first.addr = first'.addr)
    (hlen : first.text.utf8ByteSize = first'.text.utf8ByteSize) : first.text = first'.text := by
  rw [← bytes_inj, first.held, first'.held, haddr, hlen]

/-- What two texts in memory were joined to is remembered by where they are. -/
theorem Represents.remember (h : Represents hash memory s l) {first name : StaticStr memory}
    (hsym : l[sym.raw]? = some (bytes first.text ++ bytes name.text)) :
    Represents hash memory { s with
      joined := Function.update s.joined
        (first.addr, first.text.utf8ByteSize, name.addr, name.text.utf8ByteSize) (some sym) } l := by
  obtain ⟨⟨hnodup, hcount, hsmall, hkept, hraw, hrawMap, hjoined⟩, htabled⟩ := h
  refine ⟨⟨hnodup, hcount, hsmall, hkept, hraw, hrawMap, fun first' name' sym' hsym' => ?_⟩, htabled⟩
  dsimp only at hsym'
  rw [Function.update_apply] at hsym'
  split_ifs at hsym' with hkey
  · obtain ⟨ha, hla, hn, hln⟩ : first'.addr = first.addr ∧ first'.text.utf8ByteSize = first.text.utf8ByteSize ∧
        name'.addr = name.addr ∧ name'.text.utf8ByteSize = name.text.utf8ByteSize := by
      simpa only [Prod.mk.injEq] using hkey
    rw [StaticStr.text_eq ha hla, StaticStr.text_eq hn hln, ← Option.some.inj hsym', hsym]
  · exact hjoined first' name' sym' hsym'

theorem Represents.join (h : Represents hash memory s l) (first name : StaticStr memory) :
    Interned hash memory s l (bytes first.text ++ bytes name.text) (s.join hash first name) := by
  unfold Interner.join
  dsimp only
  cases hjoined : s.joined (first.addr, first.text.utf8ByteSize, name.addr, name.text.utf8ByteSize) with
  | some sym => exact Interned.old h (h.stored.joined first name sym hjoined)
  | none =>
    rw [← bytes_append]
    rcases h.intern (first.text ++ name.text) with ⟨sym, s', hintern, hrep, hsym⟩ | ⟨hintern, hfull⟩
    · refine .inl ⟨sym, _, by rw [hintern]; rfl, hrep.remember ?_, hsym⟩
      rw [hsym, bytes_append]
    · exact .inr ⟨by rw [hintern]; rfl, hfull⟩

/-- Finding a text answers its symbol, if it has one. -/
theorem Represents.find (h : Represents hash memory s l) (text : String) :
    ∃ answer, s.find hash text = some answer ∧ (answer.isSome ↔ bytes text ∈ l) ∧
      ∀ sym, answer = some sym → l[sym.raw]? = some (bytes text) := by
  unfold Interner.find
  rcases h.probe text with ⟨sym, hprobe, hsym⟩ | ⟨j, d, old, hprobe, hnew, -⟩
  · refine ⟨some sym, by rw [hprobe]; rfl, ⟨fun _ => List.mem_of_getElem? hsym, fun _ => rfl⟩, fun sym' h' => ?_⟩
    rw [← Option.some.inj h', hsym]
  · refine ⟨none, by rw [hprobe]; rfl, ⟨fun h' => ?_, fun h' => absurd h' hnew⟩, fun sym' h' => ?_⟩
    · cases h'
    · cases h'

/-! ## Runs -/

open Interner (Op)

/-- What one operation does: the spellings grow by the one it interns, and its symbol is that of its spelling. -/
theorem Represents.step (h : Represents hash memory s l) (op : Op memory) :
    (∃ answer s' l', s.step hash op = some (answer, s') ∧ Represents hash memory s' l' ∧ l <+: l' ∧
      (∀ b, b ∈ l' ↔ b ∈ l ∨ op.interns = true ∧ op.spelling = b) ∧
      (∀ sym, answer = some sym → l'[sym.raw]? = some op.spelling)) ∨
    s.step hash op = none ∧ Full s op.spelling := by
  have hinterned {b : List UInt8} {result : Option (Symbol × Interner)} (hop : op.interns = true)
      (hb : op.spelling = b) (hstep : s.step hash op = result.map fun x => (some x.1, x.2))
      (hresult : Interned hash memory s l b result) :
      (∃ answer s' l', s.step hash op = some (answer, s') ∧ Represents hash memory s' l' ∧ l <+: l' ∧
        (∀ b, b ∈ l' ↔ b ∈ l ∨ op.interns = true ∧ op.spelling = b) ∧
        (∀ sym, answer = some sym → l'[sym.raw]? = some op.spelling)) ∨
      s.step hash op = none ∧ Full s op.spelling := by
    subst hb
    rcases hresult with ⟨sym, s', rfl, hrep, hsym⟩ | ⟨rfl, hfull⟩
    · refine .inl ⟨some sym, s', added l op.spelling, hstep, hrep, prefix_added l _, fun b => ?_, fun sym' h' => ?_⟩
      · rw [mem_added, hop, eq_comm]
        exact ⟨fun h' => h'.imp id fun h'' => ⟨rfl, h''⟩, fun h' => h'.imp id fun h'' => h''.2⟩
      · rw [← Option.some.inj h', hsym]
    · exact .inr ⟨hstep, hfull⟩
  cases op with
  | intern text => exact hinterned rfl rfl rfl (h.intern text)
  | internBytes b => exact hinterned rfl rfl rfl (h.internBytes b)
  | join first name => exact hinterned rfl rfl rfl (h.join first name)
  | find text =>
    obtain ⟨answer, hfind, -, hsym⟩ := h.find text
    refine .inl ⟨answer, s, l, ?_, h, List.prefix_refl l, fun b => ?_, hsym⟩
    · rw [Interner.step, hfind, Option.map_some]
    · exact ⟨.inl, fun h' => h'.resolve_right fun h'' => Bool.false_ne_true h''.1⟩

/-- What a sequence of operations does. -/
theorem Represents.run (h : Represents hash memory s l) {ops : List (Op memory)}
    {events : List (Op memory × Option Symbol)} (hrun : s.run hash ops = some (events, s')) :
    ∃ l', Represents hash memory s' l' ∧ l <+: l' ∧
      (∀ b, b ∈ l' ↔ b ∈ l ∨ ∃ event ∈ events, event.1.interns = true ∧ event.1.spelling = b) ∧
      (∀ event ∈ events, ∀ sym, event.2 = some sym → l'[sym.raw]? = some event.1.spelling) := by
  induction ops generalizing s l events with
  | nil =>
    obtain ⟨rfl, rfl⟩ := Prod.mk.inj (Option.some.inj hrun)
    exact ⟨l, h, List.prefix_refl l, fun b => by simp, fun event hevent => by cases hevent⟩
  | cons op ops ih =>
    rw [Interner.run, Option.bind_eq_bind, Option.bind_eq_some_iff] at hrun
    obtain ⟨⟨answer, s₁⟩, hstep, hrun⟩ := hrun
    dsimp only at hrun
    rw [Option.bind_eq_bind, Option.bind_eq_some_iff] at hrun
    obtain ⟨⟨events', s₂⟩, hrest, hrun⟩ := hrun
    obtain ⟨rfl, rfl⟩ := Prod.mk.inj (Option.some.inj hrun)
    rcases h.step op with ⟨answer', s₁', l₁, hstep', hrep, hprefix, hmem, hsym⟩ | ⟨hstep', -⟩
    · rw [hstep] at hstep'
      obtain ⟨rfl, rfl⟩ := Prod.mk.inj (Option.some.inj hstep')
      obtain ⟨l', hrep', hprefix', hmem', hsym'⟩ := ih hrep hrest
      refine ⟨l', hrep', hprefix.trans hprefix', fun b => ?_, fun event hevent sym hanswer => ?_⟩
      · rw [hmem', hmem, List.exists_mem_cons_iff, or_assoc]
      · rcases List.mem_cons.mp hevent with rfl | hevent
        · -- a symbol keeps its meaning, since the spellings only grow
          obtain ⟨new, rfl⟩ := hprefix'
          have hold := hsym sym hanswer
          rw [List.getElem?_append_left (List.getElem?_eq_some_iff.mp hold).1, hold]
        · exact hsym' event hevent sym hanswer
    · rw [hstep] at hstep'
      cases hstep'

/-- A new interner stands for the reserved names. -/
theorem withCapacity_represents (memory : ℕ → UInt8) {cap : ℕ} (h : Interner.withCapacity hash cap = some s) :
    ∃ l, Represents hash memory s l ∧ ∀ b, b ∈ l ↔ ∃ name ∈ Interner.RESERVED, bytes name = b := by
  unfold Interner.withCapacity at h
  dsimp only at h
  split_ifs at h
  generalize hsize : Interner.nextPowerOfTwo (max cap Interner.RESERVED.length * 2) = size at h
  have hwide : 2 ≤ size := by
    rw [← hsize]
    calc 2 ≤ max cap Interner.RESERVED.length * 2 := by
            have : Interner.RESERVED.length = 15 := rfl
            omega
      _ ≤ _ := Nat.le_pow_clog (by norm_num) _
  have hnone : entries vacant (List.replicate size ((0, 0) : Slot)) = [] := Probing.entries_replicate (by rfl)
  have hnew : Represents hash memory
      ⟨"", [], List.replicate size (0, 0), fun _ => none, fun _ => none, fun _ => none⟩ [] := by
    refine ⟨⟨List.nodup_nil, rfl, by norm_num, fun hi => ?_, fun sym b => ?_, fun sym b => ?_, fun _ _ _ hj => ?_⟩,
      ⟨⟨_, List.length_replicate.trans hsize.symm⟩, ?_, ?_, Probing.reached_of_entries hnone, ?_⟩⟩
    · cases hi
    · exact ⟨fun h' => (by cases h'), fun h' => (by cases h'.1)⟩
    · exact ⟨fun h' => (by cases h'), fun h' => (by cases h'.1)⟩
    · cases hj
    · rwa [List.length_replicate]
    · exact Nat.zero_le _
    · rw [hnone]
      exact List.Perm.refl _
  -- the reserved names are interned one by one
  have hfold (names : List String) (s₀ : Interner) (l₀ : List (List UInt8)) (h₀ : Represents hash memory s₀ l₀)
      (hs : names.foldlM (fun s name => (s.intern hash name).map Prod.snd) s₀ = some s) :
      ∃ l, Represents hash memory s l ∧ ∀ b, b ∈ l ↔ b ∈ l₀ ∨ ∃ name ∈ names, bytes name = b := by
    induction names generalizing s₀ l₀ with
    | nil =>
      obtain rfl := Option.some.inj hs
      exact ⟨l₀, h₀, fun b => by simp⟩
    | cons name names ih =>
      rw [List.foldlM_cons, Option.bind_eq_bind, Option.bind_eq_some_iff] at hs
      obtain ⟨s₁, hs₁, hs⟩ := hs
      obtain ⟨⟨sym, s₁'⟩, hintern, rfl⟩ := Option.map_eq_some_iff.mp hs₁
      rcases h₀.intern name with ⟨sym', s₁'', hintern', hrep, -⟩ | ⟨hintern', -⟩
      · rw [hintern] at hintern'
        obtain ⟨rfl, rfl⟩ := Prod.mk.inj (Option.some.inj hintern')
        obtain ⟨l, hrep', hmem⟩ := ih _ _ hrep hs
        refine ⟨l, hrep', fun b => ?_⟩
        rw [hmem, mem_added, List.exists_mem_cons_iff, or_assoc, @eq_comm _ b]
      · rw [hintern] at hintern'
        cases hintern'
  obtain ⟨l, hrep, hmem⟩ := hfold _ _ _ hnew h
  refine ⟨l, hrep, fun b => ?_⟩
  rw [hmem]
  exact ⟨fun h' => h'.resolve_left List.not_mem_nil, .inr⟩

end Hash

/-- In every run of an interner, whatever the hash: two operations answer one symbol when their spellings are the
same bytes and only then; every symbol answered resolves, then and ever after, to the spelling it was answered
for; a text is found just when it is reserved or has been interned; and every operation ends, with an answer
unless there is no room for its spelling. -/
theorem Interner.bijective {memory : ℕ → UInt8} {hash : String → BitVec 32} {cap : ℕ} {ops : List (Op memory)}
    {events : List (Op memory × Option Symbol)} {s₀ s : Interner} (h₀ : withCapacity hash cap = some s₀)
    (hrun : s₀.run hash ops = some (events, s)) :
    (∀ event ∈ events, ∀ event' ∈ events, ∀ sym sym', event.2 = some sym → event'.2 = some sym' →
      (sym = sym' ↔ event.1.spelling = event'.1.spelling)) ∧
    (∀ event ∈ events, ∀ sym, event.2 = some sym → s.resolveBytes sym = some event.1.spelling) ∧
    (∀ text, ∃ answer, s.find hash text = some answer ∧
      (answer.isSome ↔ text ∈ RESERVED ∨ ∃ event ∈ events, event.1.interns = true ∧ event.1.spelling = bytes text) ∧
      ∀ sym, answer = some sym → s.resolveBytes sym = some (bytes text)) ∧
    ∀ op : Op memory, (s.step hash op).isSome ∨ Full s op.spelling := by
  obtain ⟨l₀, hrep₀, hmem₀⟩ := withCapacity_represents memory h₀
  obtain ⟨l, hrep, -, hmem, hsym⟩ := hrep₀.run hrun
  refine ⟨fun event he event' he' sym sym' ha ha' => ?_, fun event he sym ha => ?_, fun text => ?_, fun op => ?_⟩
  · have hx := hsym event he sym ha
    have hy := hsym event' he' sym' ha'
    constructor
    · rintro rfl
      exact Option.some.inj (hx.symm.trans hy)
    · intro hspelling
      rw [hspelling] at hx
      exact hrep.stored.eq_of_spelling hx hy
  · exact hrep.stored.resolveBytes (hsym event he sym ha)
  · obtain ⟨answer, hfind, hsome, hanswer⟩ := hrep.find text
    refine ⟨answer, hfind, ?_, fun sym ha => hrep.stored.resolveBytes (hanswer sym ha)⟩
    rw [hsome, hmem, hmem₀]
    simp only [bytes_inj, exists_eq_right]
  · rcases hrep.step op with ⟨answer, s', l', hstep, -⟩ | ⟨-, hfull⟩
    · rw [hstep]
      exact .inl rfl
    · exact .inr hfull

/-- Every text in the last slot of its table, which grows, and a spelling that reads as one of them. -/
theorem Interner.bijective_colliding :
    ∃ s₀ events s, withCapacity (fun _ => 0xFFFFFFFF) 0 = some s₀ ∧
      s₀.run (fun _ => 0xFFFFFFFF)
        ([.intern "a", .internBytes [97], .internBytes [0xFF], .intern "\uFFFD", .find "b"] : List (Op fun _ => 0)) =
          some (events, s) ∧
      (∀ event ∈ events, ∀ event' ∈ events, ∀ sym sym', event.2 = some sym → event'.2 = some sym' →
        (sym = sym' ↔ event.1.spelling = event'.1.spelling)) ∧
      ∀ event ∈ events, ∀ sym, event.2 = some sym → s.resolveBytes sym = some event.1.spelling := by
  have hsome : ((withCapacity (fun _ => 0xFFFFFFFF) 0).bind fun s₀ => s₀.run (fun _ => 0xFFFFFFFF)
      ([.intern "a", .internBytes [97], .internBytes [0xFF], .intern "\uFFFD", .find "b"] :
        List (Op fun _ => 0))).isSome = true := by decide +kernel
  obtain ⟨⟨events, s⟩, h⟩ := Option.isSome_iff_exists.mp hsome
  obtain ⟨s₀, h₀, hrun⟩ := Option.bind_eq_some_iff.mp h
  have hmeans := Interner.bijective h₀ hrun
  exact ⟨s₀, events, s, h₀, hrun, hmeans.1, hmeans.2.1⟩

end Rucc.Base
