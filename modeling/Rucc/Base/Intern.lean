import Mathlib.Data.Nat.Log
import Rucc.Base.Hash

/-!
# String interning

The interner of `rucc-base`'s `intern.rs`: every text end to end in one buffer, where each symbol's starts and
stops in it, and an open addressed table from a text to its symbol. A spelling that is not text has its lossy
reading in the buffer and its bytes in a map of their own, and is in no slot of the table.

A `str` is a `String` and a slice of bytes a list. The hash maps are functions from their keys, and a `none` is
a panic: an index out of range, a slice that does not begin and end between characters, or a number that does
not fit in the type it is converted to. The hash of a text is a parameter throughout, and `tag` is the one the
interner is built with.
-/

namespace Rucc.Base

/-- An interned string, by the order it was interned in. -/
structure Symbol where
  raw : ℕ
  deriving DecidableEq

/-! ## Texts and bytes -/

/-- The bytes of a text. -/
def bytes (text : String) : List UInt8 := text.toByteArray.data.toList

/-- The text that some bytes are, if they are one. -/
def fromUtf8 (b : List UInt8) : Option String := String.fromUTF8? ⟨b.toArray⟩

/-- The part of a text between two byte offsets, which have to be between characters. -/
def slice (text : String) (start stop : ℕ) : Option String :=
  if String.Pos.Raw.IsValid text ⟨start⟩ ∧ String.Pos.Raw.IsValid text ⟨stop⟩ ∧ start ≤ stop then
    fromUtf8 (((bytes text).take stop).drop start)
  else none

/-- The bytes of a text between two offsets. -/
def byteSlice (text : String) (start stop : ℕ) : Option (List UInt8) :=
  if start ≤ stop ∧ stop ≤ text.utf8ByteSize then some (((bytes text).take stop).drop start) else none

/-- Whether a byte can go on with the character that another starts. -/
def follows (first second : UInt8) : Bool :=
  if 0xC2 ≤ first ∧ first ≤ 0xDF then 0x80 ≤ second ∧ second ≤ 0xBF
  else if first = 0xE0 then 0xA0 ≤ second ∧ second ≤ 0xBF
  else if first = 0xED then 0x80 ≤ second ∧ second ≤ 0x9F
  else if 0xE1 ≤ first ∧ first ≤ 0xEF then 0x80 ≤ second ∧ second ≤ 0xBF
  else if first = 0xF0 then 0x90 ≤ second ∧ second ≤ 0xBF
  else if first = 0xF4 then 0x80 ≤ second ∧ second ≤ 0x8F
  else if 0xF1 ≤ first ∧ first ≤ 0xF3 then 0x80 ≤ second ∧ second ≤ 0xBF
  else false

/-- How many of some bytes that do not start with a character one replacement stands for. -/
def malformed : List UInt8 → ℕ
  | first :: second :: third :: _ =>
    if !follows first second then 1 else if 0xF0 ≤ first ∧ 0x80 ≤ third ∧ third ≤ 0xBF then 3 else 2
  | [first, second] => if !follows first second then 1 else 2
  | _ => 1

/-- The lossy reading of some bytes, of which there are no more than the fuel. -/
def lossyFrom : ℕ → List UInt8 → String
  | 0, _ => ""
  | _, [] => ""
  | fuel + 1, b =>
    match ByteArray.utf8DecodeChar? ⟨b.toArray⟩ 0 with
    | some c => String.singleton c ++ lossyFrom fuel (b.drop c.utf8Size)
    | none => "\uFFFD" ++ lossyFrom fuel (b.drop (malformed b))

/-- The text of some bytes, with what is no character in them replaced. -/
def fromUtf8Lossy (b : List UInt8) : String := lossyFrom b.length b

/-! ## The table -/

/-- The high half of the hash of a text. -/
def tag (text : String) : BitVec 32 :=
  (((Mix.new.write (bytes text)).writeUsize text.utf8ByteSize).finish >>> 32).setWidth 32

/-- Whether two spellings are the same bytes, read as two words that may overlap when they are short. -/
def same (a b : List UInt8) : Bool :=
  let len := a.length
  let word (s : List UInt8) (i : ℕ) := fromLeBytes ((s.drop i).take 8)
  let half (s : List UInt8) (i : ℕ) := fromLeBytes ((s.drop i).take 4)
  if len ≠ b.length then false
  else if 8 ≤ len ∧ len ≤ 16 then word a 0 = word b 0 ∧ word a (len - 8) = word b (len - 8)
  else if 4 ≤ len ∧ len ≤ 7 then half a 0 = half b 0 ∧ half a (len - 4) = half b (len - 4)
  else if 1 ≤ len ∧ len ≤ 3 then
    a[0]? = b[0]? ∧ a[len / 2]? = b[len / 2]? ∧ a[len - 1]? = b[len - 1]?
  else a = b

/-- Where a tag starts in a table of one more slot than the mask. The product is one of 64 bits. -/
def slot (tag : BitVec 32) (mask : ℕ) : ℕ :=
  ((tag.setWidth 64 * BitVec.ofNat 64 (mask + 1)) >>> 32).toNat

/-- A slot: the tag of a text and the index of its symbol plus one, which is zero in a slot nothing is in. -/
abbrev Slot := BitVec 32 × ℕ

/-- The first slot that nothing is in, from one slot on. -/
def vacantSlot (table : List Slot) (mask : ℕ) : ℕ → ℕ → Option ℕ
  | 0, _ => none
  | fuel + 1, i => do
    let entry ← table[i]?
    if entry.2 ≠ 0 then vacantSlot table mask fuel ((i + 1) &&& mask) else some i

/-- A slot of the old table, copied into the new one unless nothing is in it. -/
def regrow (mask : ℕ) (table : List Slot) (entry : Slot) : Option (List Slot) :=
  if entry.2 ≠ 0 then do
    let i ← vacantSlot table mask table.length (slot entry.1 mask)
    some (table.set i entry)
  else some table

/-! ## The interner -/

/-- A number that has to fit in 32 bits. -/
def u32 (n : ℕ) : Option ℕ := if n < 2^32 then some n else none

/-- The symbol of this index, which has to leave room for a bias of one. -/
def fromUsize (n : ℕ) : Option Symbol := if n ≤ 2^32 - 2 then some ⟨n⟩ else none

/-- An append-only set of strings, each mapped to a symbol. -/
structure Interner where
  buf : String
  spans : List (ℕ × ℕ)
  table : List Slot
  raw : Symbol → Option (List UInt8)
  rawMap : List UInt8 → Option Symbol
  joined : ℕ × ℕ × ℕ × ℕ → Option Symbol

/-- A text that is in the program's memory for as long as it runs. -/
structure StaticStr (memory : ℕ → UInt8) where
  addr : ℕ
  text : String
  held : bytes text = (List.range text.utf8ByteSize).map fun i => memory (addr + i)

namespace Interner

/-- The names every interner is built with. -/
def RESERVED : List String :=
  ["__va_list_tag", "gp_offset", "fp_offset", "overflow_arg_area", "reg_save_area", "__va_list", "__stack",
    "__gr_top", "__vr_top", "__gr_offs", "__vr_offs", "__VA_ARGS__", "__VA_OPT__", "0", "1"]

/-- Whether the text of a slot is this one. -/
def holds (s : Interner) (text : String) (tag : BitVec 32) (entry : Slot) : Option Bool :=
  if entry.1 = tag then do
    let span ← s.spans[entry.2 - 1]?
    let spelling ← byteSlice s.buf span.1 span.2
    some (same spelling (bytes text))
  else some false

/-- The symbol a text is in the table as, or the slot it would go in, from one slot on. -/
def probeFrom (s : Interner) (text : String) (tag : BitVec 32) (mask : ℕ) : ℕ → ℕ → Option (Except ℕ Symbol)
  | 0, _ => none
  | fuel + 1, i => do
    let entry ← s.table[i]?
    if entry.2 = 0 then some (.error i)
    else
      match ← s.holds text tag entry with
      | true => (fromUsize (entry.2 - 1)).map .ok
      | false => probeFrom s text tag mask fuel ((i + 1) &&& mask)

/-- The symbol a text is in the table as, or the slot it would go in. A probe that looks at every slot of the
table and ends at none of them never ends. -/
def probe (s : Interner) (text : String) (tag : BitVec 32) : Option (Except ℕ Symbol) :=
  let mask := s.table.length - 1
  s.probeFrom text tag mask s.table.length (slot tag mask)

/-- Doubles the table. -/
def grow (s : Interner) : Option Interner := do
  let size := s.table.length * 2
  let table ← s.table.foldlM (regrow (size - 1)) (List.replicate size (0, 0))
  some { s with table := table }

section Hash

variable (hash : String → BitVec 32)

/-- Interns a text. -/
def intern (s : Interner) (text : String) : Option (Symbol × Interner) := do
  match ← s.probe text (hash text) with
  | .ok sym => some (sym, s)
  | .error i =>
    let start ← u32 s.buf.utf8ByteSize
    let buf := s.buf ++ text
    let stop ← u32 buf.utf8ByteSize
    let sym ← fromUsize s.spans.length
    let spans := s.spans ++ [(start, stop)]
    let index ← u32 spans.length
    let s' := { s with buf := buf, spans := spans, table := s.table.set i (hash text, index) }
    if s'.spans.length * 2 > s'.table.length then s'.grow.map fun s'' => (sym, s'') else some (sym, s')

/-- Interns one text followed by another. -/
def join {memory : ℕ → UInt8} (s : Interner) (first name : StaticStr memory) : Option (Symbol × Interner) :=
  let key := (first.addr, first.text.utf8ByteSize, name.addr, name.text.utf8ByteSize)
  match s.joined key with
  | some sym => some (sym, s)
  | none => do
    let (sym, s') ← s.intern hash (first.text ++ name.text)
    some (sym, { s' with joined := Function.update s'.joined key (some sym) })

/-- Interns a spelling that may not be text. -/
def internBytes (s : Interner) (b : List UInt8) : Option (Symbol × Interner) :=
  match fromUtf8 b with
  | some text => s.intern hash text
  | none =>
    match s.rawMap b with
    | some sym => some (sym, s)
    | none => do
      let start ← u32 s.buf.utf8ByteSize
      let buf := s.buf ++ fromUtf8Lossy b
      let stop ← u32 buf.utf8ByteSize
      let sym ← fromUsize s.spans.length
      some (sym, { s with
        buf := buf, spans := s.spans ++ [(start, stop)], raw := Function.update s.raw sym (some b),
        rawMap := Function.update s.rawMap b (some sym) })

/-- The symbol a text was interned as, if any. -/
def find (s : Interner) (text : String) : Option (Option Symbol) :=
  (s.probe text (hash text)).map Except.toOption

/-- The text behind a symbol. -/
def resolve (s : Interner) (sym : Symbol) : Option String := do
  let span ← s.spans[sym.raw]?
  slice s.buf span.1 span.2

/-- The bytes behind a symbol. -/
def resolveBytes (s : Interner) (sym : Symbol) : Option (List UInt8) :=
  match s.raw sym with
  | some b => some b
  | none => (s.resolve sym).map bytes

/-- The least power of two that is no less. -/
def nextPowerOfTwo (n : ℕ) : ℕ := 2^Nat.clog 2 n

/-- An interner with room for some strings, which holds the reserved names. A table too large to allocate is a
panic. -/
def withCapacity (cap : ℕ) : Option Interner :=
  let cap := max cap RESERVED.length
  if nextPowerOfTwo (cap * 2) * 8 < 2^63 then
    RESERVED.foldlM (fun s name => (s.intern hash name).map Prod.snd)
      ⟨"", [], List.replicate (nextPowerOfTwo (cap * 2)) (0, 0), fun _ => none, fun _ => none, fun _ => none⟩
  else none

/-- An interner holding the reserved names and nothing else. -/
def new : Option Interner := withCapacity hash RESERVED.length

/-! ## Runs -/

/-- What an interner is asked. -/
inductive Op (memory : ℕ → UInt8)
  | intern (text : String)
  | internBytes (b : List UInt8)
  | join (first name : StaticStr memory)
  | find (text : String)

variable {memory : ℕ → UInt8}

/-- The spelling an operation is about. -/
def Op.spelling : Op memory → List UInt8
  | .intern text => bytes text
  | .internBytes b => b
  | .join first name => bytes first.text ++ bytes name.text
  | .find text => bytes text

/-- Whether an operation interns its spelling. -/
def Op.interns : Op memory → Bool
  | .find _ => false
  | _ => true

/-- One operation, with the symbol it answers. -/
def step (s : Interner) : Op memory → Option (Option Symbol × Interner)
  | .intern text => (s.intern hash text).map fun x => (some x.1, x.2)
  | .internBytes b => (s.internBytes hash b).map fun x => (some x.1, x.2)
  | .join first name => (s.join hash first name).map fun x => (some x.1, x.2)
  | .find text => (s.find hash text).map fun x => (x, s)

/-- A sequence of operations, each with its answer. -/
def run (s : Interner) : List (Op memory) → Option (List (Op memory × Option Symbol) × Interner)
  | [] => some ([], s)
  | op :: ops => do
    let (answer, s') ← s.step hash op
    let (events, s'') ← s'.run ops
    some ((op, answer) :: events, s'')

end Hash

end Interner

end Rucc.Base
