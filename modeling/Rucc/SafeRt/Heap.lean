import Rucc.SafeRt.Layout

/-!
# The arena of the checked heap

The functions of `heap.rs`. An arena hands out instances from a region. The memory of the region is kept as
its 64-bit words, each at its address, and the plane as the version of each granule. A function answers
nothing where an operation on `usize` overflows.
-/

namespace Rucc.SafeRt

open Checked

/-- Why a free was refused. -/
inductive Refusal
  | notAnInstance | alreadyEnded | wrongAllocator
  deriving DecidableEq

/-- How many payload sizes there are between one power of two and the next. -/
def STEPS : ℕ := 4

/-- How many size classes get a free list. -/
def CLASSES : ℕ := STEPS - 1 + (64 - 2 - 1) * STEPS

/-- The floor of the base two logarithm of `count`. -/
def magnitude (count : ℕ) : ℕ := Nat.log2 count

/-- How large a payload of `n` bytes is given. -/
def sized (n : ℕ) : Option ℕ := do
  let want ← (if n = 0 then some GRANULE else payload n : Option ℕ)
  let count := want / GRANULE
  if count ≤ STEPS then some want
  else
    let step := 2^(magnitude count - 2)
    let rounded ← checkedWord (divCeil count step * step)
    checkedWord (rounded * GRANULE)

/-- Which free list a payload of `size` belongs to, if any. -/
def classOf (size : ℕ) : Option (Option ℕ) := do
  if size ≠ (← sized size) then some none
  else
    let count := size / GRANULE
    if count = 0 then some none
    else if count ≤ STEPS then some (some (count - 1))
    else
      let step := 2^(magnitude count - 2)
      let within := (count - 2^magnitude count) / step
      some (some (STEPS - 1 + (magnitude count - 2) * STEPS + within))

/-- A region of memory, the instances carved out of it and the plane. -/
structure Arena where
  /-- The words of the region. -/
  mem : ℕ → ℕ
  /-- The version of each granule. -/
  plane : ℕ → ℕ
  /-- The answer the counter of versions gives next. -/
  versions : ℕ
  /-- The answer the counter of instances gives next. -/
  instances : ℕ
  id : ℕ
  base : ℕ
  next : ℕ
  /-- The end of the region. -/
  limit : ℕ
  /-- The head of each class's list of ended blocks, or 0. -/
  free : ℕ → ℕ

/-- The words of a header, which are the four in front of the payload. -/
def readHeader (mem : ℕ → ℕ) (payload : ℕ) : Header where
  ext := mem (payload - 32)
  ver := mem (payload - 24)
  info := mem (payload - 16)
  allocator := mem (payload - 8) % 2^32
  slack := mem (payload - 8) / 2^32

/-- The memory with a header in front of the payload. -/
def writeHeader (mem : ℕ → ℕ) (payload : ℕ) (h : Header) : ℕ → ℕ := fun a =>
  if a = payload - 32 then h.ext
  else if a = payload - 24 then h.ver
  else if a = payload - 16 then h.info
  else if a = payload - 8 then h.allocator + h.slack * 2^32
  else mem a

/-- The memory with zeros over `[lo, lo + len)`. -/
def zeroed (mem : ℕ → ℕ) (lo len : ℕ) : ℕ → ℕ := fun a => if lo ≤ a ∧ a < lo + len then 0 else mem a

namespace Arena

/-- An arena over the zero-filled region `[base, base + len)`, whose instances carry `id`. -/
def new (base len id : ℕ) : Arena where
  mem := fun _ => 0
  plane := fun _ => DEAD
  versions := 1
  instances := 1
  id := id
  base := base
  next := base
  limit := base + len
  free := fun _ => 0

/-- Pops a block sized for `size` off its free list, or 0. -/
def take (s : Arena) (size : ℕ) : Option (ℕ × Arena) := do
  match ← classOf size with
  | none => some (0, s)
  | some c =>
    let block := s.free c
    if block = 0 then some (0, s)
    else
      let link ← payloadOf block size
      some (block, { s with free := Function.update s.free c (s.mem link) })

/-- Pushes an ended block sized for `size` onto its free list. -/
def put (s : Arena) (size block : ℕ) : Option Arena := do
  match ← classOf size with
  | none => some s
  | some c =>
    let link ← payloadOf block size
    some { s with mem := Function.update s.mem link (s.free c), free := Function.update s.free c block }

/-- Carves a fresh block for a payload of `size`, or 0 if the region is exhausted. -/
def bump (s : Arena) (size : ℕ) : Option (ℕ × Arena) := do
  let needed ← block size
  let room ← checkedSub s.limit s.next
  if room < needed then some (0, s)
  else
    let next ← checkedWord (s.next + needed)
    some (s.next, { s with next := next })

/-- The block of a new instance: one off the free list with its aux cleared, or a fresh one. -/
def place (s : Arena) (size : ℕ) : Option (ℕ × Arena) := do
  let (reused, s) ← s.take size
  if reused = 0 then s.bump size
  else
    let bytes ← aux size
    some (reused, { s with mem := zeroed s.mem reused bytes })

/-- The header of a new instance of `n` bytes that is given `size`. -/
def fresh (s : Arena) (n size : ℕ) : Header where
  ext := size
  ver := begun s.versions
  info := Meta.new .allocated (READ + WRITE) s.instances
  allocator := s.id
  slack := if size - n < 2^32 then size - n else 0

/-- A new instance of `n` bytes, or 0 if the region has no room for one. -/
def begin (s : Arena) (n : ℕ) : Option (ℕ × Arena) := do
  let size ← sized n
  let (block, s) ← s.place size
  if block = 0 then some (0, s)
  else
    let payload ← payloadOf block size
    let header := s.fresh n size
    some (payload,
      { s with
        mem := writeHeader s.mem payload header
        plane := fill s.plane payload size header.ver
        versions := (s.versions + 1) % 2^64
        instances := (s.instances + 1) % 2^64 })

/-- Reads and checks the header in front of `payload`. -/
def header (s : Arena) (payload : ℕ) : Option (Except Refusal Header) := do
  if payload % GRANULE ≠ 0 ∨ payload ≤ s.base + HEADER ∨ s.limit < payload then
    some (.error .notAnInstance)
  else
    let header := readHeader s.mem payload
    let size := header.ext
    if Meta.class header.info ≠ Class.allocated.code then some (.error .notAnInstance)
    else if size ≠ (← sized size) then some (.error .notAnInstance)
    else if (← blockOf payload size) < s.base then some (.error .notAnInstance)
    else if s.limit < (← checkedWord (payload + size)) then some (.error .notAnInstance)
    else if header.allocator ≠ s.id then some (.error .wrongAllocator)
    else if Meta.state header.info ≠ State.live.code then some (.error .alreadyEnded)
    else some (.ok header)

/-- The instance at `payload` is over. -/
def end_ (s : Arena) (payload : ℕ) : Option (Except Refusal Unit × Arena) := do
  match ← s.header payload with
  | .error refusal => some (.error refusal, s)
  | .ok header =>
    let size := header.ext
    let version := ended header.ver
    let block ← blockOf payload size
    let s ← { s with
      plane := fill s.plane payload size version
      mem := writeHeader s.mem payload
        { header with ver := version, info := Meta.withState header.info .ended } }.put size block
    some (.ok (), s)

/-- How many bytes the instance at `payload` was given. -/
def extent (s : Arena) (payload : ℕ) : Option (Except Refusal ℕ) := do
  match ← s.header payload with
  | .error refusal => some (.error refusal)
  | .ok header => some (.ok header.ext)

/-- The extent, and from now on the bounds of the instance are all of it. -/
def room (s : Arena) (payload : ℕ) : Option (Except Refusal ℕ × Arena) := do
  match ← s.header payload with
  | .error refusal => some (.error refusal, s)
  | .ok header =>
    if header.slack ≠ 0 then
      some (.ok header.ext, { s with mem := writeHeader s.mem payload { header with slack := 0 } })
    else some (.ok header.ext, s)

/-- Whether the walk finds the first granule of an instance at `addr`: the condition of `each`, where
`version` is what the plane says of the granule and `header` is what is in front of it. -/
def starts (s : Arena) (addr version : ℕ) (header : Header) : Option Bool := do
  if !owned version ∨ header.ver ≠ version ∨ Meta.class header.info ≠ Class.allocated.code
      ∨ Meta.state header.info ≠ State.live.code ∨ header.allocator ≠ s.id then some false
  else if header.ext ≠ (← sized header.ext) then some false
  else some ((← checkedWord (addr + header.ext)) ≤ s.next)

/-- The walk of `each` from `addr` on, over at most `fuel` steps. -/
def eachFrom (s : Arena) : ℕ → ℕ → Option (List (ℕ × ℕ))
  | 0, _ => none
  | fuel + 1, addr =>
    if addr < s.next then do
      let version := s.plane (addr / GRANULE)
      let header := readHeader s.mem addr
      if ← s.starts addr version header then
        let asked ← header.asked
        let rest ← s.eachFrom fuel (addr + header.ext)
        some ((addr, asked) :: rest)
      else
        s.eachFrom fuel (addr + GRANULE)
    else some []

/-- Every instance begun and not ended, as where its payload starts and how many bytes were asked for. -/
def each (s : Arena) : Option (List (ℕ × ℕ)) :=
  s.eachFrom (s.next - s.base + 1) (divCeil (s.base + HEADER) GRANULE * GRANULE)

end Arena

end Rucc.SafeRt
