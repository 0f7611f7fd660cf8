import Rucc.Lib.ByteMemory

/-!
# The block routines of the runtime

`runtime/rucc-builtins/src/mem.rs`: bytes until the destination is aligned, words while both pointers stay
aligned, and the bytes that are left.

An access that is misaligned or outside what is mapped has no result, and neither has a loop that does not
end. A range a caller may hand over does not wrap around the address space (`Usable`), and no allocation is
large enough for a place in one to overflow a word.
-/

namespace Rucc.Builtins.Mem

/-- What the routines need of a target: how many bytes a word is, a power of two. -/
structure Target where
  word : ℕ
  power : ℕ
  word_eq : word = 2^power

namespace Target

variable (t : Target)

/-- How many addresses there are. -/
def addresses : ℕ := 2^(8 * t.word)

/-- How far an address is below the next aligned one. -/
def alignOffset (address : ℕ) : ℕ := (t.word - address % t.word) % t.word

end Target

/-- One value of `size` bytes read and written. -/
def move (size dest src : ℕ) (m : Memory) : Option Memory := do
  let (l, m) ← m.load size src
  m.store dest l

/-- The loop `while at + size <= stop`, which moves a value and goes up. -/
def moveUp (dest src size stop : ℕ) : ℕ → ℕ → Memory → Option (ℕ × Memory)
  | 0, _, _ => none
  | fuel + 1, i, m =>
    if i + size ≤ stop then do
      let m ← move size (dest + i) (src + i) m
      moveUp dest src size stop fuel (i + size) m
    else some (i, m)

/-- The loop `while at >= stop + size`, which goes down and moves a value. -/
def moveDown (dest src size stop : ℕ) : ℕ → ℕ → Memory → Option (ℕ × Memory)
  | 0, _, _ => none
  | fuel + 1, i, m =>
    if stop + size ≤ i then do
      let m ← move size (dest + (i - size)) (src + (i - size)) m
      moveDown dest src size stop fuel (i - size) m
    else some (i, m)

/-- The loop `while at + size <= stop`, which writes the same value and goes up. -/
def writeUp (dest stop : ℕ) (l : List UInt8) : ℕ → ℕ → Memory → Option (ℕ × Memory)
  | 0, _, _ => none
  | fuel + 1, i, m =>
    if i + l.length ≤ stop then do
      let m ← m.store (dest + i) l
      writeUp dest stop l fuel (i + l.length) m
    else some (i, m)

/-- The loop over aligned words that stops at the first that differs. -/
def sameUp (a b size n : ℕ) : ℕ → ℕ → Memory → Option (ℕ × Memory)
  | 0, _, _ => none
  | fuel + 1, i, m =>
    if i + size ≤ n then do
      let (left, m) ← m.load size (a + i)
      let (right, m) ← m.load size (b + i)
      if left ≠ right then some (i, m) else sameUp a b size n fuel (i + size) m
    else some (i, m)

/-- The loop over bytes, which reports the first that differs. -/
def differ (a b n : ℕ) : ℕ → ℕ → Memory → Option (ℤ × Memory)
  | 0, _, _ => none
  | fuel + 1, i, m =>
    if i < n then do
      let (left, m) ← m.load 1 (a + i)
      let (right, m) ← m.load 1 (b + i)
      if left ≠ right then some ((left.headD 0).toNat - (right.headD 0).toNat, m)
      else differ a b n fuel (i + 1) m
    else some (0, m)

variable (t : Target)

/-- The words of a copy upwards, when the source landed aligned too. Out of phase there are none. -/
def wordsUp (dest src n i : ℕ) (m : Memory) : Option (ℕ × Memory) :=
  if t.alignOffset ((src + i) % t.addresses) = 0 then moveUp dest src t.word n (n + 1) i m
  else some (i, m)

/-- Copies `n` bytes from `src` to `dest`, lowest address first. -/
def copyForward (dest src n : ℕ) (m : Memory) : Option Memory := do
  let head := min (t.alignOffset dest) n
  let (i, m) ← moveUp dest src 1 head (n + 1) 0 m
  let (i, m) ← wordsUp t dest src n i m
  let (_, m) ← moveUp dest src 1 n (n + 1) i m
  some m

/-- How many bytes of a copy downwards come before the last aligned destination. -/
def tail (dest n : ℕ) : ℕ :=
  let past := t.alignOffset ((dest + n) % t.addresses)
  if past = 0 then 0 else min (t.word - past) n

/-- The words of a copy downwards. -/
def wordsDown (dest src n i : ℕ) (m : Memory) : Option (ℕ × Memory) :=
  if t.alignOffset ((src + i) % t.addresses) = 0 then moveDown dest src t.word 0 (n + 1) i m
  else some (i, m)

/-- Copies `n` bytes from `src` to `dest`, highest address first. -/
def copyBackward (dest src n : ℕ) (m : Memory) : Option Memory := do
  let (i, m) ← moveDown dest src 1 (n - tail t dest n) (n + 1) n m
  let (i, m) ← wordsDown t dest src n i m
  let (_, m) ← moveDown dest src 1 0 (n + 1) i m
  some m

/-- Writes `byte` into `n` bytes at `dest`. -/
def fill (dest : ℕ) (byte : UInt8) (n : ℕ) (m : Memory) : Option Memory := do
  let head := min (t.alignOffset dest) n
  let (i, m) ← writeUp dest head [byte] (n + 1) 0 m
  let (i, m) ← writeUp dest n (List.replicate t.word byte) (n + 1) i m
  let (_, m) ← writeUp dest n [byte] (n + 1) i m
  some m

/-- The words of a comparison, only while both are aligned. -/
def wordsSame (a b n : ℕ) (m : Memory) : Option (ℕ × Memory) :=
  if t.alignOffset a = 0 ∧ t.alignOffset b = 0 then sameUp a b t.word n (n + 1) 0 m else some (0, m)

/-- Compares `n` bytes at `a` and `b`: negative when `a` is the smaller at the first place they differ,
positive when `b` is, and zero when there is none. -/
def compare (a b n : ℕ) (m : Memory) : Option (ℤ × Memory) := do
  let (i, m) ← wordsSame t a b n m
  differ a b n (n + 1) i m

/-- `void *memcpy(void *dest, const void *src, size_t n)`. -/
def memcpy (dest src n : ℕ) (m : Memory) : Option (ℕ × Memory) := do
  let m ← copyForward t dest src n m
  some (dest, m)

/-- `void *memmove(void *dest, const void *src, size_t n)`. -/
def memmove (dest src n : ℕ) (m : Memory) : Option (ℕ × Memory) :=
  -- Backward when the destination is inside the source, by the wrapped difference of the addresses.
  if (dest + (t.addresses - src)) % t.addresses < n then (copyBackward t dest src n m).map fun m => (dest, m)
  else (copyForward t dest src n m).map fun m => (dest, m)

/-- `void *memset(void *dest, int c, size_t n)`, of whose value only the low byte is used. -/
def memset (dest : ℕ) (c : ℤ) (n : ℕ) (m : Memory) : Option (ℕ × Memory) := do
  let m ← fill t dest (UInt8.ofNat (c % 256).toNat) n m
  some (dest, m)

/-- `int memcmp(const void *a, const void *b, size_t n)`. -/
def memcmp (a b n : ℕ) (m : Memory) : Option (ℤ × Memory) := compare t a b n m

end Rucc.Builtins.Mem
