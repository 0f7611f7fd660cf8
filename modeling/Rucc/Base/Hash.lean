import Mathlib.Data.Nat.Digits.Defs
import Mathlib.Tactic

/-!
# A hasher for small keys

The `Mix` of `rucc-base`'s `hash.rs`: a rotate, an exclusive or and a multiply for each word, and eight bytes of
a name to a word.
-/

namespace Rucc.Base

/-- The number some bytes are with the least significant first. -/
def fromLeBytes (bytes : List UInt8) : ℕ := Nat.ofDigits 256 (bytes.map UInt8.toNat)

/-- What has been hashed so far. -/
structure Mix where
  state : BitVec 64
  deriving DecidableEq

namespace Mix

/-- A hasher that has hashed nothing. -/
def new : Mix := ⟨0⟩

def mix (hash : Mix) (word : BitVec 64) : Mix := ⟨(hash.state.rotateLeft 5 ^^^ word) * 0x9e3779b97f4a7c15⟩

/-- One to seven bytes as the little endian word they are the bottom of. -/
def shortWord (bytes : List UInt8) : BitVec 64 :=
  let len := bytes.length
  if 4 ≤ len then
    let low := BitVec.ofNat 64 (fromLeBytes (bytes.take 4))
    let high := BitVec.ofNat 64 (fromLeBytes (bytes.drop (len - 4)))
    low ||| high <<< (8 * (len - 4))
  else
    let middle := len / 2
    let byte (i : ℕ) := BitVec.ofNat 64 (bytes.getD i 0).toNat
    byte 0 ||| byte middle <<< (8 * middle) ||| byte (len - 1) <<< (8 * (len - 1))

/-- Hashes some bytes, eight at a time and then what is left. -/
def write (hash : Mix) : List UInt8 → Mix
  | b₀ :: b₁ :: b₂ :: b₃ :: b₄ :: b₅ :: b₆ :: b₇ :: rest =>
    write (hash.mix (BitVec.ofNat 64 (fromLeBytes [b₀, b₁, b₂, b₃, b₄, b₅, b₆, b₇]))) rest
  | [] => hash
  | rest => hash.mix (shortWord rest)

def writeUsize (hash : Mix) (word : ℕ) : Mix := hash.mix (BitVec.ofNat 64 word)

def finish (hash : Mix) : BitVec 64 := hash.state

end Mix

end Rucc.Base
