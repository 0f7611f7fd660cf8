import Rucc.Lib.Checked
import Rucc.Lib.Yields

/-!
# Huffman codes

The code lengths and the canonical codes of `zlib.rs`: a Huffman tree built with two queues, its depths brought
back to a limit, and the lengths that come of it given out to the symbols again. A panic is nothing, and a parent
of `usize::MAX` is no parent.
-/

namespace Rucc.Object

open Checked

/-- A count for a symbol that has none, where fewer than two have one. -/
def seed (freq : List ℕ) (sym : ℕ) : List ℕ :=
  if 2 ≤ freq.countP fun count => 0 < count then freq
  else if freq.getD sym 0 = 0 then freq.set sym 1
  else freq

/-- The counts with more of them wherever there are fewer than two. -/
def seeded (freq : List ℕ) : List ℕ := (List.range freq.length).foldl seed freq

/-- The symbols that appear, least frequent first. -/
def appearing (freq : List ℕ) : List ℕ :=
  ((List.range freq.length).filter fun sym => 0 < freq.getD sym 0).mergeSort fun a b =>
    freq.getD a 0 < freq.getD b 0 || (freq.getD a 0 = freq.getD b 0 && a ≤ b)

/-- A Huffman tree on the way. The leaves are in front of the joined nodes, and both are in order of weight, so
that the lowest two are at the front of one queue or the other. -/
structure Forest where
  weight : List ℕ
  parent : List (Option ℕ)
  leaf : ℕ
  node : ℕ

namespace Forest

/-- The lowest of what is left in the two queues. -/
def take (n : ℕ) (f : Forest) : ℕ × Forest :=
  if f.leaf < n ∧ (f.weight.length ≤ f.node ∨ f.weight.getD f.leaf 0 ≤ f.weight.getD f.node 0) then
    (f.leaf, { f with leaf := f.leaf + 1 })
  else (f.node, { f with node := f.node + 1 })

/-- The forest with the two lowest joined. -/
def join (n : ℕ) (f : Forest) : Option Forest := do
  let (a, f) := f.take n
  let (b, f) := f.take n
  let x ← f.weight[a]?
  let y ← f.weight[b]?
  let parent ← put f.parent a (some f.weight.length)
  let parent ← put parent b (some f.weight.length)
  return { f with weight := f.weight ++ [x + y], parent := parent }

/-- How far each node is from the root, which was joined last. -/
def depths (f : Forest) : Option (List ℕ) := do
  let root ← checkedSub f.weight.length 1
  (List.range root).reverse.foldlM (fun depth at_ => do
    let parent ← f.parent[at_]?
    let parent ← parent
    let above ← depth[parent]?
    put depth at_ (above + 1)) (List.replicate f.weight.length 0)

end Forest

/-- One more code of a length, or of the limit where the length is past it. -/
def tally (limit : ℕ) (count : List ℕ) (depth : ℕ) : Option (List ℕ) := do
  let many ← count[min depth limit]?
  put count (min depth limit) (many + 1)

/-- How much of the codes of the longest length is used up. -/
def kraft (count : List ℕ) (limit : ℕ) : ℕ := ∑ len ∈ Finset.Icc 1 limit, count.getD len 0 * 2^(limit - len)

/-- The longest length below the limit that has a code. -/
def shorter (limit : ℕ) (count : List ℕ) : Option ℕ :=
  (List.range' 1 (limit - 1)).reverse.find? fun len => 0 < count.getD len 0

/-- The counts with a code of one length less and two of the next length more. -/
def split (count : List ℕ) (len : ℕ) : Option (List ℕ) := do
  let count ← put count len (count.getD len 0 - 1)
  let many ← count[len + 1]?
  put count (len + 1) (many + 2)

/-- The counts with one code of the longest length less, and a shorter one pushed down a level. -/
def pushDown (limit : ℕ) (count : List ℕ) : Option (List ℕ) := do
  let many ← count[limit]?
  let many ← checkedSub many 1
  let count ← put count limit many
  match shorter limit count with
  | none => return count
  | some len => split count len

/-- Pushes codes down until they fit. Every round brings the total down by one. -/
def repair (limit : ℕ) : ℕ → List ℕ → ℕ → Option (List ℕ)
  | 0, count, total => if 2^limit < total then none else some count
  | rounds + 1, count, total =>
    if 2^limit < total then do
      let count ← pushDown limit count
      repair limit rounds count (total - 1)
    else some count

/-- The lengths in order, as many of each as are counted. -/
def inOrder (count : List ℕ) : List ℕ :=
  (List.range' 1 (count.length - 1)).flatMap fun len => List.replicate (count.getD len 0) len

/-- Gives a length to the next symbol. -/
def give : List ℕ × List ℕ → ℕ → Option (List ℕ × List ℕ)
  | ([], _), _ => none
  | (sym :: next, lens), len => do
    let lens ← put lens sym len
    return (next, lens)

/-- Huffman code lengths for the counts, none longer than the limit. -/
def lengths (freq : List ℕ) (limit : ℕ) : Option (List ℕ) := do
  let freq := seeded freq
  let syms := appearing freq
  let n := syms.length
  let joins ← checkedSub n 1
  let forest ← (List.range joins).foldlM (fun (f : Forest) _ => f.join n)
    ⟨syms.map fun sym => freq.getD sym 0, List.replicate (2 * n) none, 0, n⟩
  let depth ← forest.depths
  let count ← (depth.take n).foldlM (tally limit) (List.replicate (limit + 1) 0)
  let total := kraft count limit
  let count ← repair limit (total - 2^limit) count total
  -- shortest codes to the most frequent symbols
  let (_, lens) ← (inOrder count).foldlM give (syms.reverse, List.replicate freq.length 0)
  return lens

/-- The low bits of a number, the other way round. -/
def reverseBits : ℕ → ℕ → ℕ
  | 0, _ => 0
  | n + 1, v => v % 2 * 2^n + reverseBits n (v / 2)

/-- How many codes there are of each length, and none of length zero. -/
def tallied (lens : List ℕ) : Option (List ℕ) := do
  let count ← lens.foldlM (fun count len => do
    let many ← count[len]?
    put count len (many + 1)) (List.replicate 16 0)
  return count.set 0 0

/-- The first code of each length. -/
def firsts (count : List ℕ) : List ℕ :=
  ((List.range' 1 15).foldl (fun (next, code) len =>
    (next.set len (2 * (code + count.getD (len - 1) 0)), 2 * (code + count.getD (len - 1) 0)))
    (List.replicate 16 0, 0)).1

/-- The code of the next symbol, from the next one of each length. -/
def nextCode : List ℕ × List ℕ → ℕ → Option (List ℕ × List ℕ)
  | (next, out), len =>
    if len = 0 then some (next, out ++ [0])
    else do
      let code ← next[len]?
      let next ← put next len (code + 1)
      return (next, out ++ [reverseBits 32 code >>> (32 - len)])

/-- The canonical codes for the lengths, with their bits the other way round. -/
def codes (lens : List ℕ) : Option (List ℕ) := do
  let count ← tallied lens
  let (_, out) ← lens.foldlM nextCode (firsts count, [])
  return out

end Rucc.Object
