import Mathlib.Order.Interval.Set.Basic
import Mathlib.Tactic

/-!
# A memory of bytes

A memory maps some addresses to bytes and remembers which addresses were read and which were written. An
access of several bytes has to be aligned to its size and to stay inside what is mapped; otherwise there is
no result. What it reads or writes is the list of its bytes in the order of their addresses, so nothing here
depends on which of them a machine word takes for its lowest.

`Copied` says what a copy of some bytes from one place to another did, whatever the order they were copied in
and the overlap of the two places.
-/

namespace Rucc

/-- The bytes at the mapped addresses, and the addresses accessed so far. -/
structure Memory where
  bytes : ℕ → Option UInt8
  reads : List ℕ
  writes : List ℕ

namespace Memory

variable {m m' m'' : Memory} {address size : ℕ}

variable {dest src : ℕ} {value : ℕ → Option UInt8} {places places' : Set ℕ} {safe : Prop}

/-- Every one of `n` bytes from an address on is mapped. -/
def Mapped (m : Memory) (address n : ℕ) : Prop := ∀ i < n, (m.bytes (address + i)).isSome

instance (m : Memory) (address n : ℕ) : Decidable (m.Mapped address n) :=
  inferInstanceAs (Decidable (∀ i < n, (m.bytes (address + i)).isSome))

/-- The addresses of `n` bytes. -/
def span (address n : ℕ) : List ℕ := (List.range n).map (address + ·)

/-- The bytes of an aligned value of `size` bytes. -/
def load (m : Memory) (size address : ℕ) : Option (List UInt8 × Memory) :=
  if address % size = 0 ∧ m.Mapped address size then
    some ((span address size).map fun a => (m.bytes a).getD 0, { m with reads := span address size ++ m.reads })
  else none

/-- The memory with an aligned value put in it. -/
def store (m : Memory) (address : ℕ) (l : List UInt8) : Option Memory :=
  if address % l.length = 0 ∧ m.Mapped address l.length then
    some { m with
      bytes := fun b => if address ≤ b ∧ b < address + l.length then l[b - address]? else m.bytes b
      writes := span address l.length ++ m.writes }
  else none

theorem mem_span {n a : ℕ} : a ∈ span address n ↔ ∃ i < n, a = address + i := by
  unfold span
  rw [List.mem_map]
  refine exists_congr fun i => ?_
  rw [List.mem_range, eq_comm]

theorem Mapped.mono {n i k : ℕ} (h : m.Mapped address n) (hle : i + k ≤ n) : m.Mapped (address + i) k := by
  intro j hj
  rw [Nat.add_assoc]
  exact h _ (by omega)

theorem Mapped.getD {n i : ℕ} (h : m.Mapped address n) (hi : i < n) :
    some ((m.bytes (address + i)).getD 0) = m.bytes (address + i) := by
  obtain ⟨b, hb⟩ := Option.isSome_iff_exists.mp (h i hi)
  rw [hb]
  rfl

/-- A mapped value is read, byte for byte. -/
theorem load_eq (halign : address % size = 0) (hmapped : m.Mapped address size) : m.load size address =
      some ((span address size).map fun a => (m.bytes a).getD 0,
        { m with reads := span address size ++ m.reads }) := if_pos ⟨halign, hmapped⟩

/-- A mapped value is written. -/
theorem store_eq {l : List UInt8} (halign : address % l.length = 0) (hmapped : m.Mapped address l.length) :
    m.store address l = some { m with
      bytes := fun b => if address ≤ b ∧ b < address + l.length then l[b - address]? else m.bytes b
      writes := span address l.length ++ m.writes } := if_pos ⟨halign, hmapped⟩

/-! ## Bytes written -/

/-- What writing the byte `value i` at place `i` of a stretch, for each place of a set, did to a memory. -/
structure Written (dest : ℕ) (value : ℕ → Option UInt8) (places : Set ℕ) (m m' : Memory) : Prop where
  content : ∀ i ∈ places, m'.bytes (dest + i) = value i
  frame : ∀ a, (∀ i ∈ places, a ≠ dest + i) → m'.bytes a = m.bytes a
  mapped : ∀ a, (m.bytes a).isSome → (m'.bytes a).isSome
  reads : m'.reads = m.reads
  writes : ∀ a, a ∈ m'.writes ↔ a ∈ m.writes ∨ ∃ i ∈ places, a = dest + i

theorem Written.mapped_span {address n : ℕ}
    (h : Written dest value places m m') (hm : m.Mapped address n) : m'.Mapped address n :=
  fun i hi => h.mapped _ (hm i hi)

theorem Written.empty (dest : ℕ) (value : ℕ → Option UInt8) (m : Memory) : Written dest value ∅ m m :=
  ⟨fun _ h => h.elim, fun _ _ => rfl, fun _ h => h, rfl, fun a => by simp⟩

theorem Written.trans (h : Written dest value places m m') (h' : Written dest value places' m' m'') :
    Written dest value (places ∪ places') m m'' where
  content := by
    intro i hi
    by_cases hi' : i ∈ places'
    · exact h'.content i hi'
    · rw [h'.frame _ fun j hj heq => hi' ((Nat.add_left_cancel heq : i = j) ▸ hj)]
      exact h.content i (hi.resolve_right hi')
  frame := fun a ha => (h'.frame a fun i hi => ha i (Or.inr hi)).trans (h.frame a fun i hi => ha i (Or.inl hi))
  mapped := fun a ha => h'.mapped a (h.mapped a ha)
  reads := h'.reads.trans h.reads
  writes := fun a => by
    rw [h'.writes, h.writes, or_assoc]
    simp only [Set.mem_union, or_and_right, exists_or]

/-- One value written. -/
theorem store_written {dest i n : ℕ} {l : List UInt8} (hm : m.Mapped dest n) (hi : i + l.length ≤ n)
    (halign : (dest + i) % l.length = 0) {value : ℕ → Option UInt8}
    (hvalue : ∀ j < l.length, l[j]? = value (i + j)) :
    ∃ m', m.store (dest + i) l = some m' ∧ Written dest value (Set.Ico i (i + l.length)) m m' := by
  refine ⟨_, store_eq halign (hm.mono hi), ?_, ?_, ?_, rfl, ?_⟩
  · intro j hj
    dsimp only
    rw [if_pos (by have := hj.1; have := hj.2; omega)]
    obtain ⟨k, rfl⟩ := Nat.exists_eq_add_of_le hj.1
    have hk : dest + (i + k) - (dest + i) = k := by omega
    rw [hk]
    exact hvalue k (by have := hj.2; omega)
  · intro a ha
    refine if_neg fun hin => ha (a - dest) ?_ (by omega)
    exact ⟨by omega, by omega⟩
  · intro a ha
    dsimp only
    split_ifs with hin
    · rw [List.getElem?_eq_getElem (by omega)]
      rfl
    · exact ha
  · intro a
    rw [List.mem_append, mem_span, or_comm]
    refine or_congr_right ⟨?_, ?_⟩
    · rintro ⟨k, hk, rfl⟩
      exact ⟨i + k, ⟨by omega, by omega⟩, by omega⟩
    · rintro ⟨j, ⟨hlo, hhi⟩, rfl⟩
      exact ⟨j - i, by omega, by omega⟩

/-! ## Bytes copied -/

/-- What copying the bytes at some places from one stretch to another did to a memory: the places were read
and written, nothing else was, and where the copy was safe each holds what was there to be copied. -/
structure Copied (safe : Prop) (dest src : ℕ) (places : Set ℕ) (m m' : Memory) : Prop where
  content : safe → ∀ i ∈ places, m'.bytes (dest + i) = m.bytes (src + i)
  frame : ∀ a, (∀ i ∈ places, a ≠ dest + i) → m'.bytes a = m.bytes a
  mapped : ∀ a, (m.bytes a).isSome → (m'.bytes a).isSome
  reads : ∀ a, a ∈ m'.reads ↔ a ∈ m.reads ∨ ∃ i ∈ places, a = src + i
  writes : ∀ a, a ∈ m'.writes ↔ a ∈ m.writes ∨ ∃ i ∈ places, a = dest + i

theorem Copied.mapped_span {address n : ℕ}
    (h : Copied safe dest src places m m') (hm : m.Mapped address n) : m'.Mapped address n :=
  fun i hi => h.mapped _ (hm i hi)

theorem Copied.empty (safe : Prop) (dest src : ℕ) (m : Memory) : Copied safe dest src ∅ m m :=
  ⟨fun _ _ h => h.elim, fun _ _ => rfl, fun _ h => h, fun a => by simp, fun a => by simp⟩

/-- Two copies, the first of which wrote over nothing that the second had yet to read. -/
theorem Copied.trans (h : Copied safe dest src places m m') (h' : Copied safe dest src places' m' m'')
    (hsafe : safe → ∀ j ∈ places', ∀ i ∈ places, src + j ≠ dest + i) :
    Copied safe dest src (places ∪ places') m m'' where
  content := by
    intro hs i hi
    by_cases hi' : i ∈ places'
    · exact (h'.content hs i hi').trans (h.frame _ (hsafe hs i hi'))
    · rw [h'.frame _ fun j hj heq => hi' ((Nat.add_left_cancel heq : i = j) ▸ hj)]
      exact h.content hs i (hi.resolve_right hi')
  frame := fun a ha => (h'.frame a fun i hi => ha i (Or.inr hi)).trans (h.frame a fun i hi => ha i (Or.inl hi))
  mapped := fun a ha => h'.mapped a (h.mapped a ha)
  reads := fun a => by
    rw [h'.reads, h.reads, or_assoc]
    simp only [Set.mem_union, or_and_right, exists_or]
  writes := fun a => by
    rw [h'.writes, h.writes, or_assoc]
    simp only [Set.mem_union, or_and_right, exists_or]

/-- One value read from one place and written to the other. -/
theorem copy_copied {safe : Prop} {dest src i n : ℕ} (hdest : m.Mapped dest n) (hsrc : m.Mapped src n)
    (hi : i + size ≤ n) (hdest' : (dest + i) % size = 0) (hsrc' : (src + i) % size = 0) :
    ∃ l m₁ m', m.load size (src + i) = some (l, m₁) ∧ m₁.store (dest + i) l = some m' ∧
      Copied safe dest src (Set.Ico i (i + size)) m m' := by
  have hload := load_eq hsrc' (hsrc.mono hi)
  have hlen : ((span (src + i) size).map fun a => (m.bytes a).getD 0).length = size := by simp [span]
  have hvalue (j : ℕ) (hj : j < ((span (src + i) size).map fun a => (m.bytes a).getD 0).length) :
      ((span (src + i) size).map fun a => (m.bytes a).getD 0)[j]? = m.bytes (src + (i + j)) := by
    rw [hlen] at hj
    rw [List.getElem?_map, span, List.getElem?_map, List.getElem?_range hj, Option.map_some, Option.map_some,
      (hsrc.mono hi).getD hj, Nat.add_assoc]
  obtain ⟨m', hstore, hw⟩ := @store_written { m with reads := span (src + i) size ++ m.reads } dest i n _
    hdest (by rwa [hlen]) (by rwa [hlen]) (fun j => m.bytes (src + j)) hvalue
  rw [hlen] at hw
  refine ⟨_, _, m', hload, hstore, fun _ => hw.content, hw.frame, hw.mapped, fun a => ?_, hw.writes⟩
  rw [hw.reads, List.mem_append, mem_span, or_comm]
  refine or_congr_right ⟨?_, ?_⟩
  · rintro ⟨k, hk, rfl⟩
    exact ⟨i + k, ⟨by omega, by omega⟩, by omega⟩
  · rintro ⟨j, ⟨hlo, hhi⟩, rfl⟩
    exact ⟨j - i, by omega, by omega⟩

end Memory

end Rucc
