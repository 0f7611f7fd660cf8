import Mathlib.Order.Interval.Set.LinearOrder
import Rucc.Builtins.Mem

/-!
# The block routines are exact

Each loop of `Rucc.Builtins.Mem` accesses the places from where it starts to where it ends and no others
(`moveUp_spec`, `moveDown_spec`, `writeUp_spec`), and the places of a routine's loops follow on from one
another. A copy upwards is safe when it writes nothing it has yet to read, which is so unless the destination
begins inside the source, and a copy downwards unless the source begins inside the destination.
-/

namespace Rucc.Builtins.Mem

open Memory

/-- A range a caller may hand over: all of it is mapped, and it does not go round the address space. -/
structure Usable (t : Target) (m : Memory) (address n : ℕ) : Prop where
  mapped : m.Mapped address n
  inside : address + n ≤ t.addresses

/-- The destination does not begin inside the source. -/
def Ascending (dest src n : ℕ) : Prop := dest ≤ src ∨ src + n ≤ dest

/-- The source does not begin inside the destination. -/
def Descending (dest src n : ℕ) : Prop := src ≤ dest ∨ dest + n ≤ src

/-! ## Alignment -/

namespace Target

variable (t : Target)

theorem word_pos : 0 < t.word := by
  rw [t.word_eq]
  exact Nat.two_pow_pos _

theorem word_dvd : t.word ∣ t.addresses := by
  have hlt : t.power < 2^t.power := Nat.lt_two_pow_self
  unfold addresses
  rw [t.word_eq]
  exact pow_dvd_pow 2 (by omega)

theorem alignOffset_lt (address : ℕ) : t.alignOffset address < t.word := Nat.mod_lt _ t.word_pos

theorem add_alignOffset (address : ℕ) : (address + t.alignOffset address) % t.word = 0 := by
  have hlt := Nat.mod_lt address t.word_pos
  have hsum : address % t.word + (t.word - address % t.word) = t.word := by omega
  unfold alignOffset
  rw [Nat.add_mod_mod, ← Nat.mod_add_mod, hsum, Nat.mod_self]

theorem alignOffset_eq_zero {address : ℕ} : t.alignOffset address = 0 ↔ address % t.word = 0 := by
  have hlt := Nat.mod_lt address t.word_pos
  unfold alignOffset
  constructor
  · intro h
    by_contra hne
    rw [Nat.mod_eq_of_lt (by omega)] at h
    omega
  · intro h
    rw [h, Nat.sub_zero, Nat.mod_self]

theorem mod_addresses (address : ℕ) : address % t.addresses % t.word = address % t.word :=
  Nat.mod_mod_of_dvd _ t.word_dvd

end Target

/-! ## The loops -/

section Loops

variable {dest src size stop n : ℕ} {safe : Prop}

/-- Bytes or words copied upwards. -/
theorem moveUp_spec (hsize : 0 < size) (hstop : stop ≤ n) (hsafe : safe → Ascending dest src n)
    (fuel i : ℕ) (m : Memory) (hfuel : stop - i < fuel) (hdest : m.Mapped dest n) (hsrc : m.Mapped src n)
    (halign : i + size ≤ stop → (dest + i) % size = 0 ∧ (src + i) % size = 0) :
    ∃ i' m', moveUp dest src size stop fuel i m = some (i', m') ∧
      Copied safe dest src (Set.Ico i i') m m' ∧ i ≤ i' ∧ (i ≤ stop → i' ≤ stop) ∧ stop < i' + size := by
  induction fuel generalizing i m with
  | zero => omega
  | succ fuel ih =>
    rw [moveUp]
    split_ifs with hmore
    · obtain ⟨hd, hs⟩ := halign hmore
      obtain ⟨l, m₁, m₂, hload, hstore, hcopy⟩ := @copy_copied m size safe dest src i n hdest hsrc (by omega) hd hs
      obtain ⟨i', m', hrun, hcopy', hle, hbound, hend⟩ := ih (i + size) m₂ (by omega) (hcopy.mapped_span hdest)
        (hcopy.mapped_span hsrc) fun _ => by
          rw [← Nat.add_assoc, ← Nat.add_assoc, Nat.add_mod_right, Nat.add_mod_right]
          exact ⟨hd, hs⟩
      refine ⟨i', m', ?_, ?_, by omega, fun _ => hbound hmore, hend⟩
      · rw [move, hload]
        simp only [Option.bind_eq_bind, Option.bind_some]
        rw [hstore, Option.bind_some, hrun]
      · rw [← Set.Ico_union_Ico_eq_Ico (Nat.le_add_right i size) hle]
        refine hcopy.trans hcopy' fun h j hj k hk => ?_
        have hj' : j < n := by
          have := hbound hmore
          exact (Set.mem_Ico.mp hj).2.trans_le (by omega)
        have := (Set.mem_Ico.mp hj).1
        have := (Set.mem_Ico.mp hk).2
        rcases hsafe h with h | h <;> omega
    · exact ⟨i, m, rfl, by rw [Set.Ico_self]; exact .empty .., le_rfl, fun h => h, by omega⟩

/-- Bytes or words copied downwards. -/
theorem moveDown_spec (hsize : 0 < size) (hsafe : safe → Descending dest src n) (fuel i : ℕ) (m : Memory)
    (hfuel : i - stop < fuel) (hi : i ≤ n) (hdest : m.Mapped dest n) (hsrc : m.Mapped src n)
    (halign : stop + size ≤ i → (dest + i) % size = 0 ∧ (src + i) % size = 0) :
    ∃ i' m', moveDown dest src size stop fuel i m = some (i', m') ∧
      Copied safe dest src (Set.Ico i' i) m m' ∧ i' ≤ i ∧ (stop ≤ i → stop ≤ i') ∧ i' < stop + size := by
  induction fuel generalizing i m with
  | zero => omega
  | succ fuel ih =>
    rw [moveDown]
    split_ifs with hmore
    · obtain ⟨k, rfl⟩ : ∃ k, i = k + size := ⟨i - size, by omega⟩
      obtain ⟨hd, hs⟩ := halign hmore
      rw [← Nat.add_assoc, Nat.add_mod_right] at hd hs
      rw [Nat.add_sub_cancel]
      obtain ⟨l, m₁, m₂, hload, hstore, hcopy⟩ := @copy_copied m size safe dest src k n hdest hsrc hi hd hs
      obtain ⟨i', m', hrun, hcopy', hle, hbound, hend⟩ := ih k m₂ (by omega) (by omega) (hcopy.mapped_span hdest)
        (hcopy.mapped_span hsrc) fun _ => ⟨hd, hs⟩
      refine ⟨i', m', ?_, ?_, by omega, fun _ => hbound (by omega), hend⟩
      · rw [move, hload]
        simp only [Option.bind_eq_bind, Option.bind_some]
        rw [hstore, Option.bind_some, hrun]
      · rw [← Set.Ico_union_Ico_eq_Ico hle (Nat.le_add_right k size), Set.union_comm]
        refine hcopy.trans hcopy' fun h j hj k' hk' => ?_
        have := (Set.mem_Ico.mp hj).2
        have := Set.mem_Ico.mp hk'
        rcases hsafe h with h | h <;> omega
    · exact ⟨i, m, rfl, by rw [Set.Ico_self]; exact .empty .., le_rfl, fun h => h, by omega⟩

/-- The same value written upwards. -/
theorem writeUp_spec {byte : UInt8} (hsize : 0 < size) (hstop : stop ≤ n) (fuel i : ℕ) (m : Memory)
    (hfuel : stop - i < fuel) (hdest : m.Mapped dest n) (halign : i + size ≤ stop → (dest + i) % size = 0) :
    ∃ i' m', writeUp dest stop (List.replicate size byte) fuel i m = some (i', m') ∧
      Written dest (fun _ => some byte) (Set.Ico i i') m m' ∧ i ≤ i' ∧ (i ≤ stop → i' ≤ stop) ∧
      stop < i' + size := by
  induction fuel generalizing i m with
  | zero => omega
  | succ fuel ih =>
    rw [writeUp, List.length_replicate]
    split_ifs with hmore
    · obtain ⟨m₂, hstore, hw⟩ := @store_written m dest i n (List.replicate size byte) hdest
        (by rw [List.length_replicate]; omega) (by rw [List.length_replicate]; exact halign hmore)
        (fun _ => some byte) fun j hj => by
          rw [List.length_replicate] at hj
          rw [List.getElem?_replicate, if_pos hj]
      rw [List.length_replicate] at hw
      obtain ⟨i', m', hrun, hw', hle, hbound, hend⟩ := ih (i + size) m₂ (by omega) (hw.mapped_span hdest)
        fun _ => by
          rw [← Nat.add_assoc, Nat.add_mod_right]
          exact halign hmore
      refine ⟨i', m', ?_, ?_, by omega, fun _ => hbound hmore, hend⟩
      · rw [hstore]
        exact hrun
      · rw [← Set.Ico_union_Ico_eq_Ico (Nat.le_add_right i size) hle]
        exact hw.trans hw'
    · exact ⟨i, m, rfl, by rw [Set.Ico_self]; exact .empty .., le_rfl, fun h => h, by omega⟩

end Loops

/-! ## The copies -/

section Copies

variable {t : Target} {m : Memory} {dest src n : ℕ}

/-- A source address is aligned when the source's wrapped one is. -/
theorem wrapped_aligned (address : ℕ) : t.alignOffset (address % t.addresses) = 0 ↔ address % t.word = 0 := by
  rw [t.alignOffset_eq_zero, t.mod_addresses]

/-- The words of a copy upwards, from where the destination is aligned. -/
theorem wordsUp_spec {safe : Prop} {i : ℕ} (hsafe : safe → Ascending dest src n) (hdest : m.Mapped dest n)
    (hsrc : m.Mapped src n) (hi : i ≤ n) (halign : i + t.word ≤ n → (dest + i) % t.word = 0) :
    ∃ i' m', wordsUp t dest src n i m = some (i', m') ∧ Copied safe dest src (Set.Ico i i') m m' ∧
      i ≤ i' ∧ i' ≤ n := by
  unfold wordsUp
  split_ifs with hphase
  · obtain ⟨i', m', hrun, hcopy, hle, hbound, -⟩ := moveUp_spec t.word_pos le_rfl hsafe (n + 1) i m (by omega)
      hdest hsrc fun h => ⟨halign h, (wrapped_aligned _).mp hphase⟩
    exact ⟨i', m', hrun, hcopy, hle, hbound hi⟩
  · exact ⟨i, m, rfl, by rw [Set.Ico_self]; exact .empty .., le_rfl, hi⟩

/-- A copy upwards accesses the bytes of the two ranges and no others, and is one where that is safe. -/
theorem copyForward_spec (hdest : m.Mapped dest n) (hsrc : m.Mapped src n) :
    ∃ m', copyForward t dest src n m = some m' ∧
      Copied (Ascending dest src n) dest src (Set.Ico 0 n) m m' := by
  have hone (i : ℕ) : (dest + i) % 1 = 0 ∧ (src + i) % 1 = 0 := ⟨Nat.mod_one _, Nat.mod_one _⟩
  obtain ⟨i₁, m₁, hrun₁, hcopy₁, -, hbound₁, hend₁⟩ := @moveUp_spec dest src 1 (min (t.alignOffset dest) n) n
    (Ascending dest src n) one_pos (min_le_right _ _) id (n + 1) 0 m (by omega) hdest hsrc fun _ => hone 0
  have hhead : i₁ = min (t.alignOffset dest) n := by have := hbound₁ (Nat.zero_le _); omega
  obtain ⟨i₂, m₂, hrun₂, hcopy₂, hle₂, hbound₂⟩ := @wordsUp_spec t m₁ dest src n (Ascending dest src n) i₁ id
    (hcopy₁.mapped_span hdest) (hcopy₁.mapped_span hsrc) (by omega) fun h => by
      have := t.word_pos
      have hoffset : i₁ = t.alignOffset dest := by omega
      rw [hoffset]
      exact t.add_alignOffset dest
  obtain ⟨i₃, m₃, hrun₃, hcopy₃, hle₃, hbound₃, hend₃⟩ := @moveUp_spec dest src 1 n n (Ascending dest src n)
    one_pos le_rfl id (n + 1) i₂ m₂ (by omega) (hcopy₂.mapped_span (hcopy₁.mapped_span hdest))
    (hcopy₂.mapped_span (hcopy₁.mapped_span hsrc)) fun _ => hone i₂
  obtain rfl : i₃ = n := by have := hbound₃ hbound₂; omega
  refine ⟨m₃, ?_, ?_⟩
  · unfold copyForward
    dsimp only
    rw [hrun₁, Option.bind_eq_bind, Option.bind_some]
    dsimp only
    rw [hrun₂, Option.bind_some]
    dsimp only
    rw [hrun₃]
    rfl
  · have hsafe (lo mid hi : ℕ) (hhi : hi ≤ i₃) (h : Ascending dest src i₃) :
        ∀ j ∈ Set.Ico mid hi, ∀ k ∈ Set.Ico lo mid, src + j ≠ dest + k := by
      intro j hj k hk
      have := Set.mem_Ico.mp hj
      have := Set.mem_Ico.mp hk
      rcases h with h | h <;> omega
    have h₁₂ := hcopy₁.trans hcopy₂ (hsafe 0 i₁ i₂ hbound₂)
    rw [Set.Ico_union_Ico_eq_Ico (Nat.zero_le _) hle₂] at h₁₂
    have h₁₃ := h₁₂.trans hcopy₃ (hsafe 0 i₂ i₃ le_rfl)
    rwa [Set.Ico_union_Ico_eq_Ico (Nat.zero_le _) hle₃] at h₁₃

theorem wordsDown_spec {safe : Prop} {i : ℕ} (hsafe : safe → Descending dest src n) (hdest : m.Mapped dest n)
    (hsrc : m.Mapped src n) (hi : i ≤ n) (halign : t.word ≤ i → (dest + i) % t.word = 0) :
    ∃ i' m', wordsDown t dest src n i m = some (i', m') ∧ Copied safe dest src (Set.Ico i' i) m m' ∧
      i' ≤ i := by
  unfold wordsDown
  split_ifs with hphase
  · obtain ⟨i', m', hrun, hcopy, hle, -, -⟩ := @moveDown_spec dest src t.word 0 n safe t.word_pos hsafe (n + 1) i m
      (by omega) hi hdest hsrc fun h => ⟨halign (by omega), (wrapped_aligned _).mp hphase⟩
    exact ⟨i', m', hrun, hcopy, hle⟩
  · exact ⟨i, m, rfl, by rw [Set.Ico_self]; exact .empty .., le_rfl⟩

/-- Below the bytes at the end the destination is aligned, unless there is nothing below them. -/
theorem tail_spec : tail t dest n ≤ n ∧ (t.word ≤ n - tail t dest n → (dest + (n - tail t dest n)) % t.word = 0) := by
  have hlt := t.alignOffset_lt ((dest + n) % t.addresses)
  have hpos := t.word_pos
  have hadd := t.add_alignOffset ((dest + n) % t.addresses)
  rw [← Nat.mod_add_mod, t.mod_addresses, Nat.mod_add_mod] at hadd
  unfold tail
  dsimp only
  generalize t.alignOffset ((dest + n) % t.addresses) = past at *
  split_ifs with hpast
  · rw [hpast, Nat.add_zero] at hadd
    exact ⟨Nat.zero_le _, fun _ => hadd⟩
  · refine ⟨min_le_right _ _, fun h => ?_⟩
    -- the destination went down to the last aligned address, a word below the next one
    have hsum : dest + (n - min (t.word - past) n) + t.word = dest + n + past := by omega
    rw [← Nat.add_mod_right, hsum, hadd]

/-- A copy downwards accesses the bytes of the two ranges and no others, and is one where that is safe. -/
theorem copyBackward_spec (hdest : m.Mapped dest n) (hsrc : m.Mapped src n) :
    ∃ m', copyBackward t dest src n m = some m' ∧
      Copied (Descending dest src n) dest src (Set.Ico 0 n) m m' := by
  have hone (i : ℕ) : (dest + i) % 1 = 0 ∧ (src + i) % 1 = 0 := ⟨Nat.mod_one _, Nat.mod_one _⟩
  obtain ⟨htail, haligned⟩ := @tail_spec t dest n
  obtain ⟨i₁, m₁, hrun₁, hcopy₁, hle₁, hbound₁, hend₁⟩ := @moveDown_spec dest src 1 (n - tail t dest n) n
    (Descending dest src n) one_pos id (n + 1) n m (by omega) le_rfl hdest hsrc fun _ => hone n
  have hhead : i₁ = n - tail t dest n := by have := hbound₁ (Nat.sub_le _ _); omega
  obtain ⟨i₂, m₂, hrun₂, hcopy₂, hle₂⟩ := @wordsDown_spec t m₁ dest src n (Descending dest src n) i₁ id
    (hcopy₁.mapped_span hdest) (hcopy₁.mapped_span hsrc) hle₁ fun h => by rw [hhead] at h ⊢; exact haligned h
  obtain ⟨i₃, m₃, hrun₃, hcopy₃, hle₃, -, hend₃⟩ := @moveDown_spec dest src 1 0 n (Descending dest src n)
    one_pos id (n + 1) i₂ m₂ (by omega) (by omega) (hcopy₂.mapped_span (hcopy₁.mapped_span hdest))
    (hcopy₂.mapped_span (hcopy₁.mapped_span hsrc)) fun _ => hone i₂
  obtain rfl : i₃ = 0 := by omega
  refine ⟨m₃, ?_, ?_⟩
  · unfold copyBackward
    rw [hrun₁, Option.bind_eq_bind, Option.bind_some]
    dsimp only
    rw [hrun₂, Option.bind_some]
    dsimp only
    rw [hrun₃]
    rfl
  · have hsafe (lo mid hi : ℕ) (hhi : hi ≤ n) (h : Descending dest src n) :
        ∀ j ∈ Set.Ico lo mid, ∀ k ∈ Set.Ico mid hi, src + j ≠ dest + k := by
      intro j hj k hk
      have := Set.mem_Ico.mp hj
      have := Set.mem_Ico.mp hk
      rcases h with h | h <;> omega
    have h₁₂ := hcopy₁.trans hcopy₂ (hsafe i₂ i₁ n le_rfl)
    rw [Set.union_comm, Set.Ico_union_Ico_eq_Ico hle₂ hle₁] at h₁₂
    have h₁₃ := h₁₂.trans hcopy₃ (hsafe 0 i₂ n le_rfl)
    rwa [Set.union_comm, Set.Ico_union_Ico_eq_Ico (Nat.zero_le _) (hle₂.trans hle₁)] at h₁₃

/-- A fill writes the bytes of its range and no others. -/
theorem fill_spec (byte : UInt8) (hdest : m.Mapped dest n) :
    ∃ m', fill t dest byte n m = some m' ∧ Written dest (fun _ => some byte) (Set.Ico 0 n) m m' := by
  have hsingle : [byte] = List.replicate 1 byte := rfl
  obtain ⟨i₁, m₁, hrun₁, hw₁, -, hbound₁, hend₁⟩ := @writeUp_spec dest 1 (min (t.alignOffset dest) n) n byte
    one_pos (min_le_right _ _) (n + 1) 0 m (by omega) hdest fun _ => Nat.mod_one _
  have hhead : i₁ = min (t.alignOffset dest) n := by have := hbound₁ (Nat.zero_le _); omega
  obtain ⟨i₂, m₂, hrun₂, hw₂, hle₂, hbound₂, -⟩ := @writeUp_spec dest t.word n n byte t.word_pos le_rfl (n + 1) i₁ m₁
    (by omega) (hw₁.mapped_span hdest) fun h => by
      have := t.word_pos
      have hoffset : i₁ = t.alignOffset dest := by omega
      rw [hoffset]
      exact t.add_alignOffset dest
  have hbound₂ := hbound₂ (by omega)
  obtain ⟨i₃, m₃, hrun₃, hw₃, hle₃, hbound₃, hend₃⟩ := @writeUp_spec dest 1 n n byte one_pos le_rfl (n + 1) i₂ m₂
    (by omega) (hw₂.mapped_span (hw₁.mapped_span hdest)) fun _ => Nat.mod_one _
  obtain rfl : i₃ = n := by have := hbound₃ hbound₂; omega
  refine ⟨m₃, ?_, ?_⟩
  · unfold fill
    dsimp only
    rw [hsingle, hrun₁, Option.bind_eq_bind, Option.bind_some]
    dsimp only
    rw [hrun₂, Option.bind_some]
    dsimp only
    rw [hrun₃]
    rfl
  · have h₁₃ := (hw₁.trans hw₂).trans hw₃
    rwa [Set.Ico_union_Ico_eq_Ico (Nat.zero_le _) hle₂,
      Set.Ico_union_Ico_eq_Ico (Nat.zero_le _) hle₃] at h₁₃

/-- The wrapped difference of the addresses says whether the destination is inside the source. -/
theorem inside_iff (hdest : dest + n ≤ t.addresses) (hsrc : src + n ≤ t.addresses) :
    (dest + (t.addresses - src)) % t.addresses < n ↔ src ≤ dest ∧ dest < src + n := by
  rcases Nat.lt_or_ge dest src with hlt | hge
  · rw [Nat.mod_eq_of_lt (by omega)]
    omega
  · obtain ⟨d, rfl⟩ := Nat.exists_eq_add_of_le hge
    rcases Nat.eq_zero_or_pos n with rfl | hn
    · omega
    · have hsum : src + d + (t.addresses - src) = d + t.addresses := by omega
      rw [hsum, Nat.add_mod_right, Nat.mod_eq_of_lt (by omega)]
      omega

/-- A move leaves in the destination what the source held, whatever the overlap. -/
theorem memmove_spec (hdest : Usable t m dest n) (hsrc : Usable t m src n) :
    ∃ m', memmove t dest src n m = some (dest, m') ∧ Copied True dest src (Set.Ico 0 n) m m' := by
  have hinside := inside_iff hdest.inside hsrc.inside
  unfold memmove
  split_ifs with h
  · rw [hinside] at h
    obtain ⟨m', hrun, hcopy⟩ := @copyBackward_spec t m dest src n hdest.mapped hsrc.mapped
    rw [hrun]
    exact ⟨m', rfl, fun _ => hcopy.content (Or.inl h.1), hcopy.frame, hcopy.mapped, hcopy.reads, hcopy.writes⟩
  · rw [hinside] at h
    obtain ⟨m', hrun, hcopy⟩ := @copyForward_spec t m dest src n hdest.mapped hsrc.mapped
    rw [hrun]
    have hsafe : Ascending dest src n := by
      unfold Ascending
      omega
    exact ⟨m', rfl, fun _ => hcopy.content hsafe, hcopy.frame, hcopy.mapped, hcopy.reads, hcopy.writes⟩

end Copies

/-! ## The comparison -/

section Compare

variable {t : Target} {m : Memory} {a b n size : ℕ}

variable {m₀ : Memory} {i : ℕ}

/-- What a comparison may have done to a memory by the time it is at a place: it wrote nothing, it read nothing
outside the two ranges, and it read each byte in front of the place. -/
structure Compared (a b n i : ℕ) (m m' : Memory) : Prop where
  bytes : m'.bytes = m.bytes
  writes : m'.writes = m.writes
  inside : ∀ x ∈ m'.reads, x ∈ m.reads ∨ ∃ j < n, x = a + j ∨ x = b + j
  kept : ∀ x ∈ m.reads, x ∈ m'.reads
  before : ∀ j < i, a + j ∈ m'.reads ∧ b + j ∈ m'.reads

/-- The two ranges hold the same bytes in front of a place. -/
def Same (m : Memory) (a b i : ℕ) : Prop := ∀ j < i, m.bytes (a + j) = m.bytes (b + j)

/-- Two values read. -/
theorem load_two (h : Compared a b n i m₀ m) (ha : m.Mapped a n) (hb : m.Mapped b n)
    (hi : i + size ≤ n) (ha' : (a + i) % size = 0) (hb' : (b + i) % size = 0) :
    ∃ left right m₁ m₂, m.load size (a + i) = some (left, m₁) ∧ m₁.load size (b + i) = some (right, m₂) ∧
      left = (span (a + i) size).map (fun x => (m.bytes x).getD 0) ∧
      right = (span (b + i) size).map (fun x => (m.bytes x).getD 0) ∧ Compared a b n (i + size) m₀ m₂ := by
  refine ⟨_, _, _, _, load_eq ha' (ha.mono hi), load_eq hb' (hb.mono hi), rfl, rfl, h.bytes, h.writes, ?_, ?_, ?_⟩
  · intro x hx
    rcases List.mem_append.mp hx with hx | hx
    · obtain ⟨j, hj, rfl⟩ := mem_span.mp hx
      exact Or.inr ⟨i + j, by omega, Or.inr (Nat.add_assoc ..)⟩
    · rcases List.mem_append.mp hx with hx | hx
      · obtain ⟨j, hj, rfl⟩ := mem_span.mp hx
        exact Or.inr ⟨i + j, by omega, Or.inl (Nat.add_assoc ..)⟩
      · exact h.inside x hx
  · exact fun x hx => List.mem_append_right _ (List.mem_append_right _ (h.kept x hx))
  · intro j hj
    rcases Nat.lt_or_ge j i with hlt | hge
    · obtain ⟨h₁, h₂⟩ := h.before j hlt
      exact ⟨List.mem_append_right _ (List.mem_append_right _ h₁),
        List.mem_append_right _ (List.mem_append_right _ h₂)⟩
    · obtain ⟨k, rfl⟩ := Nat.exists_eq_add_of_le hge
      exact ⟨List.mem_append_right _ (List.mem_append_left _ (mem_span.mpr ⟨k, by omega, by omega⟩)),
        List.mem_append_left _ (mem_span.mpr ⟨k, by omega, by omega⟩)⟩

/-- Two values are the same when their bytes are. -/
theorem values_eq_iff (ha : m.Mapped a n) (hb : m.Mapped b n) (hi : i + size ≤ n) :
    (span (a + i) size).map (fun x => (m.bytes x).getD 0) = (span (b + i) size).map (fun x => (m.bytes x).getD 0) ↔
      ∀ j < size, m.bytes (a + (i + j)) = m.bytes (b + (i + j)) := by
  unfold span
  rw [List.map_map, List.map_map, List.map_inj_left]
  refine forall_congr' fun j => ?_
  rw [List.mem_range]
  refine forall_congr' fun hj => ?_
  have h₁ := ha.getD (show i + j < n by omega)
  have h₂ := hb.getD (show i + j < n by omega)
  rw [Function.comp_apply, Function.comp_apply, Nat.add_assoc, Nat.add_assoc, ← h₁, ← h₂, Option.some_inj,
    Option.getD_some, Option.getD_some]

/-- The loop over words stops where the ranges are the same so far. -/
theorem sameUp_spec (hsize : 0 < size) (ha : m₀.Mapped a n) (hb : m₀.Mapped b n)
    (fuel i : ℕ) (m : Memory) (hfuel : n - i < fuel) (hi : i ≤ n) (h : Compared a b n i m₀ m)
    (hsame : Same m₀ a b i) (ha' : (a + i) % size = 0) (hb' : (b + i) % size = 0) :
    ∃ i' m', sameUp a b size n fuel i m = some (i', m') ∧ i' ≤ n ∧ Compared a b n i' m₀ m' ∧ Same m₀ a b i' := by
  induction fuel generalizing i m with
  | zero => omega
  | succ fuel ih =>
    have ha₁ : m.Mapped a n := by unfold Mapped; rw [h.bytes]; exact ha
    have hb₁ : m.Mapped b n := by unfold Mapped; rw [h.bytes]; exact hb
    rw [sameUp]
    split_ifs with hmore
    · obtain ⟨left, right, m₁, m₂, hl, hr, rfl, rfl, hcompared⟩ := load_two h ha₁ hb₁ hmore ha' hb'
      rw [hl, Option.bind_eq_bind, Option.bind_some]
      dsimp only
      rw [hr, Option.bind_some]
      dsimp only
      split_ifs with hne
      · refine ⟨i, m₂, rfl, hi, ⟨hcompared.bytes, hcompared.writes, hcompared.inside, hcompared.kept, ?_⟩, hsame⟩
        exact fun j hj => hcompared.before j (by omega)
      · rw [ne_eq, not_not, values_eq_iff ha₁ hb₁ hmore, h.bytes] at hne
        refine ih (i + size) m₂ (by omega) hmore hcompared (fun j hj => ?_) ?_ ?_
        · rcases Nat.lt_or_ge j i with hlt | hge
          · exact hsame j hlt
          · obtain ⟨k, rfl⟩ := Nat.exists_eq_add_of_le hge
            exact hne k (by omega)
        · rw [← Nat.add_assoc, Nat.add_mod_right, ha']
        · rw [← Nat.add_assoc, Nat.add_mod_right, hb']
    · exact ⟨i, m, rfl, hi, h, hsame⟩

/-- What a comparison of two ranges answers. -/
def Reports (m : Memory) (a b n : ℕ) (order : ℤ) : Prop :=
  (Same m a b n ∧ order = 0) ∨
    ∃ i < n, Same m a b i ∧ ∃ left right, m.bytes (a + i) = some left ∧ m.bytes (b + i) = some right ∧
      left ≠ right ∧ order = (left.toNat : ℤ) - right.toNat

/-- The loop over bytes reports the first that differs. -/
theorem differ_spec (ha : m₀.Mapped a n) (hb : m₀.Mapped b n) (fuel i : ℕ) (m : Memory)
    (hfuel : n - i < fuel) (hi : i ≤ n) (h : Compared a b n i m₀ m) (hsame : Same m₀ a b i) :
    ∃ order m' i', differ a b n fuel i m = some (order, m') ∧ Compared a b n i' m₀ m' ∧
      Reports m₀ a b n order ∧ ∀ j < n, Same m₀ a b j → j < i' := by
  induction fuel generalizing i m with
  | zero => omega
  | succ fuel ih =>
    have ha₁ : m.Mapped a n := by unfold Mapped; rw [h.bytes]; exact ha
    have hb₁ : m.Mapped b n := by unfold Mapped; rw [h.bytes]; exact hb
    rw [differ]
    split_ifs with hmore
    · obtain ⟨left, right, m₁, m₂, hl, hr, rfl, rfl, hcompared⟩ :=
        load_two h ha₁ hb₁ hmore (Nat.mod_one _) (Nat.mod_one _)
      rw [hl, Option.bind_eq_bind, Option.bind_some]
      dsimp only
      rw [hr, Option.bind_some]
      dsimp only
      have hbytes : (∀ j < 1, m.bytes (a + (i + j)) = m.bytes (b + (i + j))) ↔
          m₀.bytes (a + i) = m₀.bytes (b + i) := by
        rw [h.bytes]
        exact ⟨fun hj => hj 0 one_pos, fun heq j hj => by rw [Nat.lt_one_iff.mp hj]; exact heq⟩
      split_ifs with hne
      · rw [ne_eq, values_eq_iff ha₁ hb₁ hmore, hbytes] at hne
        refine ⟨_, m₂, i + 1, rfl, hcompared, Or.inr ⟨i, hmore, hsame, _, _, (ha.getD hmore).symm,
          (hb.getD hmore).symm, fun heq => hne ?_, ?_⟩, fun j hj hj' => ?_⟩
        · rw [← ha.getD hmore, ← hb.getD hmore, heq]
        · rw [h.bytes]
          rfl
        · by_contra hlt
          exact hne (hj' i (by omega))
      · rw [ne_eq, not_not, values_eq_iff ha₁ hb₁ hmore, hbytes] at hne
        refine ih (i + 1) m₂ (by omega) hmore hcompared fun j hj => ?_
        rcases Nat.lt_succ_iff_lt_or_eq.mp hj with hlt | rfl
        · exact hsame j hlt
        · exact hne
    · obtain rfl : i = n := by omega
      exact ⟨0, m, i, rfl, h, Or.inl ⟨hsame, rfl⟩, fun j hj _ => hj⟩

/-- A comparison writes nothing, reads nothing outside the two ranges and every byte up to the first that
differs, and reports that one. -/
theorem compare_spec (ha : m.Mapped a n) (hb : m.Mapped b n) :
    ∃ order m' i, compare t a b n m = some (order, m') ∧ Compared a b n i m m' ∧ Reports m a b n order ∧
      ∀ j < n, Same m a b j → j < i := by
  have hstart : Compared a b n 0 m m :=
    ⟨rfl, rfl, fun _ hx => Or.inl hx, fun _ hx => hx, fun _ hj => absurd hj (Nat.not_lt_zero _)⟩
  have hwords : ∃ i' m', wordsSame t a b n m = some (i', m') ∧ i' ≤ n ∧ Compared a b n i' m m' ∧
      Same m a b i' := by
    unfold wordsSame
    split_ifs with h
    · rw [t.alignOffset_eq_zero, t.alignOffset_eq_zero] at h
      exact sameUp_spec t.word_pos ha hb (n + 1) 0 m (by omega) (Nat.zero_le _) hstart
        (fun _ hj => absurd hj (Nat.not_lt_zero _)) h.1 h.2
    · exact ⟨0, m, rfl, Nat.zero_le _, hstart, fun _ hj => absurd hj (Nat.not_lt_zero _)⟩
  obtain ⟨i, m₁, hrun, hi, hcompared, hsame⟩ := hwords
  obtain ⟨order, m', i', hrun', rest⟩ := differ_spec ha hb (n + 1) i m₁ (by omega) hi hcompared hsame
  refine ⟨order, m', i', ?_, rest⟩
  unfold compare
  rw [hrun, Option.bind_eq_bind, Option.bind_some]
  exact hrun'

end Compare

/-! ## The routines together -/

/-- Over ranges a caller may hand over, whatever their lengths, alignments and overlap: a copy accesses the
bytes of the two ranges and no others, upwards or downwards, and is one in the direction that is safe; a move
is one always; a fill writes the bytes of its range; and a comparison reports the first byte that differs. -/
theorem primitives_exact (t : Target) (m : Memory) :
    (∀ dest src n, Usable t m dest n → Usable t m src n →
      (∃ m', copyForward t dest src n m = some m' ∧
        Copied (Ascending dest src n) dest src (Set.Ico 0 n) m m') ∧
      (∃ m', copyBackward t dest src n m = some m' ∧
        Copied (Descending dest src n) dest src (Set.Ico 0 n) m m') ∧
      (∃ m', memcpy t dest src n m = some (dest, m') ∧
        Copied (Ascending dest src n) dest src (Set.Ico 0 n) m m') ∧
      ∃ m', memmove t dest src n m = some (dest, m') ∧ Copied True dest src (Set.Ico 0 n) m m') ∧
    (∀ dest n, Usable t m dest n →
      (∀ byte, ∃ m', fill t dest byte n m = some m' ∧
        Written dest (fun _ => some byte) (Set.Ico 0 n) m m') ∧
      ∀ c, ∃ m', memset t dest c n m = some (dest, m') ∧
        Written dest (fun _ => some (UInt8.ofNat (c % 256).toNat)) (Set.Ico 0 n) m m') ∧
    ∀ a b n, Usable t m a n → Usable t m b n →
      ∃ order m' i, compare t a b n m = some (order, m') ∧ Compared a b n i m m' ∧ Reports m a b n order ∧
        ∀ j < n, Same m a b j → j < i := by
  refine ⟨fun dest src n hdest hsrc => ⟨copyForward_spec hdest.mapped hsrc.mapped,
    copyBackward_spec hdest.mapped hsrc.mapped, ?_, memmove_spec hdest hsrc⟩,
    fun dest n hdest => ⟨fun byte => fill_spec byte hdest.mapped, fun c => ?_⟩,
    fun a b n ha hb => compare_spec ha.mapped hb.mapped⟩
  · obtain ⟨m', hrun, hcopy⟩ := @copyForward_spec t m dest src n hdest.mapped hsrc.mapped
    exact ⟨m', by rw [memcpy, hrun]; rfl, hcopy⟩
  · obtain ⟨m', hrun, hw⟩ := @fill_spec t m dest n (UInt8.ofNat (c % 256).toNat) hdest.mapped
    exact ⟨m', by rw [memset, hrun]; rfl, hw⟩

/-- Five bytes moved up by three places over themselves, on a target whose words are eight bytes. -/
theorem primitives_exact_overlap :
    ∃ m', memmove ⟨8, 3, rfl⟩ 11 8 5 ⟨fun a => some (UInt8.ofNat a), [], []⟩ = some (11, m') ∧
      Copied True 11 8 (Set.Ico 0 5) ⟨fun a => some (UInt8.ofNat a), [], []⟩ m' :=
  ((primitives_exact ⟨8, 3, rfl⟩ ⟨fun a => some (UInt8.ofNat a), [], []⟩).1 11 8 5
    ⟨fun _ _ => rfl, by decide⟩ ⟨fun _ _ => rfl, by decide⟩).2.2.2

end Rucc.Builtins.Mem
