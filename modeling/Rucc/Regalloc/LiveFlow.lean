import Mathlib.Data.Finset.Card
import Rucc.Lib.Worklist
import Rucc.Regalloc.LiveSpec

/-!
# What arrives live in a block, and what leaves live

The rows `exposed` gathers are what each block reads first and what it writes, and the walk back
from them marks exactly the blocks a value is live into.
-/

namespace Rucc.Regalloc

open Mir Buckets Worklist

variable {n b v : ℕ} {s : Building × Building} {f : Func}

/-! ## Rows -/

namespace Rows

variable {rows b v : ℕ} {pairs : List (ℕ × ℕ)}

/-- A row holds what was put down for it, in order. -/
theorem row_gather (hrows : ∀ x ∈ pairs, x.1 < rows) (hb : b < rows) :
    (gather rows pairs).row b = (pairs.filter (fun x => decide (x.1 = b))).map Prod.snd := by
  rw [← scatter_row Prod.fst (0, 0) (fun k => rfl) hrows hb]
  unfold Rows.row gather slice
  rw [List.map_map]
  rfl

theorem row_transpose (hrows : ∀ x ∈ pairs, x.1 < rows) (hb : b < rows) :
    (transpose rows pairs).row b = (pairs.filter (fun x => decide (x.1 = b))).map Prod.snd := by
  unfold transpose
  dsimp only
  split
  · exact row_gather hrows hb
  · rw [← scatter_runs_row Prod.fst (shiftFor rows rows 0) (0, 0) pairs hrows hb]
    unfold Rows.row slice
    rw [List.map_map]
    rfl

theorem mem_filter_map : v ∈ (pairs.filter (fun x => decide (x.1 = b))).map Prod.snd ↔ (b, v) ∈ pairs := by
  rw [List.mem_map]
  constructor
  · rintro ⟨⟨b', v'⟩, hmem, rfl⟩
    rw [List.mem_filter, decide_eq_true_eq] at hmem
    obtain ⟨hmem, rfl⟩ := hmem
    exact hmem
  · intro hmem
    exact ⟨(b, v), List.mem_filter.mpr ⟨hmem, by simp⟩, rfl⟩

theorem mem_row_gather (hrows : ∀ x ∈ pairs, x.1 < rows)
    (hb : b < rows) : v ∈ (gather rows pairs).row b ↔ (b, v) ∈ pairs := by
  rw [row_gather hrows hb, mem_filter_map]

theorem mem_row_transpose (hrows : ∀ x ∈ pairs, x.1 < rows)
    (hb : b < rows) : v ∈ (transpose rows pairs).row b ↔ (b, v) ∈ pairs := by
  rw [row_transpose hrows hb, mem_filter_map]

end Rows

/-! ## Sets being built -/

namespace Building

variable {Q : ℕ → Prop}

/-- What is in a set being built: of the registers below a bound, those with a property. -/
structure Holds (n : ℕ) (s : Building) (P : ℕ → Prop) : Prop where
  vregs : s.vregs = n
  flags : ∀ v, s.flags v = true ↔ v < n ∧ P v
  touched : ∀ v, s.flags v = true → v ∈ s.touched

variable {n : ℕ} {s : Building} {P : ℕ → Prop}

theorem Holds.congr (h : Holds n s P) (hiff : ∀ v, v < n → (P v ↔ Q v)) : Holds n s Q where
  vregs := h.vregs
  flags v := by
    rw [h.flags]
    constructor
    · exact fun ⟨hv, hp⟩ => ⟨hv, (hiff v hv).mp hp⟩
    · exact fun ⟨hv, hq⟩ => ⟨hv, (hiff v hv).mpr hq⟩
  touched := h.touched

theorem new_holds (n : ℕ) : Holds n (new n) (fun _ => False) where
  vregs := rfl
  flags v := by simp [new]
  touched v h := by simp [new] at h

theorem insert_holds (h : Holds n s P) (reg : Reg) :
    Holds n (s.insert reg) (fun v => P v ∨ reg = .virtualReg v) := by
  unfold insert number
  cases reg with
  | physical reg => exact h.congr fun v _ => by simp
  | virtualReg number =>
    rw [h.vregs]
    by_cases hlt : number < n
    · simp only [if_pos hlt]
      by_cases hset : s.flags number = true
      · rw [if_pos hset]
        apply h.congr
        intro v _
        constructor
        · exact Or.inl
        · rintro (hp | heq)
          · exact hp
          · cases heq
            exact ((h.flags _).mp hset).2
      · rw [if_neg hset]
        constructor
        · rfl
        · intro v
          by_cases hv : v = number
          · subst hv
            simp [hlt]
          · simp [hv, h.flags, Ne.symm hv]
        · intro v hv
          dsimp only at hv ⊢
          by_cases heq : v = number
          · simp [heq]
          · rw [Function.update_of_ne heq] at hv
            exact List.mem_append_left _ (h.touched v hv)
    · simp only [if_neg hlt]
      apply h.congr
      intro v hv
      have hne : number ≠ v := by omega
      simp [hne]

theorem remove_holds (h : Holds n s P) (reg : Reg) :
    Holds n (s.remove reg) (fun v => P v ∧ reg ≠ .virtualReg v) := by
  unfold remove number
  cases reg with
  | physical reg => exact h.congr fun v _ => by simp
  | virtualReg number =>
    rw [h.vregs]
    by_cases hlt : number < n
    · simp only [if_pos hlt]
      constructor
      · rfl
      · intro v
        by_cases hv : v = number
        · subst hv
          simp
        · simp [hv, h.flags, Ne.symm hv]
      · intro v hv
        dsimp only at hv ⊢
        apply h.touched
        by_cases heq : v = number
        · simp [heq] at hv
        · rwa [Function.update_of_ne heq] at hv
    · simp only [if_neg hlt]
      apply h.congr
      intro v hv
      have hne : number ≠ v := by omega
      simp [hne]

/-- Draining a list takes out of it what is set, and clears exactly that. -/
theorem drain_spec (l : List ℕ) (flags : ℕ → Bool) (v : ℕ) :
    (v ∈ (drain l flags).1 ↔ v ∈ l ∧ flags v = true) ∧
      ((drain l flags).2 v = true ↔ v ∉ l ∧ flags v = true) := by
  induction l generalizing flags with
  | nil => simp [drain]
  | cons number rest ih =>
    obtain ⟨h₁, h₂⟩ := ih (Function.update flags number false)
    simp only [drain]
    by_cases hv : v = number
    · subst hv
      rw [h₂]
      by_cases hset : flags v = true
      · simp [hset]
      · simp [hset, h₁]
    · rw [Function.update_of_ne hv] at h₁ h₂
      rw [h₂]
      by_cases hset : flags number = true
      · simp [hset, h₁, hv]
      · simp [hset, h₁, hv]

/-- Taking gives what is in the set and leaves it empty. -/
theorem take_holds (h : Holds n s P) : (∀ v, v ∈ s.take.1 ↔ v < n ∧ P v) ∧ Holds n s.take.2 (fun _ => False) := by
  have hempty (v : ℕ) : ¬ (drain s.touched s.flags).2 v = true := by
    rw [(drain_spec s.touched s.flags v).2]
    exact fun ⟨hnot, hset⟩ => hnot (h.touched v hset)
  unfold take
  constructor
  · intro v
    dsimp only
    rw [List.mem_insertionSort, (drain_spec s.touched s.flags v).1, h.flags]
    exact ⟨And.right, fun hv => ⟨h.touched v ((h.flags v).mpr hv), hv⟩⟩
  · constructor
    · exact h.vregs
    · intro v
      simp [hempty v]
    · intro v hv
      exact absurd hv (hempty v)

theorem foldl_insert_holds (regs : List Reg) (h : Holds n s P) :
    Holds n (regs.foldl insert s) (fun v => P v ∨ .virtualReg v ∈ regs) := by
  induction regs generalizing s P with
  | nil => exact h.congr fun v _ => by simp
  | cons reg regs ih =>
    rw [List.foldl_cons]
    apply (ih (insert_holds h reg)).congr
    intro v _
    rw [List.mem_cons, or_assoc, eq_comm]

/-- Registers written are taken out of what is wanted and put into what is written. -/
theorem foldl_write_holds {α : Type} (reg : α → Reg) (l : List α) {s : Building × Building}
    (h₁ : Holds n s.1 P) (h₂ : Holds n s.2 Q) :
    Holds n (l.foldl (fun s o => (s.1.remove (reg o), s.2.insert (reg o))) s).1
        (fun v => P v ∧ ¬ ∃ o ∈ l, reg o = .virtualReg v) ∧
      Holds n (l.foldl (fun s o => (s.1.remove (reg o), s.2.insert (reg o))) s).2
        (fun v => Q v ∨ ∃ o ∈ l, reg o = .virtualReg v) := by
  induction l generalizing s P Q with
  | nil => exact ⟨h₁.congr fun v _ => by simp, h₂.congr fun v _ => by simp⟩
  | cons o l ih =>
    obtain ⟨ih₁, ih₂⟩ := ih (s := (s.1.remove (reg o), s.2.insert (reg o)))
      (remove_holds h₁ (reg o)) (insert_holds h₂ (reg o))
    rw [List.foldl_cons]
    constructor
    · apply ih₁.congr
      intro v _
      rw [List.exists_mem_cons_iff, not_or, and_assoc]
    · apply ih₂.congr
      intro v _
      rw [List.exists_mem_cons_iff, or_assoc]

end Building

/-! ## What a block reads first -/

open Building

theorem scan_holds {P Q : ℕ → Prop} (operands : List Operand) (h₁ : Holds n s.1 P) (h₂ : Holds n s.2 Q) :
    Holds n (scan s operands).1 (fun v => Uses operands v ∨ (P v ∧ ¬ Defines operands v)) ∧
      Holds n (scan s operands).2 (fun v => Q v ∨ Defines operands v) := by
  obtain ⟨hw₁, hw₂⟩ := foldl_write_holds Operand.reg
    (operands.filter (fun o => o.role.isDef)) h₁ h₂
  have hdef (v : ℕ) : (∃ o ∈ operands.filter (fun o => o.role.isDef), o.reg = .virtualReg v) ↔
      Defines operands v := by
    unfold Defines
    simp only [List.mem_filter]
    exact ⟨fun ⟨o, ⟨ho, hrole⟩, hreg⟩ => ⟨o, ho, hreg, hrole⟩,
      fun ⟨o, ho, hreg, hrole⟩ => ⟨o, ⟨ho, hrole⟩, hreg⟩⟩
  constructor
  · have hreads := foldl_insert_holds
      ((operands.filter (fun o => !o.role.isDef)).map Operand.reg) hw₁
    rw [List.foldl_map] at hreads
    apply hreads.congr
    intro v _
    rw [hdef, or_comm]
    apply or_congr _ Iff.rfl
    unfold Uses
    simp only [List.mem_map, List.mem_filter, Bool.not_eq_true']
    exact ⟨fun ⟨o, ⟨ho, hrole⟩, hreg⟩ => ⟨o, ho, hreg, hrole⟩,
      fun ⟨o, ho, hreg, hrole⟩ => ⟨o, ⟨ho, hrole⟩, hreg⟩⟩
  · exact hw₂.congr fun v _ => by rw [hdef]

/-- The instructions of a block from one on, scanned backwards: what is wanted in front of it is
what is read first from there. -/
theorem foldr_scan_holds (hb : b < f.blockCount)
    (h₁ : Holds n s.1 (fun v => Carries (f.block b) v)) (h₂ : Holds n s.2 (fun _ => False))
    (m : ℕ) (hm : m ≤ (f.block b).insts.length) :
    let k := (f.block b).insts.length - m
    Holds n (((f.block b).insts.drop k).foldr (fun i s => scan s i) s).1
        (fun v => ReadFirst f v b ((Order.of f).early b k)) ∧
      Holds n (((f.block b).insts.drop k).foldr (fun i s => scan s i) s).2
        (fun v => ∃ j, k ≤ j ∧ Defines (f.operands b j) v) := by
  induction m with
  | zero =>
    dsimp only
    rw [Nat.sub_zero, List.drop_length, List.foldr_nil, ← stop_eq_early hb]
    constructor
    · exact h₁.congr fun v _ => (readFirst_stop hb).symm
    · apply h₂.congr
      intro v _
      rw [false_iff]
      rintro ⟨j, hj, hdef⟩
      have := hdef.lt
      omega
  | succ m ih =>
    obtain ⟨ih₁, ih₂⟩ := ih (by omega)
    have hk : (f.block b).insts.length - (m + 1) < (f.block b).insts.length := by omega
    have hnext : (f.block b).insts.length - m =
        (f.block b).insts.length - (m + 1) + 1 := by omega
    rw [hnext] at ih₁ ih₂
    dsimp only
    generalize (f.block b).insts.length - (m + 1) = k at hk ih₁ ih₂ ⊢
    have hoperands : (f.block b).insts[k] = f.operands b k := by
      unfold Func.operands
      rw [List.getD_eq_getElem?_getD, List.getElem?_eq_getElem hk]
      rfl
    rw [List.drop_eq_getElem_cons hk, List.foldr_cons, hoperands]
    obtain ⟨hs₁, hs₂⟩ := scan_holds (f.operands b k) ih₁ ih₂
    constructor
    · exact hs₁.congr fun v _ => (readFirst_early hb hk).symm
    · apply hs₂.congr
      intro v _
      constructor
      · rintro (⟨j, hj, hdef⟩ | hdef)
        · exact ⟨j, by omega, hdef⟩
        · exact ⟨k, le_rfl, hdef⟩
      · rintro ⟨j, hj, hdef⟩
        rcases Nat.eq_or_lt_of_le hj with rfl | hlt
        · exact Or.inr hdef
        · exact Or.inl ⟨j, hlt, hdef⟩

/-- A block scanned: what it reads first and what it writes. -/
theorem scanBlock_holds (hb : b < f.blockCount)
    (h₁ : Holds n s.1 (fun _ => False)) (h₂ : Holds n s.2 (fun _ => False)) :
    Holds n (scanBlock (f.block b) s).1 (fun v => ReadFirst f v b ((Order.of f).start b)) ∧
      Holds n (scanBlock (f.block b) s).2 (fun v => WrittenIn f v b) := by
  have hargs : Holds n ((f.block b).succs.foldl
      (fun reads call => call.args.foldl Building.insert reads) s.1)
      (fun v => Carries (f.block b) v) := by
    rw [← List.foldl_flatMap]
    apply (foldl_insert_holds _ h₁).congr
    intro v _
    rw [false_or, List.mem_flatMap]
    rfl
  obtain ⟨hi₁, hi₂⟩ := foldr_scan_holds hb (s := (_, s.2)) hargs h₂ _ le_rfl
  rw [Nat.sub_self, List.drop_zero] at hi₁ hi₂
  obtain ⟨hp₁, hp₂⟩ := foldl_write_holds Param.reg (f.block b).params hi₁ hi₂
  unfold scanBlock
  dsimp only
  rw [List.foldl_reverse]
  constructor
  · exact hp₁.congr fun v _ => (readFirst_start hb).symm
  · apply hp₂.congr
    intro v _
    rw [writtenIn_iff, or_comm]
    apply or_congr Iff.rfl
    exact ⟨fun ⟨k, _, hdef⟩ => ⟨k, hdef⟩, fun ⟨k, hdef⟩ => ⟨k, Nat.zero_le k, hdef⟩⟩

/-- The pairs gathered are what the blocks gone through read first and what they write. -/
theorem foldl_expose (f : Func) (l : List ℕ) (hl : ∀ b ∈ l, b < f.blockCount) {s : Exposing}
    (h₁ : Holds f.vregs s.sets.1 (fun _ => False)) (h₂ : Holds f.vregs s.sets.2 (fun _ => False)) :
    (∀ b v, (b, v) ∈ (l.foldl (expose f) s).used ↔
      (b, v) ∈ s.used ∨ (b ∈ l ∧ v < f.vregs ∧ ReadFirst f v b ((Order.of f).start b))) ∧
    ∀ b v, (b, v) ∈ (l.foldl (expose f) s).defined ↔
      (b, v) ∈ s.defined ∨ (b ∈ l ∧ v < f.vregs ∧ WrittenIn f v b) := by
  induction l generalizing s with
  | nil => simp
  | cons c l ih =>
    obtain ⟨hs₁, hs₂⟩ := scanBlock_holds (hl c (List.mem_cons_self ..)) h₁ h₂
    obtain ⟨ht₁, hleft₁⟩ := take_holds hs₁
    obtain ⟨ht₂, hleft₂⟩ := take_holds hs₂
    obtain ⟨ih₁, ih₂⟩ := ih (s := expose f s c) (fun b hb => hl b (List.mem_cons_of_mem _ hb))
      hleft₁ hleft₂
    rw [List.foldl_cons]
    constructor
    · intro b v
      rw [ih₁]
      simp only [expose, List.mem_append, List.mem_map, Prod.mk.injEq, List.mem_cons]
      constructor
      · rintro ((hmem | ⟨v', hv', rfl, rfl⟩) | ⟨hb, hv⟩)
        · exact Or.inl hmem
        · exact Or.inr ⟨Or.inl rfl, (ht₁ _).mp hv'⟩
        · exact Or.inr ⟨Or.inr hb, hv⟩
      · rintro (hmem | ⟨rfl | hb, hv⟩)
        · exact Or.inl (Or.inl hmem)
        · exact Or.inl (Or.inr ⟨v, (ht₁ v).mpr hv, rfl, rfl⟩)
        · exact Or.inr ⟨hb, hv⟩
    · intro b v
      rw [ih₂]
      simp only [expose, List.mem_append, List.mem_map, Prod.mk.injEq, List.mem_cons]
      constructor
      · rintro ((hmem | ⟨v', hv', rfl, rfl⟩) | ⟨hb, hv⟩)
        · exact Or.inl hmem
        · exact Or.inr ⟨Or.inl rfl, (ht₂ _).mp hv'⟩
        · exact Or.inr ⟨Or.inr hb, hv⟩
      · rintro (hmem | ⟨rfl | hb, hv⟩)
        · exact Or.inl (Or.inl hmem)
        · exact Or.inl (Or.inr ⟨v, (ht₂ v).mpr hv, rfl, rfl⟩)
        · exact Or.inr ⟨hb, hv⟩

/-- The rows of `exposed`: what each block reads first, and what it writes. -/
theorem exposed_spec (f : Func) (hb : b < f.blockCount) (v : ℕ) : (v ∈ (exposed f (Order.of f)).1.row b ↔
      v < f.vregs ∧ ReadFirst f v b ((Order.of f).start b)) ∧
    (v ∈ (exposed f (Order.of f)).2.row b ↔ v < f.vregs ∧ WrittenIn f v b) := by
  obtain ⟨hused, hdefined⟩ := foldl_expose f (Order.of f).blocks
    (fun b hb => by rwa [Order.of_blocks, f.mem_layout] at hb)
    (s := ⟨[], [], (Building.new f.vregs, Building.new f.vregs)⟩)
    (new_holds f.vregs) (new_holds f.vregs)
  simp only [Order.of_blocks, f.mem_layout, List.not_mem_nil, false_or] at hused hdefined
  unfold exposed
  dsimp only
  rw [Order.of_blocks]
  constructor
  · rw [Rows.mem_row_gather (fun x hx => ((hused _ _).mp hx).1) hb, hused]
    exact and_iff_right hb
  · rw [Rows.mem_row_gather (fun x hx => ((hdefined _ _).mp hx).1) hb, hdefined]
    exact and_iff_right hb

/-! ## The graph the walk goes back over -/

theorem foldl_update_append {α : Type} (target : α → ℕ) (b : ℕ) (l : List α) (preds : ℕ → List ℕ) (i j : ℕ) :
    j ∈ l.foldl (fun preds call =>
      Function.update preds (target call) (preds (target call) ++ [b])) preds i ↔
      j ∈ preds i ∨ (j = b ∧ ∃ call ∈ l, target call = i) := by
  induction l generalizing preds with
  | nil => simp
  | cons call l ih =>
    rw [List.foldl_cons, ih, List.exists_mem_cons_iff]
    by_cases h : target call = i
    · subst h
      rw [Function.update_self, List.mem_append, List.mem_singleton]
      tauto
    · rw [Function.update_of_ne (Ne.symm h)]
      tauto

/-- A block is a predecessor of those it has an arm to. -/
theorem mem_predecessors (f : Func) (i j : ℕ) : j ∈ predecessors f (Order.of f) i ↔
      j < f.blockCount ∧ ∃ call ∈ (f.block j).succs, call.block = i := by
  have h (l : List ℕ) (preds : ℕ → List ℕ) :
      j ∈ l.foldl (fun preds b => (f.block b).succs.foldl
        (fun preds call => Function.update preds call.block (preds call.block ++ [b])) preds)
        preds i ↔
        j ∈ preds i ∨ (j ∈ l ∧ ∃ call ∈ (f.block j).succs, call.block = i) := by
    induction l generalizing preds with
    | nil => simp
    | cons b l ih =>
      rw [List.foldl_cons, ih, foldl_update_append BlockCall.block, List.mem_cons]
      by_cases hjb : j = b
      · subst hjb
        generalize (∃ call ∈ (f.block j).succs, call.block = i) = arm
        tauto
      · simp only [hjb, false_and, false_or, or_false]
  unfold predecessors
  rw [h, Order.of_blocks, f.mem_layout]
  simp

/-- The rows by value are the rows by block turned round. -/
theorem mem_byValue (f : Func) {rows : Rows}
    (hrows : ∀ b < f.blockCount, ∀ v ∈ rows.row b, v < f.vregs) (hv : v < f.vregs)
    (b : ℕ) : b ∈ (byValue f.vregs (Order.of f) rows).row v ↔
      b < f.blockCount ∧ v ∈ rows.row b := by
  unfold byValue
  rw [Order.of_blocks, Rows.mem_row_gather _ hv]
  · simp only [List.mem_flatMap, f.mem_layout, List.mem_map, Prod.mk.injEq]
    constructor
    · rintro ⟨c, hc, w, hw, rfl, rfl⟩
      exact ⟨hc, hw⟩
    · rintro ⟨hb, hmem⟩
      exact ⟨b, hb, v, hmem, rfl, rfl⟩
  · intro x hx
    simp only [List.mem_flatMap, f.mem_layout, List.mem_map] at hx
    obtain ⟨c, hc, w, hw, rfl⟩ := hx
    exact hrows c hc w hw

/-! ## The walk -/

/-- How many blocks have no mark of the value. -/
def unmarked (count value : ℕ) (marks : ℕ → ℕ) : ℕ :=
  ((Finset.range count).filter (fun j => marks j ≠ value)).card

theorem unmarked_update {count value row : ℕ} {marks : ℕ → ℕ} (hrow : row < count) (h : marks row ≠ value) :
    unmarked count value (Function.update marks row value) + 1 = unmarked count value marks := by
  unfold unmarked
  have herase : (Finset.range count).filter (fun j => Function.update marks row value j ≠ value) =
      ((Finset.range count).filter (fun j => marks j ≠ value)).erase row := by
    ext j
    rw [Finset.mem_erase, Finset.mem_filter, Finset.mem_filter]
    by_cases hj : j = row
    · subst hj
      simp
    · simp [hj]
  rw [herase]
  exact Finset.card_erase_add_one (by simp [hrow, h])

/-- Some blocks marked as ones the value arrives in and some as ones it leaves. -/
structure Marks (count value : ℕ) (A L : ℕ → Prop) (s r : Flow × List ℕ) : Prop where
  wrote : r.1.wrote = s.1.wrote
  arrived : ∀ j, r.1.arrived j = value ↔ A j ∨ s.1.arrived j = value
  arrived_keeps : ∀ j, r.1.arrived j = value ∨ r.1.arrived j = s.1.arrived j
  left : ∀ j, r.1.left j = value ↔ L j ∨ s.1.left j = value
  left_keeps : ∀ j, r.1.left j = value ∨ r.1.left j = s.1.left j
  waiting : ∃ added, r.2 = added ++ s.2 ∧ ∀ j, j ∈ added ↔ A j ∧ s.1.arrived j ≠ value
  liveIn : ∀ j w, (j, w) ∈ r.1.liveIn ↔
    (j, w) ∈ s.1.liveIn ∨ (w = value ∧ A j ∧ s.1.arrived j ≠ value)
  liveOut : ∀ j w, (j, w) ∈ r.1.liveOut ↔
    (j, w) ∈ s.1.liveOut ∨ (w = value ∧ L j ∧ s.1.left j ≠ value)
  work : r.2.length + unmarked count value r.1.arrived =
    s.2.length + unmarked count value s.1.arrived

namespace Marks

variable {count value : ℕ} {A A' L L' : ℕ → Prop} {s r t : Flow × List ℕ}

/-- Blocks that have their marks already are marked by doing nothing. -/
theorem idle (hA : ∀ j, A j → s.1.arrived j = value) (hL : ∀ j, L j → s.1.left j = value) :
    Marks count value A L s s where
  wrote := rfl
  arrived j := ⟨Or.inr, fun h => h.elim (hA j) id⟩
  arrived_keeps _ := Or.inr rfl
  left j := ⟨Or.inr, fun h => h.elim (hL j) id⟩
  left_keeps _ := Or.inr rfl
  waiting := ⟨[], rfl, fun j => ⟨fun h => absurd h List.not_mem_nil,
    fun ⟨h, hne⟩ => absurd (hA j h) hne⟩⟩
  liveIn j _ := ⟨Or.inl, fun h => h.elim id fun ⟨_, h, hne⟩ => absurd (hA j h) hne⟩
  liveOut j _ := ⟨Or.inl, fun h => h.elim id fun ⟨_, h, hne⟩ => absurd (hL j h) hne⟩
  work := rfl

theorem congr (h : Marks count value A L s r) (hA : ∀ j, A j ↔ A' j) (hL : ∀ j, L j ↔ L' j) :
    Marks count value A' L' s r := by
  have hA' : A = A' := funext fun j => propext (hA j)
  have hL' : L = L' := funext fun j => propext (hL j)
  rwa [hA', hL'] at h

theorem trans (h : Marks count value A L s r) (h' : Marks count value A' L' r t) :
    Marks count value (fun j => A j ∨ A' j) (fun j => L j ∨ L' j) s t where
  wrote := h'.wrote.trans h.wrote
  arrived j := by
    rw [h'.arrived, h.arrived]
    tauto
  arrived_keeps j := by
    rcases h'.arrived_keeps j with h₁ | h₁
    · exact Or.inl h₁
    · rw [h₁]
      exact h.arrived_keeps j
  left j := by
    rw [h'.left, h.left]
    tauto
  left_keeps j := by
    rcases h'.left_keeps j with h₁ | h₁
    · exact Or.inl h₁
    · rw [h₁]
      exact h.left_keeps j
  waiting := by
    obtain ⟨added, heq, hmem⟩ := h.waiting
    obtain ⟨added', heq', hmem'⟩ := h'.waiting
    refine ⟨added' ++ added, by rw [heq', heq, List.append_assoc], fun j => ?_⟩
    rw [List.mem_append, hmem, hmem', ne_eq, h.arrived]
    tauto
  liveIn j w := by
    rw [h'.liveIn, h.liveIn]
    simp only [ne_eq, h.arrived]
    tauto
  liveOut j w := by
    rw [h'.liveOut, h.liveOut]
    simp only [ne_eq, h.left]
    tauto
  work := h'.work.trans h.work

/-- One block marked as one the value arrives in. -/
theorem arrive {row : ℕ} (hrow : row < count) (h : s.1.arrived row ≠ value) :
    Marks count value (fun j => j = row) (fun _ => False) s (Regalloc.arrive value s row) where
  wrote := rfl
  arrived j := by
    by_cases hj : j = row
    · simp [Regalloc.arrive, hj]
    · simp [Regalloc.arrive, hj]
  arrived_keeps j := by
    by_cases hj : j = row
    · simp [Regalloc.arrive, hj]
    · simp [Regalloc.arrive, hj]
  left j := by simp [Regalloc.arrive]
  left_keeps j := Or.inr rfl
  waiting := by
    refine ⟨[row], rfl, fun j => ?_⟩
    rw [List.mem_singleton]
    exact ⟨fun hj => ⟨hj, hj ▸ h⟩, And.left⟩
  liveIn j w := by
    simp only [Regalloc.arrive, List.mem_append, List.mem_singleton, Prod.mk.injEq]
    apply or_congr Iff.rfl
    exact ⟨fun ⟨hj, hw⟩ => ⟨hw, hj, hj ▸ h⟩, fun ⟨hw, hj, _⟩ => ⟨hj, hw⟩⟩
  liveOut j w := by simp [Regalloc.arrive]
  work := by
    have := unmarked_update hrow h
    simp only [Regalloc.arrive, List.length_cons]
    omega

/-- One block marked as one the value leaves. -/
theorem leave {row : ℕ} (h : s.1.left row ≠ value) :
    Marks count value (fun _ => False) (fun j => j = row) s
      ({ s.1 with left := Function.update s.1.left row value,
                  liveOut := s.1.liveOut ++ [(row, value)] }, s.2) where
  wrote := rfl
  arrived j := by simp
  arrived_keeps j := Or.inr rfl
  left j := by
    by_cases hj : j = row
    · simp [hj]
    · simp [hj]
  left_keeps j := by
    by_cases hj : j = row
    · simp [hj]
    · simp [hj]
  waiting := ⟨[], rfl, by simp⟩
  liveIn j w := by simp
  liveOut j w := by
    simp only [List.mem_append, List.mem_singleton, Prod.mk.injEq]
    apply or_congr Iff.rfl
    exact ⟨fun ⟨hj, hw⟩ => ⟨hw, hj, hj ▸ h⟩, fun ⟨hw, hj, _⟩ => ⟨hj, hw⟩⟩
  work := rfl

/-- A list of blocks found to read the value. -/
theorem foldl_arrive (rows : List ℕ) (hrows : ∀ row ∈ rows, row < count) (s : Flow × List ℕ) :
    Marks count value (fun j => j ∈ rows) (fun _ => False) s
      (rows.foldl (fun s row => if s.1.arrived row ≠ value then Regalloc.arrive value s row else s)
        s) := by
  induction rows generalizing s with
  | nil => exact idle (fun j hj => absurd hj List.not_mem_nil) (fun j hj => hj.elim)
  | cons row rows ih =>
    have hone : Marks count value (fun j => j = row) (fun _ => False) s
        (if s.1.arrived row ≠ value then Regalloc.arrive value s row else s) := by
      split_ifs with h
      · exact arrive (hrows row (List.mem_cons_self ..)) h
      · exact idle (fun j hj => hj ▸ not_not.mp h) (fun j hj => hj.elim)
    rw [List.foldl_cons]
    apply (hone.trans (ih (fun r hr => hrows r (List.mem_cons_of_mem _ hr)) _)).congr
    · intro j
      rw [List.mem_cons]
    · simp

/-- One predecessor of a block the value is live into. -/
theorem follow {pred : ℕ} (hpred : pred < count) (s : Flow × List ℕ) :
    Marks count value (fun j => j = pred ∧ s.1.wrote j ≠ value) (fun j => j = pred) s
      (Regalloc.follow value s pred) := by
  unfold Regalloc.follow
  dsimp only
  have hleave : Marks count value (fun _ => False) (fun j => j = pred) s
      (if s.1.left pred ≠ value then
        ({ s.1 with left := Function.update s.1.left pred value,
                    liveOut := s.1.liveOut ++ [(pred, value)] }, s.2) else s) := by
    split_ifs with h
    · exact leave h
    · exact idle (fun j hj => hj.elim) (fun j hj => hj ▸ not_not.mp h)
  generalize (if s.1.left pred ≠ value then
    ({ s.1 with left := Function.update s.1.left pred value,
                liveOut := s.1.liveOut ++ [(pred, value)] }, s.2) else s) = r at hleave ⊢
  have harrive : Marks count value (fun j => j = pred ∧ s.1.wrote j ≠ value) (fun _ => False) r
      (if r.1.arrived pred ≠ value ∧ r.1.wrote pred ≠ value then Regalloc.arrive value r pred
        else r) := by
    rw [hleave.wrote]
    split_ifs with h
    · apply (arrive hpred h.1).congr _ (fun _ => Iff.rfl)
      exact fun j => ⟨fun hj => ⟨hj, hj ▸ h.2⟩, And.left⟩
    · apply idle _ (fun j hj => hj.elim)
      rintro j ⟨rfl, hwrote⟩
      by_contra hne
      exact h ⟨hne, hwrote⟩
  apply (hleave.trans harrive).congr
  · simp
  · simp

theorem foldl_follow (l : List ℕ) (hl : ∀ pred ∈ l, pred < count) (s : Flow × List ℕ) :
    Marks count value (fun j => j ∈ l ∧ s.1.wrote j ≠ value) (fun j => j ∈ l) s
      (l.foldl (Regalloc.follow value) s) := by
  induction l generalizing s with
  | nil =>
    exact idle (fun j hj => absurd hj.1 List.not_mem_nil) (fun j hj => absurd hj List.not_mem_nil)
  | cons pred l ih =>
    have hone : Marks count value _ _ s (Regalloc.follow value s pred) :=
      follow (hl pred (List.mem_cons_self ..)) s
    rw [List.foldl_cons]
    apply (hone.trans (ih (fun p hp => hl p (List.mem_cons_of_mem _ hp)) _)).congr
    · intro j
      rw [hone.wrote, List.mem_cons, or_and_right]
    · intro j
      rw [List.mem_cons]

end Marks

/-- The walk between two visits: what it has marked of what it is to mark, and what it started
with. -/
structure Walking (preds : ℕ → List ℕ) (value : ℕ) (reads stops : ℕ → Prop) (s₀ : Flow)
    (s : Flow × List ℕ) : Prop where
  closing : Closing (fun i j => j ∈ preds i ∧ ¬ stops j) reads (fun j => s.1.arrived j = value) s.2
  wrote : ∀ j, s.1.wrote j = value ↔ stops j
  leaves : ∀ j, s.1.left j = value → ∃ i, s.1.arrived i = value ∧ j ∈ preds i
  left : ∀ i, s.1.arrived i = value → i ∉ s.2 → ∀ j ∈ preds i, s.1.left j = value
  arrived_keeps : ∀ j, s.1.arrived j = value ∨ s.1.arrived j = s₀.arrived j
  left_keeps : ∀ j, s.1.left j = value ∨ s.1.left j = s₀.left j
  wrote_keeps : s.1.wrote = s₀.wrote
  liveIn : ∀ j w, (j, w) ∈ s.1.liveIn ↔ (j, w) ∈ s₀.liveIn ∨ (w = value ∧ s.1.arrived j = value)
  liveOut : ∀ j w, (j, w) ∈ s.1.liveOut ↔ (j, w) ∈ s₀.liveOut ∨ (w = value ∧ s.1.left j = value)

section

variable {preds : ℕ → List ℕ} {count value : ℕ} {reads stops : ℕ → Prop} {s₀ : Flow}

/-- One visit. -/
theorem Walking.visit (hpreds : ∀ i, ∀ j ∈ preds i, j < count) {flow : Flow} {row : ℕ}
    {rest : List ℕ} (h : Walking preds value reads stops s₀ (flow, row :: rest)) :
    Walking preds value reads stops s₀ ((preds row).foldl (follow value) (flow, rest)) ∧
      ((preds row).foldl (follow value) (flow, rest)).2.length +
        unmarked count value ((preds row).foldl (follow value) (flow, rest)).1.arrived =
      rest.length + unmarked count value flow.arrived := by
  have hmarks : Marks count value _ _ (flow, rest) ((preds row).foldl (follow value) (flow, rest)) :=
    Marks.foldl_follow (preds row) (hpreds row) (flow, rest)
  generalize (preds row).foldl (follow value) (flow, rest) = r at hmarks ⊢
  obtain ⟨added, hadded, hmem⟩ := hmarks.waiting
  have hwrote (j : ℕ) : flow.wrote j ≠ value ↔ ¬ stops j := not_congr (h.wrote j)
  have harrived := hmarks.arrived
  have hleft := hmarks.left
  simp only [hwrote] at hmem harrived
  dsimp only at harrived hleft hmem hadded
  refine ⟨?_, hmarks.work⟩
  constructor
  · rw [hadded]
    apply h.closing.visit
    · intro j
      rw [harrived, hmem]
      tauto
    · exact fun j hj => ((hmem j).mp hj).1
    · exact fun j hj => (harrived j).mpr (Or.inl hj)
  · intro j
    rw [hmarks.wrote]
    exact h.wrote j
  · intro j hj
    rcases (hleft j).mp hj with hpred | hj
    · exact ⟨row, (harrived row).mpr (Or.inr (h.closing.waits row (List.mem_cons_self ..))), hpred⟩
    · obtain ⟨i, hi, hpred⟩ := h.leaves j hj
      exact ⟨i, (harrived i).mpr (Or.inr hi), hpred⟩
  · intro i hi hnot j hj
    rw [hadded, List.mem_append, not_or, hmem] at hnot
    apply (hleft j).mpr
    by_cases hrow : i = row
    · subst hrow
      exact Or.inl hj
    · -- Not the one just visited, and not one just found, so one followed before.
      have hold : flow.arrived i = value := by
        by_contra hne
        rcases (harrived i).mp hi with hnew | hold
        · exact hnot.1 ⟨hnew, hne⟩
        · exact hne hold
      right
      apply h.left i hold _ j hj
      rw [List.mem_cons, not_or]
      exact ⟨hrow, hnot.2⟩
  · intro j
    rcases hmarks.arrived_keeps j with heq | heq
    · exact Or.inl heq
    · rw [heq]
      exact h.arrived_keeps j
  · intro j
    rcases hmarks.left_keeps j with heq | heq
    · exact Or.inl heq
    · rw [heq]
      exact h.left_keeps j
  · rw [hmarks.wrote]
    exact h.wrote_keeps
  · intro j w
    rw [hmarks.liveIn, h.liveIn, harrived]
    simp only [hwrote]
    tauto
  · intro j w
    rw [hmarks.liveOut, h.liveOut, hleft]
    dsimp only
    tauto

/-- Given a visit for each block that waits or may still come to, the walk ends with nothing
waiting. -/
theorem Walking.walk (hpreds : ∀ i, ∀ j ∈ preds i, j < count) (fuel : ℕ) (s : Flow × List ℕ)
    (h : Walking preds value reads stops s₀ s)
    (hfuel : s.2.length + unmarked count value s.1.arrived ≤ fuel) :
    Walking preds value reads stops s₀ (walk preds value fuel s) ∧
      (walk preds value fuel s).2 = [] := by
  induction fuel generalizing s with
  | zero =>
    have hnil : s.2 = [] := List.length_eq_zero_iff.mp (by omega)
    exact ⟨h, hnil⟩
  | succ fuel ih =>
    obtain ⟨flow, waiting⟩ := s
    cases waiting with
    | nil => exact ⟨h, rfl⟩
    | cons row rest =>
      obtain ⟨hnext, hwork⟩ := h.visit hpreds
      apply ih _ hnext
      dsimp only at hfuel
      rw [List.length_cons] at hfuel
      omega

theorem foldl_update (value : ℕ) (rows : List ℕ) (wrote : ℕ → ℕ) (j : ℕ) :
    rows.foldl (fun wrote row => Function.update wrote row value) wrote j =
      if j ∈ rows then value else wrote j := by
  induction rows generalizing wrote with
  | nil => simp
  | cons row rows ih =>
    rw [List.foldl_cons, ih]
    by_cases hj : j = row
    · simp [hj]
    · simp [hj]

/-- The blocks a value is live into, by the walk: those it reaches back from its readers without
passing a writer. -/
def Arrives (preds : ℕ → List ℕ) (reads stops : ℕ → Prop) (j : ℕ) : Prop :=
  Reached (fun i j => j ∈ preds i ∧ ¬ stops j) reads j

/-- The values below a bound walked: no mark is of a later one, and the pairs are theirs. -/
structure Flowed (preds : ℕ → List ℕ) (reads stops : ℕ → ℕ → Prop) (n : ℕ) (s : Flow) : Prop where
  arrived : ∀ j, s.arrived j < n ∨ s.arrived j = UNMARKED
  left : ∀ j, s.left j < n ∨ s.left j = UNMARKED
  wrote : ∀ j, s.wrote j < n ∨ s.wrote j = UNMARKED
  liveIn : ∀ j w, (j, w) ∈ s.liveIn ↔ w < n ∧ Arrives preds (reads w) (stops w) j
  liveOut : ∀ j w, (j, w) ∈ s.liveOut ↔
    w < n ∧ ∃ i, Arrives preds (reads w) (stops w) i ∧ j ∈ preds i

theorem Flowed.start (preds : ℕ → List ℕ) (reads stops : ℕ → ℕ → Prop) :
    Flowed preds reads stops 0
      ⟨fun _ => UNMARKED, fun _ => UNMARKED, fun _ => UNMARKED, [], []⟩ where
  arrived _ := Or.inr rfl
  left _ := Or.inr rfl
  wrote _ := Or.inr rfl
  liveIn j w := by simp
  liveOut j w := by simp

/-- One value walked. -/
theorem Flowed.step {readers writers : Rows} {reads stops : ℕ → ℕ → Prop} {s : Flow}
    (hpreds : ∀ i, ∀ j ∈ preds i, j < count) (h : Flowed preds reads stops value s)
    (hvalue : value < UNMARKED) (hreaders : ∀ j, j ∈ readers.row value ↔ reads value j)
    (hcount : ∀ j, reads value j → j < count)
    (hwriters : ∀ j, j ∈ writers.row value ↔ stops value j) :
    Flowed preds reads stops (value + 1) (flowValue count preds readers writers s value) := by
  have hnone {m : ℕ} (hm : m < value ∨ m = UNMARKED) : m ≠ value := by omega
  unfold flowValue
  dsimp only
  have hwrote := foldl_update value (writers.row value) s.wrote
  generalize (writers.row value).foldl (fun wrote row => Function.update wrote row value) s.wrote =
    wrote at hwrote
  have hmarks : Marks count value _ _ ({ s with wrote := wrote }, []) _ :=
    Marks.foldl_arrive (readers.row value)
      (fun j hj => hcount j ((hreaders j).mp hj)) ({ s with wrote := wrote }, [])
  generalize (readers.row value).foldl
    (fun s row => if s.1.arrived row ≠ value then arrive value s row else s)
    ({ s with wrote := wrote }, []) = r at hmarks ⊢
  obtain ⟨added, hadded, hmem⟩ := hmarks.waiting
  have harrived := hmarks.arrived
  have hleft := hmarks.left
  simp only [hreaders, hnone (h.arrived _), or_false, ne_eq, not_false_iff, and_true,
    List.append_nil] at harrived hmem hadded
  simp only [hnone (h.left _), or_false, iff_false] at hleft
  -- The walk starts from the readers, all marked and all waiting.
  have hstart : Walking preds value (reads value) (stops value) { s with wrote := wrote } r := by
    constructor
    · apply Closing.start
      · exact harrived
      · rw [hadded]
        exact hmem
    · intro j
      rw [hmarks.wrote]
      dsimp only
      rw [hwrote, ← hwriters]
      have := hnone (h.wrote j)
      split_ifs with hj
      · exact ⟨fun _ => hj, fun _ => rfl⟩
      · exact ⟨fun heq => absurd heq this, fun hj' => absurd hj' hj⟩
    · exact fun j hj => absurd hj (hleft j)
    · intro i hi hnot
      rw [hadded, hmem] at hnot
      exact absurd ((harrived i).mp hi) hnot
    · exact hmarks.arrived_keeps
    · exact hmarks.left_keeps
    · exact hmarks.wrote
    · intro j w
      rw [hmarks.liveIn, harrived, hreaders]
      simp only [ne_eq, hnone (h.arrived _), not_false_iff, and_true]
    · intro j w
      rw [hmarks.liveOut]
      simp only [false_and, and_false, hleft]
  have hfuel : r.2.length + unmarked count value r.1.arrived ≤ count := by
    rw [hmarks.work]
    have := Finset.card_filter_le (Finset.range count) (fun j => s.arrived j ≠ value)
    rw [Finset.card_range] at this
    unfold unmarked
    simpa using this
  obtain ⟨hwalk, hnil⟩ := hstart.walk hpreds count r hfuel
  generalize walk preds value count r = t at hwalk hnil ⊢
  obtain ⟨t, waiting⟩ := t
  subst hnil
  have hreached (j : ℕ) : t.arrived j = value ↔ Arrives preds (reads value) (stops value) j :=
    hwalk.closing.finish j
  constructor
  · intro j
    rcases hwalk.arrived_keeps j with heq | heq
    · dsimp only at heq ⊢
      omega
    · have := h.arrived j
      dsimp only at heq ⊢
      omega
  · intro j
    rcases hwalk.left_keeps j with heq | heq
    · dsimp only at heq ⊢
      omega
    · have := h.left j
      dsimp only at heq ⊢
      omega
  · intro j
    have hkeeps := congrFun hwalk.wrote_keeps j
    have := h.wrote j
    dsimp only at hkeeps ⊢
    rw [hkeeps, hwrote]
    split_ifs
    · omega
    · omega
  · intro j w
    have := hwalk.liveIn j w
    dsimp only at this ⊢
    rw [this, h.liveIn, hreached]
    by_cases hw : w = value
    · subst hw
      simp
    · have hlt : w < value + 1 ↔ w < value := by omega
      simp [hw, hlt]
  · intro j w
    have := hwalk.liveOut j w
    dsimp only at this ⊢
    rw [this, h.liveOut]
    by_cases hw : w = value
    · subst hw
      have hiff : t.left j = w ↔ ∃ i, Arrives preds (reads w) (stops w) i ∧ j ∈ preds i := by
        constructor
        · intro hj
          obtain ⟨i, hi, hpred⟩ := hwalk.leaves j hj
          exact ⟨i, (hreached i).mp hi, hpred⟩
        · rintro ⟨i, hi, hpred⟩
          exact hwalk.left i ((hreached i).mpr hi) List.not_mem_nil j hpred
      simp [hiff]
    · have hlt : w < value + 1 ↔ w < value := by omega
      simp [hw, hlt]

end

/-- The walk finds the blocks the value is live into. -/
theorem arrives_iff (f : Func) (v : ℕ) (j : ℕ) : Arrives (predecessors f (Order.of f))
      (fun b => b < f.blockCount ∧ ReadFirst f v b ((Order.of f).start b))
      (fun b => b < f.blockCount ∧ WrittenIn f v b) j ↔ j < f.blockCount ∧ LiveInto f v j := by
  constructor
  · rintro ⟨r, ⟨hr, hfirst⟩, hpath⟩
    induction hpath with
    | refl => exact ⟨hr, (liveInto_iff hr).mpr (Or.inl hfirst)⟩
    | tail _ hedge ih =>
      obtain ⟨hpred, hstop⟩ := hedge
      obtain ⟨hj, call, hcall, rfl⟩ := (mem_predecessors f _ _).mp hpred
      refine ⟨hj, (liveInto_iff hj).mpr (Or.inr ⟨fun hwritten => hstop ⟨hj, hwritten⟩, ?_⟩)⟩
      exact ⟨call, hcall, ih.2⟩
  · rintro ⟨hj, hlive⟩
    unfold LiveInto at hlive
    generalize hp : (Order.of f).start j = p at hlive
    induction hlive with
    | read hread hle hfree =>
      subst hp
      exact Reached.of_root ⟨hj, _, hread, hle, hfree⟩
    | @leave b p call hcall hfree _ ih =>
      subst hp
      have hnext := ih (f.succ_lt hcall) rfl
      apply hnext.step
      refine ⟨(mem_predecessors f _ _).mpr ⟨hj, call, hcall, rfl⟩, ?_⟩
      rintro ⟨-, w, hwrite⟩
      exact hfree w (hwrite.bounds hj).1 hwrite

/-- The rows of `flow` are exact. -/
theorem flow_spec (f : Func) (hb : b < f.blockCount) :
    (v ∈ (flow f (Order.of f) (exposed f (Order.of f)).1 (exposed f (Order.of f)).2).1.row b ↔
      v < f.vregs ∧ LiveInto f v b) ∧
    (v ∈ (flow f (Order.of f) (exposed f (Order.of f)).1 (exposed f (Order.of f)).2).2.row b ↔
      v < f.vregs ∧ LiveOutOf f v b) := by
  have hused {c w : ℕ} (hc : c < f.blockCount) := (exposed_spec f hc w).1
  have hdefined {c w : ℕ} (hc : c < f.blockCount) := (exposed_spec f hc w).2
  have hloop (n : ℕ) (hn : n ≤ f.vregs) : Flowed (predecessors f (Order.of f))
      (fun w j => j < f.blockCount ∧ ReadFirst f w j ((Order.of f).start j))
      (fun w j => j < f.blockCount ∧ WrittenIn f w j) n
      ((List.range n).foldl (flowValue f.blockCount (predecessors f (Order.of f))
        (byValue f.vregs (Order.of f) (exposed f (Order.of f)).1)
        (byValue f.vregs (Order.of f) (exposed f (Order.of f)).2))
        ⟨fun _ => UNMARKED, fun _ => UNMARKED, fun _ => UNMARKED, [], []⟩) := by
    induction n with
    | zero => exact Flowed.start _ _ _
    | succ n ih =>
      have hlt := f.classes_lt
      rw [List.range_succ, List.foldl_append, List.foldl_cons, List.foldl_nil]
      apply (ih (by omega)).step
      · exact fun i j hj => ((mem_predecessors f i j).mp hj).1
      · unfold UNMARKED
        have hvregs : f.vregs = f.classes.length := rfl
        omega
      · intro j
        rw [mem_byValue f (fun c hc w hw => ((hused hc).mp hw).1) (by omega)]
        constructor
        · rintro ⟨hj, hmem⟩
          exact ⟨hj, ((hused hj).mp hmem).2⟩
        · rintro ⟨hj, hfirst⟩
          exact ⟨hj, (hused hj).mpr ⟨by omega, hfirst⟩⟩
      · exact fun j hj => hj.1
      · intro j
        rw [mem_byValue f (fun c hc w hw => ((hdefined hc).mp hw).1) (by omega)]
        constructor
        · rintro ⟨hj, hmem⟩
          exact ⟨hj, ((hdefined hj).mp hmem).2⟩
        · rintro ⟨hj, hwritten⟩
          exact ⟨hj, (hdefined hj).mpr ⟨by omega, hwritten⟩⟩
  have hall := hloop f.vregs le_rfl
  have hin (j w : ℕ) := hall.liveIn j w
  have hout (j w : ℕ) := hall.liveOut j w
  simp only [arrives_iff] at hin hout
  unfold flow
  dsimp only
  constructor
  · rw [Rows.mem_row_transpose (fun x hx => ((hin _ _).mp hx).2.1) hb, hin]
    tauto
  · have hrows (x : ℕ × ℕ) (hx : x ∈ ((List.range f.vregs).foldl
        (flowValue f.blockCount (predecessors f (Order.of f))
          (byValue f.vregs (Order.of f) (exposed f (Order.of f)).1)
          (byValue f.vregs (Order.of f) (exposed f (Order.of f)).2))
        ⟨fun _ => UNMARKED, fun _ => UNMARKED, fun _ => UNMARKED, [], []⟩).liveOut) :
        x.1 < f.blockCount := by
      obtain ⟨-, i, -, hpred⟩ := (hout _ _).mp hx
      exact ((mem_predecessors f _ _).mp hpred).1
    rw [Rows.mem_row_transpose hrows hb, hout]
    apply and_congr Iff.rfl
    constructor
    · rintro ⟨i, hi, hpred⟩
      obtain ⟨-, call, hcall, rfl⟩ := (mem_predecessors f _ _).mp hpred
      exact ⟨call, hcall, hi.2⟩
    · rintro ⟨call, hcall, hlive⟩
      exact ⟨call.block, ⟨f.succ_lt hcall, hlive⟩,
        (mem_predecessors f _ _).mpr ⟨hb, call, hcall, rfl⟩⟩

end Rucc.Regalloc
