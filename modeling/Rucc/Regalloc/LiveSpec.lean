import Rucc.Regalloc.Live

/-!
# What it is for a value to be live

A value is wanted at a point when a read of it can still be reached from there with no write of it
on the way, and live at a point when it is wanted there or written there. Operands are read at the
early point of their instruction, outgoing arguments at the end of their block; parameters are
written at the start of theirs, a definition at the late point of its instruction and an early one
at both.
-/

namespace Rucc.Regalloc

open Mir

variable {k p : ℕ}

/-- Some operand of an instruction reads the value. -/
def Uses (operands : List Operand) (v : ℕ) : Prop :=
  ∃ o ∈ operands, o.reg = .virtualReg v ∧ o.role.isDef = false

/-- Some operand of an instruction writes the value. -/
def Defines (operands : List Operand) (v : ℕ) : Prop :=
  ∃ o ∈ operands, o.reg = .virtualReg v ∧ o.role.isDef = true

/-- Some operand of an instruction writes the value early. -/
def EarlyDefines (operands : List Operand) (v : ℕ) : Prop :=
  ∃ o ∈ operands, o.reg = .virtualReg v ∧ o.role = .earlyDefine

/-- Some arm of a block carries the value. -/
def Carries (data : BlockData) (v : ℕ) : Prop := ∃ call ∈ data.succs, .virtualReg v ∈ call.args

/-- The value is a parameter of a block. -/
def Accepts (data : BlockData) (v : ℕ) : Prop := ∃ param ∈ data.params, param.reg = .virtualReg v

/-- A block reads the value at a point. -/
def Reads (f : Func) (v b p : ℕ) : Prop :=
  (∃ k, Uses (f.operands b k) v ∧ p = (Order.of f).early b k) ∨
    (Carries (f.block b) v ∧ p = (Order.of f).stop b)

/-- A block writes the value at a point. -/
def Writes (f : Func) (v b p : ℕ) : Prop :=
  (Accepts (f.block b) v ∧ p = (Order.of f).start b) ∨
    ∃ k, (Defines (f.operands b k) v ∧ p = (Order.of f).late b k) ∨
      (EarlyDefines (f.operands b k) v ∧ p = (Order.of f).early b k)

/-- From a point of a block there is a way to a read of the value with no write of it before. -/
inductive Wanted (f : Func) (v : ℕ) : ℕ → ℕ → Prop where
  | read {b p q : ℕ} (hread : Reads f v b q) (hle : p ≤ q)
      (hfree : ∀ w, p ≤ w → w < q → ¬ Writes f v b w) : Wanted f v b p
  | leave {b p : ℕ} {call : BlockCall} (hcall : call ∈ (f.block b).succs)
      (hfree : ∀ w, p ≤ w → ¬ Writes f v b w)
      (hnext : Wanted f v call.block ((Order.of f).start call.block)) : Wanted f v b p

/-- The value is live at a point of a block. -/
def LiveAt (f : Func) (v b p : ℕ) : Prop := Writes f v b p ∨ Wanted f v b p

/-- A block that the value is wanted at the start of. -/
def LiveInto (f : Func) (v b : ℕ) : Prop := Wanted f v b ((Order.of f).start b)

/-- A block that some successor wants the value after. -/
def LiveOutOf (f : Func) (v b : ℕ) : Prop :=
  ∃ call ∈ (f.block b).succs, LiveInto f v call.block

/-- A block writes the value somewhere. -/
def WrittenIn (f : Func) (v b : ℕ) : Prop := ∃ p, Writes f v b p

/-- What can write a value: the parameters of a block, or an instruction of it. -/
inductive Site where
  | params (b : ℕ)
  | inst (b k : ℕ)

/-- A site writes the value. -/
def Site.writes (f : Func) (v : ℕ) : Site → Prop
  | params b => Accepts (f.block b) v
  | inst b k => Defines (f.operands b k) v

/-- Every value is written in at most one place. -/
def WrittenOnce (f : Func) : Prop :=
  ∀ v s s', Site.writes f v s → Site.writes f v s' → s = s'

/-! ## Where in a block it is read and written -/

variable {f : Func} {v b : ℕ}

theorem EarlyDefines.defines {operands : List Operand} (h : EarlyDefines operands v) : Defines operands v := by
  obtain ⟨o, ho, hreg, hrole⟩ := h
  exact ⟨o, ho, hreg, by rw [hrole]; rfl⟩

theorem operands_of_ge (h : (f.block b).insts.length ≤ k) : f.operands b k = [] := by
  unfold Func.operands
  rw [List.getD_eq_getElem?_getD, List.getElem?_eq_none h]
  rfl

theorem Uses.lt (h : Uses (f.operands b k) v) : k < (f.block b).insts.length := by
  by_contra hge
  rw [operands_of_ge (by omega)] at h
  obtain ⟨o, ho, -⟩ := h
  cases ho

theorem Defines.lt (h : Defines (f.operands b k) v) : k < (f.block b).insts.length := by
  by_contra hge
  rw [operands_of_ge (by omega)] at h
  obtain ⟨o, ho, -⟩ := h
  cases ho

/-- A block's end is where an instruction after its last would be. -/
theorem stop_eq_early (hb : b < f.blockCount) :
    (Order.of f).stop b = (Order.of f).early b (f.block b).insts.length := by
  rw [Order.stop_eq f hb, Order.early_eq f hb]

theorem Reads.bounds (hb : b < f.blockCount) (h : Reads f v b p) :
    (Order.of f).start b < p ∧ p ≤ (Order.of f).stop b := by
  rw [Order.stop_eq f hb]
  rcases h with ⟨k, huses, rfl⟩ | ⟨-, rfl⟩
  · have := huses.lt
    rw [Order.early_eq f hb]
    omega
  · rw [Order.stop_eq f hb]
    omega

theorem Writes.bounds (hb : b < f.blockCount) (h : Writes f v b p) :
    (Order.of f).start b ≤ p ∧ p < (Order.of f).stop b := by
  rw [Order.stop_eq f hb]
  rcases h with ⟨-, rfl⟩ | ⟨k, ⟨hdef, rfl⟩ | ⟨hdef, rfl⟩⟩
  · omega
  · have := hdef.lt
    unfold Order.late
    rw [Order.early_eq f hb]
    omega
  · have := hdef.defines.lt
    rw [Order.early_eq f hb]
    omega

/-- What is read at an instruction's early point is what it uses. -/
theorem reads_early (hb : b < f.blockCount) (hk : k < (f.block b).insts.length) :
    Reads f v b ((Order.of f).early b k) ↔ Uses (f.operands b k) v := by
  constructor
  · rintro (⟨k', huses, heq⟩ | ⟨-, heq⟩)
    · rw [Order.early_eq f hb, Order.early_eq f hb] at heq
      have : k = k' := by omega
      rwa [this]
    · rw [Order.early_eq f hb, Order.stop_eq f hb] at heq
      omega
  · exact fun h => Or.inl ⟨k, h, rfl⟩

theorem reads_stop (hb : b < f.blockCount) : Reads f v b ((Order.of f).stop b) ↔ Carries (f.block b) v := by
  constructor
  · rintro (⟨k, huses, heq⟩ | ⟨hcarries, -⟩)
    · have := huses.lt
      rw [Order.early_eq f hb, Order.stop_eq f hb] at heq
      omega
    · exact hcarries
  · exact fun h => Or.inr ⟨h, rfl⟩

/-- Nothing is read at a late point. -/
theorem not_reads_late (hb : b < f.blockCount) (k : ℕ) : ¬ Reads f v b ((Order.of f).late b k) := by
  unfold Order.late
  rw [Order.early_eq f hb]
  rintro (⟨k', -, heq⟩ | ⟨-, heq⟩)
  · rw [Order.early_eq f hb] at heq
    omega
  · rw [Order.stop_eq f hb] at heq
    omega

theorem writes_start (hb : b < f.blockCount) : Writes f v b ((Order.of f).start b) ↔ Accepts (f.block b) v := by
  constructor
  · rintro (⟨haccepts, -⟩ | ⟨k, ⟨-, heq⟩ | ⟨-, heq⟩⟩)
    · exact haccepts
    · unfold Order.late at heq
      rw [Order.early_eq f hb] at heq
      omega
    · rw [Order.early_eq f hb] at heq
      omega
  · exact fun h => Or.inl ⟨h, rfl⟩

theorem writes_late (hb : b < f.blockCount) (k : ℕ) :
    Writes f v b ((Order.of f).late b k) ↔ Defines (f.operands b k) v := by
  constructor
  · unfold Order.late
    rintro (⟨-, heq⟩ | ⟨k', ⟨hdef, heq⟩ | ⟨-, heq⟩⟩)
    · rw [Order.early_eq f hb] at heq
      omega
    · unfold Order.late at heq
      rw [Order.early_eq f hb, Order.early_eq f hb] at heq
      have : k = k' := by omega
      rwa [this]
    · rw [Order.early_eq f hb, Order.early_eq f hb] at heq
      omega
  · exact fun h => Or.inr ⟨k, Or.inl ⟨h, rfl⟩⟩

/-- What is written at an early point is defined by the instruction. -/
theorem defines_of_writes_early (hb : b < f.blockCount)
    (h : Writes f v b ((Order.of f).early b k)) : Defines (f.operands b k) v := by
  rcases h with ⟨-, heq⟩ | ⟨k', ⟨-, heq⟩ | ⟨hdef, heq⟩⟩
  · rw [Order.early_eq f hb] at heq
    omega
  · unfold Order.late at heq
    rw [Order.early_eq f hb, Order.early_eq f hb] at heq
    omega
  · rw [Order.early_eq f hb, Order.early_eq f hb] at heq
    have : k = k' := by omega
    rw [this]
    exact hdef.defines

/-! ## What is wanted of a block -/

/-- A block reads the value from a point on before writing it. -/
def ReadFirst (f : Func) (v b p : ℕ) : Prop :=
  ∃ q, Reads f v b q ∧ p ≤ q ∧ ∀ w, p ≤ w → w < q → ¬ Writes f v b w

/-- At the end of a block it is what the arms carry. -/
theorem readFirst_stop (hb : b < f.blockCount) : ReadFirst f v b ((Order.of f).stop b) ↔ Carries (f.block b) v := by
  constructor
  · rintro ⟨q, hread, hle, -⟩
    have heq : q = (Order.of f).stop b := le_antisymm (hread.bounds hb).2 hle
    rw [heq] at hread
    exact (reads_stop hb).mp hread
  · intro h
    exact ⟨_, (reads_stop hb).mpr h, le_rfl, fun w hle hlt => absurd hlt (by omega)⟩

/-- At an instruction it is what the instruction uses, and what is read first after it and not
defined by it. -/
theorem readFirst_early (hb : b < f.blockCount) (hk : k < (f.block b).insts.length) :
    ReadFirst f v b ((Order.of f).early b k) ↔
      Uses (f.operands b k) v ∨
        (ReadFirst f v b ((Order.of f).early b (k + 1)) ∧ ¬ Defines (f.operands b k) v) := by
  have hlate : (Order.of f).late b k = (Order.of f).early b k + 1 := rfl
  have hnext : (Order.of f).early b (k + 1) = (Order.of f).early b k + 2 := by
    rw [Order.early_eq f hb, Order.early_eq f hb]
    omega
  constructor
  · rintro ⟨q, hread, hle, hfree⟩
    rcases Nat.eq_or_lt_of_le hle with heq | hlt
    · rw [← heq] at hread
      exact Or.inl ((reads_early hb hk).mp hread)
    · right
      have hne : q ≠ (Order.of f).late b k := by
        rintro rfl
        exact not_reads_late hb k hread
      constructor
      · exact ⟨q, hread, by omega, fun w hw hwq => hfree w (by omega) hwq⟩
      · intro hdef
        exact hfree _ (by omega) (by omega) ((writes_late hb k).mpr hdef)
  · rintro (huses | ⟨⟨q, hread, hle, hfree⟩, hdef⟩)
    · exact ⟨_, (reads_early hb hk).mpr huses, le_rfl, fun w hle hlt => absurd hlt (by omega)⟩
    · refine ⟨q, hread, by omega, fun w hw hwq hwrite => ?_⟩
      rcases Nat.lt_or_ge w ((Order.of f).early b (k + 1)) with hlt | hge
      · -- The only points in front of the next instruction are this one's own.
        have hcases : w = (Order.of f).early b k ∨ w = (Order.of f).late b k := by omega
        rcases hcases with rfl | rfl
        · exact hdef (defines_of_writes_early hb hwrite)
        · exact hdef ((writes_late hb k).mp hwrite)
      · exact hfree w hge hwq hwrite

/-- At the start of a block it is what is read first by the instructions and not a parameter. -/
theorem readFirst_start (hb : b < f.blockCount) : ReadFirst f v b ((Order.of f).start b) ↔
      ReadFirst f v b ((Order.of f).early b 0) ∧ ¬ Accepts (f.block b) v := by
  have hnext : (Order.of f).early b 0 = (Order.of f).start b + 1 := by
    rw [Order.early_eq f hb]
  constructor
  · rintro ⟨q, hread, hle, hfree⟩
    have hlt := (hread.bounds hb).1
    constructor
    · exact ⟨q, hread, by omega, fun w hw hwq => hfree w (by omega) hwq⟩
    · intro haccepts
      exact hfree _ le_rfl hlt ((writes_start hb).mpr haccepts)
  · rintro ⟨⟨q, hread, hle, hfree⟩, haccepts⟩
    refine ⟨q, hread, by omega, fun w hw hwq hwrite => ?_⟩
    rcases Nat.eq_or_lt_of_le hw with rfl | hlt
    · exact haccepts ((writes_start hb).mp hwrite)
    · exact hfree w (by omega) hwq hwrite

/-- A block writes the value when it is a parameter of it or an instruction defines it. -/
theorem writtenIn_iff : WrittenIn f v b ↔ Accepts (f.block b) v ∨ ∃ k, Defines (f.operands b k) v := by
  constructor
  · rintro ⟨p, ⟨haccepts, -⟩ | ⟨k, ⟨hdef, -⟩ | ⟨hdef, -⟩⟩⟩
    · exact Or.inl haccepts
    · exact Or.inr ⟨k, hdef⟩
    · exact Or.inr ⟨k, hdef.defines⟩
  · rintro (haccepts | ⟨k, hdef⟩)
    · exact ⟨_, Or.inl ⟨haccepts, rfl⟩⟩
    · exact ⟨_, Or.inr ⟨k, Or.inl ⟨hdef, rfl⟩⟩⟩

/-- A value is live into a block that reads it first, and into one that does not write it and has
a successor it is live into. -/
theorem liveInto_iff (hb : b < f.blockCount) : LiveInto f v b ↔
    ReadFirst f v b ((Order.of f).start b) ∨ (¬ WrittenIn f v b ∧ LiveOutOf f v b) := by
  constructor
  · intro h
    cases h with
    | read hread hle hfree => exact Or.inl ⟨_, hread, hle, hfree⟩
    | leave hcall hfree hnext =>
      right
      exact ⟨fun ⟨w, hwrite⟩ => hfree w (hwrite.bounds hb).1 hwrite, _, hcall, hnext⟩
  · rintro (⟨q, hread, hle, hfree⟩ | ⟨hwritten, call, hcall, hnext⟩)
    · exact Wanted.read hread hle hfree
    · exact Wanted.leave hcall (fun w _ hwrite => hwritten ⟨w, hwrite⟩) hnext

/-! ## Where a value that is live somewhere in a block is live -/

/-- What is wanted stays wanted back to any point it is not written from. -/
theorem Wanted.back {p' : ℕ} (h : Wanted f v b p') (hle : p ≤ p')
    (hfree : ∀ w, p ≤ w → w < p' → ¬ Writes f v b w) : Wanted f v b p := by
  cases h with
  | read hread hle' hfree' =>
    apply Wanted.read hread (hle.trans hle')
    intro w hw hwq
    rcases Nat.lt_or_ge w p' with hlt | hge
    · exact hfree w hw hlt
    · exact hfree' w hge hwq
  | leave hcall hfree' hnext =>
    apply Wanted.leave hcall _ hnext
    intro w hw
    rcases Nat.lt_or_ge w p' with hlt | hge
    · exact hfree w hw hlt
    · exact hfree' w hge

/-- A block with two points the value is written at writes it at one instruction, early and late. -/
theorem Writes.near (honce : WrittenOnce f) (hb : b < f.blockCount) {w w' : ℕ}
    (h : Writes f v b w) (h' : Writes f v b w') : w ≤ w' + 1 := by
  rcases h with ⟨haccepts, rfl⟩ | ⟨k, hk⟩
  · have := (h'.bounds hb).1
    omega
  · have hdef : Defines (f.operands b k) v := by
      rcases hk with ⟨hdef, -⟩ | ⟨hdef, -⟩
      · exact hdef
      · exact hdef.defines
    have hw : w ≤ (Order.of f).early b k + 1 := by
      rcases hk with ⟨-, rfl⟩ | ⟨-, rfl⟩
      · exact le_rfl
      · omega
    rcases h' with ⟨haccepts, rfl⟩ | ⟨k', hk'⟩
    · have heq := honce v (.params b) (.inst b k) haccepts hdef
      cases heq
    · have hdef' : Defines (f.operands b k') v := by
        rcases hk' with ⟨hdef', -⟩ | ⟨hdef', -⟩
        · exact hdef'
        · exact hdef'.defines
      have heq := honce v (.inst b k) (.inst b k') hdef hdef'
      cases heq
      rcases hk' with ⟨-, rfl⟩ | ⟨-, rfl⟩
      · unfold Order.late
        omega
      · omega

/-- A value that is live in front of a write of it came into the block with it, or is written there
as well. -/
theorem LiveAt.writes (honce : WrittenOnce f) (hb : b < f.blockCount)
    (hapart : ¬ (LiveInto f v b ∧ WrittenIn f v b)) {p₁ w : ℕ}
    (hstart : (Order.of f).start b ≤ p₁) (h₁ : LiveAt f v b p₁) (hle : p₁ ≤ p) (hlt : p < w)
    (hwrite : Writes f v b w) : Writes f v b p := by
  rcases h₁ with hwrite₁ | hwanted
  · have := hwrite.near honce hb hwrite₁
    have heq : p = p₁ := by omega
    rwa [heq]
  · exfalso
    apply hapart
    refine ⟨hwanted.back hstart fun u _ hu hwrite' => ?_, w, hwrite⟩
    -- Two writes are never further apart than the two points of an instruction.
    have := hwrite.near honce hb hwrite'
    omega

/-- In a block the value is not both live into and written in, it is live between any two points
it is live at. -/
theorem LiveAt.between (honce : WrittenOnce f) (hb : b < f.blockCount)
    (hapart : ¬ (LiveInto f v b ∧ WrittenIn f v b)) {p₁ p₂ : ℕ}
    (hstart : (Order.of f).start b ≤ p₁) (h₁ : LiveAt f v b p₁) (hle₁ : p₁ ≤ p) (hle₂ : p ≤ p₂)
    (h₂ : LiveAt f v b p₂) : LiveAt f v b p := by
  by_cases hnow : Writes f v b p
  · exact Or.inl hnow
  · have hfree (w : ℕ) (hw : p ≤ w) : ¬ Writes f v b w := by
      intro hwrite
      rcases Nat.eq_or_lt_of_le hw with rfl | hlt
      · exact hnow hwrite
      · exact hnow (h₁.writes honce hb hapart hstart hle₁ hlt hwrite)
    rcases h₂ with hwrite₂ | hwanted
    · exact absurd hwrite₂ (hfree p₂ hle₂)
    · exact Or.inr (hwanted.back hle₂ fun w hw _ => hfree w hw)

end Rucc.Regalloc
