import Rucc.Abi.Calls

/-!
# Every question of a call

A call is asked about one value after another: how the return value comes back, and how each argument travels,
past the `...` or not. Whatever was asked before, every question is answered, and an aggregate that is answered
with pieces is all there, unless it is one that is split although its members overlap.
-/

namespace Rucc.Abi

/-- What is asked of a call about a value. -/
inductive Position
  | returns | fixed | variadic
  deriving DecidableEq

namespace Call

/-- The question about a value in this position. -/
def ask (c : Call) (position : Position) (arg : Arg) : Option (Pass × Call) :=
  match position with
  | .returns => c.returns arg
  | .fixed => c.argument arg
  | .variadic => c.variadicArgument arg

/-- The call that the rules are read for when a value in this position is asked about. -/
def inPosition (c : Call) (position : Position) : Call :=
  match position, c.abi.variadic with
  | .variadic, .unnamedIntegers => { c with integersOnly := true, pastDots := true }
  | .variadic, .alwaysMemory => { c with integer := 0, float := 0 }
  | .variadic, _ => { c with pastDots := true }
  | _, _ => c

/-- The rules that decide about an aggregate in this position. -/
def rulesOf (c : Call) (position : Position) : List Rule :=
  match position with
  | .returns => c.abi.returns
  | _ => c.abi.arguments

/-- Whether every member of an aggregate in this position gets a register of its own. -/
def SplitsIn (c : Call) (position : Position) (s : Shape) : Prop :=
  (c.inPosition position).Splits (c.rulesOf position) s (position = .returns)

end Call

/-- The calls there are under a description, with the registers that were taken on the way there. -/
inductive Reached (abi : AbiDescription) : Call → ℕ × ℕ → Prop
  | call : Reached abi abi.call (0, 0)
  | variadic {c : Call} {taken : ℕ × ℕ} (h : Reached abi c taken) : Reached abi c.variadic taken
  | ask {c c' : Call} {taken : ℕ × ℕ} {position : Position} {arg : Arg} {pass : Pass} (h : Reached abi c taken)
      (hask : c.ask position arg = some (pass, c')) :
      Reached abi c' (taken.1 + (c.integer - c'.integer), taken.2 + (c.float - c'.float))

namespace Call

variable {c c' : Call} {abi : AbiDescription} {s : Shape}

/-- An aggregate is asked about by the rules of its position, and the answer is theirs. -/
theorem ask_aggregate (c : Call) (position : Position) (s : Shape) (pass : Pass) :
    (∃ c', c.ask position (.aggregate s) = some (pass, c')) ↔
      ∃ c', (c.inPosition position).apply (c.rulesOf position) s (position = .returns) = some (pass, c') := by
  cases position with
  | returns => rfl
  | fixed => rfl
  | variadic =>
    unfold ask inPosition rulesOf variadicArgument
    cases c.abi.variadic <;> dsimp only [argument, decide_false] <;>
    · constructor
      · rintro ⟨c', h⟩
        obtain ⟨⟨pass', after⟩, happly, h⟩ := Option.bind_eq_some_iff.1 h
        obtain ⟨rfl, -⟩ := Prod.mk.inj (Option.some.inj h)
        exact ⟨after, happly⟩
      · rintro ⟨c', h⟩
        refine ⟨_, Option.bind_eq_some_iff.2 ⟨_, h, rfl⟩⟩

/-- A scalar that is an argument is answered, and takes no more than there is. -/
theorem scalar_total (hle : c.integer ≤ c.abi.banks.integer) (s : Scalar) :
    ∃ pass c', c.scalar s = some (pass, c') ∧ c.Spends c' := by
  have hless (integer : ℕ) : c.Spends { c with integer := c.integer - integer } :=
    Spends.of_le c (Nat.sub_le _ _) le_rfl
  fun_cases c.scalar s with
  | case1 | case5 => exact ⟨_, _, rfl, hless 1⟩
  | case2 => exact ⟨_, _, rfl, Spends.refl c⟩
  | case3 => exact ⟨_, _, rfl, Spends.of_le c (Nat.zero_le _) le_rfl⟩
  | case4 | case7 | case10 => exact ⟨_, _, rfl, hless _⟩
  | case6 => exact ⟨_, _, rfl, Spends.of_le c le_rfl (Nat.sub_le _ _)⟩
  | case8 =>
    refine ⟨_, _, rfl, ?_⟩
    split
    · exact hless _
    · exact Spends.refl c
  | case9 =>
    -- the registers used so far are as many as a pair needs to start at an even one
    rw [Checked.checkedSub_of_le hle]
    refine ⟨_, _, rfl, ?_⟩
    split_ifs
    · exact Spends.of_le c ((Nat.sub_le _ _).trans (Nat.sub_le _ _)) le_rfl
    · exact Spends.of_le c (Nat.zero_le _) le_rfl
    · exact hless 1
    · exact hless _
    · exact Spends.of_le c (Nat.zero_le _) le_rfl
    · exact Spends.refl c

theorem argument_total (hle : c.integer ≤ c.abi.banks.integer) (hanswers : answers c.abi.arguments = true) (arg : Arg) :
    ∃ pass c', c.argument arg = some (pass, c') ∧ c.Spends c' ∧
      ∀ s slots, arg = .aggregate s → pass = .pieces slots → c.Takes slots c' := by
  cases arg with
  | void => exact ⟨_, _, rfl, Spends.refl c, fun s slots h => absurd h (by simp)⟩
  | scalar s =>
    obtain ⟨pass, c', h, hspends⟩ := scalar_total hle s
    exact ⟨pass, c', h, hspends, fun s slots h => absurd h (by simp)⟩
  | aggregate s =>
    obtain ⟨pass, c', h, hspends, htakes⟩ := c.apply_total s false c.abi.arguments hanswers
    exact ⟨pass, c', h, hspends, fun _ slots _ hslots => htakes slots hslots⟩

/-- Every question is answered, and what is taken is no more than there is. -/
theorem ask_total (hle : c.integer ≤ c.abi.banks.integer) (hreturns : answers c.abi.returns = true)
    (hanswers : answers c.abi.arguments = true) (position : Position) (arg : Arg) :
    ∃ pass c', c.ask position arg = some (pass, c') ∧ c.Spends c' ∧
      ∀ s slots, arg = .aggregate s → pass = .pieces slots → c.Takes slots c' := by
  cases position with
  | returns =>
    unfold ask returns
    cases arg with
    | void => exact ⟨_, _, rfl, Spends.refl c, fun s slots h => absurd h (by simp)⟩
    | scalar s =>
      dsimp only
      split
      · split
        · exact ⟨_, _, rfl, Spends.refl c, fun s slots h => absurd h (by simp)⟩
        · refine ⟨_, _, rfl, ?_, fun s slots h => absurd h (by simp)⟩
          split
          · exact Spends.of_le c (Nat.sub_le _ _) le_rfl
          · exact Spends.refl c
      · exact ⟨_, _, rfl, Spends.refl c, fun s slots h => absurd h (by simp)⟩
    | aggregate s =>
      obtain ⟨pass, c', h, hspends, htakes⟩ := c.apply_total s true c.abi.returns hreturns
      exact ⟨pass, c', h, hspends, fun _ slots _ hslots => htakes slots hslots⟩
  | fixed => exact argument_total hle hanswers arg
  | variadic =>
    unfold ask variadicArgument
    cases c.abi.variadic with
    | alwaysMemory =>
      cases arg with
      | void => exact ⟨_, _, rfl, Spends.refl c, fun s slots h => absurd h (by simp)⟩
      | scalar s => exact ⟨_, _, rfl, Spends.refl c, fun s slots h => absurd h (by simp)⟩
      | aggregate s =>
        obtain ⟨pass, c', h, -, -⟩ :=
          apply_total { c with integer := 0, float := 0 } s false c.abi.arguments hanswers
        dsimp only
        rw [h]
        exact ⟨_, _, rfl, Spends.refl c, fun _ _ _ _ => Or.inl ⟨rfl, rfl⟩⟩
    | unnamedIntegers =>
      obtain ⟨pass, c', h, hspends, htakes⟩ :=
        @argument_total { c with integersOnly := true, pastDots := true } hle hanswers arg
      dsimp only
      rw [h]
      exact ⟨_, _, rfl, ⟨hspends.abi, hspends.integer, hspends.float⟩, fun s slots harg hpass => htakes s slots harg hpass⟩
    | _ =>
      obtain ⟨pass, c', h, hspends, htakes⟩ := @argument_total { c with pastDots := true } hle hanswers arg
      dsimp only
      rw [h]
      exact ⟨_, _, rfl, ⟨hspends.abi, hspends.integer, hspends.float⟩, fun s slots harg hpass => htakes s slots harg hpass⟩

end Call

/-- What is left of the banks and what was taken from them is what they held. -/
theorem Reached.left {abi : AbiDescription} (habi : abi ∈ DESCRIBED) {c : Call} {taken : ℕ × ℕ}
    (h : Reached abi c taken) :
    c.abi = abi ∧ c.integer + taken.1 = abi.banks.integer ∧ c.float + taken.2 = abi.banks.float := by
  induction h with
  | call => exact ⟨rfl, rfl, rfl⟩
  | variadic h ih =>
    unfold Call.variadic
    split <;> exact ih
  | @ask c c' taken position arg pass h hask ih =>
    obtain ⟨rfl, hinteger, hfloat⟩ := ih
    obtain ⟨-, -, hanswers, hreturns, -⟩ := described_rules _ habi
    obtain ⟨pass', c'', hask', hspends, -⟩ := Call.ask_total (by omega) hreturns hanswers position arg
    obtain ⟨rfl, rfl⟩ := Prod.mk.inj (Option.some.inj (hask.symm.trans hask'))
    have hinteger' := hspends.integer
    have hfloat' := hspends.float
    refine ⟨hspends.abi, ?_, ?_⟩
    · dsimp only
      omega
    · dsimp only
      omega

/-- In every call, whatever was asked before: what is left of each bank and what was taken is what the bank
held, every question is answered, and the aggregates that are answered with pieces are all there exactly where
the rules do not split one whose members overlap. -/
theorem pieces_all_there (abi : AbiDescription) (habi : abi ∈ DESCRIBED) (c : Call) (taken : ℕ × ℕ)
    (hc : Reached abi c taken) (position : Position) :
    (c.integer + taken.1 = abi.banks.integer ∧ c.float + taken.2 = abi.banks.float) ∧
      (∀ arg, ∃ pass c', c.ask position arg = some (pass, c') ∧ c.Spends c' ∧
        ∀ s slots, arg = .aggregate s → pass = .pieces slots → c.Takes slots c') ∧
      ∀ (target : Target) (ty : CType) (s : Shape), ty.Laid target → shape target ty = some (.aggregate s) →
        ((∀ slots c', c.ask position (.aggregate s) = some (.pieces slots, c') → s.AllThere slots) ↔
          (c.SplitsIn position s → s.Disjoint)) := by
  obtain ⟨rfl, hinteger, hfloat⟩ := hc.left habi
  obtain ⟨harguments, hreturns, hanswers, hreturns', hwidth⟩ := described_rules _ habi
  refine ⟨⟨hinteger, hfloat⟩, Call.ask_total (by omega) hreturns' hanswers position, fun target ty s hty hshape => ?_⟩
  have hwidth' : (c.inPosition position).abi.banks.integerWidth < 2^32 := by
    unfold Call.inPosition
    split <;> exact hwidth
  have hrules : splitsFirst (c.rulesOf position) (position = .returns) = true := by
    cases position
    · exact hreturns
    · exact harguments
    · exact harguments
  rw [Call.SplitsIn, ← Call.apply_allThere_iff (shape_laid hty hshape) hwidth' hrules]
  constructor
  · intro h slots c' hslots
    obtain ⟨c'', hask⟩ := (c.ask_aggregate position s _).2 ⟨c', hslots⟩
    exact h slots c'' hask
  · intro h slots c' hslots
    obtain ⟨c'', happly⟩ := (c.ask_aggregate position s _).1 ⟨c', hslots⟩
    exact h slots c'' happly

section

/-- A 64 bit RISC-V machine. -/
private def lp64d : Target := ⟨.other, false, 2^63 - 1⟩

/-- The layout of a union of two scalars of four bytes. -/
private def scalars4 : CTypes.Types :=
  ⟨fun _ => .ok ⟨4, 4⟩, fun _ => .ok 4, fun _ => false, fun _ => .ok ⟨4, 4⟩⟩

private def twoMembers : List CTypes.FieldDecl := [⟨some 0, 0, none, none, false⟩, ⟨some 1, 1, none, none, false⟩]

/-- `union { float f; int i; }` -/
private def floatOrInt : CType :=
  .record .union ⟨4, 4⟩ (.cons ⟨some 0, 0, 0, 0, 4, none⟩ (.float .single ⟨4, 4⟩)
    (.cons ⟨some 1, 1, 0, 0, 4, none⟩ (.integer ⟨4, 4⟩) .nil))

private def floatOrIntShape : Shape where
  size := 4
  pieces := [⟨0, ⟨.float .single, 4, 4⟩⟩, ⟨0, ⟨.integer, 4, 4⟩⟩]
  isComplex := false
  floating := false
  vector := false

private theorem floatOrInt_laid : floatOrInt.Laid lp64d := by
  refine ⟨⟨rfl, fun h => absurd h (by decide), ⟨by decide, by decide⟩, fun h => absurd h (by decide), trivial⟩, ?_⟩
  refine ⟨scalars4, twoMembers, ⟨false, none, none, none⟩, ⟨.itanium, fun _ => false, 2^63 - 1, 0, false⟩,
    twoMembers.map fun d => (d, ⟨4, 4⟩), _, rfl, ?_, rfl, rfl, rfl, ?_⟩
  · intro m hm
    simp only [twoMembers, List.map_cons, List.map_nil, List.mem_cons, List.not_mem_nil, or_false] at hm
    rcases hm with rfl | rfl <;> constructor <;> simp
  · intro i m p hm hp
    match i with
    | 0 =>
      obtain rfl := Option.some.inj hm
      obtain rfl := Option.some.inj hp
      rfl
    | 1 =>
      obtain rfl := Option.some.inj hm
      obtain rfl := Option.some.inj hp
      rfl
    | i + 2 => exact absurd hm (by simp [twoMembers])

private theorem floatOrInt_shape : shape lp64d floatOrInt = some (.aggregate floatOrIntShape) := by decide +kernel

private theorem lp64d_described : RISCV_LP64D ∈ DESCRIBED := by simp [DESCRIBED]

/-- The union goes in two registers, and each holds all four of its bytes. -/
theorem pieces_not_all_there : ¬ ∀ abi ∈ DESCRIBED, ∀ c taken, Reached abi c taken → ∀ position target ty s slots c',
    CType.Laid target ty → shape target ty = some (.aggregate s) →
      c.ask position (.aggregate s) = some (.pieces slots, c') → s.AllThere slots := by
  intro h
  have hall := h RISCV_LP64D lp64d_described _ _ .call .fixed lp64d floatOrInt _
    [.float 0 .single, .integer 0 4] _ floatOrInt_laid floatOrInt_shape rfl
  have hapart : Slot.Apart (.float 0 .single) (.integer 0 4) := List.pairwise_pair.1 hall.apart
  exact Set.disjoint_left.1 hapart (⟨le_rfl, by decide⟩ : 0 ∈ Set.Ico 0 (0 + 4)) ⟨le_rfl, by decide⟩

theorem pieces_all_there_union :
    (RISCV_LP64D.call.integer + 0 = 8 ∧ RISCV_LP64D.call.float + 0 = 8) ∧
      ((∀ slots c', RISCV_LP64D.call.ask .fixed (.aggregate floatOrIntShape) = some (.pieces slots, c') →
        floatOrIntShape.AllThere slots) ↔
        (RISCV_LP64D.call.SplitsIn .fixed floatOrIntShape → floatOrIntShape.Disjoint)) := by
  obtain ⟨hleft, -, hiff⟩ := pieces_all_there RISCV_LP64D lp64d_described _ _ .call .fixed
  exact ⟨hleft, hiff lp64d floatOrInt _ floatOrInt_laid floatOrInt_shape⟩

end

end Rucc.Abi
