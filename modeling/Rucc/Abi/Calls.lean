import Rucc.Abi.Abis
import Rucc.Abi.Slots

/-!
# What a call carries

The answers of a classifier over whole calls, for every description there is. An aggregate that is answered
with pieces is all there, unless its members overlap and a rule gives each of them a register of its own. The
registers left are those the call started with, less what each value before took.
-/

namespace Rucc.Abi

/-! ## Rules -/

/-- Whether the rule gives every piece a register of its own, whatever the object is. -/
def Rule.splits (rule : Rule) : Bool :=
  match rule.travels, rule.when with
  | .asFound, .homogeneous _ => true
  | .asFound, .floatPair => true
  | _, _ => false

/-- Whether what the rule finds covers the object, or is one piece, or pieces that do not overlap. -/
def Rule.whole (rule : Rule) : Bool :=
  match rule.travels, rule.when with
  | .asFound, .x87Stack | .asFound, .loneFloat | .asFound, .singleScalar | .asFound, .vector
  | .asFound, .wholeVector _ => true
  | .asFound, .eightbytes limit => limit ≤ 16
  | .asFound, _ => false
  | .asOneInteger, .sizeOneOf sizes => sizes.all fun size => size < 2^32
  | .asOneInteger, _ => false
  | _, _ => true

/-- A list of rules with at most one that splits, which only empty objects do not come to. An argument that it
finds no registers for does not travel in pieces. -/
def splitsFirst (rules : List Rule) (returning : Bool) : Bool :=
  match rules with
  | first :: rule :: rest =>
    (rule.whole && first.whole || rule.splits && first.when = .empty && first.travels = .ignore &&
      (returning || rule.short ≠ .unchanged)) && rest.all Rule.whole
  | rules => rules.all Rule.whole

/-- A list of rules whose last one always answers. -/
def answers (rules : List Rule) : Bool :=
  rules.getLast?.any fun rule => rule.when = .anything && (rule.travels ≠ .asFound && rule.short ≠ .tryNextRule)

/-- What every description has. -/
theorem described_rules : ∀ abi ∈ DESCRIBED, splitsFirst abi.arguments false = true ∧
    splitsFirst abi.returns true = true ∧ answers abi.arguments = true ∧ answers abi.returns = true ∧
    abi.banks.integerWidth < 2^32 := by
  decide

variable {c c' : Call} {s : Shape} {rule : Rule} {rules : List Rule} {found slots : List Slot} {returning : Bool}

namespace Call

variable {answer : Option Pass}

/-- What is said of slots that may find no register. -/
theorem spend_spec (h : c.spend rule slots returning = some (answer, c')) :
    answer = some (.pieces slots) ∨ answer = some .memory ∨ answer = none ∧ c' = c := by
  unfold spend at h
  split_ifs at h
  · obtain ⟨rfl, -⟩ := Prod.mk.inj (Option.some.inj h)
    exact Or.inl rfl
  · obtain ⟨⟨integer, float⟩, -, h⟩ := Option.bind_eq_some_iff.1 h
    dsimp only at h
    split at h
    · obtain ⟨rfl, -⟩ := Prod.mk.inj (Option.some.inj h)
      exact Or.inl rfl
    · split at h
      · obtain ⟨rfl, -⟩ := Prod.mk.inj (Option.some.inj h)
        exact Or.inl rfl
      · obtain ⟨rfl, -⟩ := Prod.mk.inj (Option.some.inj h)
        exact Or.inr (Or.inl rfl)
      · obtain ⟨rfl, -⟩ := Prod.mk.inj (Option.some.inj h)
        exact Or.inr (Or.inl rfl)
      · obtain ⟨rfl, rfl⟩ := Prod.mk.inj (Option.some.inj h)
        exact Or.inr (Or.inr ⟨rfl, rfl⟩)

/-- The slots a rule sends an object in: those its test found, or a run of integer registers. -/
def sent (c : Call) (rule : Rule) (found : List Slot) (s : Shape) : List Slot :=
  match rule.travels with
  | .asIntegers => integerSlots s.size c.abi.banks.integerWidth
  | .asOneInteger => [.integer 0 (word32 s.size 8)]
  | _ => found

theorem travel_spec (h : c.travel rule found s returning = some (answer, c')) :
    (answer = some (.pieces (c.sent rule found s)) ∧
        (rule.travels = .asFound ∨ rule.travels = .asIntegers ∨ rule.travels = .asOneInteger)) ∨
      (∃ pass, answer = some pass ∧ ∀ slots, pass ≠ .pieces slots) ∨ answer = none ∧ c' = c := by
  unfold travel at h
  unfold sent
  split at h
  · obtain ⟨rfl, -⟩ := Prod.mk.inj (Option.some.inj h)
    exact Or.inr (Or.inl ⟨_, rfl, fun _ => by simp⟩)
  · obtain ⟨rfl, -⟩ := Prod.mk.inj (Option.some.inj h)
    exact Or.inr (Or.inl ⟨_, rfl, fun _ => by simp⟩)
  · split_ifs at h <;>
    · obtain ⟨rfl, -⟩ := Prod.mk.inj (Option.some.inj h)
      exact Or.inr (Or.inl ⟨_, rfl, fun _ => by simp⟩)
  · split_ifs at h <;>
    · obtain ⟨rfl, -⟩ := Prod.mk.inj (Option.some.inj h)
      exact Or.inr (Or.inl ⟨_, rfl, fun _ => by simp⟩)
  all_goals
    rename_i htravels
    rw [htravels]
    rcases spend_spec h with rfl | rfl | hnone
    · exact Or.inl ⟨rfl, by simp⟩
    · exact Or.inr (Or.inl ⟨_, rfl, fun _ => by simp⟩)
    · exact Or.inr (Or.inr hnone)

/-- A rule that is whole sends everything. -/
theorem whole_allThere (hs : s.Laid) (hwidth : c.abi.banks.integerWidth < 2^32) (hwhole : rule.whole = true)
    (hmatched : c.matched rule.when s = some found)
    (htravels : rule.travels = .asFound ∨ rule.travels = .asIntegers ∨ rule.travels = .asOneInteger) :
    s.AllThere (c.sent rule found s) := by
  unfold sent
  unfold Rule.whole at hwhole
  rcases htravels with htravels | htravels | htravels
  · rw [htravels] at hwhole ⊢
    cases hwhen : rule.when with
    | x87Stack =>
      rw [hwhen] at hmatched
      exact x87Stack_allThere hs hmatched
    | loneFloat =>
      rw [hwhen] at hmatched
      exact loneFloat_allThere hs hmatched
    | singleScalar =>
      rw [hwhen] at hmatched
      exact singleScalar_allThere hs hmatched
    | vector =>
      rw [hwhen, matched] at hmatched
      split_ifs at hmatched with hvector
      obtain rfl := Option.some.inj hmatched
      rw [Bool.or_eq_true, not_or, Bool.not_eq_true', Bool.not_eq_false] at hvector
      exact lanes_allThere hs hvector.2
    | wholeVector limit =>
      rw [hwhen, matched] at hmatched
      split_ifs at hmatched
      obtain rfl := Option.some.inj hmatched
      exact vectorSlots_allThere hs
    | eightbytes limit =>
      rw [hwhen] at hmatched hwhole
      exact eightbytes_allThere hs (of_decide_eq_true hwhole) hmatched
    | _ =>
      rw [hwhen] at hwhole
      exact absurd hwhole (by simp)
  · rw [htravels]
    exact integerSlots_allThere hs hwidth
  · rw [htravels] at hwhole ⊢
    cases hwhen : rule.when with
    | sizeOneOf sizes =>
      rw [hwhen, matched] at hmatched
      rw [hwhen] at hwhole
      split_ifs at hmatched with hsize
      exact oneInteger_allThere hs (of_decide_eq_true (List.all_eq_true.1 hwhole _ hsize))
    | _ =>
      rw [hwhen] at hwhole
      exact absurd hwhole (by simp)

/-- Where every rule is whole, so is what they answer. -/
theorem apply_whole (hs : s.Laid) (hwidth : c.abi.banks.integerWidth < 2^32) (hwhole : rules.all Rule.whole = true)
    (h : c.apply rules s returning = some (.pieces slots, c')) : s.AllThere slots := by
  induction rules with
  | nil => exact absurd h (by simp [apply])
  | cons rule rest ih =>
    rw [List.all_cons, Bool.and_eq_true] at hwhole
    rw [apply] at h
    cases hmatched : c.matched rule.when s with
    | none =>
      rw [hmatched] at h
      exact ih hwhole.2 h
    | some found =>
      rw [hmatched] at h
      dsimp only at h
      split_ifs at h
      · exact ih hwhole.2 h
      · obtain ⟨⟨answer, c₁⟩, htravel, hanswer⟩ := Option.bind_eq_some_iff.1 h
        rcases travel_spec htravel with ⟨rfl, htravels⟩ | ⟨pass, rfl, hpass⟩ | ⟨rfl, rfl⟩
        · obtain ⟨hslots, -⟩ := Prod.mk.inj (Option.some.inj hanswer)
          obtain rfl := Pass.pieces.inj hslots
          exact whole_allThere hs hwidth hwhole.1 hmatched htravels
        · obtain ⟨hslots, -⟩ := Prod.mk.inj (Option.some.inj hanswer)
          exact absurd hslots (hpass slots)
        · exact ih hwhole.2 hanswer

/-- Whether the call has registers for these slots. -/
def Room (c : Call) (slots : List Slot) (returning : Bool) : Prop :=
  returning = true ∨ c.integersOnly = false ∧ ∃ integer float, c.cost slots = some (integer, float) ∧
    integer ≤ c.integer ∧ float ≤ c.float

/-- Whether a rule gives every piece of the object a register of its own. -/
def Splits (c : Call) (rules : List Rule) (s : Shape) (returning : Bool) : Prop :=
  ∃ rule ∈ rules, rule.splits = true ∧ ∃ found, c.matched rule.when s = some found ∧ c.Room found returning

/-- What a rule that splits finds is the pieces, and one of them is in a vector register. -/
theorem splits_found (hs : s.Laid) (hsplits : rule.splits = true) (hmatched : c.matched rule.when s = some found) :
    SameBytes s.pieces found ∧ found.any Slot.isFloat = true ∧ rule.travels = .asFound := by
  unfold Rule.splits at hsplits
  split at hsplits
  · rename_i limit htravels hwhen
    rw [hwhen] at hmatched
    obtain ⟨hsame, hfloat⟩ := homogeneous_spec hs hmatched
    exact ⟨hsame, hfloat, htravels⟩
  · rename_i htravels hwhen
    rw [hwhen] at hmatched
    obtain ⟨hsame, hfloat⟩ := floatPair_spec hs hmatched
    exact ⟨hsame, hfloat, htravels⟩
  · exact absurd hsplits Bool.false_ne_true

/-- A rule that is whole does not split. -/
theorem not_splits_of_whole (hwhole : rule.whole = true) : rule.splits = false := by
  unfold Rule.whole at hwhole
  unfold Rule.splits
  split
  · rename_i htravels hwhen
    rw [htravels, hwhen] at hwhole
    exact absurd hwhole (by simp)
  · rename_i htravels hwhen
    rw [htravels, hwhen] at hwhole
    exact absurd hwhole (by simp)
  · rfl

theorem not_splits_of_all (hwhole : rules.all Rule.whole = true) : ¬ c.Splits rules s returning := by
  rintro ⟨rule, hmem, hsplits, -⟩
  rw [not_splits_of_whole (List.all_eq_true.1 hwhole rule hmem)] at hsplits
  exact Bool.false_ne_true hsplits

/-- Slots that there is room for are the answer. -/
theorem spend_of_room (hroom : c.Room slots returning) :
    ∃ c', c.spend rule slots returning = some (some (.pieces slots), c') := by
  unfold spend
  rcases hroom with rfl | ⟨-, integer, float, hcost, hfits⟩
  · exact ⟨c, rfl⟩
  · split
    · exact ⟨c, rfl⟩
    · rw [hcost]
      exact ⟨_, if_pos hfits⟩

/-- Slots that there is no room for are not the answer, where the rule says what happens then. -/
theorem spend_of_not_room (hshort : returning = true ∨ rule.short ≠ .unchanged) (honly : c.integersOnly = false)
    (hroom : ¬ c.Room slots returning) (c' : Call) :
    c.spend rule slots returning ≠ some (some (.pieces slots), c') := by
  intro h
  unfold spend at h
  split at h
  · exact hroom (Or.inl ‹_›)
  · obtain ⟨⟨integer, float⟩, hcost, h⟩ := Option.bind_eq_some_iff.1 h
    dsimp only at h
    split at h
    · exact hroom (Or.inr ⟨honly, integer, float, hcost, ‹_›⟩)
    · split at h
      · exact hshort.elim (fun hreturning => absurd hreturning ‹_›) fun hne => hne ‹_›
      all_goals exact absurd h (by simp)

/-- An object that is split has bytes. -/
theorem size_pos_of_split (hs : s.Laid) (hsplits : rule.splits = true) (hmatched : c.matched rule.when s = some found) :
    0 < s.size := by
  obtain ⟨hsame, hfloat, -⟩ := splits_found hs hsplits hmatched
  have hlength := hsame.length_eq
  obtain ⟨a, ha, -⟩ := List.any_eq_true.1 hfloat
  have hpos := List.length_pos_of_mem ha
  obtain ⟨p, hp⟩ := List.exists_mem_of_length_pos (hlength ▸ hpos)
  have hwithin := hs.within p hp
  have hsize := hwithin.laid.size_pos
  have hstop := hwithin.stop
  omega

/-- What the rules after one that is passed over answer is all there, and none of them splits. -/
theorem rest_allThere (hs : s.Laid) (hwidth : c.abi.banks.integerWidth < 2^32) {rest : List Rule}
    (hrest : rest.all Rule.whole = true)
    (happly : ∀ slots c', c.apply rules s returning = some (.pieces slots, c') →
      c.apply rest s returning = some (.pieces slots, c')) (hnot : ¬ c.Splits rules s returning) :
    (∀ slots c', c.apply rules s returning = some (.pieces slots, c') → s.AllThere slots) ↔
      (c.Splits rules s returning → s.Disjoint) :=
  iff_of_true (fun slots c' h => apply_whole hs hwidth hrest (happly slots c' h)) fun h => absurd h hnot

/-- An object that the rules answer with pieces is all there exactly where it is not one that they split
although its pieces overlap. -/
theorem apply_allThere_iff (hs : s.Laid) (hwidth : c.abi.banks.integerWidth < 2^32)
    (hrules : splitsFirst rules returning = true) :
    (∀ slots c', c.apply rules s returning = some (.pieces slots, c') → s.AllThere slots) ↔
      (c.Splits rules s returning → s.Disjoint) := by
  have hall (hwhole : rules.all Rule.whole = true) :
      (∀ slots c', c.apply rules s returning = some (.pieces slots, c') → s.AllThere slots) ↔
        (c.Splits rules s returning → s.Disjoint) :=
    rest_allThere hs hwidth hwhole (fun _ _ h => h) (not_splits_of_all hwhole)
  unfold splitsFirst at hrules
  split at hrules
  swap
  · exact hall hrules
  rename_i first rule rest
  simp only [Bool.and_eq_true, Bool.or_eq_true, decide_eq_true_eq] at hrules
  obtain ⟨⟨hrule, hfirst⟩ | ⟨⟨⟨hsplits, hempty⟩, hignore⟩, hshort⟩, hrest⟩ := hrules
  · exact hall (by rw [List.all_cons, List.all_cons, hfirst, hrule, hrest]; rfl)
  clear hall
  have hfirst : first.splits = false := by
    unfold Rule.splits
    rw [hignore]
  -- only the second rule splits
  have hiff : c.Splits (first :: rule :: rest) s returning ↔
      ∃ found, c.matched rule.when s = some found ∧ c.Room found returning := by
    constructor
    · rintro ⟨other, hmem, hother, found, hfound⟩
      rcases List.mem_cons.1 hmem with rfl | hmem
      · rw [hfirst] at hother
        exact absurd hother Bool.false_ne_true
      · rcases List.mem_cons.1 hmem with rfl | hmem
        · exact ⟨found, hfound⟩
        · exact absurd ⟨other, hmem, hother, found, hfound⟩ (not_splits_of_all hrest)
    · rintro ⟨found, hfound⟩
      exact ⟨rule, List.mem_cons_of_mem _ List.mem_cons_self, hsplits, found, hfound⟩
  by_cases hsize : s.size = 0
  · have happly : c.apply (first :: rule :: rest) s returning = some (.ignore, c) := by
      rw [apply, hempty, matched, if_pos hsize]
      dsimp only
      rw [List.any_nil, Bool.and_false, if_neg Bool.false_ne_true, travel, hignore]
      rfl
    refine iff_of_true (fun slots c' h => absurd (happly.symm.trans h) (by simp)) fun h => ?_
    obtain ⟨found, hmatched, -⟩ := hiff.1 h
    have hpos := size_pos_of_split hs hsplits hmatched
    omega
  have happly : c.apply (first :: rule :: rest) s returning = c.apply (rule :: rest) s returning := by
    rw [apply, hempty, matched, if_neg hsize]
  cases hmatched : c.matched rule.when s with
  | none =>
    refine rest_allThere hs hwidth hrest (fun slots c' h => ?_) fun h => ?_
    · rw [happly, apply, hmatched] at h
      exact h
    · obtain ⟨found, hfound, -⟩ := hiff.1 h
      rw [hmatched] at hfound
      exact absurd hfound (by simp)
  | some found =>
    obtain ⟨hsame, hfloat, htravels⟩ := splits_found hs hsplits hmatched
    generalize hnext : c.apply (rule :: rest) s returning = next at happly
    rw [apply, hmatched] at hnext
    subst hnext
    dsimp only at happly
    rw [hfloat, Bool.and_true] at happly
    have hspend : c.travel rule found s returning = c.spend rule found returning := by rw [travel, htravels]
    rw [hspend] at happly
    by_cases hroom : c.Room found returning
    · -- every piece is in a register of its own
      have honly : ¬ (c.integersOnly && !returning) = true := by
        rcases hroom with rfl | ⟨honly, -⟩
        · rw [Bool.not_true, Bool.and_false]
          exact Bool.false_ne_true
        · rw [honly, Bool.false_and]
          exact Bool.false_ne_true
      obtain ⟨c₁, hc₁⟩ := @spend_of_room c rule found returning hroom
      rw [if_neg honly, hc₁] at happly
      constructor
      · exact fun h _ => hsame.allThere_iff.1 (h _ _ happly)
      · intro h slots c' hslots
        obtain ⟨hslots, -⟩ := Prod.mk.inj (Option.some.inj (happly.symm.trans hslots))
        obtain rfl := Pass.pieces.inj hslots
        exact hsame.allThere_iff.2 (h (hiff.2 ⟨found, hmatched, hroom⟩))
    · refine rest_allThere hs hwidth hrest (fun slots c' h => ?_) fun h => ?_
      · rw [happly] at h
        split at h
        · exact h
        · rename_i honly
          obtain ⟨⟨answer, c₁⟩, hspend, hanswer⟩ := Option.bind_eq_some_iff.1 h
          rcases spend_spec hspend with rfl | rfl | ⟨rfl, rfl⟩
          · have hreturning : returning = false := by
              by_contra hreturning
              exact hroom (Or.inl (Bool.eq_true_of_not_eq_false hreturning))
            have hfalse : c.integersOnly = false := by
              rw [hreturning, Bool.not_false, Bool.and_true] at honly
              exact Bool.eq_false_of_not_eq_true honly
            exact absurd hspend (spend_of_not_room hshort hfalse hroom c₁)
          · exact absurd hanswer (by simp)
          · exact hanswer
      · obtain ⟨found', hfound', hroom'⟩ := hiff.1 h
        obtain rfl := Option.some.inj (hmatched.symm.trans hfound')
        exact absurd hroom' hroom

/-! ## Registers -/

/-- A call under the same description that has no more registers left than before. -/
structure Spends (c c' : Call) : Prop where
  abi : c'.abi = c.abi
  integer : c'.integer ≤ c.integer
  float : c'.float ≤ c.float

theorem Spends.refl (c : Call) : c.Spends c := ⟨rfl, le_rfl, le_rfl⟩

/-- Fewer of both kinds of registers are spent registers. -/
theorem Spends.of_le (c : Call) {integer float : ℕ} (hinteger : integer ≤ c.integer) (hfloat : float ≤ c.float) :
    c.Spends { c with integer := integer, float := float } := ⟨rfl, hinteger, hfloat⟩

theorem word32_mono {m n : ℕ} (h : m ≤ n) : word32 m (2^32 - 1) ≤ word32 n (2^32 - 1) := by
  unfold word32
  split_ifs <;> omega

/-- A run of slots costs registers, and its subtraction is none below zero. -/
theorem cost_isSome (c : Call) (slots : List Slot) : ∃ integer float, c.cost slots = some (integer, float) := by
  unfold cost
  dsimp only
  split
  · exact ⟨_, _, rfl⟩
  · rw [Checked.checkedSub_of_le (word32_mono (List.length_filter_le _ _))]
    exact ⟨_, _, rfl⟩

/-- What is taken for an object in these slots. -/
def Takes (c : Call) (slots : List Slot) (c' : Call) : Prop :=
  c'.integer = c.integer ∧ c'.float = c.float ∨ ∃ integer float, c.cost slots = some (integer, float) ∧ c'.integer = c.integer - integer ∧
    c'.float = c.float - float

theorem spend_total (c : Call) (rule : Rule) (slots : List Slot) (returning : Bool) :
    ∃ answer c', c.spend rule slots returning = some (answer, c') ∧ c.Spends c' ∧
      (answer = some (.pieces slots) → c.Takes slots c') ∧ (rule.short ≠ .tryNextRule → answer ≠ none) := by
  obtain ⟨integer, float, hcost⟩ := c.cost_isSome slots
  have hless := Spends.of_le c (Nat.sub_le c.integer integer) (Nat.sub_le c.float float)
  have htakes : c.Takes slots { c with integer := c.integer - integer, float := c.float - float } :=
    Or.inr ⟨integer, float, hcost, rfl, rfl⟩
  unfold spend
  rw [hcost]
  split
  · exact ⟨_, _, rfl, Spends.refl c, fun _ => Or.inl ⟨rfl, rfl⟩, fun _ => by simp⟩
  · simp only [bind, Option.bind]
    split
    · exact ⟨_, _, rfl, hless, fun _ => htakes, fun _ => by simp⟩
    · split
      · exact ⟨_, _, rfl, hless, fun _ => htakes, fun _ => by simp⟩
      · exact ⟨_, _, rfl, Spends.refl c, fun h => absurd h (by simp), fun _ => by simp⟩
      · refine ⟨_, _, rfl, Spends.of_le c ?_ ?_, fun h => absurd h (by simp), fun _ => by simp⟩
        · split <;> omega
        · split <;> omega
      · rename_i hshort
        exact ⟨_, _, rfl, Spends.refl c, fun h => absurd h (by simp), fun h => absurd hshort h⟩

theorem travel_total (c : Call) (rule : Rule) (found : List Slot) (s : Shape) (returning : Bool) :
    ∃ answer c', c.travel rule found s returning = some (answer, c') ∧ c.Spends c' ∧
      (∀ slots, answer = some (.pieces slots) → c.Takes slots c') ∧ (rule.short ≠ .tryNextRule → answer ≠ none) := by
  have hother {pass : Pass} (hpass : ∀ slots, pass ≠ .pieces slots) (slots : List Slot) (c' : Call)
      (h : some pass = some (.pieces slots)) : c.Takes slots c' := absurd (Option.some.inj h) (hpass slots)
  have hspend (slots : List Slot) : ∃ answer c', c.spend rule slots returning = some (answer, c') ∧ c.Spends c' ∧
      (∀ slots, answer = some (.pieces slots) → c.Takes slots c') ∧ (rule.short ≠ .tryNextRule → answer ≠ none) := by
    obtain ⟨answer, c', h, hspends, htakes, hshort⟩ := c.spend_total rule slots returning
    refine ⟨answer, c', h, hspends, fun slots' hslots => ?_, hshort⟩
    rcases spend_spec h with hanswer | hanswer | ⟨hanswer, -⟩
    · obtain rfl := Pass.pieces.inj (Option.some.inj (hanswer.symm.trans hslots))
      exact htakes hslots
    · exact absurd (hanswer.symm.trans hslots) (by simp)
    · exact absurd (hanswer.symm.trans hslots) (by simp)
  unfold travel
  split
  · exact ⟨_, _, rfl, Spends.refl c, fun slots => hother (by simp) slots _, fun _ => by simp⟩
  · exact ⟨_, _, rfl, Spends.refl c, fun slots => hother (by simp) slots _, fun _ => by simp⟩
  · split
    · exact ⟨_, _, rfl, Spends.refl c, fun slots => hother (by simp) slots _, fun _ => by simp⟩
    · exact ⟨_, _, rfl, Spends.of_le c (Nat.sub_le _ _) le_rfl, fun slots => hother (by simp) slots _, fun _ => by simp⟩
  · split
    · exact ⟨_, _, rfl, Spends.of_le c (Nat.sub_le _ _) le_rfl, fun slots => hother (by simp) slots _, fun _ => by simp⟩
    · exact ⟨_, _, rfl, Spends.refl c, fun slots => hother (by simp) slots _, fun _ => by simp⟩
  · exact hspend _
  · exact hspend _
  · exact hspend _

/-- Rules whose last one always answers always answer. -/
theorem apply_total (c : Call) (s : Shape) (returning : Bool) : ∀ rules : List Rule, answers rules = true →
    ∃ pass c', c.apply rules s returning = some (pass, c') ∧ c.Spends c' ∧
      ∀ slots, pass = .pieces slots → c.Takes slots c'
  | [], h => absurd h (by simp [answers])
  | rule :: rest, h => by
    have hrest : rest ≠ [] → ∃ pass c', c.apply rest s returning = some (pass, c') ∧ c.Spends c' ∧
        ∀ slots, pass = .pieces slots → c.Takes slots c' := by
      intro hne
      refine apply_total c s returning rest ?_
      rwa [answers, List.getLast?_cons_of_ne_nil hne] at h
    have hlast : rest = [] → c.matched rule.when s = some [] ∧ rule.short ≠ .tryNextRule := by
      rintro rfl
      simp only [answers, List.getLast?_singleton, Option.any_some, Bool.and_eq_true, decide_eq_true_eq] at h
      exact ⟨by rw [h.1, matched], h.2.2⟩
    rw [apply]
    cases hmatched : c.matched rule.when s with
    | none => exact hrest fun hnil => absurd (hmatched.symm.trans (hlast hnil).1) (by simp)
    | some found =>
      dsimp only
      split
      · rename_i hfloat
        refine hrest fun hnil => ?_
        obtain rfl := Option.some.inj (hmatched.symm.trans (hlast hnil).1)
        rw [List.any_nil, Bool.and_false] at hfloat
        exact Bool.false_ne_true hfloat
      · obtain ⟨answer, c', htravel, hspends, htakes, hshort⟩ := c.travel_total rule found s returning
        rw [htravel]
        cases answer with
        | some pass => exact ⟨pass, c', rfl, hspends, fun slots hslots => htakes slots (by rw [hslots])⟩
        | none =>
          have hsame : c' = c := by
            rcases travel_spec htravel with ⟨h, -⟩ | ⟨pass, h, -⟩ | ⟨-, h⟩
            · exact absurd h (by simp)
            · exact absurd h (by simp)
            · exact h
          rw [hsame]
          exact hrest fun hnil => hshort (hlast hnil).2 rfl

end Call

end Rucc.Abi
