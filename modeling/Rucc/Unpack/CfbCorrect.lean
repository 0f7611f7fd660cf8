import Rucc.Lib.Linked
import Rucc.Lib.Worklist
import Rucc.Unpack.Cfb

/-!
# What comes out of a compound file

A stream is the bytes of the pieces on its chain, in order, cut to its size. `comes_whole_iff` says for which files the
reader keeps to that, and to listing every stream that the directory reaches once under its full path. The loop over a
chain does not compare what it gave with the size that was asked for: `Cfb.sectors` does so behind it, except where the
size is the one that stands for everything, and the loop over the mini stream has nothing behind it that does.

The directory is the tree of the ways from its root. The walk takes no note of where it has been, so it visits every
way once (`walk_visits`), and an entry that two ways lead to is listed twice.
-/

namespace Rucc.Unpack.Compound

open Worklist

variable {it : List UInt8} {start n b sector : ℕ} {α : Type} {what : String} {l : List ℕ} {streams : List Stream}
    {p : List String}

/-! ## Pieces and chains -/

/-- A store cut in pieces of one size, and which piece follows which. -/
structure Table where
  next : List ℕ
  size : ℕ
  piece : ℕ → Option (List UInt8)
  length_piece : ∀ n it, piece n = some it → it.length = size

namespace Table

variable (t : Table)

/-- The number that follows one, where the number means a piece, the piece is there and the table goes that far. -/
def link (n : ℕ) : Option ℕ := if n ≤ MAX then (t.piece n).bind fun _ => t.next[n]? else none

/-- The bytes of a piece. -/
def bytes (n : ℕ) : List UInt8 := (t.piece n).getD []

variable {t} {n d : ℕ}

theorem link_eq_some : t.link n = some d ↔ n ≤ MAX ∧ ∃ it, t.piece n = some it ∧ t.next[n]? = some d := by
  unfold link
  by_cases hn : n ≤ MAX
  · rw [if_pos hn, Option.bind_eq_some_iff]
    exact ⟨fun h => ⟨hn, h⟩, fun h => h.2⟩
  · rw [if_neg hn]
    exact ⟨fun h => (nomatch h), fun h => absurd h.1 hn⟩

theorem length_bytes (h : (t.link n).isSome) : (t.bytes n).length = t.size := by
  obtain ⟨d, hd⟩ := Option.isSome_iff_exists.1 h
  obtain ⟨-, it, hit, -⟩ := link_eq_some.1 hd
  rw [bytes, hit, Option.getD_some]
  exact t.length_piece n it hit

/-- What the pieces on a chain hold. -/
theorem length_flatMap {l : List ℕ} {a b : ℕ} (h : Passes t.link a l b) :
    (l.flatMap t.bytes).length = t.size * l.length := by
  have hall : ∀ x ∈ l, (t.bytes x).length = t.size := fun x hx => length_bytes (h.isSome_of_mem hx)
  rw [List.length_flatMap, List.map_congr_left hall, List.map_const', List.sum_replicate, smul_eq_mul, Nat.mul_comm]

end Table

theorem length_of_slice {bytes : List UInt8} (h : slice bytes start n = some it) : it.length = n := by
  unfold slice at h
  by_cases hle : start + n ≤ bytes.length
  · rw [if_pos hle] at h
    rw [← Option.some.inj h, List.length_take, List.length_drop]
    omega
  · rw [if_neg hle] at h
    exact nomatch h

/-- The sectors of a file. -/
def Cfb.large (file : Cfb) : Table where
  next := file.fat
  size := file.sector
  piece n := slice file.bytes ((n + 1) * file.sector) file.sector
  length_piece _ _ h := length_of_slice h

/-- The pieces of the mini stream, of 64 bytes. -/
def Cfb.small (file : Cfb) : Table where
  next := file.minifat
  size := 64
  piece n := slice file.mini (64 * n) 64
  length_piece _ _ h := length_of_slice h

/-- Where a stream is kept. -/
def Cfb.table (file : Cfb) (stream : Stream) : Table := if stream.size < CUTOFF then file.small else file.large

theorem bind_ok {β : Type} {x : Except CfbError α} {f : α → Except CfbError β} {b : β} (h : x >>= f = .ok b) :
    ∃ a, x = .ok a ∧ f a = .ok b := by
  cases x with
  | error e => exact nomatch h
  | ok a => exact ⟨a, rfl, h⟩

section

variable {t : Table} {size : ℕ} {cycle : CfbError} {piece : ℕ → Except CfbError (List UInt8)}
  {next : ℕ → Except CfbError ℕ}

end

/-! ## What a stream holds -/

variable {file : Cfb} {stream : Stream} {out : List UInt8}

/-- Where a number of an entry stands in the entry before it. -/
inductive Turn where
  | left
  | right
  | child
  deriving DecidableEq

/-- The name in an entry, where it has one. -/
def title (it : List UInt8) : String :=
  match nameOf it with
  | .ok name => name
  | .error _ => ""

/-- The directory leads to a number along some turns, the last one first, and under the storages of these names. -/
inductive Reached (dir : List UInt8) : List Turn → ℕ → List String → Prop where
  | top : Reached dir [] (le (dir.take ENTRY) 76) []
  | left {w : List Turn} {n : ℕ} {p : List String} {it : List UInt8} (h : Reached dir w n p)
      (hentry : entry dir n = some it) : Reached dir (.left :: w) (le it 68) p
  | right {w : List Turn} {n : ℕ} {p : List String} {it : List UInt8} (h : Reached dir w n p)
      (hentry : entry dir n = some it) : Reached dir (.right :: w) (le it 72) p
  | child {w : List Turn} {n : ℕ} {p : List String} {it : List UInt8} (h : Reached dir w n p)
      (hentry : entry dir n = some it) (hkind : kind it = STORAGE) :
      Reached dir (.child :: w) (le it 76) (p ++ [title it])

/-- An entry for a stream that the directory leads to. -/
def StreamAt (dir : List UInt8) (w : List Turn) (n : ℕ) (p : List String) (it : List UInt8) : Prop :=
  Reached dir w n p ∧ entry dir n = some it ∧ kind it = STREAM

/-- Names with a slash between two of them. -/
def fullPath : List String → String
  | [] => ""
  | [name] => name
  | storage :: name :: rest => storage ++ "/" ++ fullPath (name :: rest)

/-- The stream that an entry under some storages is for, under its full path. -/
def streamOf (dir : List UInt8) (place : ℕ × List String) : Stream :=
  let it := (entry dir place.1).getD []
  ⟨fullPath (place.2 ++ [title it]), le64 it 120, le it 116⟩

/-- These are the streams that a directory reaches, each listed once under its full path. -/
def Listed (dir : List UInt8) (streams : List Stream) : Prop :=
  ∃ places : List (ℕ × List String), (places.map Prod.fst).Nodup ∧
    (∀ n p, (n, p) ∈ places ↔ ∃ w it, StreamAt dir w n p it) ∧ streams = places.map (streamOf dir)

/-! ## What the walk visits -/

/-- A number on the stack, with the turns that led to it and the names of the storages it is under. -/
abbrev Node : Type := List Turn × ℕ × List String

/-- What a visit puts on the stack. -/
def kids (dir : List UInt8) : Node → List Node
  | (w, n, p) =>
    match entry dir n with
    | none => []
    | some it =>
      (if kind it = STORAGE then [(.child :: w, le it 76, p ++ [title it])] else []) ++
        [(.right :: w, le it 72, p), (.left :: w, le it 68, p)]

/-- The names of some storages, as the walk joins them. -/
def pathOf (names : List String) : String := names.foldl joined ""

/-- What stands on the stack for a node. -/
def waiting (a : Node) : ℕ × String := (a.2.1, pathOf a.2.2)

/-- What a visit lists. -/
def listed (dir : List UInt8) : Node → Option Stream
  | (_, n, p) =>
    match entry dir n with
    | none => none
    | some it => if kind it = STREAM then some ⟨pathOf (p ++ [title it]), le64 it 120, le it 116⟩ else none

variable {dir : List UInt8}

theorem pathOf_snoc (p : List String) (name : String) : pathOf (p ++ [name]) = joined (pathOf p) name :=
  List.foldl_append

variable {a : Node}

theorem kids_of_absent (h : entry dir a.2.1 = none) : kids dir a = [] := by
  obtain ⟨w, n, p⟩ := a
  simp only at h
  simp only [kids, h]

theorem kids_of_present (h : entry dir a.2.1 = some it) :
    kids dir a = (if kind it = STORAGE then [(.child :: a.1, le it 76, a.2.2 ++ [title it])] else []) ++
      [(.right :: a.1, le it 72, a.2.2), (.left :: a.1, le it 68, a.2.2)] := by
  obtain ⟨w, n, p⟩ := a
  simp only at h
  simp only [kids, h]

theorem listed_of_absent (h : entry dir a.2.1 = none) : listed dir a = none := by
  obtain ⟨w, n, p⟩ := a
  simp only at h
  simp only [listed, h]

/-- The numbers that no entry has are visited without effect. -/
theorem visits_pop {todo : List Node} :
    (pop dir (todo.map waiting) = none → Visits (kids dir) todo todo ∧ todo.filterMap (listed dir) = []) ∧
    ∀ it under rest, pop dir (todo.map waiting) = some (it, under, rest) →
      ∃ w n p todo', entry dir n = some it ∧ under = pathOf p ∧ rest = todo'.map waiting ∧
        ∀ visits, Visits (kids dir) ((w, n, p) :: todo') visits →
          ∃ visits', Visits (kids dir) todo visits' ∧ visits'.filterMap (listed dir) = visits.filterMap (listed dir) := by
  induction todo with
  | nil => exact ⟨fun _ => ⟨.nil, rfl⟩, fun it under rest h => nomatch h⟩
  | cons a todo ih =>
    cases hentry : entry dir a.2.1 with
    | none =>
      have hpop : pop dir ((a :: todo).map waiting) = pop dir (todo.map waiting) := by
        rw [List.map_cons, waiting, pop, hentry]
      have hkids : kids dir a ++ todo = todo := by rw [kids_of_absent hentry, List.nil_append]
      rw [hpop]
      constructor
      · intro h
        obtain ⟨hvisits, hlisted⟩ := ih.1 h
        refine ⟨.cons (hkids.symm ▸ hvisits), ?_⟩
        rw [List.filterMap_cons_none (listed_of_absent hentry), hlisted]
      · intro it under rest h
        obtain ⟨w, n, p, todo', hit, hunder, hrest, hall⟩ := ih.2 it under rest h
        refine ⟨w, n, p, todo', hit, hunder, hrest, fun visits hvisits => ?_⟩
        obtain ⟨visits', hvisits', heq⟩ := hall visits hvisits
        refine ⟨a :: visits', .cons (hkids.symm ▸ hvisits'), ?_⟩
        rw [List.filterMap_cons_none (listed_of_absent hentry), heq]
    | some it =>
      have hpop : pop dir ((a :: todo).map waiting) = some (it, pathOf a.2.2, todo.map waiting) := by
        rw [List.map_cons, waiting, pop, hentry]
      rw [hpop]
      constructor
      · exact fun h => nomatch h
      · intro it' under rest h
        obtain ⟨rfl, hrest⟩ := Prod.mk.inj (Option.some.inj h)
        obtain ⟨rfl, rfl⟩ := Prod.mk.inj hrest
        exact ⟨a.1, a.2.1, a.2.2, todo, hentry, rfl, rfl, fun visits hvisits => ⟨visits, hvisits, rfl⟩⟩

/-- What the walk lists is what its visits list, and it visits every way once. -/
theorem walkFrom_visits {guard : ℕ} {todo : List Node} {out streams : List Stream}
    (h : walkFrom dir guard (todo.map waiting) out = .ok streams) :
    ∃ visits, Visits (kids dir) todo visits ∧ streams = out ++ visits.filterMap (listed dir) := by
  induction guard generalizing todo out with
  | zero =>
    rw [walkFrom] at h
    cases hpop : pop dir (todo.map waiting) with
    | none =>
      rw [hpop] at h
      obtain ⟨hvisits, hlisted⟩ := visits_pop.1 hpop
      exact ⟨todo, hvisits, by rw [hlisted, List.append_nil]; exact (Except.ok.inj h).symm⟩
    | some popped =>
      rw [hpop] at h
      exact nomatch h
  | succ guard ih =>
    rw [walkFrom] at h
    cases hpop : pop dir (todo.map waiting) with
    | none =>
      rw [hpop] at h
      obtain ⟨hvisits, hlisted⟩ := visits_pop.1 hpop
      exact ⟨todo, hvisits, by rw [hlisted, List.append_nil]; exact (Except.ok.inj h).symm⟩
    | some popped =>
      obtain ⟨it, under, rest⟩ := popped
      rw [hpop] at h
      obtain ⟨w, n, p, todo', hit, rfl, rfl, hall⟩ := visits_pop.2 it under rest hpop
      obtain ⟨name, hname, h⟩ := bind_ok h
      have htitle : title it = name := by rw [title, hname]
      -- A visit of the entry, from the visits of what it puts on the stack.
      have hvisit : ∀ added : List Node, kids dir (w, n, p) = added → ∀ visits,
          Visits (kids dir) (added ++ todo') visits → ∃ visits', Visits (kids dir) todo visits' ∧
            visits'.filterMap (listed dir) = (listed dir (w, n, p)).toList ++ visits.filterMap (listed dir) := by
        intro added hadded visits hvisits
        obtain ⟨visits', hvisits', heq⟩ := hall _ (.cons (hadded.symm ▸ hvisits))
        refine ⟨visits', hvisits', heq.trans ?_⟩
        rw [List.filterMap_cons]
        cases listed dir (w, n, p) <;> rfl
      have hkids : kids dir (w, n, p) = (if kind it = STORAGE then [(.child :: w, le it 76, p ++ [name])] else []) ++
          [(.right :: w, le it 72, p), (.left :: w, le it 68, p)] := by
        rw [← htitle]
        exact kids_of_present hit
      have hlisted : listed dir (w, n, p) =
          if kind it = STREAM then some ⟨joined (pathOf p) name, le64 it 120, le it 116⟩ else none := by
        simp only [listed, hit, htitle, pathOf_snoc]
      by_cases hstream : kind it = STREAM
      · have hstorage : kind it ≠ STORAGE := by rw [hstream]; decide
        rw [if_pos hstream] at h hlisted
        rw [if_neg hstorage] at hkids
        obtain ⟨visits, hvisits, rfl⟩ := @ih ([(.right :: w, le it 72, p), (.left :: w, le it 68, p)] ++ todo') _ h
        obtain ⟨visits', hvisits', heq⟩ := hvisit _ hkids visits hvisits
        refine ⟨visits', hvisits', ?_⟩
        rw [heq, hlisted, List.append_assoc]
        rfl
      · rw [if_neg hstream] at h hlisted
        by_cases hstorage : kind it = STORAGE
        · rw [if_pos hstorage] at h hkids
          rw [← pathOf_snoc] at h
          obtain ⟨visits, hvisits, rfl⟩ := @ih ([(.child :: w, le it 76, p ++ [name])] ++
            [(.right :: w, le it 72, p), (.left :: w, le it 68, p)] ++ todo') _ h
          obtain ⟨visits', hvisits', heq⟩ := hvisit _ hkids visits hvisits
          refine ⟨visits', hvisits', ?_⟩
          rw [heq, hlisted]
          rfl
        · rw [if_neg hstorage] at h hkids
          obtain ⟨visits, hvisits, rfl⟩ := @ih ([(.right :: w, le it 72, p), (.left :: w, le it 68, p)] ++ todo') _ h
          obtain ⟨visits', hvisits', heq⟩ := hvisit _ hkids visits hvisits
          refine ⟨visits', hvisits', ?_⟩
          rw [heq, hlisted]
          rfl

theorem mem_kids {b : Node} (h : b ∈ kids dir a) : ∃ it, entry dir a.2.1 = some it ∧
    (b = (.right :: a.1, le it 72, a.2.2) ∨ b = (.left :: a.1, le it 68, a.2.2) ∨
      kind it = STORAGE ∧ b = (.child :: a.1, le it 76, a.2.2 ++ [title it])) := by
  cases hentry : entry dir a.2.1 with
  | none =>
    rw [kids_of_absent hentry] at h
    exact absurd h List.not_mem_nil
  | some it =>
    rw [kids_of_present hentry] at h
    refine ⟨it, rfl, ?_⟩
    by_cases hkind : kind it = STORAGE
    · simp only [if_pos hkind, List.cons_append, List.nil_append, List.mem_cons, List.not_mem_nil, or_false] at h
      rcases h with h | h | h
      · exact Or.inr (Or.inr ⟨hkind, h⟩)
      · exact Or.inl h
      · exact Or.inr (Or.inl h)
    · simp only [if_neg hkind, List.nil_append, List.mem_cons, List.not_mem_nil, or_false] at h
      exact h.imp_right Or.inl

/-- What the visits of the whole tree reach is what the directory leads to. -/
theorem reached_iff : Reached dir a.1 a.2.1 a.2.2 ↔
    Relation.ReflTransGen (fun a b => b ∈ kids dir a) ([], le (dir.take ENTRY) 76, []) a := by
  constructor
  · intro h
    obtain ⟨w, n, p⟩ := a
    simp only at h
    induction h with
    | top => exact .refl
    | left _ hentry ih => exact ih.tail (by rw [kids_of_present hentry]; simp)
    | right _ hentry ih => exact ih.tail (by rw [kids_of_present hentry]; simp)
    | child _ hentry hkind ih => exact ih.tail (by rw [kids_of_present hentry, if_pos hkind]; simp)
  · intro h
    induction h with
    | refl => exact .top
    | tail _ hedge ih =>
      obtain ⟨it, hentry, rfl | rfl | ⟨hkind, rfl⟩⟩ := mem_kids hedge
      · exact .right ih hentry
      · exact .left ih hentry
      · exact .child ih hentry hkind

/-- The walk lists what the nodes of the tree list, and visits each of them once. -/
theorem walk_visits (h : walk dir = .ok streams) :
    ∃ visits : List Node, (∀ a, a ∈ visits ↔ Reached dir a.1 a.2.1 a.2.2) ∧ (visits.map Prod.fst).Nodup ∧
      streams = visits.filterMap (listed dir) := by
  obtain ⟨visits, hvisits, heq⟩ := @walkFrom_visits dir _ [([], le (dir.take ENTRY) 76, [])] [] streams h
  refine ⟨visits, fun a => ?_, ?_, heq⟩
  · rw [hvisits.mem_iff, reached_iff]
    constructor
    · rintro ⟨b, hb, hpath⟩
      rwa [List.mem_singleton.1 hb] at hpath
    · exact fun hpath => ⟨_, List.mem_singleton_self _, hpath⟩
  · refine hvisits.nodup (fun a b hb => ?_) (fun a => ?_) (List.pairwise_singleton _ _)
    · obtain ⟨it, -, rfl | rfl | ⟨-, rfl⟩⟩ := mem_kids hb
      · exact ⟨.right, rfl⟩
      · exact ⟨.left, rfl⟩
      · exact ⟨.child, rfl⟩
    · cases hentry : entry dir a.2.1 with
      | none =>
        rw [kids_of_absent hentry]
        exact List.nodup_nil
      | some it =>
        rw [kids_of_present hentry]
        by_cases hkind : kind it = STORAGE
        · simp [if_pos hkind]
        · simp [if_neg hkind]

/-! ## Paths -/

theorem fullPath_append (a b : String) (rest : List String) :
    fullPath ((a ++ "/" ++ b) :: rest) = a ++ "/" ++ fullPath (b :: rest) := by
  cases rest with
  | nil => rfl
  | cons c rest =>
    rw [fullPath, fullPath]
    simp only [String.append_assoc]

/-- Names joined behind one that is not empty have all their slashes. -/
theorem foldl_joined {under : String} (h : under ≠ "") (names : List String) :
    names.foldl joined under = fullPath (under :: names) := by
  induction names generalizing under with
  | nil => rfl
  | cons name names ih =>
    have hne : under ++ "/" ++ name ≠ "" := by
      intro heq
      exact h (String.append_eq_empty_iff.1 (String.append_eq_empty_iff.1 heq).1).1
    rw [List.foldl_cons, joined, if_neg h, ih hne, fullPath_append, fullPath]

/-- Joining names leaves no character of the path out that is not a slash before it. -/
theorem length_foldl_joined (under : String) (names : List String) :
    (names.foldl joined under).length ≤ (fullPath (under :: names)).length := by
  by_cases h : under = ""
  · induction names generalizing under with
    | nil => exact le_rfl
    | cons name names ih =>
      rw [List.foldl_cons, joined, if_pos h, fullPath, String.length_append, String.length_append]
      by_cases hname : name = ""
      · exact (ih name hname).trans (Nat.le_add_left _ _)
      · rw [foldl_joined hname]
        exact Nat.le_add_left _ _
  · rw [foldl_joined h]

/-- The walk's name of a stream is its full path where the first storage it is under has a name. -/
theorem pathOf_eq (h : p.head? ≠ some "") (name : String) : pathOf (p ++ [name]) = fullPath (p ++ [name]) := by
  cases p with
  | nil => rfl
  | cons storage p =>
    have hne : storage ≠ "" := fun heq => h (by rw [heq]; rfl)
    exact foldl_joined hne (p ++ [name])

/-- Elsewhere it is shorter. -/
theorem length_pathOf_lt (h : p.head? = some "") (name : String) :
    (pathOf (p ++ [name])).length < (fullPath (p ++ [name])).length := by
  cases p with
  | nil => exact nomatch h
  | cons storage p =>
    obtain rfl : storage = "" := Option.some.inj h
    obtain ⟨first, rest, hrest⟩ : ∃ first rest, p ++ [name] = first :: rest := List.exists_cons_of_ne_nil (by simp)
    rw [List.cons_append, hrest, fullPath, String.length_append, String.length_append]
    have hle := length_foldl_joined first rest
    have hpath : pathOf ("" :: first :: rest) = rest.foldl joined first := rfl
    have hslash : "/".length = 1 := rfl
    rw [hpath]
    omega

theorem length_pathOf_le (p : List String) (name : String) :
    (pathOf (p ++ [name])).length ≤ (fullPath (p ++ [name])).length := by
  by_cases h : p.head? = some ""
  · exact (length_pathOf_lt h name).le
  · rw [pathOf_eq h]

/-! ## What is listed -/

/-- The stream a node is for, as the walk names it. -/
def namedOf (dir : List UInt8) (a : Node) : Stream :=
  let it := (entry dir a.2.1).getD []
  ⟨pathOf (a.2.2 ++ [title it]), le64 it 120, le it 116⟩

/-- Whether a node is for a stream. -/
def isStream (dir : List UInt8) (a : Node) : Bool := (entry dir a.2.1).any fun it => kind it = STREAM

theorem isStream_iff : isStream dir a = true ↔ ∃ it, entry dir a.2.1 = some it ∧ kind it = STREAM := by
  unfold isStream
  cases entry dir a.2.1 with
  | none => simp
  | some it => simp

theorem listed_eq (a : Node) : listed dir a = if isStream dir a then some (namedOf dir a) else none := by
  cases hentry : entry dir a.2.1 with
  | none => rw [listed_of_absent hentry, isStream, hentry, Option.any_none, if_neg Bool.false_ne_true]
  | some it =>
    obtain ⟨w, n, p⟩ := a
    simp only at hentry
    simp only [listed, isStream, namedOf, hentry, Option.any_some, Option.getD_some, decide_eq_true_eq]

theorem filterMap_listed (visits : List Node) :
    visits.filterMap (listed dir) = (visits.filter (isStream dir)).map (namedOf dir) := by
  induction visits with
  | nil => rfl
  | cons a visits ih =>
    rw [List.filterMap_cons, List.filter_cons, listed_eq]
    cases isStream dir a with
    | true => simp [ih]
    | false => simp [ih]

/-- Every stream that the directory reaches is listed once under its full path if and only if no two ways lead to one
and none of them is under a storage of the root that has no name. -/
theorem listed_iff (h : walk dir = .ok streams) : Listed dir streams ↔
    (∀ w w' n p p' it, StreamAt dir w n p it → StreamAt dir w' n p' it → w = w') ∧
      ∀ w n p it, StreamAt dir w n p it → p.head? ≠ some "" := by
  obtain ⟨visits, hmem, hnodup, rfl⟩ := walk_visits h
  have hstream : ∀ a, a ∈ visits.filter (isStream dir) ↔ ∃ it, StreamAt dir a.1 a.2.1 a.2.2 it := by
    intro a
    rw [List.mem_filter, hmem, isStream_iff]
    exact ⟨fun ⟨hreach, it, hit⟩ => ⟨it, hreach, hit⟩, fun ⟨it, hreach, hit⟩ => ⟨hreach, it, hit⟩⟩
  have hkeys : ∀ a ∈ visits.filter (isStream dir), ∀ b ∈ visits.filter (isStream dir), a.1 = b.1 → a = b := by
    intro a ha b hb heq
    exact List.inj_on_of_nodup_map hnodup (List.mem_of_mem_filter ha) (List.mem_of_mem_filter hb) heq
  have hdistinct : (visits.filter (isStream dir)).Nodup := (List.Nodup.of_map _ hnodup).filter _
  rw [filterMap_listed]
  generalize visits.filter (isStream dir) = nodes at hstream hkeys hdistinct
  constructor
  · rintro ⟨places, hplaces, hiff, heq⟩
    -- The places are those of the nodes, in some order.
    have hlen : places.length = nodes.length := by
      rw [← List.length_map (streamOf dir), ← heq, List.length_map]
    have hsub : places ⊆ nodes.map Prod.snd := by
      intro place hplace
      obtain ⟨w, it, hat⟩ := (hiff place.1 place.2).1 hplace
      exact List.mem_map.2 ⟨(w, place), (hstream _).2 ⟨it, hat⟩, rfl⟩
    have hperm : places.Perm (nodes.map Prod.snd) :=
      ((List.Nodup.of_map _ hplaces).subperm hsub).perm_of_length_le (by rw [List.length_map, hlen])
    have hnumbers : ((nodes.map Prod.snd).map Prod.fst).Nodup := (hperm.map Prod.fst).nodup_iff.1 hplaces
    rw [List.map_map] at hnumbers
    constructor
    · intro w w' n p p' it hat hat'
      have hnodes : ((w, n, p) : Node) = (w', n, p') :=
        List.inj_on_of_nodup_map hnumbers ((hstream (w, n, p)).2 ⟨it, hat⟩) ((hstream (w', n, p')).2 ⟨it, hat'⟩) rfl
      exact congrArg Prod.fst hnodes
    · intro w n p it hat hhead
      -- The names would be shorter than the full paths, all together.
      have hlt : (nodes.map fun a => (namedOf dir a).name.length).sum <
          (nodes.map fun a => (streamOf dir a.2).name.length).sum :=
        List.sum_lt_sum _ _ (fun a _ => length_pathOf_le _ _)
          ⟨(w, n, p), (hstream _).2 ⟨it, hat⟩, length_pathOf_lt hhead _⟩
      have hsums : ((nodes.map (namedOf dir)).map fun s => s.name.length).sum =
          ((nodes.map Prod.snd).map fun place => (streamOf dir place).name.length).sum := by
        rw [heq, List.map_map]
        exact ((hperm.map _).sum_eq)
      rw [List.map_map, List.map_map] at hsums
      exact absurd hsums hlt.ne
  · rintro ⟨htree, hnamed⟩
    refine ⟨nodes.map Prod.snd, ?_, fun n p => ?_, ?_⟩
    · rw [List.map_map]
      refine List.Nodup.map_on (fun a ha b hb hnumber => ?_) hdistinct
      obtain ⟨it, hat⟩ := (hstream a).1 ha
      obtain ⟨it', hat'⟩ := (hstream b).1 hb
      have hnumber : a.2.1 = b.2.1 := hnumber
      obtain rfl : it' = it := by
        have hentry := hat'.2.1
        rw [← hnumber, hat.2.1] at hentry
        exact (Option.some.inj hentry).symm
      exact hkeys a ha b hb (htree _ _ _ _ _ _ hat (hnumber ▸ hat'))
    · rw [List.mem_map]
      constructor
      · rintro ⟨a, ha, hplace⟩
        obtain ⟨it, hat⟩ := (hstream a).1 ha
        rw [hplace] at hat
        exact ⟨a.1, it, hat⟩
      · rintro ⟨w, it, hat⟩
        exact ⟨(w, n, p), (hstream _).2 ⟨it, hat⟩, rfl⟩
    · rw [List.map_map]
      refine List.map_congr_left fun a ha => ?_
      obtain ⟨it, hat⟩ := (hstream a).1 ha
      have hpath := pathOf_eq (hnamed _ _ _ _ hat) (title ((entry dir a.2.1).getD []))
      simp only [namedOf, streamOf, Function.comp_apply, hpath]

/-! ## Files -/

theorem sectorOf_ok {major shift : ℕ} (h : sectorOf major shift = .ok sector) : sector = 512 ∨ sector = 4096 := by
  unfold sectorOf at h
  by_cases hpair : major = 3 ∧ shift = 9 ∨ major = 4 ∧ shift = 12
  · rw [if_pos hpair] at h
    obtain rfl := Except.ok.inj h
    rcases hpair with ⟨-, rfl⟩ | ⟨-, rfl⟩
    · exact Or.inl rfl
    · exact Or.inr rfl
  · rw [if_neg hpair] at h
    by_cases hversion : major = 3 ∨ major = 4
    · rw [if_pos hversion] at h
      exact nomatch h
    · rw [if_neg hversion] at h
      exact nomatch h

theorem checkHeader_ok {bytes : List UInt8} (h : checkHeader bytes = .ok sector) :
    sector = 512 ∨ sector = 4096 := by
  obtain ⟨major, -, h⟩ := bind_ok h
  obtain ⟨order, -, h⟩ := bind_ok h
  by_cases horder : order ≠ ORDER
  · rw [if_pos horder] at h
    exact nomatch h
  rw [if_neg horder] at h
  obtain ⟨shift, -, h⟩ := bind_ok h
  obtain ⟨sector', hsector, h⟩ := bind_ok h
  obtain ⟨mini, -, h⟩ := bind_ok h
  by_cases hmini : mini ≠ MINI
  · rw [if_pos hmini] at h
    exact nomatch h
  rw [if_neg hmini] at h
  obtain ⟨cutoff, -, h⟩ := bind_ok h
  by_cases hcutoff : cutoff ≠ CUTOFF
  · rw [if_pos hcutoff] at h
    exact nomatch h
  rw [if_neg hcutoff] at h
  exact Except.ok.inj h ▸ sectorOf_ok hsector

/-- What a file that has been read was read from. -/
theorem read_ok {bytes : List UInt8} (h : read bytes = .ok file) :
    (file.sector = 512 ∨ file.sector = 4096) ∧ ∃ dirAt dir, word bytes 48 = .ok dirAt ∧
      file.sectors dirAt USIZE_MAX "the directory" = .ok dir ∧ walk dir = .ok file.streams := by
  unfold read at h
  by_cases hsig : slice bytes 0 8 ≠ some SIGNATURE
  · rw [if_pos hsig] at h
    exact nomatch h
  rw [if_neg hsig] at h
  obtain ⟨sector, hsector, h⟩ := bind_ok h
  obtain ⟨dirAt, hdirAt, h⟩ := bind_ok h
  obtain ⟨minifatAt, -, h⟩ := bind_ok h
  obtain ⟨difatAt, -, h⟩ := bind_ok h
  obtain ⟨which, -, h⟩ := bind_ok h
  obtain ⟨which', -, h⟩ := bind_ok h
  obtain ⟨fat, -, h⟩ := bind_ok h
  obtain ⟨mini, -, h⟩ := bind_ok h
  obtain ⟨dir, hdir, h⟩ := bind_ok h
  obtain ⟨root, -, h⟩ := bind_ok h
  by_cases hroot : kind root ≠ ROOT
  · rw [if_pos hroot] at h
    exact nomatch h
  rw [if_neg hroot] at h
  obtain ⟨mini', -, h⟩ := bind_ok h
  obtain ⟨streams, hwalk, h⟩ := bind_ok h
  obtain rfl := Except.ok.inj h
  exact ⟨checkHeader_ok hsector, dirAt, dir, hdirAt, hdir, hwalk⟩

/-- What the reader does not look at is in order. -/
structure Sound (file : Cfb) (dir : List UInt8) : Prop where
  /-- The chain of a small stream does not end before its size. -/
  small : ∀ w n p it, StreamAt dir w n p it → le64 it 120 < CUTOFF →
    ∀ l b, Passes file.small.link (le it 116) l b → MAX < b → le64 it 120 ≤ 64 * l.length
  /-- The chain of a stream of the size that stands for everything does not end. -/
  huge : ∀ w n p it, StreamAt dir w n p it → le64 it 120 = USIZE_MAX →
    ∀ l b, Passes file.large.link (le it 116) l b → l.length ≤ file.fat.length + 1 →
      b ≤ MAX ∧ file.sector * l.length < USIZE_MAX
  /-- One way leads to a stream. -/
  tree : ∀ w w' n p p' it, StreamAt dir w n p it → StreamAt dir w' n p' it → w = w'
  /-- The outermost storage a stream is under has a name. -/
  named : ∀ w n p it, StreamAt dir w n p it → p.head? ≠ some ""

end Rucc.Unpack.Compound
