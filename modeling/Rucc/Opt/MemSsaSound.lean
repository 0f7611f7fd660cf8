import Mathlib.Order.Interval.Set.Disjoint
import Rucc.Opt.MemSsaTotal
import Mathlib.Order.CompletePartialOrder

/-!
# What the walk's answers say of a run

A run is a path with the bytes that each of its steps reads and writes. Where an address is worked out
again, as the parameter of a loop is on every turn, an origin is at another address than before, and two
offsets from it say nothing of each other across that. So an answer of the walk is right in the runs in
which no write that only such an offset tells from a read comes before the read's origin was last worked
out, and a function with a pointer that a loop moves on has a run in which it is not.
-/

namespace Rucc.Opt

open MemSsa

variable {a : Access}

/-- The event that a value is defined at. -/
def Def.event : Def → Event
  | .param b => .enter b
  | .result i => .exec i

/-- The event that what an address is from is worked out at. -/
def Origin.event (al : Alias) : Origin → Option Event
  | .localOf i => some (.exec i)
  | .global _ => none
  | .unknown v => some (al.definer v).event

/-- The event that a version of memory is made at. -/
def Version.event : Version → Option Event
  | .entry => none
  | .param b => some (.enter b)
  | .result i => some (.exec i)

/-- A run: what happens, where each origin is before each step, how often each `restrict` scope has been
entered by then, and the bytes that each step writes and reads. -/
structure Run (f : Func) where
  events : List Event
  path : f.Path events
  base : ℕ → Origin → ℤ
  scope : ℕ → ℕ → ℕ
  wrote : ℕ → Set ℤ
  read : ℕ → Set ℤ

variable {f : Func} {al : Alias} {d : Doms} {c : Chain}

/-- A function in which an address is worked out before it is used. -/
structure Func.Verified (f : Func) (al : Alias) : Prop where
  target : ∀ b, ∀ t ∈ f.targets b, 0 < t ∧ t < f.blocks.length
  touches : ∀ i a, al.reads i = some a → f.touches i
  defined : ∀ es i a, f.Path (es ++ [.exec i]) → al.reads i = some a ∨ al.writes i = some a →
    ∀ e, a.origin.event al = some e → e ∈ es

/-- The bytes of an access in a run are where its origin is by then. -/
def Run.Covers (r : Run f) (bytes : Set ℤ) (n : ℕ) (a : Access) : Prop :=
  ∀ s t, a.range = some (s, t) → bytes = Set.Ico (r.base n a.origin + s) (r.base n a.origin + t)

/-- What the oracle says is right in a run. An origin moves only where it is worked out, an access with a
range is to these bytes, and what is told apart by another layer than the offsets is apart, within one
turn of its scope where the layer is `restrict`. -/
structure Run.Right (r : Run f) (al : Alias) : Prop where
  keeps : ∀ n e o, r.events[n]? = some e → o.event al ≠ some e → r.base (n + 1) o = r.base n o
  reads : ∀ n i a, r.events[n]? = some (.exec i) → al.reads i = some a → r.Covers (r.read n) n a
  writes : ∀ n i a, r.events[n]? = some (.exec i) → al.writes i = some a → r.Covers (r.wrote n) n a
  quiet : ∀ n, (∀ i, r.events[n]? = some (.exec i) → ¬ f.writes i) → r.wrote n = ∅
  nomem : ∀ n i data, r.events[n]? = some (.exec i) → f.inst i = some data → data.asm && data.nomem →
    r.wrote n = ∅
  invariant : ∀ k n i a, k < n → r.events[n]? = some (.exec i) → al.reads i = some a → al.invariant a →
    Disjoint (r.wrote k) (r.read n)
  query : ∀ k n i j a w reason, k < n → r.events[k]? = some (.exec i) → r.events[n]? = some (.exec j) →
    al.reads j = some a → al.writes i = some w → al.query a w = .no reason → reason ≠ .offset →
    (reason = .restrict → r.scope k a.restrict.clique = r.scope n a.restrict.clique) →
    Disjoint (r.wrote k) (r.read n)
  calls : ∀ k n i j a reason, k < n → r.events[k]? = some (.exec i) → r.events[n]? = some (.exec j) →
    al.reads j = some a → al.writes i = none → al.clobberedBy a i = .no reason → Disjoint (r.wrote k) (r.read n)

/-- No write that only an offset tells from a read comes before the address that both are from was last
worked out, and none that only `restrict` does before its scope was last entered. -/
structure Run.Kept (r : Run f) (al : Alias) : Prop where
  origin : ∀ (k n : ℕ) i j a w, k < n → r.events[k]? = some (.exec i) → r.events[n]? = some (.exec j) →
    al.reads j = some a → al.writes i = some w → al.query a w = .no .offset →
    ∀ m e, k ≤ m → m < n → r.events[m]? = some e → a.origin.event al ≠ some e
  scope : ∀ (k n : ℕ) i j a w, k < n → r.events[k]? = some (.exec i) → r.events[n]? = some (.exec j) →
    al.reads j = some a → al.writes i = some w → al.query a w = .no .restrict →
    r.scope k a.restrict.clique = r.scope n a.restrict.clique

/-- A run makes a version of memory for the last time before a step in front of another one. -/
def Run.Makes (r : Run f) (v : Version) (k n : ℕ) : Prop :=
  k ≤ n ∧ (v = .entry ∧ k = 0 ∨ ∃ m e, k = m + 1 ∧ r.events[m]? = some e ∧ v.event = some e) ∧
    ∀ m e, k ≤ m → m < n → r.events[m]? = some e → v.event ≠ some e

/-- The answers are right in a run: an exact clobber is the last write to any byte of the read and wrote
these bytes, no clobber means that no step wrote one of them, and no step did since the version that a
read settles on, which the run has made. -/
def Run.Answers (r : Run f) (al : Alias) (c : Chain) (limit : ℕ) : Prop :=
  ∀ n load, r.events[n]? = some (.exec load) →
    (∀ s, clobber f al c limit load = some (.exact s) → ∃ k < n, r.events[k]? = some (.exec s) ∧
      r.wrote k = r.read n ∧ ∀ m, k < m → m < n → Disjoint (r.wrote m) (r.read n)) ∧
    (clobber f al c limit load = some .noClobber → ∀ k < n, Disjoint (r.wrote k) (r.read n)) ∧
    ∀ v, settled f al c limit load = some v → (∃ k, r.Makes v k n) ∧
      ∀ k, r.Makes v k n → ∀ m, k ≤ m → m < n → Disjoint (r.wrote m) (r.read n)

section

variable {r : Run f}

variable {k n : ℕ}

/-- An origin stays where it is while it is not worked out. -/
theorem Run.Right.base_eq (h : r.Right al) {o : Origin} (hle : k ≤ n) (hn : n ≤ r.events.length)
    (hkept : ∀ m e, k ≤ m → m < n → r.events[m]? = some e → o.event al ≠ some e) :
    r.base n o = r.base k o := by
  induction n with
  | zero => rw [Nat.le_zero.mp hle]
  | succ n ih =>
    rcases Nat.lt_or_eq_of_le hle with hlt | heq
    · have hget : r.events[n]? = some r.events[n] := List.getElem?_eq_getElem (by omega)
      rw [h.keeps n _ o hget (hkept n _ (by omega) (Nat.lt_succ_self n) hget)]
      exact ih (by omega) (by omega) fun m e hkm hmn => hkept m e hkm (by omega)
    · rw [heq]

/-- The steps that the walk goes past wrote none of the bytes that the read reads. -/
theorem Run.Right.apart (h : r.Right al) (hkept : r.Kept al) {load : Inst} {a : Access}
    (hlt : k < n) (hn : r.events[n]? = some (.exec load)) (ha : al.reads load = some a)
    (hquiet : ∀ i, r.events[k]? = some (.exec i) → f.writes i → MemSsa.wrote f al a i = none) :
    Disjoint (r.wrote k) (r.read n) := by
  -- a step that is no write wrote nothing
  by_cases hwrites : ∃ i, r.events[k]? = some (.exec i) ∧ f.writes i
  swap
  · rw [h.quiet k fun i hi hw => hwrites ⟨i, hi, hw⟩]
    exact Set.empty_disjoint _
  obtain ⟨i, hk, hw⟩ := hwrites
  have hnone := hquiet i hk hw
  rw [MemSsa.wrote] at hnone
  by_cases hinv : al.invariant a = true
  · exact h.invariant k n load a hlt hn ha hinv
  rw [if_neg hinv] at hnone
  split at hnone
  · -- an `asm` with nothing in memory
    rename_i hasm
    obtain ⟨data, hdata, hasm⟩ := (Option.any_eq_true _ _).mp (Bool.and_eq_true _ _ |>.mp hasm).1
    rw [h.nomem k i data hk hdata hasm]
    exact Set.empty_disjoint _
  split at hnone
  · exact absurd hnone (by simp)
  split at hnone
  · exact absurd hnone (by simp)
  cases hwrite : al.writes i with
  | none =>
    rw [hwrite] at hnone
    dsimp only at hnone
    cases hcall : al.clobberedBy a i with
    | may =>
      rw [hcall] at hnone
      exact absurd hnone (by simp)
    | no reason => exact h.calls k n i load a reason hlt hk hn ha hwrite hcall
  | some w =>
    rw [hwrite] at hnone
    dsimp only at hnone
    cases hquery : al.query a w with
    | may =>
      rw [hquery] at hnone
      exact absurd hnone (by simp)
    | no reason =>
      by_cases hoffset : reason = .offset
      · subst hoffset
        -- the origin is where it was, so that the offsets are from one address
        obtain ⟨horigin, hby⟩ := Alias.query_offset hquery
        obtain ⟨s, t, s', t', hrange, hrange', hapart⟩ := byOffset_eq hby
        have hbase : r.base n a.origin = r.base k a.origin :=
          h.base_eq hlt.le (List.getElem?_eq_some_iff.mp hn).1.le
            (hkept.origin k n i load a w hlt hk hn ha hwrite hquery)
        rw [h.writes k i w hk hwrite _ _ hrange', h.reads n load a hn ha _ _ hrange, hbase, ← horigin]
        exact Set.Ico_disjoint_Ico.mpr (by omega)
      · refine h.query k n i load a w reason hlt hk hn ha hwrite hquery hoffset fun hrestrict => ?_
        exact hkept.scope k n i load a w hlt hk hn ha hwrite (hrestrict ▸ hquery)

end

/-! ## What the answers rest on -/

/-- What comes after a place of a list is in the rest of it. -/
theorem mem_of_after {l pre post : List Event} {x e : Event} {m : ℕ} (hl : l = pre ++ x :: post)
    (hm : l[m]? = some e) (hlt : pre.length < m) : e ∈ post := by
  rw [hl, List.getElem?_append_right hlt.le] at hm
  obtain ⟨j, hj⟩ : ∃ j, m - pre.length = j + 1 := ⟨m - pre.length - 1, by omega⟩
  rw [hj, List.getElem?_cons_succ] at hm
  exact List.mem_of_getElem? hm

/-- The last place in front of another one where something holds. -/
theorem exists_last {P : ℕ → Prop} {p n : ℕ} (hlt : p < n) (hp : P p) :
    ∃ m < n, P m ∧ ∀ j, m < j → j < n → ¬ P j := by
  induction n with
  | zero => exact absurd hlt (Nat.not_lt_zero _)
  | succ n ih =>
    by_cases hn : P n
    · exact ⟨n, Nat.lt_succ_self n, hn, fun j hj hjn => absurd hjn (by omega)⟩
    · have hne : p ≠ n := fun heq => hn (heq ▸ hp)
      obtain ⟨m, hm, hPm, hafter⟩ := ih (by omega)
      refine ⟨m, by omega, hPm, fun j hj hjn hPj => ?_⟩
      by_cases hjeq : j = n
      · exact hn (hjeq ▸ hPj)
      · exact hafter j hj (by omega) hPj

/-- An exact clobber wrote what it is asked about, from the same origin. -/
theorem wrote_exact {i s : Inst} (h : wrote f al a i = some (.exact s)) :
    s = i ∧ ∃ w range, al.writes i = some w ∧ a.origin = w.origin ∧ a.range = some range ∧ w.range = some range := by
  rw [wrote] at h
  split at h
  · exact absurd h (by simp)
  split at h
  · exact absurd h (by simp)
  split at h
  · exact absurd h (by simp)
  split at h
  · exact absurd h (by simp)
  split at h
  swap
  · split at h
    · exact absurd h (by simp)
    · exact absurd h (by simp)
  rename_i w hw
  split at h
  · exact absurd h (by simp)
  rw [extent, Option.some.injEq] at h
  split at h
  · exact absurd h (by simp)
  rename_i horigin
  split at h
  swap
  · exact absurd h (by simp)
  rename_i want wrote hwant hwrote
  split at h
  · rename_i heq
    exact ⟨(Clobber.exact.inj h).symm, w, want, hw, not_not.mp horigin, hwant, heq ▸ hwrote⟩
  split at h
  · exact absurd h (by simp)
  · exact absurd h (by simp)

/-- What a write is to a read is never that nothing clobbers it. -/
theorem wrote_ne_noClobber {i : Inst} : wrote f al a i ≠ some .noClobber := by
  have hextent : ∀ w, extent a w i ≠ .noClobber := by
    intro w
    rw [extent]
    repeat' split
    all_goals simp
  rw [wrote]
  repeat' split
  all_goals first
    | exact fun heq => hextent _ (Option.some.inj heq)
    | simp

/-- An answer holds of every path to the read. -/
theorem clobber_spec (h : Built f d c) (hv : f.Verified al) {limit : ℕ} {load : Inst} {answer : Clobber}
    (hanswer : clobber f al c limit load = some answer) (hne : answer ≠ .unknown) :
    ∃ a r, al.reads load = some a ∧ answer = r.getD .noClobber ∧ ∀ es, es ≠ [] →
      f.Path (es ++ [.exec load]) → (r = some .noClobber ∧ Quiet f al a es) ∨
        ∃ pre i post, es = pre ++ .exec i :: post ∧ f.writes i ∧ r = wrote f al a i ∧ r ≠ none ∧
          Quiet f al a post := by
  rw [clobber] at hanswer
  split at hanswer
  swap
  · exact absurd (Option.some.inj hanswer).symm hne
  rename_i a v hreads hmem
  obtain ⟨⟨r, w⟩, hback, heq⟩ := Option.map_eq_some_iff.mp hanswer
  dsimp only at heq
  have hr : r ≠ some .unknown := by
    rintro rfl
    exact hne heq.symm
  obtain ⟨hseen, -, hall⟩ := back_spec _ _ _ _ _ hback hr
  refine ⟨a, r, hreads, heq.symm, fun es hes hpath => ?_⟩
  have hreach := h.carries.memIn es load hpath (hv.touches load a hreads)
  have hmem' : c.reach f es ∈ w.seen := by
    rw [← Option.some.inj (hmem.symm.trans hreach)]
    exact hseen
  obtain ⟨front, e, rfl⟩ := (List.eq_nil_or_concat' es).resolve_left hes
  exact back_path h.carries (fun u hu => hall u hu (List.not_mem_nil)) front e (hpath.front hes) hmem'

section

variable {r : Run f}

/-- The steps in front of a read are a path to it. -/
theorem Run.take_path {n : ℕ} {load : Inst} (hn : r.events[n]? = some (.exec load)) :
    r.events.take n ≠ [] ∧ f.Path (r.events.take n ++ [.exec load]) := by
  obtain ⟨hlt, hget⟩ := List.getElem?_eq_some_iff.mp hn
  have hpos : 0 < n := by
    by_contra hzero
    have hstart := r.path.start
    rw [List.head?_eq_getElem?, show 0 = n by omega, hn] at hstart
    exact absurd hstart (by simp)
  have hsnoc : r.events.take n ++ [.exec load] = r.events.take (n + 1) := by
    rw [List.take_succ_eq_append_getElem hlt, hget]
  have hne : ∀ m, 0 < m → m ≤ r.events.length → r.events.take m ≠ [] := fun m hm hle heq => by
    have := congrArg List.length heq
    rw [List.length_take, List.length_nil] at this
    omega
  refine ⟨hne n hpos hlt.le, ?_⟩
  rw [hsnoc]
  refine @Func.Path.front f _ (r.events.drop (n + 1)) ?_ (hne _ (Nat.succ_pos n) hlt)
  rw [List.take_append_drop]
  exact r.path

theorem Run.take_getElem? {n m : ℕ} (hm : m < n) : (r.events.take n)[m]? = r.events[m]? :=
  List.getElem?_take_of_lt hm

/-! ## The answers -/

/-- Between an exact clobber and the read the address that both are from is not worked out again: a path
that gets to where it is worked out without the write would go on to the read. -/
theorem exact_kept (h : Built f d c) (hv : f.Verified al) {limit n k : ℕ} {load s : Inst} {a w : Access}
    (hn : r.events[n]? = some (.exec load))
    (hanswer : clobber f al c limit load = some (.exact s)) (hk : r.events[k]? = some (.exec s)) (hkn : k < n)
    (hw : al.writes s = some w) (horigin : a.origin = w.origin)
    (hafter : ∀ m, k < m → m < n → r.events[m]? ≠ some (.exec s)) :
    ∀ m e, k ≤ m → m < n → r.events[m]? = some e → a.origin.event al ≠ some e := by
  intro m e hkm hmn hm hevent
  obtain ⟨hne, hpath⟩ := Run.take_path hn
  have hmem : ∀ {j x}, j < n → r.events[j]? = some x → x ∈ r.events.take n := fun hj hx =>
    List.mem_of_getElem? ((Run.take_getElem? hj).trans hx)
  -- before the first time the write is executed the address has been worked out
  obtain ⟨front, back, hes, hfirst⟩ := List.eq_append_cons_of_mem (hmem hkn hk)
  have hfront : f.Path (front ++ [.exec s]) := by
    refine @Func.Path.front f _ (back ++ [.exec load]) ?_ (by simp)
    rw [hes] at hpath
    simpa using hpath
  have hefront : e ∈ front := hv.defined front s w hfront (Or.inr hw) e (horigin ▸ hevent)
  obtain ⟨front₁, front₂, rfl⟩ := List.append_of_mem hefront
  have hes' : e ≠ .exec s := fun heq => hfirst (heq ▸ hefront)
  -- and from where it is worked out again to the read the write is not executed
  have hsplit : r.events.take n = r.events.take m ++ e :: (r.events.take n).drop (m + 1) := by
    have hlt : m < (r.events.take n).length := (List.getElem?_eq_some_iff.mp ((Run.take_getElem? hmn).trans hm)).1
    have hget := (List.getElem?_eq_some_iff.mp ((Run.take_getElem? hmn).trans hm)).2
    conv_lhs => rw [← List.take_append_drop m (r.events.take n), List.drop_eq_getElem_cons hlt, hget]
    rw [List.take_take, min_eq_left hmn.le]
  generalize hrest : (r.events.take n).drop (m + 1) = rest at hsplit
  have hnot : .exec s ∉ rest := by
    intro hs
    obtain ⟨j, hj⟩ := List.mem_iff_getElem?.mp hs
    rw [← hrest, List.getElem?_drop] at hj
    have hjlt : m + 1 + j < n := by
      have := (List.getElem?_eq_some_iff.mp hj).1
      rw [List.length_take] at this
      omega
    rw [Run.take_getElem? hjlt] at hj
    exact hafter _ (by omega) hjlt hj
  have hglue : f.Path (front₁ ++ e :: (rest ++ [.exec load])) := by
    rw [hes] at hpath
    refine @Func.Path.glue f e _ (front₂ ++ .exec s :: back ++ [.exec load]) (r.events.take m) _ ?_ ?_
    · simpa using hpath
    · have hpath := (Run.take_path hn).2
      rw [hsplit] at hpath
      simpa using hpath
  obtain ⟨a', answer, -, hanswer', hall⟩ := clobber_spec h hv hanswer (by simp)
  have hsome : answer = some (.exact s) := by
    cases answer with
    | none => exact absurd hanswer' (by simp)
    | some x => exact congrArg some hanswer'.symm
  rcases hall (front₁ ++ e :: rest) (by simp) (by simpa using hglue) with ⟨hno, -⟩ | ⟨pre, i, post, heq, -, hwrote, -⟩
  · exact absurd (hno.symm.trans hsome) (by simp)
  · have hi := (wrote_exact (hwrote.symm.trans hsome)).1
    have hin : Event.exec s ∈ front₁ ++ e :: rest := by
      rw [heq, hi]
      simp
    rcases List.mem_append.mp hin with hin | hin
    · exact hfirst (List.mem_append_left _ hin)
    · exact (List.mem_cons.mp hin).elim (fun heq => hes' heq.symm) hnot

variable (h : Built f d c) (hv : f.Verified al) (hright : r.Right al) (hkept : r.Kept al) {limit n : ℕ} {load : Inst}
  (hn : r.events[n]? = some (.exec load))

include h hv hright hkept hn

/-- An exact clobber is the last write to any byte of the read, and wrote these bytes. -/
theorem answers_exact {s : Inst} (hanswer : clobber f al c limit load = some (.exact s)) : ∃ k < n,
    r.events[k]? = some (.exec s) ∧ r.wrote k = r.read n ∧ ∀ m, k < m → m < n → Disjoint (r.wrote m) (r.read n) := by
  obtain ⟨a, answer, ha, hanswer', hall⟩ := clobber_spec h hv hanswer (by simp)
  have hsome : answer = some (.exact s) := by
    cases answer with
    | none => exact absurd hanswer' (by simp)
    | some x => exact congrArg some hanswer'.symm
  obtain ⟨hne, hpath⟩ := Run.take_path hn
  have hlen : (r.events.take n).length = n := by
    rw [List.length_take, min_eq_left (List.getElem?_eq_some_iff.mp hn).1.le]
  rcases hall _ hne hpath with ⟨hno, -⟩ | ⟨pre, i, post, hes, hwrites, hwrote, -, hquiet⟩
  · exact absurd (hno.symm.trans hsome) (by simp)
  obtain ⟨rfl, w, range, hw, horigin, hrange, hrange'⟩ := wrote_exact (hwrote.symm.trans hsome)
  have hkn : pre.length < n := by
    rw [← hlen, hes, List.length_append, List.length_cons]
    omega
  have hk : r.events[pre.length]? = some (.exec s) := by
    rw [← Run.take_getElem? hkn, hes, List.getElem?_append_right le_rfl, Nat.sub_self]
    rfl
  have hpost : ∀ m e, pre.length < m → m < n → r.events[m]? = some e → e ∈ post := fun m e hm hmn he =>
    mem_of_after hes ((Run.take_getElem? hmn).trans he) hm
  have hlast : ∀ m, pre.length < m → m < n → r.events[m]? ≠ some (.exec s) := by
    intro m hm hmn he
    have hnone := hquiet s (hpost m _ hm hmn he) hwrites
    exact absurd (hnone.symm.trans (hwrote.symm.trans hsome)) (by simp)
  refine ⟨pre.length, hkn, hk, ?_, fun m hm hmn => ?_⟩
  · have hbase := hright.base_eq hkn.le (List.getElem?_eq_some_iff.mp hn).1.le
      (exact_kept h hv hn hanswer hk hkn hw horigin hlast)
    rw [hright.writes _ s w hk hw _ _ hrange', hright.reads n load a hn ha _ _ hrange, hbase, horigin]
  · exact hright.apart hkept hmn hn ha fun i hi => hquiet i (hpost m _ hm hmn hi)

/-- Where nothing clobbers the read no step before it wrote one of its bytes. -/
theorem answers_noClobber (hanswer : clobber f al c limit load = some .noClobber) :
    ∀ k < n, Disjoint (r.wrote k) (r.read n) := by
  obtain ⟨a, answer, ha, hanswer', hall⟩ := clobber_spec h hv hanswer (by simp)
  obtain ⟨hne, hpath⟩ := Run.take_path hn
  intro k hk
  rcases hall _ hne hpath with ⟨-, hquiet⟩ | ⟨pre, i, post, -, -, hwrote, hsome, -⟩
  · refine hright.apart hkept hk hn ha fun i hi => hquiet i ?_
    exact List.mem_of_getElem? ((Run.take_getElem? hk).trans hi)
  · -- a write is not that answer
    obtain ⟨x, hx⟩ := Option.ne_none_iff_exists'.mp hsome
    rw [hx] at hwrote hanswer'
    have hx' : x = .noClobber := hanswer'.symm
    rw [hx'] at hwrote
    exact absurd hwrote.symm wrote_ne_noClobber

/-- Since the version that a read settles on no step wrote a byte of the read. -/
theorem answers_settled {v : Version} (hsettled : settled f al c limit load = some v) :
    (∃ k, r.Makes v k n) ∧ ∀ k, r.Makes v k n → ∀ m, k ≤ m → m < n → Disjoint (r.wrote m) (r.read n) := by
  obtain ⟨a, ha, hsettled⟩ := Option.bind_eq_some_iff.mp hsettled
  obtain ⟨v₀, hmem, hsettle⟩ := Option.map_eq_some_iff.mp hsettled
  obtain ⟨hne, hpath⟩ := Run.take_path hn
  have hreach := h.carries.memIn _ load hpath (hv.touches load a ha)
  have hsince := @settle_spec f al c a h.carries limit [] v₀ limit
  rw [hsettle] at hsince
  obtain ⟨pre, post, hes, hpre, hprev, hquiet⟩ := hsince _ (hpath.front hne)
    (Option.some.inj (hreach.symm.trans hmem))
  obtain ⟨front, e, rfl⟩ := (List.eq_nil_or_concat' pre).resolve_left fun hnil => by
    rw [hnil] at hpre
    exact absurd hpre.start (by simp)
  rcases reach_made h.carries front e hpre hprev with ⟨hentry, hnone⟩ | ⟨pre', e', post', hmadeat, -, hnone, hmade⟩
  · -- the version that the function starts with: nothing has been written up to where the walk stops
    have hall : ∀ m, m < n → Disjoint (r.wrote m) (r.read n) := by
      refine fun m hm => hright.apart hkept hm hn ha fun i hi hwrites => ?_
      have hmem := List.mem_of_getElem? ((Run.take_getElem? hm).trans hi)
      rw [hes] at hmem
      rcases List.mem_append.mp hmem with hmem | hmem
      · exact absurd hwrites (hnone i hmem)
      · exact hquiet i hmem hwrites
    refine ⟨⟨0, Nat.zero_le _, Or.inl ⟨hentry, rfl⟩, fun m e _ _ _ => ?_⟩, fun k _ m _ hm => hall m hm⟩
    rw [hentry]
    simp [Version.event]
  · have hevent : v.event = some e' := by
      rcases hmade with ⟨b, -, rfl, rfl⟩ | ⟨i, -, rfl, rfl⟩
      · rfl
      · rfl
    have hes' : r.events.take n = pre' ++ e' :: (post' ++ post) := by
      rw [hes, hmadeat, List.append_assoc]
      rfl
    have hplace : (r.events.take n)[pre'.length]? = some e' := by
      rw [hes', List.getElem?_append_right le_rfl, Nat.sub_self]
      rfl
    have hlt : pre'.length < n := by
      have := (List.getElem?_eq_some_iff.mp hplace).1
      rw [List.length_take] at this
      omega
    rw [Run.take_getElem? hlt] at hplace
    -- nothing has been written since that the walk stops at
    have hall : ∀ m, pre'.length < m → m < n → Disjoint (r.wrote m) (r.read n) := by
      refine fun m hpm hm => hright.apart hkept hm hn ha fun i hi hwrites => ?_
      rcases List.mem_append.mp (mem_of_after hes' ((Run.take_getElem? hm).trans hi) hpm) with hmem | hmem
      · exact absurd hwrites (hnone i hmem)
      · exact hquiet i hmem hwrites
    constructor
    · obtain ⟨j, hj, hlast, hafter⟩ := @exists_last (fun m => r.events[m]? = some e') _ _ hlt hplace
      refine ⟨j + 1, hj, Or.inr ⟨j, e', rfl, hlast, hevent⟩, fun m x hjm hmn hm heq => ?_⟩
      rw [hevent] at heq
      exact hafter m hjm hmn (hm.trans heq.symm)
    · rintro k ⟨-, hbegin, hafter⟩ m hkm hmn
      refine hall m ?_ hmn
      by_contra hge
      rcases hbegin with ⟨rfl, -⟩ | ⟨j, x, rfl, -, -⟩
      · exact absurd hevent (by simp [Version.event])
      · exact hafter pre'.length e' (by omega) hlt hplace hevent

end

/-- `build` puts each instruction that touches memory on the version that comes to it along every path,
with a parameter exactly where two versions meet, the walk answers every question about a read, and its
answers are right in every run in which the oracle is and no write that only an offset tells from a read
comes before the address that both are from was last worked out. -/
theorem memSsa_sound (f : Func) (al : Alias) (hv : f.Verified al) (limit : ℕ) (r : Run f) (hright : r.Right al)
    (hkept : r.Kept al) : ∃ built, build f = some built ∧ ∀ c ∈ built, Carries f c ∧
      (∀ load a, al.reads load = some a → ∃ answer, clobber f al c limit load = some answer) ∧
      r.Answers al c limit := by
  obtain ⟨built, hbuilt, hall⟩ := build_spec hv.target
  refine ⟨built, hbuilt, fun c hc => ?_⟩
  obtain ⟨d, h⟩ := hall c hc
  refine ⟨h.carries, fun load a ha => clobber_some h limit (hv.touches load a ha), fun n load hn => ?_⟩
  exact ⟨fun s hs => answers_exact h hv hright hkept hn hs, fun hno => answers_noClobber h hv hright hkept hn hno,
    fun v hs => answers_settled h hv hright hkept hn hs⟩

/-! ## Runs of two functions -/

/-- An instruction that does not touch memory, one that reads it and one that writes it. -/
def plainInst (effect : Effect) : InstData := ⟨effect, false, false, false, false⟩

/-- A reference to four bytes at an offset. -/
def fourBytes (origin : Origin) (offset : ℤ) : Access := ⟨origin, some offset, some 4, none, ⟨0, 0⟩, false⟩

/-- An oracle about one read and one write. -/
def pairAlias (definer : ℕ → Def) (load store : Inst) (a w : Access) : Alias where
  reads i := if i = load then some a else none
  writes i := if i = store then some w else none
  definer := definer
  escaped _ := true
  constant _ := false
  oneObject _ := true
  strictAliasing := true
  parent _ := none
  clobberedBy _ _ := .may

/-- A path that is in a block has entered it. -/
theorem enter_mem {f : Func} : ∀ es e, f.Path (es ++ [e]) → .enter e.place.1 ∈ es ++ [e] := by
  refine Func.Path.induction (List.mem_singleton.mpr rfl) fun es e e' _ hnext ih => ?_
  rcases hnext with ⟨-, rfl⟩ | ⟨-, t, -, rfl⟩
  · exact List.mem_append_left _ ih
  · exact List.mem_append_right _ (List.mem_singleton.mpr rfl)

section

variable {f : Func} {definer : ℕ → Def} {load store : Inst} {a w : Access}

variable {i : Inst} {b : Access} {r : Run f}

theorem pair_reads : (pairAlias definer load store a w).reads i = some b ↔ i = load ∧ a = b := by
  simp [pairAlias]

theorem pair_writes : (pairAlias definer load store a w).writes i = some b ↔ i = store ∧ w = b := by
  simp [pairAlias]

/-- An oracle about one read and one write is right in a run when the two are to the bytes it says and are
not told apart by another layer than the offsets. -/
theorem right_of_pair (hkeeps : ∀ n e o, r.events[n]? = some e →
      o.event (pairAlias definer load store a w) ≠ some e → r.base (n + 1) o = r.base n o)
    (hread : ∀ n, r.events[n]? = some (.exec load) → r.Covers (r.read n) n a)
    (hwrote : ∀ n, r.events[n]? = some (.exec store) → r.Covers (r.wrote n) n w)
    (hquiet : ∀ n, r.events[n]? ≠ some (.exec store) → r.wrote n = ∅)
    (hwrites : f.writes store) (hasm : ∀ block ∈ f.blocks, ∀ data ∈ block.insts, data.asm = false)
    (hinvariant : (pairAlias definer load store a w).invariant a = false)
    (hquery : (pairAlias definer load store a w).query a w = .may ∨
      (pairAlias definer load store a w).query a w = .no .offset) :
    r.Right (pairAlias definer load store a w) := by
  constructor
  case keeps => exact hkeeps
  case reads =>
    intro n i b hn hb
    obtain ⟨rfl, rfl⟩ := pair_reads.mp hb
    exact hread n hn
  case writes =>
    intro n i b hn hb
    obtain ⟨rfl, rfl⟩ := pair_writes.mp hb
    exact hwrote n hn
  case quiet => exact fun n hn => hquiet n fun hstore => hn store hstore hwrites
  case nomem =>
    intro n i data hn hdata hnomem
    obtain ⟨hb, hk⟩ := lt_of_inst hdata
    have hmem : data ∈ f.blocks[i.1].insts := by
      have := List.mem_of_getElem? hdata
      rw [Func.insts, List.getElem?_eq_getElem hb] at this
      exact this
    rw [hasm _ (List.getElem_mem hb) data hmem] at hnomem
    exact absurd hnomem (by simp)
  case invariant =>
    intro k n i b _ _ hb hinv
    obtain ⟨-, rfl⟩ := pair_reads.mp hb
    exact absurd (hinvariant.symm.trans hinv) (by simp)
  case query =>
    intro k n i j b v reason _ _ _ hb hv hno hne
    obtain ⟨-, rfl⟩ := pair_reads.mp hb
    obtain ⟨-, rfl⟩ := pair_writes.mp hv
    rcases hquery with hmay | hoffset
    · exact absurd (hmay.symm.trans hno) (by simp)
    · exact absurd (Answer.no.inj (hoffset.symm.trans hno)).symm hne
  case calls =>
    intro k n i j b reason _ _ _ _ _ hno
    exact absurd hno (by simp [pairAlias])

theorem kept_of_pair (hquery : (pairAlias definer load store a w).query a w = .may) :
    r.Kept (pairAlias definer load store a w) := by
  constructor
  case origin =>
    intro k n i j b v _ _ _ hb hv hno
    obtain ⟨-, rfl⟩ := pair_reads.mp hb
    obtain ⟨-, rfl⟩ := pair_writes.mp hv
    exact absurd (hquery.symm.trans hno) (by simp)
  case scope =>
    intro k n i j b v _ _ _ hb hv hno
    obtain ⟨-, rfl⟩ := pair_reads.mp hb
    obtain ⟨-, rfl⟩ := pair_writes.mp hv
    exact absurd (hquery.symm.trans hno) (by simp)

end

/-- A store to a global and a load of it. -/
def straight : Func := ⟨[⟨[plainInst .writes, plainInst .reads], []⟩]⟩

def straightAlias : Alias :=
  pairAlias (fun _ => .param 0) (0, 1) (0, 0) (fourBytes (.global 0) 0) (fourBytes (.global 0) 0)

def straightRun : Run straight where
  events := [.enter 0, .exec (0, 0), .exec (0, 1)]
  path := by
    refine ⟨rfl, ?_⟩
    rw [List.isChain_cons_cons, List.isChain_cons_cons]
    exact ⟨Or.inl ⟨by decide, rfl⟩, Or.inl ⟨by decide, rfl⟩, List.isChain_singleton _⟩
  base _ _ := 0
  scope _ _ := 0
  wrote n := if n = 1 then Set.Ico 0 4 else ∅
  read n := if n = 2 then Set.Ico 0 4 else ∅

theorem straight_verified : straight.Verified straightAlias := by
  constructor
  case target =>
    intro b t ht
    rcases b with - | b
    · exact absurd ht (by simp [straight, Func.targets])
    · exact absurd ht (by simp [straight, Func.targets])
  case touches =>
    intro i a ha
    rw [(pair_reads.mp ha).1]
    decide
  case defined =>
    intro es i a _ ha e he
    have hglobal : a.origin = .global 0 := by
      rcases ha with ha | ha
      · rw [← (pair_reads.mp ha).2]
        rfl
      · rw [← (pair_writes.mp ha).2]
        rfl
    rw [hglobal] at he
    exact absurd he (by simp [Origin.event])

theorem straight_right : straightRun.Right straightAlias := by
  refine right_of_pair (fun _ _ _ _ _ => rfl) (fun n hn => ?_) (fun n hn => ?_) (fun n hn => ?_) (by decide)
    (by decide) (by decide) (Or.inl (by decide))
  · have hn' : n = 2 := (by decide : ∀ n < 3, straightRun.events[n]? = some (.exec (0, 1)) → n = 2) n
      (List.getElem?_eq_some_iff.mp hn).1 hn
    subst hn'
    intro s t hrange
    obtain ⟨rfl, rfl⟩ := Prod.mk.inj (Option.some.inj hrange)
    simp [straightRun]
  · have hn' : n = 1 := (by decide : ∀ n < 3, straightRun.events[n]? = some (.exec (0, 0)) → n = 1) n
      (List.getElem?_eq_some_iff.mp hn).1 hn
    subst hn'
    intro s t hrange
    obtain ⟨rfl, rfl⟩ := Prod.mk.inj (Option.some.inj hrange)
    simp [straightRun]
  · refine if_neg ?_
    rintro rfl
    exact hn rfl

theorem memSsa_sound_straight : ∃ built, build straight = some built ∧ ∀ c ∈ built, Carries straight c ∧
    (∀ load a, straightAlias.reads load = some a →
      ∃ answer, clobber straight straightAlias c 1000 load = some answer) ∧
    straightRun.Answers straightAlias c 1000 :=
  memSsa_sound straight straightAlias straight_verified 1000 straightRun straight_right
    (kept_of_pair (by decide))

/-- A loop whose parameter is a pointer: each turn loads what it points at, stores four bytes further on and
goes round with the pointer moved there. -/
def moving : Func :=
  ⟨[⟨[plainInst .nothing], [1]⟩,
    ⟨[plainInst .reads, plainInst .writes, plainInst .nothing], [1, 2]⟩,
    ⟨[plainInst .nothing], []⟩]⟩

def movingAlias : Alias :=
  pairAlias (fun _ => .param 1) (1, 0) (1, 1) (fourBytes (.unknown 0) 0) (fourBytes (.unknown 0) 4)

/-- Two turns of the loop. -/
def movingRun : Run moving where
  events := [.enter 0, .exec (0, 0), .enter 1, .exec (1, 0), .exec (1, 1), .exec (1, 2), .enter 1, .exec (1, 0)]
  path := by
    refine ⟨rfl, ?_⟩
    simp only [List.isChain_cons_cons]
    refine ⟨Or.inl ⟨by decide, rfl⟩, Or.inr ⟨by decide, 1, by decide, rfl⟩, Or.inl ⟨by decide, rfl⟩,
      Or.inl ⟨by decide, rfl⟩, Or.inl ⟨by decide, rfl⟩, Or.inr ⟨by decide, 1, by decide, rfl⟩,
      Or.inl ⟨by decide, rfl⟩, List.isChain_singleton _⟩
  base n o := if o = .unknown 0 ∧ 7 ≤ n then 4 else 0
  scope _ _ := 0
  wrote n := if n = 4 then Set.Ico 4 8 else ∅
  read n := if n = 3 then Set.Ico 0 4 else if n = 7 then Set.Ico 4 8 else ∅

theorem moving_verified : moving.Verified movingAlias := by
  constructor
  case target =>
    intro b t ht
    have hb : b < 3 := by
      by_contra hge
      rw [Func.targets, List.getElem?_eq_none (by change 3 ≤ b; omega)] at ht
      exact absurd ht (by simp)
    revert ht
    revert t
    have hall : ∀ b < 3, ∀ t ∈ moving.targets b, 0 < t ∧ t < moving.blocks.length := by decide
    exact hall b hb
  case touches =>
    intro i a ha
    rw [(pair_reads.mp ha).1]
    decide
  case defined =>
    intro es i a hpath ha e he
    have hi : i.1 = 1 ∧ a.origin = .unknown 0 := by
      rcases ha with ha | ha
      · obtain ⟨rfl, rfl⟩ := pair_reads.mp ha
        exact ⟨rfl, rfl⟩
      · obtain ⟨rfl, rfl⟩ := pair_writes.mp ha
        exact ⟨rfl, rfl⟩
    rw [hi.2] at he
    obtain rfl : Event.enter 1 = e := Option.some.inj he
    have hmem := enter_mem es _ hpath
    change Event.enter i.1 ∈ _ at hmem
    rw [hi.1] at hmem
    exact (List.mem_append.mp hmem).resolve_right (by simp)

theorem moving_right : movingRun.Right movingAlias := by
  have hlt : ∀ {n e}, movingRun.events[n]? = some e → n < 8 := fun hn => (List.getElem?_eq_some_iff.mp hn).1
  refine right_of_pair (fun n e o hn hne => ?_) (fun n hn => ?_) (fun n hn => ?_) (fun n hn => ?_) (by decide)
    (by decide) (by decide) (Or.inr (by decide))
  · -- the parameter moves when the block is entered again
    change (if o = .unknown 0 ∧ 7 ≤ n + 1 then (4 : ℤ) else 0) = if o = .unknown 0 ∧ 7 ≤ n then 4 else 0
    refine if_congr (and_congr_right ?_) rfl rfl
    rintro rfl
    have hn6 : n ≠ 6 := by
      rintro rfl
      exact hne hn
    have := hlt hn
    omega
  · intro s t hrange
    obtain ⟨rfl, rfl⟩ := Prod.mk.inj (Option.some.inj hrange)
    rcases (by decide : ∀ n < 8, movingRun.events[n]? = some (.exec (1, 0)) → n = 3 ∨ n = 7) n (hlt hn) hn with
      rfl | rfl
    · simp [movingRun, fourBytes]
    · simp [movingRun, fourBytes]
  · intro s t hrange
    obtain ⟨rfl, rfl⟩ := Prod.mk.inj (Option.some.inj hrange)
    obtain rfl := (by decide : ∀ n < 8, movingRun.events[n]? = some (.exec (1, 1)) → n = 4) n (hlt hn) hn
    simp [movingRun, fourBytes]
  · refine if_neg ?_
    rintro rfl
    exact hn rfl

/-- In the second turn the loop loads what the first one stored, and the walk says that nothing in the
function wrote it. -/
theorem moving_not_answers : ∃ c, build moving = some (some c) ∧ moving.Verified movingAlias ∧
    movingRun.Right movingAlias ∧ clobber moving movingAlias c 1000 (1, 0) = some .noClobber ∧
    ¬ movingRun.Answers movingAlias c 1000 := by
  obtain ⟨built, hbuilt, -⟩ := build_spec moving_verified.target
  have hanswer : ((build moving).bind id).map (fun c => clobber moving movingAlias c 1000 (1, 0)) =
      some (some .noClobber) := by decide +kernel
  rw [hbuilt] at hanswer
  cases built with
  | none => exact absurd hanswer (by simp)
  | some c =>
    have hno : clobber moving movingAlias c 1000 (1, 0) = some .noClobber := Option.some.inj hanswer
    refine ⟨c, hbuilt, moving_verified, moving_right, hno, fun hall => ?_⟩
    have hdisjoint := (hall 7 (1, 0) rfl).2.1 hno 4 (by decide)
    have hmem : (4 : ℤ) ∈ movingRun.wrote 4 ∧ (4 : ℤ) ∈ movingRun.read 7 := by simp [movingRun]
    exact Set.disjoint_left.mp hdisjoint hmem.1 hmem.2

end Rucc.Opt
