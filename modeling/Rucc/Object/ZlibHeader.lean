import Rucc.Object.HuffmanCodes

/-!
# The header of a block

The code lengths of the two tables are run length coded and sent in a code of their own, whose lengths come first
in an order of their own. What is written is read back as the same lengths, but for the zeros at the end.
-/

namespace Rucc.Object

open Unpack (field HasField HasSymbol HasLengths HasCodes metaLengths)

variable {n : ℕ} {lens out : List ℕ} {b : Bits}

/-! ## Places and counts -/

theorem rposition_spec {α : Type*} {p : α → Bool} {l : List α} :
    (∀ i, rposition p l = some i → i < l.length ∧ l[i]?.any p = true ∧ ∀ j : ℕ, i < j → l[j]?.any p = false) ∧
      (rposition p l = none → ∀ j : ℕ, l[j]?.any p = false) := by
  have hmem (i : ℕ) : i ∈ (List.range l.length).filter (fun i => l[i]?.any p) ↔ l[i]?.any p = true := by
    rw [List.mem_filter, List.mem_range, and_iff_right_iff_imp]
    intro h
    by_contra hge
    rw [List.getElem?_eq_none (Nat.le_of_not_lt hge)] at h
    exact Bool.false_ne_true h
  have hsorted : ((List.range l.length).filter fun i => l[i]?.any p).Pairwise (· < ·) :=
    List.Pairwise.filter _ List.pairwise_lt_range
  have hrange (i : ℕ) (h : i ∈ (List.range l.length).filter fun i => l[i]?.any p) : i < l.length :=
    List.mem_range.1 (List.mem_filter.1 h).1
  unfold rposition
  generalize (List.range l.length).filter (fun i => l[i]?.any p) = places at hmem hsorted hrange ⊢
  refine ⟨fun i hi => ?_, fun hnone j => ?_⟩
  · have hin := List.mem_of_getLast? hi
    refine ⟨hrange i hin, (hmem i).1 hin, fun j hj => ?_⟩
    by_contra hp
    rw [Bool.not_eq_false, ← hmem] at hp
    -- no place comes after the last one
    obtain ⟨front, rfl⟩ := List.getLast?_eq_some_iff.1 hi
    rcases List.mem_append.1 hp with hp | hp
    · exact absurd ((List.pairwise_append.1 hsorted).2.2 j hp i (List.mem_singleton.2 rfl)) (by omega)
    · exact absurd (List.mem_singleton.1 hp) hj.ne'
  · rw [List.getLast?_eq_none_iff] at hnone
    subst hnone
    by_contra hp
    rw [Bool.not_eq_false, ← hmem] at hp
    exact absurd hp List.not_mem_nil

/-- What is left off is zero. -/
theorem upTo_spec (least : ℕ) (lens : List ℕ) : least ≤ upTo least lens ∧ upTo least lens ≤ max least lens.length ∧
    ∀ i, upTo least lens ≤ i → lens.getD i 0 = 0 := by
  have hzero {i : ℕ} (h : lens[i]?.any (fun len => decide (len ≠ 0)) = false) : lens.getD i 0 = 0 := by
    rw [List.getD_eq_getElem?_getD]
    cases hi : lens[i]? with
    | none => rfl
    | some len =>
      rw [hi] at h
      simpa using h
  unfold upTo
  obtain ⟨hsome, hnone⟩ := @rposition_spec ℕ (fun len => decide (len ≠ 0)) lens
  cases hlast : rposition (fun len => decide (len ≠ 0)) lens with
  | none => exact ⟨le_max_left _ _, max_le_max le_rfl (Nat.zero_le _), fun i _ => hzero (hnone hlast i)⟩
  | some last =>
    obtain ⟨hlt, -, hafter⟩ := hsome last hlast
    exact ⟨le_max_left _ _, max_le_max le_rfl hlt,
      fun i hi => hzero (hafter i ((le_max_right _ _).trans hi))⟩

theorem bump_spec {counts : List ℕ} {sym : ℕ} (hsym : sym < counts.length) : Yields (bump counts sym) fun counts' =>
    counts'.length = counts.length ∧ counts'.getD sym 0 ≠ 0 ∧
      ∀ other, counts.getD other 0 ≠ 0 → counts'.getD other 0 ≠ 0 := by
  unfold bump
  refine (Yields.get hsym).bind fun count _ => ?_
  refine (Yields.set hsym _).mono fun counts' hcounts' => ?_
  have hself : counts'.getD sym 0 = count + 1 := by
    rw [hcounts', List.getD_eq_getElem?_getD, List.getElem?_set_self hsym, Option.getD_some]
  refine ⟨by rw [hcounts', List.length_set], by rw [hself]; exact Nat.succ_ne_zero _, fun other hother => ?_⟩
  by_cases heq : sym = other
  · rw [← heq, hself]
    exact Nat.succ_ne_zero _
  · rwa [hcounts', List.getD_eq_getElem?_getD, List.getElem?_set_ne heq, ← List.getD_eq_getElem?_getD]

/-- Everything that is counted has a count. -/
theorem bumps_spec {α : Type} (key : α → ℕ) {l : List α} (hl : ∀ x ∈ l, key x < n) :
    Yields (l.foldlM (fun counts x => bump counts (key x)) (List.replicate n 0)) fun counts =>
      counts.length = n ∧ ∀ x ∈ l, counts.getD (key x) 0 ≠ 0 := by
  refine Yields.foldlM (I := fun (done : List α) (counts : List ℕ) =>
    counts.length = n ∧ ∀ x ∈ done, counts.getD (key x) 0 ≠ 0)
    ⟨List.length_replicate, fun _ h => absurd h List.not_mem_nil⟩ ?_
  rintro done x rest counts hsplit ⟨hlen, hdone⟩
  have hlt := hl x (by rw [hsplit]; exact List.mem_append_right _ List.mem_cons_self)
  refine (bump_spec (by omega : key x < counts.length)).mono fun counts' ⟨hlen', hself, hkeep⟩ => ⟨hlen'.trans hlen, ?_⟩
  intro other hother
  obtain hother | hother := List.mem_append.1 hother
  · exact hkeep _ (hdone other hother)
  · rw [List.mem_singleton.1 hother]
    exact hself

/-! ## Runs -/

/-- A run of equal elements is in front of the rest. -/
theorem replicate_append_drop {len taken : ℕ} {l : List ℕ} (h : taken ≤ (l.takeWhile fun next => next = len).length) :
    l = List.replicate taken len ++ l.drop taken := by
  have htake : l.take taken = List.replicate taken len := by
    have hfront := List.prefix_iff_eq_take.1 (List.takeWhile_prefix (p := fun next => decide (next = len)) (l := l))
    have hlength := (List.takeWhile_prefix (p := fun next => decide (next = len)) (l := l)).length_le
    refine List.eq_replicate_iff.2 ⟨by rw [List.length_take]; omega, fun x hx => ?_⟩
    have hin : x ∈ l.takeWhile fun next => next = len := by
      rw [hfront]
      exact (List.take_prefix_take_left h).subset hx
    exact of_decide_eq_true (List.all_eq_true.1 List.all_takeWhile x hin)
  conv_lhs => rw [← List.take_append_drop taken l, htake]

theorem mem_runs (rounds : ℕ) (hshort : ∀ len ∈ lens, len ≤ 15) :
    ∀ run ∈ runs rounds lens, run.1 ≤ 18 ∧ run.2 < 2^Header.runBits run.1 := by
  induction rounds generalizing lens with
  | zero => exact fun _ h => absurd h List.not_mem_nil
  | succ rounds ih =>
    cases lens with
    | nil => exact fun _ h => absurd h List.not_mem_nil
    | cons len rest =>
      have hlen := hshort len List.mem_cons_self
      have hdrop (n : ℕ) : ∀ l ∈ (len :: rest).drop n, l ≤ 15 := fun l hl => hshort l (List.mem_of_mem_drop hl)
      intro run hrun
      rw [runs] at hrun
      dsimp only at hrun
      split at hrun
      · generalize htaken : min ((len :: rest).takeWhile fun next => next = len).length 138 = taken at hrun
        rcases List.mem_cons.1 hrun with rfl | hrun
        · have hmost : taken ≤ 138 := htaken.symm.trans_le (min_le_right _ _)
          split
          · exact ⟨le_rfl, (by omega : taken - 11 < 2^7)⟩
          · exact ⟨Nat.le_succ 17, (by omega : taken - 3 < 2^3)⟩
        · exact ih (hdrop _) run hrun
      · split at hrun
        · generalize htaken : min (((len :: rest).takeWhile fun next => next = len).length - 1) 6 = taken at hrun
          rcases List.mem_cons.1 hrun with rfl | hrun
          · exact ⟨by dsimp only; omega, Nat.two_pow_pos _⟩
          · rcases List.mem_cons.1 hrun with rfl | hrun
            · have hmost : taken ≤ 6 := htaken.symm.trans_le (min_le_right _ _)
              exact ⟨(by decide : 16 ≤ 18), (by omega : taken - 3 < 2^2)⟩
            · exact ih (hdrop _) run hrun
        · rcases List.mem_cons.1 hrun with rfl | hrun
          · exact ⟨by dsimp only; omega, Nat.two_pow_pos _⟩
          · exact ih (fun l hl => hshort l (List.mem_cons_of_mem _ hl)) run hrun

theorem putRun_wrote (h : Coded lens out) (hb : b.Short) {run : ℕ × ℕ}
    (hsym : Canonical.length lens run.1 ≠ 0) (hextra : run.2 < 2^Header.runBits run.1) :
    Yields (putRun out lens b run) fun b' => b.Wrote b' fun stream p q => ∃ r, HasSymbol stream lens p run.1 r ∧
      (Header.runBits run.1 = 0 ∧ r = q ∨ HasField stream r (Header.runBits run.1) run.2 q) := by
  have hbits : Header.runBits run.1 ≤ 32 := by
    unfold Header.runBits
    split_ifs <;> decide
  unfold putRun
  refine (putSym_wrote h hb hsym).bind fun b' hb' => Yields.pure_iff.2 ?_
  split
  · exact (hb'.trans (.refl hb'.1)).mono fun _ _ _ ⟨r, hr, hq⟩ => ⟨r, hr, Or.inl ⟨‹_›, hq⟩⟩
  · exact (hb'.trans (Bits.put_wrote hb'.1 hextra hbits)).mono fun _ _ _ ⟨r, hr, hq⟩ => ⟨r, hr, Or.inr hq⟩

/-- The runs are read as the lengths they were made of. -/
theorem runs_wrote (h : Coded lens out) (rounds : ℕ) {rest : List ℕ} (hrounds : rest.length ≤ rounds)
    (hshort : ∀ len ∈ rest, len ≤ 15) (hsyms : ∀ run ∈ runs rounds rest, Canonical.length lens run.1 ≠ 0)
    (done : List ℕ) (hb : b.Short) :
    Yields ((runs rounds rest).foldlM (putRun out lens) b) fun b' => b.Wrote b' fun stream p q =>
      HasLengths stream lens (done.length + rest.length) p done q (done ++ rest) := by
  have hextra := mem_runs rounds hshort
  induction rounds generalizing rest done b with
  | zero =>
    obtain rfl := List.eq_nil_of_length_eq_zero (Nat.le_zero.1 hrounds)
    refine Yields.some_iff.2 ((Bits.Wrote.refl hb).mono fun stream p q hpq => ?_)
    rw [hpq, List.append_nil]
    exact .done rfl
  | succ rounds ih =>
    cases rest with
    | nil =>
      refine Yields.some_iff.2 ((Bits.Wrote.refl hb).mono fun stream p q hpq => ?_)
      rw [hpq, List.append_nil]
      exact .done rfl
    | cons len rest =>
      -- what comes after a run of one element or more
      have hafter {taken : ℕ} (hpos : 1 ≤ taken) {symbols : List (ℕ × ℕ)}
          (hruns : runs (rounds + 1) (len :: rest) = symbols ++ runs rounds ((len :: rest).drop taken)) (done' : List ℕ)
          {b' : Bits} (hb' : b'.Short) : Yields ((runs rounds ((len :: rest).drop taken)).foldlM (putRun out lens) b')
            fun b'' => b'.Wrote b'' fun stream p q =>
              HasLengths stream lens (done'.length + ((len :: rest).drop taken).length) p done' q
                (done' ++ (len :: rest).drop taken) := by
        have hdrop : ∀ l ∈ (len :: rest).drop taken, l ≤ 15 := fun l hl => hshort l (List.mem_of_mem_drop hl)
        refine ih (by rw [List.length_drop]; omega) hdrop (fun run hrun => ?_) done' hb' (mem_runs rounds hdrop)
        exact hsyms run (by rw [hruns]; exact List.mem_append_right _ hrun)
      by_cases hzeros : len = 0 ∧ 3 ≤ ((len :: rest).takeWhile fun next => next = len).length
      · obtain ⟨rfl, hrun⟩ := hzeros
        generalize htaken : min ((0 :: rest).takeWhile fun next => next = 0).length 138 = taken
        have hruns : runs (rounds + 1) (0 :: rest) =
            [if 11 ≤ taken then (18, taken - 11) else (17, taken - 3)] ++ runs rounds ((0 :: rest).drop taken) := by
          rw [runs, if_pos ⟨rfl, hrun⟩, htaken]
          rfl
        have hsplit := @replicate_append_drop 0 taken (0 :: rest) (by omega)
        have hlength := congrArg List.length hsplit
        rw [List.length_append, List.length_replicate] at hlength
        have hsym := hsyms _ (by rw [hruns]; exact List.mem_cons_self)
        have hbits := hextra _ (by rw [hruns]; exact List.mem_cons_self)
        rw [hruns, List.singleton_append, List.foldlM_cons]
        refine (putRun_wrote h hb hsym hbits.2).bind fun b' hb' => ?_
        refine (hafter (by omega) hruns (done ++ List.replicate taken 0) hb'.1).mono fun b'' hb'' => ?_
        refine (hb'.trans hb'').mono fun stream p q ⟨r, ⟨s, hs, hfield⟩, hrest⟩ => ?_
        rw [List.append_assoc, ← hsplit, List.length_append, List.length_replicate, Nat.add_assoc, ← hlength] at hrest
        by_cases hmany : 11 ≤ taken
        · rw [if_pos hmany] at hs hfield
          obtain ⟨hnone, -⟩ | hfield := hfield
          · exact absurd hnone (Nat.succ_ne_zero _)
          · have heq : taken - 11 + 11 = taken := by omega
            exact .manyZeros (by omega) hs hfield (by rw [heq]; exact hrest)
        · rw [if_neg hmany] at hs hfield
          obtain ⟨hnone, -⟩ | hfield := hfield
          · exact absurd hnone (Nat.succ_ne_zero _)
          · have heq : taken - 3 + 3 = taken := by omega
            exact .zeros (by omega) hs hfield (by rw [heq]; exact hrest)
      · -- one length goes out as it is in both cases that are left
        have hone {symbols : List (ℕ × ℕ)} (hin : (len, 0) ∈ runs (rounds + 1) (len :: rest)) :
            Yields (putRun out lens b (len, 0)) fun b' => b.Wrote b' fun stream p q => HasSymbol stream lens p len q := by
          have hlen := hshort len List.mem_cons_self
          refine (putRun_wrote h hb (hsyms _ hin) (hextra _ hin).2).mono fun b' hb' => ?_
          refine hb'.mono fun stream p q ⟨r, hr, hq⟩ => ?_
          have hnone : Header.runBits len = 0 := by
            unfold Header.runBits
            rw [if_neg (by omega), if_neg (by omega), if_neg (by omega)]
          obtain ⟨-, rfl⟩ | ⟨-, hq, -⟩ := hq
          · exact hr
          · rw [hnone, Nat.add_zero] at hq
            rwa [hq]
        by_cases hsame : len ≠ 0 ∧ 4 ≤ ((len :: rest).takeWhile fun next => next = len).length
        · generalize htaken : min (((len :: rest).takeWhile fun next => next = len).length - 1) 6 = taken
          have hruns : runs (rounds + 1) (len :: rest) =
              [(len, 0), (16, taken - 3)] ++ runs rounds ((len :: rest).drop (1 + taken)) := by
            rw [runs, if_neg hzeros, if_pos hsame, htaken]
            rfl
          have hsplit := @replicate_append_drop len (1 + taken) (len :: rest) (by omega)
          have hlength := congrArg List.length hsplit
          rw [List.length_append, List.length_replicate] at hlength
          have hin : (16, taken - 3) ∈ runs (rounds + 1) (len :: rest) := by
            rw [hruns]
            exact List.mem_cons_of_mem _ List.mem_cons_self
          have hfirst := @hone [] (by rw [hruns]; exact List.mem_cons_self)
          rw [hruns, List.cons_append, List.singleton_append, List.foldlM_cons]
          refine hfirst.bind fun b' hb' => ?_
          rw [List.foldlM_cons]
          refine (putRun_wrote h hb'.1 (hsyms _ hin) (hextra _ hin).2).bind fun b'' hb'' => ?_
          refine (hafter (by omega) hruns (done ++ List.replicate (1 + taken) len) hb''.1).mono fun b₃ hb₃ => ?_
          refine ((hb'.trans hb'').trans hb₃).mono fun stream p q ⟨r, ⟨s, hs, s', hs', hfield⟩, hrest⟩ => ?_
          rw [List.append_assoc, ← hsplit, List.length_append, List.length_replicate, Nat.add_assoc, ← hlength] at hrest
          have hlen := hshort len List.mem_cons_self
          obtain ⟨hnone, -⟩ | hfield := hfield
          · exact absurd hnone (Nat.succ_ne_zero _)
          · have heq : taken - 3 + 3 = taken := by omega
            refine .length (by rw [List.length_cons]; omega) hs hlen (.again ?_ hs' List.getLast?_concat hfield ?_)
            · rw [List.length_append, List.length_singleton]
              omega
            · rwa [heq, List.append_assoc, List.singleton_append, ← List.replicate_succ, Nat.add_comm taken 1]
        · have hruns : runs (rounds + 1) (len :: rest) = [(len, 0)] ++ runs rounds ((len :: rest).drop 1) := by
            rw [runs, if_neg hzeros, if_neg hsame]
            rfl
          have hfirst := @hone [] (by rw [hruns]; exact List.mem_cons_self)
          rw [hruns, List.singleton_append, List.foldlM_cons]
          refine hfirst.bind fun b' hb' => ?_
          refine (hafter le_rfl hruns (done ++ [len]) hb'.1).mono fun b'' hb'' => ?_
          refine (hb'.trans hb'').mono fun stream p q ⟨r, hr, hrest⟩ => ?_
          have hlen := hshort len List.mem_cons_self
          rw [List.drop_one, List.tail_cons, List.append_assoc, List.singleton_append, List.length_append,
            List.length_singleton, Nat.add_assoc, Nat.add_comm 1, ← List.length_cons (a := len)] at hrest
          exact .length (by rw [List.length_cons]; omega) hr hlen hrest

/-! ## The whole header -/

/-- Numbers of so many bits each are read where they were put. -/
theorem puts_wrote (hn : n ≤ 32) (value : ℕ → ℕ) (hvalue : ∀ sym, value sym < 2^n) (syms : List ℕ)
    (hb : b.Short) : b.Wrote (syms.foldl (fun (out : Bits) sym => out.put (value sym) n) b) fun stream p q =>
      q = p + n * syms.length ∧ ∀ i (hi : i < syms.length), field stream (p + n * i) n = value syms[i] := by
  induction syms generalizing b with
  | nil => exact (Bits.Wrote.refl hb).mono fun stream p q hpq => ⟨hpq.symm, fun i hi => absurd hi (Nat.not_lt_zero _)⟩
  | cons sym syms ih =>
    have hfirst := Bits.put_wrote hb (hvalue sym) hn
    refine (hfirst.trans (ih hfirst.1)).mono fun stream p q ⟨r, ⟨hfield, hr, _⟩, hq, hrest⟩ => ⟨?_, fun i hi => ?_⟩
    · rw [hq, hr, List.length_cons]
      ring
    · cases i with
      | zero => exact hfield.symm
      | succ i =>
        have hplace : p + n * (i + 1) = r + n * i := by
          rw [hr]
          ring
        rw [hplace, List.getElem_cons_succ]
        exact hrest i (Nat.lt_of_succ_lt_succ hi)

/-- The lengths that are left off the end of the order are zero. -/
theorem metaLengths_eq (hlength : lens.length = 19) {stream : List UInt8} {p hclen : ℕ}
    (hclen' : hclen = upTo 4 (ORDER.map fun sym => lens.getD sym 0))
    (h : ∀ i (hi : i < (ORDER.take hclen).length),
      field stream (p + 3 * i) 3 = lens.getD (ORDER.take hclen)[i] 0) : metaLengths stream p hclen = lens := by
  have hspec := upTo_spec 4 (ORDER.map fun sym => lens.getD sym 0)
  rw [← hclen'] at hspec
  refine List.ext_getElem (by rw [hlength, metaLengths, List.length_map, List.length_range]) fun s hs hs' => ?_
  have hin : s ∈ Unpack.ORDER := (by decide : ∀ s < 19, s ∈ Unpack.ORDER) s (by omega)
  have hlt : Unpack.ORDER.idxOf s < ORDER.length := List.idxOf_lt_length_of_mem hin
  have hat : ORDER[Unpack.ORDER.idxOf s] = s := List.getElem_idxOf hlt
  have hlen : lens.getD s 0 = lens[s] := by
    rw [List.getD_eq_getElem?_getD, List.getElem?_eq_getElem hs', Option.getD_some]
  have hread : (metaLengths stream p hclen)[s] =
      if Unpack.ORDER.idxOf s < hclen then field stream (p + 3 * Unpack.ORDER.idxOf s) 3 else 0 := by
    simp [metaLengths]
  rw [hread]
  split
  · rename_i hwritten
    have hfield := h _ (by rw [List.length_take]; exact lt_min hwritten hlt)
    rw [hfield, List.getElem_take, hat, hlen]
  · rename_i hleft
    have hzero := hspec.2.2 _ (Nat.le_of_not_lt hleft)
    rw [List.getD_eq_getElem?_getD, List.getElem?_map, List.getElem?_eq_getElem hlt, Option.map_some, Option.getD_some,
      hat, hlen] at hzero
    exact hzero.symm

/-- The code lengths of two tables that a block can have. -/
structure Tables (lit dist : List ℕ) : Prop where
  litFits : Canonical.Fits lit 15
  distFits : Canonical.Fits dist 15
  litShort : ∀ len ∈ lit, len ≤ 15
  distShort : ∀ len ∈ dist, len ≤ 15
  litLength : 257 ≤ lit.length ∧ lit.length ≤ 286
  distLength : 1 ≤ dist.length ∧ dist.length ≤ 30

/-- What the header says is the two tables, without the zeros that each has at its end. -/
theorem header_wrote {lit dist : List ℕ} (h : Tables lit dist) : Yields (Header.new lit dist) fun header =>
    ∀ b : Bits, b.Short → Yields (header.write b) fun b' => b.Wrote b' fun stream p q =>
      HasCodes stream p (lit.take (upTo 257 lit)) (dist.take (upTo 1 dist)) q := by
  obtain ⟨hlitle, hlitmax, hlitzero⟩ := upTo_spec 257 lit
  obtain ⟨hdistle, hdistmax, hdistzero⟩ := upTo_spec 1 dist
  rw [max_eq_right h.litLength.1] at hlitmax
  rw [max_eq_right h.distLength.1] at hdistmax
  have hlitlen := h.litLength
  have hdistlen := h.distLength
  unfold Header.new
  dsimp only
  generalize upTo 257 lit = hlit at hlitle hlitmax hlitzero ⊢
  generalize upTo 1 dist = hdist at hdistle hdistmax hdistzero ⊢
  have hall : ∀ len ∈ lit.take hlit ++ dist.take hdist, len ≤ 15 := by
    intro len hlen
    obtain hlen | hlen := List.mem_append.1 hlen
    · exact h.litShort len (List.mem_of_mem_take hlen)
    · exact h.distShort len (List.mem_of_mem_take hlen)
  have hlitlength : (lit.take hlit).length = hlit := List.length_take_of_le hlitmax
  have hdistlength : (dist.take hdist).length = hdist := List.length_take_of_le hdistmax
  have htotal : (lit.take hlit ++ dist.take hdist).length = hlit + hdist := by
    rw [List.length_append, hlitlength, hdistlength]
  have hcoded := mem_runs (lit.take hlit ++ dist.take hdist).length hall
  generalize hruns : runs (lit.take hlit ++ dist.take hdist).length (lit.take hlit ++ dist.take hdist) = coded at hcoded ⊢
  refine (bumps_spec (fun run : ℕ × ℕ => run.1) fun run hrun => Nat.lt_succ_of_le (hcoded run hrun).1).bind
    fun freq ⟨hfreq, hcounted⟩ => ?_
  refine (lengths_spec freq (by omega) (by decide) (by rw [hfreq]; decide)).bind fun lens hlens => ?_
  have hlens19 : lens.length = 19 := hlens.length.trans hfreq
  have hshort : ∀ len ∈ lens, len ≤ 15 := fun len hlen => (hlens.le len hlen).trans (by decide)
  have hsmall (sym : ℕ) : lens.getD sym 0 < 2^3 := by
    rw [List.getD_eq_getElem?_getD]
    cases hat : lens[sym]? with
    | none => exact Nat.two_pow_pos 3
    | some len => exact Nat.lt_succ_of_le (hlens.le len (List.mem_of_getElem? hat))
  obtain ⟨hclenle, hclenmax, -⟩ := upTo_spec 4 (ORDER.map fun sym => lens.getD sym 0)
  refine Yields.pure_iff.2 fun b hb => ?_
  unfold Header.write
  dsimp only
  generalize hclen' : upTo 4 (ORDER.map fun sym => lens.getD sym 0) = hclen at hclenle hclenmax ⊢
  have hclen19 : hclen ≤ 19 := hclenmax
  have hfirst := Bits.put_wrote hb (by omega : hlit - 257 < 2^5) (by decide)
  have hsecond := Bits.put_wrote hfirst.1 (by omega : hdist - 1 < 2^5) (by decide)
  have hthird := Bits.put_wrote hsecond.1 (by omega : hclen - 4 < 2^4) (by decide)
  have horder := puts_wrote (by decide : 3 ≤ 32) (fun sym => lens.getD sym 0) hsmall (ORDER.take hclen) hthird.1
  have horder' := horder.within
  have hfits : Canonical.Fits lens 15 := hlens.fits.longer hlens.le
  refine (codes_coded hshort hfits).bind fun codes hcodes => ?_
  rw [← hruns] at hcounted ⊢
  refine (runs_wrote hcodes _ le_rfl hall (fun run hrun => hlens.some _ (hcounted run hrun)) [] horder.1).mono ?_
  intro b' hb'
  refine ((((hfirst.trans hsecond).trans hthird).trans horder').trans hb').mono ?_
  rintro stream p q ⟨t, ⟨s, ⟨r', ⟨r, hr, hr'⟩, hs⟩, ⟨ht, hfields⟩, hend⟩, hq⟩
  rw [List.length_take_of_le hclen19] at ht
  obtain rfl : r = p + 5 := hr.2.1
  obtain rfl : r' = p + 10 := hr'.2.1
  obtain rfl : s = p + 14 := hs.2.1
  subst ht
  have hmeta := metaLengths_eq hlens19 hclen'.symm hfields
  rw [List.length_nil, Nat.zero_add, htotal, List.nil_append] at hq
  have hlit' : hlit - 257 + 257 = hlit := Nat.sub_add_cancel hlitle
  have hdist' : hdist - 1 + 1 = hdist := Nat.sub_add_cancel hdistle
  have hclen'' : hclen - 4 + 4 = hclen := Nat.sub_add_cancel hclenle
  refine ⟨hlit - 257, hdist - 1, hclen - 4, lit.take hlit ++ dist.take hdist, hr, hr', hs, by omega, ?_⟩
  rw [hlit', hdist', hclen'', hmeta]
  refine ⟨hend, hfits, hq, (List.take_left' hlitlength).symm, (List.drop_left' hlitlength).symm, ?_, ?_⟩
  · exact Canonical.fits_take_zeros hlitzero h.litFits
  · exact Canonical.fits_take_zeros hdistzero h.distFits

end Rucc.Object
