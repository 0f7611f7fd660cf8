import Rucc.Object.Matcher
import Rucc.Unpack.Deflate

/-!
# Matches are copies

A match is only handed out after its bytes were compared, whatever is in the tables, so the chains matter for how
long the matches are and for nothing else. What `Matcher.run` returns spells out the bytes it was run over.
-/

namespace Rucc.Object

open Unpack (copied)

/-- The bytes so far with what a symbol adds to them. -/
def Sym.expand (out : List UInt8) : Sym → List UInt8
  | lit byte => out ++ [byte]
  | copy len dist => out ++ copied out len dist

/-- A copy that the format can say, of bytes that are there. -/
def Sym.Good (window most : ℕ) (out : List UInt8) : Sym → Prop
  | lit _ => True
  | copy len dist => MIN_MATCH ≤ len ∧ len ≤ most ∧ 1 ≤ dist ∧ dist ≤ window ∧ dist ≤ out.length

/-- The symbols are good ones and make one run of bytes into another. -/
inductive Spells (window most : ℕ) : List UInt8 → List Sym → List UInt8 → Prop
  | nil {out : List UInt8} : Spells window most out [] out
  | cons {out result : List UInt8} {sym : Sym} {syms : List Sym} (hgood : sym.Good window most out)
      (hrest : Spells window most (sym.expand out) syms result) : Spells window most out (sym :: syms) result

section Spells

variable {window most : ℕ} {out result : List UInt8} {syms : List Sym}

theorem Spells.append {first second : List Sym} (h : Spells window most out (first ++ second) result) :
    ∃ middle, Spells window most out first middle ∧ Spells window most middle second result := by
  induction first generalizing out with
  | nil => exact ⟨out, .nil, h⟩
  | cons sym first ih =>
    cases h with
    | cons hgood hrest =>
      obtain ⟨middle, hfirst, hsecond⟩ := ih hrest
      exact ⟨middle, .cons hgood hfirst, hsecond⟩

theorem length_copied (out : List UInt8) (len dist : ℕ) : (copied out len dist).length = len := by
  unfold copied
  rw [List.length_map, List.length_range]

theorem Sym.length_expand (out : List UInt8) (sym : Sym) : (sym.expand out).length = out.length + sym.size := by
  cases sym with
  | lit byte => exact List.length_append
  | copy len dist => exact List.length_append.trans (congrArg _ (length_copied out len dist))

theorem Spells.length (h : Spells window most out syms result) :
    result.length = out.length + (syms.map Sym.size).sum := by
  induction h with
  | nil => rfl
  | cons _ _ ih =>
    rw [ih, Sym.length_expand, List.map_cons, List.sum_cons, Nat.add_assoc]

theorem Spells.prefix (h : Spells window most out syms result) : out <+: result := by
  induction h with
  | nil => exact List.prefix_refl _
  | @cons out _ sym _ _ _ ih =>
    refine List.IsPrefix.trans ?_ ih
    cases sym with
    | lit byte => exact List.prefix_append _ _
    | copy len dist => exact List.prefix_append _ _

end Spells

/-- Bytes that are the same as those some way back are a copy of them, over and over when there are not enough. -/
theorem copied_take {data : List UInt8} {at_ len back : ℕ} (hpos : 1 ≤ back) (hback : back ≤ at_)
    (hlen : at_ + len ≤ data.length)
    (h : (data.drop (at_ - back)).take len = (data.drop at_).take len) :
    copied (data.take at_) len back = (data.drop at_).take len := by
  -- byte for byte, and as many distances back as it takes to be in front of the copy
  have hsame (k : ℕ) (hk : k < len) : data[at_ - back + k]? = data[at_ + k]? := by
    have hget : ((data.drop (at_ - back)).take len)[k]? = ((data.drop at_).take len)[k]? := by rw [h]
    rwa [List.getElem?_take_of_lt hk, List.getElem?_take_of_lt hk, List.getElem?_drop, List.getElem?_drop] at hget
  have hfar (k : ℕ) (hk : k < len) : data[at_ - back + k % back]? = data[at_ + k]? := by
    induction k using Nat.strong_induction_on with
    | _ k ih =>
      by_cases hlt : k < back
      · rw [Nat.mod_eq_of_lt hlt, hsame k hk]
      · rw [Nat.mod_eq_sub_mod (Nat.le_of_not_lt hlt), ih (k - back) (by omega) (by omega), ← hsame k hk]
        congr 1
        omega
  apply List.ext_getElem?
  intro k
  unfold copied
  by_cases hk : k < len
  · have hmod := Nat.mod_lt k hpos
    have hin : at_ - back + k % back < at_ := by omega
    rw [List.getElem?_map, List.getElem?_range hk, Option.map_some, List.getElem?_take_of_lt hk, List.getElem?_drop,
      ← hfar k hk, List.length_take_of_le (by omega), List.getD_eq_getElem?_getD, List.getElem?_take_of_lt hin,
      List.getElem?_eq_getElem (by omega), Option.getD_some]
  · rw [List.getElem?_eq_none, List.getElem?_eq_none]
    · rw [List.length_take]
      omega
    · rw [List.length_map, List.length_range]
      omega

theorem common_le (xs ys : List UInt8) : common xs ys ≤ xs.length := by
  unfold common
  refine (List.takeWhile_sublist _).length_le.trans ?_
  rw [List.length_zip]
  exact min_le_left _ _

theorem take_common (xs ys : List UInt8) : xs.take (common xs ys) = ys.take (common xs ys) := by
  induction xs generalizing ys with
  | nil =>
    unfold common
    rw [List.zip_nil_left]
    rfl
  | cons x xs ih =>
    cases ys with
    | nil => rfl
    | cons y ys =>
      by_cases hxy : x = y
      · have hcommon : common (x :: xs) (y :: ys) = common xs ys + 1 := by
          unfold common
          rw [List.zip_cons_cons, List.takeWhile_cons_of_pos (by simpa using hxy), List.length_cons]
        rw [hcommon, List.take_succ_cons, List.take_succ_cons, ih, hxy]
      · have hcommon : common (x :: xs) (y :: ys) = 0 := by
          unfold common
          rw [List.zip_cons_cons, List.takeWhile_cons_of_neg (by simpa using hxy), List.length_nil]
        rw [hcommon]
        rfl

namespace Matcher

variable {most at_ best back stop : ℕ}

/-- The tables have a place for every hash and for every place of the window. -/
structure Ok (m : Matcher) : Prop where
  head : m.head.length = 2^HASH_BITS
  prev : m.prev.length = m.window
  window : 0 < m.window
  most : 0 < m.most

/-- A matcher over the same data that matches as far back and as much. -/
structure Same (m m' : Matcher) : Prop where
  ok : m'.Ok
  data : m'.data = m.data
  window : m'.window = m.window
  most : m'.most = m.most

theorem Same.trans {m m' m'' : Matcher} (h : m.Same m') (h' : m'.Same m'') : m.Same m'' :=
  ⟨h'.ok, h'.data.trans h.data, h'.window.trans h.window, h'.most.trans h.most⟩

variable {m : Matcher}

theorem new_ok (data : List UInt8) {window : ℕ} (hwindow : 0 < window) (hmost : 0 < most) :
    (new data window most).Ok := ⟨List.length_replicate, List.length_replicate, hwindow, hmost⟩

theorem hash_spec (h : at_ + MIN_MATCH ≤ m.data.length) : Yields (m.hash at_) fun h => h < 2^HASH_BITS := by
  unfold MIN_MATCH at h
  refine (Yields.get (by omega : at_ < m.data.length)).bind fun a _ => ?_
  refine (Yields.get (by omega : at_ + 1 < m.data.length)).bind fun b _ => ?_
  refine (Yields.get (by omega : at_ + 2 < m.data.length)).bind fun c _ => ?_
  refine Yields.pure_iff.2 ?_
  -- fifteen bits are left of a word of 32
  rw [Nat.shiftRight_eq_div_pow]
  have hlt := Nat.mod_lt ((a.toNat ||| b.toNat <<< 8 ||| c.toNat <<< 16) * 0x9E3779B1) (Nat.two_pow_pos 32)
  have hpow : 2^(32 - HASH_BITS) * 2^HASH_BITS = 2^32 := by decide
  exact Nat.div_lt_of_lt_mul (by rwa [hpow])

theorem insert_spec (hm : m.Ok) (at_ : ℕ) : Yields (m.insert at_) m.Same := by
  unfold insert
  refine Yields.ite (fun hin => ?_) fun _ => Yields.pure_iff.2 ⟨hm, rfl, rfl, rfl⟩
  refine (hash_spec hin).bind fun h hh => ?_
  refine (Yields.get (by rw [hm.head]; exact hh)).bind fun before _ => ?_
  refine (Yields.set (by rw [hm.prev]; exact Nat.mod_lt _ hm.window) _).bind fun prev hprev => ?_
  refine (Yields.set (by rw [hm.head]; exact hh) _).bind fun head hhead => ?_
  refine Yields.pure_iff.2 ⟨⟨?_, ?_, hm.window, hm.most⟩, rfl, rfl, rfl⟩
  · dsimp only
    rw [hhead, List.length_set, hm.head]
  · dsimp only
    rw [hprev, List.length_set, hm.prev]

theorem foldlM_insert_spec (hm : m.Ok) (places : List ℕ) : Yields (places.foldlM insert m) m.Same := by
  refine Yields.foldlM (I := fun _ => m.Same) ⟨hm, rfl, rfl, rfl⟩ fun _ at_ _ m' _ hsame => ?_
  exact (insert_spec hsame.ok at_).mono fun _ h => hsame.trans h

/-- A match that was compared: nothing yet, or bytes that are the same some way back. -/
def Found (m : Matcher) (at_ most best back : ℕ) : Prop :=
  best ≤ most ∧ (0 < best → 1 ≤ back ∧ back ≤ m.window ∧ back ≤ at_ ∧
    (m.data.drop (at_ - back)).take best = (m.data.drop at_).take best)

theorem better_spec {cand : ℕ} (hcand : cand < at_) (hwindow : at_ - cand ≤ m.window)
    (hmost : 0 < most) (hin : at_ + most ≤ m.data.length) (h : m.Found at_ most best back) :
    Yields (m.better at_ most cand best back) fun r => m.Found at_ most r.1 r.2.1 := by
  have hlast : min best (most - 1) < most := by omega
  refine (Yields.get (by omega : cand + min best (most - 1) < m.data.length)).bind fun a _ => ?_
  refine (Yields.get (by omega : at_ + min best (most - 1) < m.data.length)).bind fun b _ => ?_
  refine Yields.ite (fun _ => ?_) fun _ => Yields.pure_iff.2 h
  rw [if_pos ⟨by omega, hin⟩]
  refine Yields.pure_iff.2 ?_
  split
  · -- as many bytes as were compared are the same
    have hle := common_le ((m.data.drop cand).take most) ((m.data.drop at_).take most)
    have htake := take_common ((m.data.drop cand).take most) ((m.data.drop at_).take most)
    rw [List.length_take] at hle
    generalize common ((m.data.drop cand).take most) ((m.data.drop at_).take most) = len at hle htake ⊢
    have hlen : len ≤ most := by omega
    rw [List.take_take, List.take_take, min_eq_left hlen] at htake
    refine ⟨hlen, fun _ => ?_⟩
    dsimp only
    refine ⟨by omega, hwindow, by omega, ?_⟩
    rwa [Nat.sub_sub_self hcand.le]
  · exact h

theorem chain_spec (hm : m.Ok) (hmost : 0 < most) (hin : at_ + most ≤ m.data.length) (tries : ℕ)
    (cand : Option ℕ) (h : m.Found at_ most best back) :
    Yields (m.chain at_ most tries cand best back) fun r => m.Found at_ most r.1 r.2 := by
  induction tries generalizing cand best back with
  | zero => exact Yields.some_iff.2 h
  | succ tries ih =>
    cases cand with
    | none => exact Yields.some_iff.2 h
    | some cand =>
      rw [chain]
      refine Yields.ite (fun hcand => ?_) fun _ => Yields.some_iff.2 h
      refine (better_spec hcand.1 hcand.2 hmost hin h).bind fun r hr => ?_
      obtain ⟨best', back', taken⟩ := r
      cases taken with
      | true => exact Yields.pure_iff.2 hr
      | false =>
        refine (Yields.get (by rw [hm.prev]; exact Nat.mod_lt _ hm.window)).bind fun next _ => ?_
        cases next with
        | none => exact Yields.pure_iff.2 hr
        | some next =>
          exact Yields.ite (fun _ => Yields.pure_iff.2 hr) fun _ => ih (some next) hr

/-- A match that can be handed out: none, or one that is long enough and ends in time. -/
def Match (m : Matcher) (at_ stop len back : ℕ) : Prop :=
  len = 0 ∨ (MIN_MATCH ≤ len ∧ len ≤ m.most ∧ at_ + len ≤ stop ∧ 1 ≤ back ∧ back ≤ m.window ∧ back ≤ at_ ∧
    (m.data.drop (at_ - back)).take len = (m.data.drop at_).take len)

theorem longest_spec (hm : m.Ok) {at_ stop : ℕ} (hstop : stop ≤ m.data.length) :
    Yields (m.longest at_ stop) fun r => m.Match at_ stop r.1 r.2 := by
  unfold longest
  refine Yields.ite (fun _ => Yields.some_iff.2 (Or.inl rfl)) fun hlong => ?_
  rw [if_neg hm.most.ne']
  have hroom : at_ + MIN_MATCH ≤ stop := Nat.le_of_not_lt hlong
  have hmin : 0 < MIN_MATCH := by decide
  refine (hash_spec (by omega)).bind fun h hh => ?_
  refine (Yields.get (by rw [hm.head]; exact hh)).bind fun cand _ => ?_
  have hmost : 0 < min (stop - at_) m.most := lt_min (by omega) hm.most
  have hin : at_ + min (stop - at_) m.most ≤ m.data.length := by omega
  refine (chain_spec hm hmost hin CHAIN cand ⟨Nat.zero_le _, fun h => absurd h (lt_irrefl _)⟩).bind fun r hr => ?_
  obtain ⟨best, back⟩ := r
  refine Yields.pure_iff.2 ?_
  obtain ⟨hle, hfound⟩ := hr
  dsimp only at hle hfound ⊢
  split
  · rename_i hbest
    obtain ⟨hpos, hwindow, hback, hsame⟩ := hfound (by omega)
    exact Or.inr ⟨hbest, by dsimp only; omega, by dsimp only; omega, hpos, hwindow, hback, hsame⟩
  · exact Or.inl rfl

theorem ahead_spec (hm : m.Ok) (at_ len : ℕ) (hstop : stop ≤ m.data.length) :
    Yields (m.ahead at_ stop len) fun _ => True := by
  unfold ahead
  refine Yields.ite (fun _ => ?_) fun _ => Yields.some_iff.2 trivial
  obtain ⟨r, hr, -⟩ := @longest_spec m hm (at_ + 1) stop hstop
  rw [hr]
  exact Yields.some_iff.2 trivial

/-- What is run over is spelled out, on top of everything before it. -/
theorem run_spec (hm : m.Ok) (hstop : stop ≤ m.data.length) (rounds : ℕ) (hle : at_ ≤ stop)
    (hrounds : stop < at_ + rounds) :
    Yields (m.run stop rounds at_) fun r =>
      m.Same r.1 ∧ Spells m.window m.most (m.data.take at_) r.2 (m.data.take stop) := by
  induction rounds generalizing m at_ with
  | zero => omega
  | succ rounds ih =>
    rw [run]
    refine Yields.ite (fun hend => ?_) fun hend => ?_
    · obtain rfl : at_ = stop := Nat.le_antisymm hle hend
      exact Yields.some_iff.2 ⟨⟨hm, rfl, rfl, rfl⟩, .nil⟩
    refine (longest_spec hm hstop).bind fun r hmatch => ?_
    obtain ⟨len, back⟩ := r
    dsimp only at hmatch ⊢
    refine (insert_spec hm at_).bind fun m' hsame => ?_
    refine (ahead_spec hsame.ok at_ len (by rw [hsame.data]; exact hstop)).bind fun next _ => ?_
    refine Yields.ite (fun _ => ?_) fun hcopy => ?_
    · -- a literal
      have hlt : at_ < m'.data.length := by
        rw [hsame.data]
        omega
      refine (Yields.get hlt).bind fun byte hbyte => ?_
      refine (ih hsame.ok (by rw [hsame.data]; exact hstop) (by omega) (by omega)).bind fun r hr => ?_
      obtain ⟨m'', syms⟩ := r
      obtain ⟨hsame', hspells⟩ := hr
      refine Yields.pure_iff.2 ⟨hsame.trans hsame', .cons trivial ?_⟩
      rw [hsame.window, hsame.most, hsame.data] at hspells
      rw [Sym.expand, hbyte]
      simp only [hsame.data]
      rwa [List.take_append_getElem]
    · -- a match
      rw [not_or] at hcopy
      obtain ⟨hmin, hmost, hend', hpos, hwindow, hback, htake⟩ := hmatch.resolve_left hcopy.1
      have hlen : 0 < len := Nat.pos_of_ne_zero hcopy.1
      refine (foldlM_insert_spec hsame.ok _).bind fun m'' hsame' => ?_
      have hboth := hsame.trans hsame'
      refine (ih hboth.ok (by rw [hboth.data]; exact hstop) hend' (by omega)).bind fun r hr => ?_
      obtain ⟨m₃, syms⟩ := r
      obtain ⟨hsame'', hspells⟩ := hr
      rw [hboth.window, hboth.most, hboth.data] at hspells
      refine Yields.pure_iff.2 ⟨hboth.trans hsame'', .cons ⟨hmin, hmost, hpos, hwindow, ?_⟩ ?_⟩
      · rw [List.length_take_of_le (by omega)]
        exact hback
      · rw [Sym.expand, copied_take hpos hback (by omega) htake, ← List.take_add]
        exact hspells

end Matcher

end Rucc.Object
