import Rucc.Opt.MemSsaFrontier

/-!
# What the construction gives

Every path through a function carries a version of memory, and the chain that `build` puts the function
on gives each instruction the version that comes to it along every path. A block has a memory parameter
exactly when two paths come to it with different versions.
-/

namespace Rucc.Opt

open Relation

/-- What happens on a path: a block is entered or an instruction is executed. -/
inductive Event where
  | enter (block : ℕ)
  | exec (inst : Inst)
  deriving DecidableEq

/-- The place after an event. -/
def Event.place : Event → Inst
  | .enter b => (b, 0)
  | .exec i => (i.1, i.2 + 1)

/-- What can come after an event: the next instruction of the block, or a block that the terminator
names. -/
def Func.Next (f : Func) (e e' : Event) : Prop :=
  (e.place.2 < (f.insts e.place.1).length ∧ e' = .exec e.place) ∨
    (e.place.2 = (f.insts e.place.1).length ∧ ∃ t ∈ f.targets e.place.1, e' = .enter t)

/-- A path from the entry. -/
structure Func.Path (f : Func) (es : List Event) : Prop where
  start : es.head? = some (.enter 0)
  steps : es.IsChain f.Next

namespace Func

variable {f : Func}

variable {es : List Event}

theorem path_start : f.Path [.enter 0] := ⟨rfl, List.isChain_singleton _⟩

theorem path_snoc {e e' : Event} : f.Path (es ++ [e, e']) ↔ f.Path (es ++ [e]) ∧ f.Next e e' := by
  have hlist : es ++ [e, e'] = es ++ [e] ++ [e'] := by simp
  constructor
  · rintro ⟨hstart, hsteps⟩
    rw [hlist, List.isChain_append] at hsteps
    refine ⟨⟨?_, hsteps.1⟩, hsteps.2.2 e (by simp) e' (by simp)⟩
    rw [← hstart]
    cases es <;> rfl
  · rintro ⟨⟨hstart, hsteps⟩, hnext⟩
    refine ⟨?_, ?_⟩
    · rw [← hstart]
      cases es <;> rfl
    · rw [hlist, List.isChain_append]
      refine ⟨hsteps, List.isChain_singleton _, fun x hx y hy => ?_⟩
      obtain rfl : e = x := by simpa using hx
      obtain rfl : e' = y := by simpa using hy
      exact hnext

/-- A path is the start or a path and one more event. -/
theorem Path.cases {e : Event} (h : f.Path (es ++ [e])) :
    (es = [] ∧ e = .enter 0) ∨ ∃ es' e', es = es' ++ [e'] ∧ f.Path (es' ++ [e']) ∧ f.Next e' e := by
  rcases List.eq_nil_or_concat es with rfl | ⟨es', e', heq⟩
  · exact Or.inl ⟨rfl, by simpa using h.start⟩
  · rw [List.concat_eq_append] at heq
    rw [heq, List.append_assoc] at h
    exact Or.inr ⟨es', e', heq, path_snoc.mp h⟩

/-- What holds at the start and after each event holds after every path. -/
theorem Path.induction {motive : List Event → Event → Prop} (hstart : motive [] (.enter 0))
    (hstep : ∀ es e e', f.Path (es ++ [e]) → f.Next e e' → motive es e → motive (es ++ [e]) e') :
    ∀ es e, f.Path (es ++ [e]) → motive es e := by
  intro es
  induction es using List.reverseRecOn with
  | nil =>
    intro e h
    rcases h.cases with ⟨-, rfl⟩ | ⟨es', e', heq, -⟩
    · exact hstart
    · exact absurd heq (by simp)
  | append_singleton es e ih =>
    intro e' h
    rw [List.append_assoc] at h
    obtain ⟨hpath, hnext⟩ := path_snoc.mp h
    exact hstep es e e' hpath hnext (ih e hpath)

end Func

/-- The version of memory after one more event. -/
def Chain.after (f : Func) (c : Chain) (v : Version) : Event → Version
  | .enter b => if b ∈ c.params then .param b else v
  | .exec i => if f.writes i then .result i else v

/-- The version of memory that a path ends with. -/
def Chain.reach (f : Func) (c : Chain) (es : List Event) : Version := es.foldl (c.after f) .entry

theorem Chain.reach_snoc {f : Func} {c : Chain} {es : List Event} {e : Event} :
    c.reach f (es ++ [e]) = c.after f (c.reach f es) e := by
  rw [reach, List.foldl_append]
  rfl

namespace MemSsa

variable {f : Func}

/-! ## The threading of one block -/

/-- The version of memory in front of a place of a block that begins with one. -/
def upTo (f : Func) (b : ℕ) (v : Version) : ℕ → Version
  | 0 => v
  | k + 1 => if f.writes (b, k) then .result (b, k) else upTo f b v k

theorem threadInsts_spec {b : ℕ} {v : Version} (rest : List InstData) :
    ∀ k memIn, (f.insts b).drop k = rest → k ≤ (f.insts b).length →
      (threadInsts b k rest (upTo f b v k) memIn).1 = upTo f b v (f.insts b).length ∧
      ∀ i, (threadInsts b k rest (upTo f b v k) memIn).2 i =
        if i.1 = b ∧ k ≤ i.2 ∧ f.touches i then some (upTo f b v i.2) else memIn i := by
  induction rest with
  | nil =>
    intro k memIn hdrop hle
    have hk : k = (f.insts b).length := by
      have := List.drop_eq_nil_iff.mp hdrop
      omega
    refine ⟨by rw [threadInsts, hk], fun i => ?_⟩
    rw [threadInsts, if_neg]
    rintro ⟨rfl, hki, htouches⟩
    -- there is no instruction from the end on
    rw [Func.touches, Func.inst, List.getElem?_eq_none (by omega)] at htouches
    exact absurd htouches (by simp)
  | cons data rest ih =>
    intro k memIn hdrop hle
    have hget : (f.insts b)[k]? = some data := by
      have hfirst : ((f.insts b).drop k)[0]? = (f.insts b)[k + 0]? := List.getElem?_drop
      rw [hdrop] at hfirst
      exact hfirst.symm
    have hlt : k < (f.insts b).length := (List.getElem?_eq_some_iff.mp hget).1
    have hdrop' : (f.insts b).drop (k + 1) = rest := by
      rw [← List.drop_drop, hdrop]
      rfl
    have htouch : f.touches (b, k) = data.effect.touchesMemory := by rw [Func.touches, Func.inst, hget]; rfl
    have hwrite : f.writes (b, k) = data.effect.writesMemory := by rw [Func.writes, Func.inst, hget]; rfl
    rw [threadInsts]
    by_cases htouches : data.effect.touchesMemory = true
    · rw [if_pos htouches]
      have hnext : (if data.effect.writesMemory then Version.result (b, k) else upTo f b v k) =
          upTo f b v (k + 1) := by rw [upTo, hwrite]
      rw [hnext]
      obtain ⟨hend, hmem⟩ := ih (k + 1) (Function.update memIn (b, k) (some (upTo f b v k))) hdrop' hlt
      refine ⟨hend, fun i => ?_⟩
      rw [hmem]
      by_cases hi : i = (b, k)
      · subst hi
        rw [if_neg (by dsimp only; omega), Function.update_self, if_pos ⟨rfl, le_rfl, by rw [htouch, htouches]⟩]
      · rw [Function.update_of_ne hi]
        refine if_congr ?_ rfl rfl
        constructor
        · exact fun hand => ⟨hand.1, by omega, hand.2.2⟩
        · intro hand
          have hne : i.2 ≠ k := fun heq => hi (Prod.ext hand.1 heq)
          exact ⟨hand.1, by omega, hand.2.2⟩
    · rw [if_neg htouches]
      have hwrites : f.writes (b, k) = false := by
        rw [hwrite]
        revert htouches
        cases data.effect <;> decide
      have hnext : upTo f b v k = upTo f b v (k + 1) := by rw [upTo, hwrites]; rfl
      rw [hnext]
      obtain ⟨hend, hmem⟩ := ih (k + 1) memIn hdrop' hlt
      refine ⟨hend, fun i => ?_⟩
      rw [hmem]
      refine if_congr ?_ rfl rfl
      constructor
      · exact fun hand => ⟨hand.1, by omega, hand.2.2⟩
      · intro hand
        have hne : i.2 ≠ k := by
          intro heq
          have : i = (b, k) := Prod.ext hand.1 heq
          rw [this, htouch] at hand
          exact htouches hand.2.2
        exact ⟨hand.1, by omega, hand.2.2⟩

/-! ## The walk down the tree -/

/-- The version that a block begins with when it is handed one. -/
def first (c : Chain) (b : ℕ) (incoming : Version) : Version := if b ∈ c.params then .param b else incoming

/-- The version a block is handed: the first one at the entry, and what its immediate dominator ends with
elsewhere. -/
def Handed (d : Doms) (c : Chain) (b : ℕ) (incoming : Version) : Prop :=
  (b = 0 ∧ incoming = .entry) ∨ ∃ a, d.immediateDominator b = some a ∧ c.ends a = some incoming

/-- A block that has been threaded with the version it is handed. -/
structure Threaded (f : Func) (d : Doms) (c : Chain) (b : ℕ) (incoming : Version) : Prop where
  handed : Handed d c b incoming
  ends : c.ends b = some (upTo f b (first c b incoming) (f.insts b).length)
  memIn : ∀ k, f.touches (b, k) → c.memIn (b, k) = some (upTo f b (first c b incoming) k)

/-- What the walk keeps. -/
structure Down (f : Func) (d : Doms) (c : Chain) (stack : List (ℕ × Version)) : Prop where
  threaded : ∀ b, c.ends b ≠ none → ∃ incoming, Threaded f d c b incoming
  child : ∀ b, c.ends b ≠ none → ∀ y ∈ d.children b, c.ends y ≠ none ∨ y ∈ stack.map Prod.fst
  waiting : ∀ x ∈ stack, x.1 ∈ d.rpo ∧ c.ends x.1 = none ∧ Handed d c x.1 x.2
  nodup : (stack.map Prod.fst).Nodup
  zero : c.ends 0 ≠ none ∨ 0 ∈ stack.map Prod.fst

section

variable {f : Func} {g : Cfg} {d : Doms} {c : Chain}

/-- One block threaded, with the version it is handed. -/
theorem threadBlock_spec (b : ℕ) (incoming : Version) : (threadBlock f c b incoming).2.params = c.params ∧
      (threadBlock f c b incoming).2.ends =
        Function.update c.ends b (some (threadBlock f c b incoming).1) ∧
      (threadBlock f c b incoming).1 = upTo f b (first c b incoming) (f.insts b).length ∧
      ∀ i, (threadBlock f c b incoming).2.memIn i =
        if i.1 = b ∧ f.touches i then some (upTo f b (first c b incoming) i.2) else c.memIn i := by
  obtain ⟨hend, hmem⟩ := threadInsts_spec (f := f) (b := b) (v := first c b incoming) (f.insts b) 0 c.memIn
    (List.drop_zero) (Nat.zero_le _)
  refine ⟨rfl, rfl, hend, fun i => (hmem i).trans (if_congr ?_ rfl rfl)⟩
  simp

theorem handed_update {b y : ℕ} {incoming v : Version} (hnew : c.ends b = none)
    (h : Handed d c y incoming) (c' : Chain) (hends : c'.ends = Function.update c.ends b (some v)) :
    Handed d c' y incoming := by
  refine h.imp id fun ⟨a, hdom, ha⟩ => ⟨a, hdom, ?_⟩
  have hne : a ≠ b := by
    rintro rfl
    rw [hnew] at ha
    exact absurd ha (by simp)
  rw [hends, Function.update_of_ne hne]
  exact ha

variable (h : d.Tree g)

include h

/-- The top of the stack is threaded and its children wait. -/
theorem Down.step {b : ℕ} {incoming : Version} {stack : List (ℕ × Version)}
    (hdown : Down f d c ((b, incoming) :: stack)) :
    Down f d (threadBlock f c b incoming).2
      (((d.children b).map fun child => (child, (threadBlock f c b incoming).1)).reverse ++ stack) := by
  obtain ⟨hparams, hends, hend, hmem⟩ := threadBlock_spec (f := f) (c := c) b incoming
  obtain ⟨hb, hnew, hhanded⟩ := hdown.waiting (b, incoming) (List.mem_cons_self)
  generalize threadBlock f c b incoming = r at hparams hends hend hmem ⊢
  obtain ⟨v, c'⟩ := r
  dsimp only at hparams hends hend hmem hb hnew hhanded ⊢
  have hfirst : ∀ x w, first c' x w = first c x w := fun x w => by rw [first, first, hparams]
  have hsome : ∀ x, c'.ends x ≠ none ↔ x = b ∨ c.ends x ≠ none := by
    intro x
    rw [hends]
    by_cases hx : x = b
    · rw [hx, Function.update_self]
      simp
    · rw [Function.update_of_ne hx]
      simp [hx]
  have hstack : (((d.children b).map fun child => (child, v)).reverse ++ stack).map Prod.fst =
      (d.children b).reverse ++ stack.map Prod.fst := by
    rw [List.map_append, List.map_reverse, List.map_map]
    congr 2
    exact List.map_id' _
  -- a child has been neither threaded nor put on the stack before its parent is threaded
  have hchild : ∀ y ∈ d.children b, y ∈ d.rpo ∧ d.immediateDominator y = some b :=
    fun y hy => ⟨(List.mem_filter.mp hy).1, of_decide_eq_true (List.mem_filter.mp hy).2⟩
  have hfresh : ∀ y ∈ d.children b, ∀ w, ¬ Handed d c y w := by
    rintro y hy w (⟨rfl, -⟩ | ⟨a, hdom, ha⟩)
    · have := (hchild 0 hy).2
      rw [h.immediateDominator_zero] at this
      exact absurd this (by simp)
    · obtain rfl : b = a := Option.some.inj ((hchild y hy).2.symm.trans hdom)
      rw [hnew] at ha
      exact absurd ha (by simp)
  constructor
  case threaded =>
    intro x hx
    by_cases hxb : x = b
    · subst hxb
      refine ⟨incoming, handed_update hnew hhanded c' hends, ?_, fun k hk => ?_⟩
      · rw [hends, Function.update_self, hfirst, hend]
      · rw [hmem, if_pos ⟨rfl, hk⟩, hfirst]
    · obtain ⟨w, hw⟩ := hdown.threaded x (((hsome x).mp hx).resolve_left hxb)
      refine ⟨w, handed_update hnew hw.handed c' hends, ?_, fun k hk => ?_⟩
      · rw [hends, Function.update_of_ne hxb, hfirst, hw.ends]
      · rw [hmem, if_neg (fun hand => hxb hand.1), hfirst, hw.memIn k hk]
  case child =>
    intro x hx y hy
    rw [hstack, List.mem_append, List.mem_reverse, hsome]
    rcases (hsome x).mp hx with rfl | hx
    · exact Or.inr (Or.inl hy)
    · rcases hdown.child x hx y hy with hy | hy
      · exact Or.inl (Or.inr hy)
      · rw [List.map_cons, List.mem_cons] at hy
        exact hy.elim (fun heq => Or.inl (Or.inl heq)) fun hy => Or.inr (Or.inr hy)
  case waiting =>
    intro x hx
    rw [List.mem_append, List.mem_reverse, List.mem_map] at hx
    rcases hx with ⟨y, hy, rfl⟩ | hx
    · obtain ⟨hymem, hdom⟩ := hchild y hy
      refine ⟨hymem, ?_, Or.inr ⟨b, hdom, by rw [hends, Function.update_self]⟩⟩
      by_contra hsomey
      rcases (hsome y).mp hsomey with rfl | hy'
      · have := h.immediateDominator_lt hymem hdom
        omega
      · obtain ⟨w, hw⟩ := hdown.threaded y hy'
        exact hfresh y hy w hw.handed
    · obtain ⟨hxmem, hxnew, hxhanded⟩ := hdown.waiting x (List.mem_cons_of_mem _ hx)
      refine ⟨hxmem, ?_, handed_update hnew hxhanded c' hends⟩
      rw [hends, Function.update_of_ne, hxnew]
      rintro heq
      have hnodup := hdown.nodup
      rw [List.map_cons, List.nodup_cons] at hnodup
      exact hnodup.1 (List.mem_map.mpr ⟨x, hx, heq⟩)
  case nodup =>
    have hnodup := hdown.nodup
    rw [List.map_cons, List.nodup_cons] at hnodup
    rw [hstack]
    refine List.nodup_append.mpr ⟨List.nodup_reverse.mpr (h.ordered.nodup.filter _), hnodup.2, ?_⟩
    rintro y hy z hz rfl
    rw [List.mem_reverse] at hy
    obtain ⟨x, hx, rfl⟩ := List.mem_map.mp hz
    exact hfresh x.1 hy x.2 (hdown.waiting x (List.mem_cons_of_mem _ hx)).2.2
  case zero =>
    rw [hstack, List.mem_append, hsome]
    rcases hdown.zero with hzero | hzero
    · exact Or.inl (Or.inr hzero)
    · rw [List.map_cons, List.mem_cons] at hzero
      exact hzero.elim (fun heq => Or.inl (Or.inl heq)) fun hmem => Or.inr (Or.inr hmem)

/-- The walk comes to every block. -/
theorem thread_spec (rounds : ℕ) : ∀ stack c, Down f d c stack →
    (d.rpo.filter fun b => c.ends b = none).length ≤ rounds →
    ∃ c', thread f d rounds stack c = some c' ∧ c'.params = c.params ∧
      ∀ b ∈ d.rpo, ∃ incoming, Threaded f d c' b incoming := by
  -- an empty stack is the end
  have hend : ∀ c, Down f d c [] → ∀ b ∈ d.rpo, c.ends b ≠ none := by
    intro c hdown b
    induction hr : d.rpo.idxOf b using Nat.strong_induction_on generalizing b with
    | _ r ih =>
      intro hb
      by_cases hzero : b = 0
      · rw [hzero]
        exact hdown.zero.resolve_right (List.not_mem_nil)
      · obtain ⟨a, ha, hdom⟩ := h.immediateDominator_pos hb hzero
        have hlt := h.immediateDominator_lt hb hdom
        have := ih (d.rpo.idxOf a) (by omega) a rfl ha
        refine (hdown.child a this b ?_).resolve_right (List.not_mem_nil)
        exact List.mem_filter.mpr ⟨hb, decide_eq_true hdom⟩
  induction rounds with
  | zero =>
    intro stack c hdown hle
    cases stack with
    | nil => exact ⟨c, by rw [thread], rfl, fun b hb => hdown.threaded b (hend c hdown b hb)⟩
    | cons x stack =>
      -- what waits has not been threaded
      obtain ⟨hx, hnew, -⟩ := hdown.waiting x (List.mem_cons_self)
      have hmem : x.1 ∈ d.rpo.filter fun b => c.ends b = none :=
        List.mem_filter.mpr ⟨hx, decide_eq_true hnew⟩
      have := List.length_pos_of_mem hmem
      omega
  | succ rounds ih =>
    intro stack c hdown hle
    cases stack with
    | nil => exact ⟨c, by rw [thread], rfl, fun b hb => hdown.threaded b (hend c hdown b hb)⟩
    | cons x stack =>
      obtain ⟨b, incoming⟩ := x
      obtain ⟨hb, hnew, -⟩ := hdown.waiting (b, incoming) (List.mem_cons_self)
      obtain ⟨hparams, hends, -⟩ := threadBlock_spec (f := f) (c := c) b incoming
      obtain ⟨c', hthread, hparams', hall⟩ := ih _ _ (hdown.step h) (by
        -- the block is one fewer to thread
        have hsub : (b :: d.rpo.filter fun y => (threadBlock f c b incoming).2.ends y = none).Subperm
            (d.rpo.filter fun y => c.ends y = none) := by
          rw [hends]
          refine List.Nodup.subperm (List.nodup_cons.mpr ⟨fun hmem => ?_, h.ordered.nodup.filter _⟩) ?_
          · have := of_decide_eq_true (List.mem_filter.mp hmem).2
            rw [Function.update_self] at this
            exact absurd this (by simp)
          · intro y hy
            rcases List.mem_cons.mp hy with rfl | hy
            · exact List.mem_filter.mpr ⟨hb, decide_eq_true hnew⟩
            · obtain ⟨hymem, hynew⟩ := List.mem_filter.mp hy
              have hynew := of_decide_eq_true hynew
              by_cases hyb : y = b
              · rw [hyb, Function.update_self] at hynew
                exact absurd hynew (by simp)
              · rw [Function.update_of_ne hyb] at hynew
                exact List.mem_filter.mpr ⟨hymem, decide_eq_true hynew⟩
        have := hsub.length_le
        rw [List.length_cons] at this
        omega)
      refine ⟨c', by rw [thread]; exact hthread, hparams'.trans hparams, hall⟩

end

/-! ## The chain -/

/-- A function that `build` has put on a chain, over the tree it found. -/
structure Built (f : Func) (d : Doms) (c : Chain) : Prop where
  tree : d.Tree f.cfg
  target : ∀ b, ∀ t ∈ f.targets b, 0 < t ∧ t < f.blocks.length
  all : ∀ b < f.blocks.length, b ∈ d.rpo
  closed : ∀ x, x ∈ defs f ∨ x ∈ c.params → ∀ y, Frontier f.cfg d x y → y ∈ c.params
  source : ∀ y ∈ c.params, ∃ x, (x ∈ defs f ∨ x ∈ c.params) ∧ Frontier f.cfg d x y
  threaded : ∀ b ∈ d.rpo, ∃ incoming, Threaded f d c b incoming

theorem mem_successors {b t : ℕ} : t ∈ f.cfg.successors b ↔ t ∈ f.targets b := by
  rw [Cfg.successors, List.mem_eraseDups, Func.cfg, Func.targets, List.getD_eq_getElem?_getD, List.getElem?_map]

theorem size_cfg (f : Func) : f.cfg.size = f.blocks.length := List.length_map _

/-- The construction ends. -/
theorem build_spec (hok : ∀ b, ∀ t ∈ f.targets b, 0 < t ∧ t < f.blocks.length) :
    ∃ r, build f = some r ∧ ∀ c ∈ r, ∃ d, Built f d c := by
  rw [build]
  by_cases hempty : f.blocks = []
  · exact ⟨none, by rw [if_pos hempty], by simp⟩
  rw [if_neg hempty]
  have hcfg : f.cfg.Ok := by
    refine ⟨?_, fun b t ht => ?_⟩
    · rw [size_cfg]
      exact List.length_pos_iff.mpr hempty
    · rw [size_cfg]
      exact hok b t (mem_successors.mp ht)
  obtain ⟨d, hnew, htree⟩ := Doms.new_spec hcfg
  rw [hnew, Option.bind_some]
  split
  · exact ⟨none, rfl, by simp⟩
  rename_i hall
  have hall := not_not.mp hall
  split
  · exact ⟨none, rfl, by simp⟩
  split
  · exact ⟨none, rfl, by simp⟩
  obtain ⟨joins, hjoins, hclosed, hsource⟩ := iteratedFrontier_spec htree
    (fun b hb => hall b (by rwa [size_cfg] at hb)) (defs f)
  rw [hjoins, Option.bind_some]
  -- before the walk nothing is threaded and the entry waits
  have hdown : Down f d ⟨joins, fun _ => none, fun _ => none⟩ [(0, .entry)] := by
    constructor
    case threaded => exact fun b hb => absurd rfl hb
    case child => exact fun b hb => absurd rfl hb
    case waiting =>
      intro x hx
      rw [List.mem_singleton.mp hx]
      exact ⟨htree.zero_mem, rfl, Or.inl ⟨rfl, rfl⟩⟩
    case nodup => exact List.nodup_singleton _
    case zero => exact Or.inr (List.mem_singleton.mpr rfl)
  obtain ⟨c, hthread, hparams, hthreaded⟩ := thread_spec htree f.blocks.length _ _ hdown (by
    have hle := List.length_filter_le (fun _ => true) d.rpo
    have hsub : d.rpo ⊆ List.range f.blocks.length := fun b hb =>
      List.mem_range.mpr (size_cfg f ▸ htree.ordered.lt b hb)
    have := (htree.ordered.nodup.subperm hsub).length_le
    rw [List.length_range] at this
    exact (List.length_filter_le _ _).trans this)
  refine ⟨some c, by rw [hthread]; rfl, fun c' hc' => ⟨d, ?_⟩⟩
  obtain rfl : c = c' := Option.some.inj hc'
  dsimp only at hparams
  exact ⟨htree, hok, hall, by rw [hparams]; exact hclosed, by rw [hparams]; exact hsource, hthreaded⟩

section

variable {f : Func} {d : Doms} {c : Chain}

variable {b : ℕ} {es : List Event}

theorem writesIn_of_writes {k : ℕ} (hwrites : f.writes (b, k)) : writesIn f b := by
  obtain ⟨data, hdata, hwrite⟩ := (Option.any_eq_true _ _).mp hwrites
  exact List.any_eq_true.mpr ⟨data, List.mem_of_getElem? hdata, hwrite⟩

/-- In a block that writes nothing the version stays. -/
theorem upTo_of_quiet (hquiet : ¬ writesIn f b) (v : Version) (k : ℕ) : upTo f b v k = v := by
  induction k with
  | zero => rfl
  | succ k ih => rw [upTo, if_neg fun hwrites => hquiet (writesIn_of_writes hwrites), ih]

/-- The block that a version is made in. -/
def madeIn : Version → ℕ
  | .entry => 0
  | .param b => b
  | .result i => i.1

/-- A block that writes ends with a version of its own. -/
theorem madeIn_upTo (hwrites : writesIn f b) (v : Version) : madeIn (upTo f b v (f.insts b).length) = b := by
  obtain ⟨data, hmem, hwrite⟩ := List.any_eq_true.mp hwrites
  obtain ⟨k, hk⟩ := List.mem_iff_getElem?.mp hmem
  have hklt := (List.getElem?_eq_some_iff.mp hk).1
  have hwrites : f.writes (b, k) := by
    rw [Func.writes, Func.inst, hk]
    exact hwrite
  -- after the write the version is one of the block's own
  have hafter : ∀ j, k < j → madeIn (upTo f b v j) = b := by
    intro j hj
    induction j with
    | zero => omega
    | succ j ih =>
      rw [upTo]
      split
      · rfl
      · rename_i hno
        have hne : k ≠ j := by
          rintro rfl
          exact hno hwrites
        exact ih (by omega)
  exact hafter _ hklt

theorem mem_defs (hb : b < f.blocks.length) : b ∈ defs f ↔ b = 0 ∨ writesIn f b := by
  rw [defs, List.mem_cons, List.mem_filter, List.mem_range, decide_eq_true_eq]
  tauto

variable (h : Built f d c)

include h

theorem Built.lt (hb : b ∈ d.rpo) : b < f.blocks.length := by
  rw [← size_cfg]
  exact h.tree.ordered.lt b hb

/-- A block that defines no version ends with the version that its immediate dominator ends with. -/
theorem Built.ends_up {x a : ℕ} (hx : x ∈ d.rpo) (hdom : d.immediateDominator x = some a)
    (hnot : ¬ (x ∈ defs f ∨ x ∈ c.params)) : c.ends x = c.ends a := by
  obtain ⟨incoming, hthreaded⟩ := h.threaded x hx
  have hquiet : ¬ writesIn f x := fun hwrites => hnot (Or.inl ((mem_defs (h.lt hx)).mpr (Or.inr hwrites)))
  rw [hthreaded.ends, upTo_of_quiet hquiet, first, if_neg fun hparam => hnot (Or.inr hparam)]
  rcases hthreaded.handed with ⟨rfl, -⟩ | ⟨a', hdom', ha⟩
  · exact absurd (Or.inl ((mem_defs (h.lt hx)).mpr (Or.inl rfl))) hnot
  · rw [Option.some.inj (hdom.symm.trans hdom'), ha]

/-- A block without a parameter is come to with the version that its immediate dominator ends with. -/
theorem Built.ends_pred {a p : ℕ} (hb : b ∈ d.rpo) (hparam : b ∉ c.params)
    (hdom : d.immediateDominator b = some a) (hp : p ∈ f.cfg.predecessors b) : c.ends p = c.ends a := by
  have hmem : ∀ q ∈ f.cfg.predecessors b, q ∈ d.rpo := fun q hq =>
    h.all q (size_cfg f ▸ List.mem_range.mp (List.mem_filter.mp hq).1)
  have hlt := h.tree.immediateDominator_lt hb hdom
  have hne : a ≠ b := by
    rintro rfl
    omega
  have habove : ∀ q ∈ f.cfg.predecessors b, d.Above q a := fun q hq =>
    h.tree.above_pred hb (ReflTransGen.single hdom) hne hq (hmem q hq)
  by_cases hfew : 2 ≤ (f.cfg.predecessors b).length
  · -- no block on the way up defines a version, since the join would be in its frontier
    have hquiet : ∀ x, Between d p a x → ¬ (x ∈ defs f ∨ x ∈ c.params) := fun x hx hdef =>
      hparam (h.closed x hdef b ⟨hb, hfew, a, hdom, p, hp, hx⟩)
    have hup : ∀ x, d.Above p x → d.Above x a → c.ends x = c.ends a := by
      intro x hpx hxa
      induction hxa using ReflTransGen.head_induction_on with
      | refl => rfl
      | @head x y hxy hrest ih =>
        have hxmem := h.tree.above_mem (hmem p hp) hpx
        have hlt' := h.tree.immediateDominator_lt hxmem hxy
        have hle := h.tree.above_le ((h.tree.immediateDominator_iff hxmem).mp hxy).1 hrest
        have hxa : x ≠ a := by
          rintro rfl
          omega
        rw [h.ends_up hxmem hxy (hquiet x ⟨hpx, ReflTransGen.head hxy hrest, hxa⟩)]
        exact ih (hpx.tail hxy)
    exact hup p ReflTransGen.refl (habove p hp)
  · -- the only way in is from the immediate dominator
    have hzero : b ≠ 0 := by
      rintro rfl
      rw [h.tree.immediateDominator_zero] at hdom
      exact absurd hdom (by simp)
    have honly : ∀ q ∈ f.cfg.predecessors b, q = p := by
      intro q hq
      have hlen : (f.cfg.predecessors b).length = 1 := by
        have := List.length_pos_of_mem hp
        omega
      obtain ⟨z, hz⟩ := List.length_eq_one_iff.mp hlen
      rw [hz, List.mem_singleton] at hp hq
      rw [hp, hq]
    have hbp : d.Above b p := h.tree.above_of_preds hb (hmem p hp) hzero fun q hq _ => by
      rw [honly q hq]
      exact ReflTransGen.refl
    have hpb : p ≠ b := by
      obtain ⟨q, hq, -, hqlt⟩ := h.tree.exists_pred hb hzero
      rw [honly q hq] at hqlt
      rintro rfl
      omega
    have hap := (Doms.above_cases hdom hbp).resolve_left (Ne.symm hpb)
    rw [h.tree.above_antisymm (hmem p hp) (habove p hp) hap]

/-- The version that a block ends with is made in the nearest block above it that defines one. -/
theorem Built.madeIn_ends {z : ℕ} (hz : z ∈ d.rpo) : ∃ v, c.ends z = some v ∧ d.Above z (madeIn v) ∧
    ∀ x, d.Above z x → x ∈ defs f ∨ x ∈ c.params → d.Above (madeIn v) x := by
  induction hr : d.rpo.idxOf z using Nat.strong_induction_on generalizing z with
  | _ r ih =>
    obtain ⟨incoming, hthreaded⟩ := h.threaded z hz
    by_cases hdef : z ∈ defs f ∨ z ∈ c.params
    · refine ⟨_, hthreaded.ends, ?_⟩
      suffices hmade : madeIn (upTo f z (first c z incoming) (f.insts z).length) = z by
        rw [hmade]
        exact ⟨ReflTransGen.refl, fun x hx _ => hx⟩
      by_cases hwrites : writesIn f z
      · exact madeIn_upTo hwrites _
      rw [upTo_of_quiet hwrites, first]
      split
      · rfl
      · rename_i hparam
        have hzero := ((mem_defs (h.lt hz)).mp (hdef.resolve_right hparam)).resolve_right hwrites
        rcases hthreaded.handed with ⟨-, hentry⟩ | ⟨a, hdom, -⟩
        · rw [hentry, hzero]
          rfl
        · rw [hzero, h.tree.immediateDominator_zero] at hdom
          exact absurd hdom (by simp)
    · have hzero : z ≠ 0 := fun heq => hdef (Or.inl ((mem_defs (h.lt hz)).mpr (Or.inl heq)))
      obtain ⟨a, ha, hdom⟩ := h.tree.immediateDominator_pos hz hzero
      have hlt := h.tree.immediateDominator_lt hz hdom
      obtain ⟨v, hv, habove, hnear⟩ := ih (d.rpo.idxOf a) (by omega) ha rfl
      refine ⟨v, by rw [h.ends_up hz hdom hdef, hv], ReflTransGen.head hdom habove, fun x hx hxdef => ?_⟩
      rcases Doms.above_cases hdom hx with rfl | hx
      · exact absurd hxdef hdef
      · exact hnear x hx hxdef

/-- A block with a parameter is come to from two blocks that end with different versions. -/
theorem Built.exists_ends_ne (hparam : b ∈ c.params) :
    ∃ p ∈ f.cfg.predecessors b, ∃ q ∈ f.cfg.predecessors b, c.ends p ≠ c.ends q := by
  obtain ⟨x, hx, hb, -, top, hdom, p, hp, hpx, hxtop, hne⟩ := h.source b hparam
  have hmem : ∀ q ∈ f.cfg.predecessors b, q ∈ d.rpo := fun q hq =>
    h.all q (size_cfg f ▸ List.mem_range.mp (List.mem_filter.mp hq).1)
  have hzero : b ≠ 0 := by
    rintro rfl
    rw [h.tree.immediateDominator_zero] at hdom
    exact absurd hdom (by simp)
  obtain ⟨v, hv, hpm, hnear⟩ := h.madeIn_ends (hmem p hp)
  refine ⟨p, hp, ?_⟩
  by_contra hsame
  push Not at hsame
  -- where the version is made would dominate the join
  have hall : ∀ q ∈ f.cfg.predecessors b, d.Above q (madeIn v) := by
    intro q hq
    obtain ⟨w, hw, hqm, -⟩ := h.madeIn_ends (hmem q hq)
    have hvw : some v = some w := by rw [← hv, ← hw, hsame q hq]
    rw [Option.some.inj hvw]
    exact hqm
  have hmx := hnear x hpx hx
  have hmmem := h.tree.above_mem (hmem p hp) hpm
  have hbm : d.Above b (madeIn v) := h.tree.above_of_preds hb hmmem hzero fun q hq _ => hall q hq
  rcases Doms.above_cases hdom hbm with heq | htm
  · obtain ⟨q, hq, hqmem, hqlt⟩ := h.tree.exists_pred hb hzero
    have := h.tree.above_le hqmem (heq ▸ hall q hq)
    omega
  · exact hne (h.tree.above_antisymm (h.tree.above_mem hmmem hmx) hxtop (htm.trans hmx))

omit h in
theorem mem_predecessors {p : ℕ} : p ∈ f.cfg.predecessors b ↔ b ∈ f.targets p := by
  rw [Cfg.mem_predecessors, mem_successors]

/-- The entry has no parameter, since nothing goes to it. -/
theorem Built.zero_notMem : 0 ∉ c.params := by
  intro hparam
  obtain ⟨p, hp, -⟩ := h.exists_ends_ne hparam
  exact absurd (h.target p 0 (mem_predecessors.mp hp)).1 (lt_irrefl 0)

/-- A path is in a block, with the version that the block has there. -/
theorem Built.reach_eq : ∀ es e, f.Path (es ++ [e]) → e.place.1 ∈ d.rpo ∧ e.place.2 ≤ (f.insts e.place.1).length ∧
    ∃ incoming, Threaded f d c e.place.1 incoming ∧
      c.reach f (es ++ [e]) = upTo f e.place.1 (first c e.place.1 incoming) e.place.2 := by
  refine Func.Path.induction ?_ ?_
  · obtain ⟨incoming, hthreaded⟩ := h.threaded 0 h.tree.zero_mem
    refine ⟨h.tree.zero_mem, Nat.zero_le _, incoming, hthreaded, ?_⟩
    rcases hthreaded.handed with ⟨-, rfl⟩ | ⟨a, hdom, -⟩
    · rfl
    · rw [h.tree.immediateDominator_zero] at hdom
      exact absurd hdom (by simp)
  · rintro es e e' hpath hnext ⟨hmem, hle, incoming, hthreaded, hreach⟩
    rcases hnext with ⟨hlt, rfl⟩ | ⟨hend, t, ht, rfl⟩
    · -- the next instruction of the block
      refine ⟨hmem, hlt, incoming, hthreaded, ?_⟩
      rw [Chain.reach_snoc, hreach]
      rfl
    · -- another block
      have htmem : t ∈ d.rpo := h.all t (h.target _ t ht).2
      obtain ⟨incoming', hthreaded'⟩ := h.threaded t htmem
      refine ⟨htmem, Nat.zero_le _, incoming', hthreaded', ?_⟩
      rw [Chain.reach_snoc, hreach, hend]
      change (if t ∈ c.params then Version.param t else _) = upTo f t (first c t incoming') 0
      rw [upTo]
      by_cases hparam : t ∈ c.params
      · rw [if_pos hparam, first, if_pos hparam]
      have hfirst : first c t incoming' = incoming' := by rw [first, if_neg hparam]
      rw [if_neg hparam, hfirst]
      rcases hthreaded'.handed with ⟨rfl, -⟩ | ⟨a, hdom, ha⟩
      · exact absurd (h.target _ 0 ht).1 (lt_irrefl 0)
      · have hends := h.ends_pred htmem hparam hdom (mem_predecessors.mpr ht)
        rw [hthreaded.ends, ha] at hends
        exact Option.some.inj hends

/-- A path to the end of a block has the version that the block ends with. -/
theorem Built.reach_end {e : Event} (hpath : f.Path (es ++ [e]))
    (hplace : e.place = (b, (f.insts b).length)) : c.ends b = some (c.reach f (es ++ [e])) := by
  obtain ⟨-, -, incoming, hthreaded, hreach⟩ := h.reach_eq es e hpath
  rw [hreach, hplace]
  rw [hplace] at hthreaded
  exact hthreaded.ends

omit h in
/-- A path into a block goes on through it. -/
theorem path_through {es : List Event} {b : ℕ} (hpath : f.Path (es ++ [.enter b])) (k : ℕ)
    (hk : k ≤ (f.insts b).length) : ∃ es e, f.Path (es ++ [e]) ∧ e.place = (b, k) := by
  induction k with
  | zero => exact ⟨es, .enter b, hpath, rfl⟩
  | succ k ih =>
    obtain ⟨es', e', hpath', hplace⟩ := ih (by omega)
    refine ⟨es' ++ [e'], .exec (b, k), ?_, rfl⟩
    rw [List.append_assoc]
    exact Func.path_snoc.mpr ⟨hpath', Or.inl ⟨by rw [hplace]; exact hk, by rw [hplace]⟩⟩

/-- There is a path to the end of every block. -/
theorem Built.exists_path (hb : b ∈ d.rpo) : ∃ es e, f.Path (es ++ [e]) ∧ e.place = (b, (f.insts b).length) := by
  induction hr : d.rpo.idxOf b using Nat.strong_induction_on generalizing b with
  | _ r ih =>
    by_cases hzero : b = 0
    · subst hzero
      exact @path_through f [] 0 Func.path_start _ le_rfl
    · obtain ⟨p, hp, hpmem, hlt⟩ := h.tree.exists_pred hb hzero
      obtain ⟨es, e, hpath, hplace⟩ := ih _ (by omega) hpmem rfl
      have hnext : f.Next e (.enter b) := Or.inr ⟨by rw [hplace], b, by rw [hplace]; exact mem_predecessors.mp hp, rfl⟩
      refine @path_through f (es ++ [e]) b ?_ _ le_rfl
      rw [List.append_assoc]
      exact Func.path_snoc.mpr ⟨hpath, hnext⟩

omit h in
/-- A path into a block is the start or comes from the end of a block that names it. -/
theorem path_enter (hpath : f.Path (es ++ [.enter b])) : (es = [] ∧ b = 0) ∨
    ∃ es' e p, es = es' ++ [e] ∧ f.Path (es' ++ [e]) ∧ e.place = (p, (f.insts p).length) ∧ b ∈ f.targets p := by
  rcases hpath.cases with ⟨rfl, heq⟩ | ⟨es', e, rfl, hpath', hnext⟩
  · exact Or.inl ⟨rfl, Event.enter.inj heq⟩
  · rcases hnext with ⟨-, heq⟩ | ⟨hend, t, ht, heq⟩
    · exact absurd heq (by simp)
    · obtain rfl : b = t := Event.enter.inj heq
      exact Or.inr ⟨es', e, e.place.1, rfl, hpath', Prod.ext rfl hend, ht⟩

end

/-- A chain that says what every path carries: an instruction takes the version that comes to it, an edge
into a block with a parameter passes on the version that its path has, and the blocks with a parameter
are the ones that two paths come to with different versions. -/
structure Carries (f : Func) (c : Chain) : Prop where
  zero : 0 ∉ c.params
  memIn : ∀ es i, f.Path (es ++ [.exec i]) → f.touches i → c.memIn i = some (c.reach f es)
  ways : ∀ es b, f.Path (es ++ [.enter b]) → b ∈ c.params → some (c.reach f es) ∈ ways f c b
  params : ∀ b, b ∈ c.params ↔ ∃ es es', f.Path (es ++ [.enter b]) ∧ f.Path (es' ++ [.enter b]) ∧
    c.reach f es ≠ c.reach f es'

/-- What the construction gives is such a chain. -/
theorem Built.carries {d : Doms} {c : Chain} (h : Built f d c) : Carries f c := by
  constructor
  case zero => exact h.zero_notMem
  case memIn =>
    intro es i hpath htouches
    rcases hpath.cases with ⟨-, heq⟩ | ⟨es', e, rfl, hpath', hnext⟩
    · exact absurd heq (by simp)
    obtain ⟨-, -, incoming, hthreaded, hreach⟩ := h.reach_eq es' e hpath'
    rcases hnext with ⟨-, heq⟩ | ⟨-, t, -, heq⟩
    · obtain rfl : i = e.place := Event.exec.inj heq
      rw [hreach]
      exact hthreaded.memIn _ htouches
    · exact absurd heq (by simp)
  case ways =>
    intro es b hpath hparam
    rcases path_enter hpath with ⟨rfl, rfl⟩ | ⟨es', e, p, rfl, hpath', hplace, ht⟩
    · exact absurd hparam h.zero_notMem
    · rw [MemSsa.ways, List.mem_flatMap]
      refine ⟨p, mem_predecessors.mpr ht, List.mem_map.mpr ⟨b, ?_, h.reach_end hpath' hplace⟩⟩
      exact List.mem_filter.mpr ⟨ht, decide_eq_true rfl⟩
  case params =>
    intro b
    constructor
    · intro hparam
      obtain ⟨p, hp, q, hq, hne⟩ := h.exists_ends_ne hparam
      have hway : ∀ p ∈ f.cfg.predecessors b, ∃ es, f.Path (es ++ [.enter b]) ∧ c.ends p = some (c.reach f es) := by
        intro p hp
        have hpmem := h.all p (size_cfg f ▸ List.mem_range.mp (List.mem_filter.mp hp).1)
        obtain ⟨es, e, hpath, hplace⟩ := h.exists_path hpmem
        refine ⟨es ++ [e], ?_, h.reach_end hpath hplace⟩
        rw [List.append_assoc]
        refine Func.path_snoc.mpr ⟨hpath, Or.inr ⟨by rw [hplace], b, ?_, rfl⟩⟩
        rw [hplace]
        exact mem_predecessors.mp hp
      obtain ⟨es, hpath, hes⟩ := hway p hp
      obtain ⟨es', hpath', hes'⟩ := hway q hq
      refine ⟨es, es', hpath, hpath', fun heq => hne ?_⟩
      rw [hes, hes', heq]
    · rintro ⟨es, es', hpath, hpath', hne⟩
      by_contra hparam
      refine hne ?_
      -- both paths have the version of the immediate dominator's end
      rcases path_enter hpath with ⟨rfl, rfl⟩ | ⟨es, e, p, rfl, hpath, hplace, ht⟩
      · rcases path_enter hpath' with ⟨rfl, -⟩ | ⟨-, -, p, -, -, -, ht⟩
        · rfl
        · exact absurd (h.target p 0 ht).1 (lt_irrefl 0)
      rcases path_enter hpath' with ⟨rfl, rfl⟩ | ⟨es', e', p', rfl, hpath', hplace', ht'⟩
      · exact absurd (h.target p 0 ht).1 (lt_irrefl 0)
      have hb := h.all b (h.target p b ht).2
      obtain ⟨a, -, hdom⟩ := h.tree.immediateDominator_pos hb (by have := (h.target p b ht).1; omega)
      have hends := (h.ends_pred hb hparam hdom (mem_predecessors.mpr ht)).trans
        (h.ends_pred hb hparam hdom (mem_predecessors.mpr ht')).symm
      rw [h.reach_end hpath hplace, h.reach_end hpath' hplace'] at hends
      exact Option.some.inj hends

end MemSsa

end Rucc.Opt
