import Rucc.SafeRt.Sync

/-!
# Threads under the race detector

The parts of `check.rs`, `alloc.rs`, `epoch.rs` and `sync.rs` that the race detector is made of, run by any
number of threads. What a thread does is a row of small steps, each one operation on a table, a clock or a
plane, and the steps of different threads come in any order. `Run` is a run so far with its steps in a list,
and `Before` is the order that the program and the primitives it executed put on them.
-/

namespace Rucc.SafeRt.Races

open Epoch Sync

/-! ## The world -/

/-- The numbers handed out so far, and the clock of each thread that has one, as the stamp it would write. -/
structure Clocks where
  numbers : ℕ
  slot : ℕ → Stamp

namespace Clocks

/-- Writes a clock back as a thread's. -/
def keep (c : Clocks) (t : ℕ) (own : Clock) : Clocks := { c with slot := Function.update c.slot t own.now }

/-- A thread's clock, made on first use. In a process with nowhere to keep one there is none. -/
def mine (c : Clocks) (keyless : Bool) (t : ℕ) : Option (Clock × Clocks) :=
  if keyless then none
  else if c.slot t ≠ NONE then some (⟨thread (c.slot t), clock (c.slot t)⟩, c)
  else
    let fresh := Clock.new (Threads.next c.numbers).1
    some (fresh, { c with numbers := (Threads.next c.numbers).2 }.keep t fresh)

/-- The stamp a thread stands at. -/
def here (c : Clocks) (keyless : Bool) (t : ℕ) : Stamp × Clocks :=
  match c.mine keyless t with
  | none => (NONE, c)
  | some (own, c) => (own.now, c)

/-- The stamp a thread should write for a store it is making. -/
def tick (c : Clocks) (keyless : Bool) (t : ℕ) : Stamp × Clocks :=
  match c.mine keyless t with
  | none => (NONE, c)
  | some (own, c) => (own.tick.1, c.keep t own.tick.2)

/-- Takes the ordering that a stamp carries, for one thread. -/
def sync (c : Clocks) (keyless : Bool) (t : ℕ) (seen : Stamp) : Clocks :=
  match c.mine keyless t with
  | none => c
  | some (own, c) => c.keep t (own.sync seen)

end Clocks

/-- A watched region. -/
structure Region where
  base : ℕ
  stop : ℕ

/-- Where a thread is in its life. A thread that is finished has returned from a start routine that was run for
it here, or ended in some other way, and it is gone once it is joined or if nobody may join it. -/
inductive Status
  | unborn | running | finished (returned : Bool) | gone
  deriving DecidableEq

/-- How many threads can be starting at once and still be handed an edge. -/
def BIRTHS : ℕ := 64

/-- One step of a thread. The steps with a stamp or a slot in them are what an earlier step left to do. -/
inductive Micro
  | raced (addr size : ℕ)
  | walk (addr len : ℕ)
  | stamped (addr size : ℕ)
  | begin_ (payload block : ℕ)
  | end_ (payload : ℕ)
  | over_ (payload block : ℕ)
  | fill (addr len : ℕ) (stamp : Stamp)
  | released (key : ℕ)
  | acquired (key : ℕ)
  | publishedEverywhere
  | takenEverywhere
  | create (child id : ℕ)
  | createFails
  | giveBack (slot : ℕ)
  | born (slot : Option ℕ)
  | exited
  | quit
  | joined (child : ℕ)
  | sync (seen : Stamp)
  deriving DecidableEq

structure World where
  keyless : Bool
  regions : List Region
  clocks : Clocks
  published : Table
  exits : Table
  /-- Every release fence, as one clock. -/
  fenced : ℕ
  /-- The stamp in each birth slot that is taken. -/
  births : ℕ → Option Stamp
  epochs : ℕ → Stamp
  /-- How many threads there have been. A thread is its place in that count. -/
  threads : ℕ
  /-- The size of the block of each live instance, by its payload. -/
  heap : ℕ → Option ℕ
  /-- Whether a live instance owns the granule. -/
  owned : ℕ → Bool
  status : ℕ → Status
  /-- What each thread answers to. -/
  id : ℕ → ℕ
  /-- Whether the thread runs inside the start routine of this runtime. -/
  tracked : ℕ → Bool
  todo : ℕ → List Micro

namespace World

/-- The process as it starts, with one thread. -/
def new (keyless : Bool) : World where
  keyless := keyless
  regions := []
  clocks := ⟨1, fun _ => NONE⟩
  published := Table.new
  exits := Table.new
  fenced := 0
  births := fun _ => none
  epochs := fun _ => NONE
  threads := 1
  heap := fun _ => none
  owned := fun _ => false
  status := fun t => if t = 0 then .running else .unborn
  id := fun _ => 1
  tracked := fun _ => false
  todo := fun _ => []

/-- The region that holds an address. -/
def covering (w : World) (addr : ℕ) : Option Region := w.regions.find? fun r => r.base ≤ addr ∧ addr < r.stop

/-- How many of the bytes from an address on are inside the region. -/
def clipped (r : Region) (addr size : ℕ) : ℕ := min size (r.stop - addr)

/-- The thread does this next. -/
def next (w : World) (t : ℕ) (m : Micro) : World := { w with todo := Function.update w.todo t (m :: w.todo t) }

/-- The birth slot that a creator would claim. -/
def freeBirth (w : World) : Option ℕ := (List.range BIRTHS).find? fun slot => (w.births slot).isNone

/-- Whether some thread that is not gone answers to a number. -/
def named (w : World) (id : ℕ) : Bool := (List.range w.threads).any fun t => w.id t = id && w.status t ≠ .gone

/-- Whether no live instance owns a granule of the bytes. -/
def vacant (w : World) (addr len : ℕ) : Bool :=
  (List.range (Epoch.granules addr len)).all fun i => !w.owned (addr / EPOCH_GRANULE + i)

/-! ## Steps -/

/-- The world after one step of a thread, and nothing where the step cannot be made yet. -/
def exec (w : World) (t : ℕ) : Micro → Option World
  -- judgement J9, which passes storage that nobody owns and leaves the walk over the plane to do
  | .raced addr size =>
    match w.covering addr with
    | none => some w
    | some r => some (if w.owned (addr / EPOCH_GRANULE) then w.next t (.walk addr (clipped r addr size)) else w)
  | .walk _ _ => some { w with clocks := (w.clocks.here w.keyless t).2 }
  | .stamped addr size =>
    match w.covering addr with
    | none => some w
    | some r =>
      let (stamp, clocks) := w.clocks.tick w.keyless t
      let w := { w with clocks := clocks }
      some (if stamp = NONE then w else w.next t (.fill addr (clipped r addr size) stamp))
  | .begin_ payload block =>
    if w.vacant payload block then
      let w := { w with
        heap := Function.update w.heap payload (some block)
        owned := fun granule => if touches payload block granule then true else w.owned granule }
      -- a fresh instance forgets the stamps of whoever wrote these bytes before
      match w.covering payload with
      | none => some w
      | some r => some (w.next t (.fill payload (clipped r payload block) NONE))
    else none
  | .end_ payload =>
    match w.heap payload with
    | none => some w
    | some block =>
      let w := { w with
        heap := Function.update w.heap payload none
        owned := fun granule => if touches payload block granule then false else w.owned granule }
      some (w.next t (.over_ payload block))
  | .over_ payload block =>
    match w.covering payload with
    | none => some w
    | some r =>
      let (stamp, clocks) := w.clocks.tick w.keyless t
      let w := { w with clocks := clocks }
      some (if stamp = NONE then w else w.next t (.fill payload (clipped r payload block) stamp))
  | .fill addr len stamp => some { w with epochs := Epoch.fill w.epochs addr len stamp }
  | .released key =>
    if key = 0 then some w
    else
      let (stamp, clocks) := w.clocks.here w.keyless t
      let w := { w with clocks := clocks }
      some (if stamp = NONE then w else { w with published := w.published.publish key stamp })
  | .acquired key => some (if key = 0 then w else w.next t (.sync (w.published.published key)))
  | .publishedEverywhere =>
    let (stamp, clocks) := w.clocks.here w.keyless t
    let w := { w with clocks := clocks }
    some (if stamp = NONE then w else { w with fenced := max w.fenced (clock stamp) })
  | .takenEverywhere => some (if w.fenced = 0 then w else w.next t (.sync (stamp 0 w.fenced)))
  -- a thread that finds no birth slot is the program's own and has no edge
  | .create child id =>
    if child = w.threads ∧ id ≠ 0 ∧ w.named id = false then
      let (stamp, clocks) := w.clocks.here w.keyless t
      let slot := w.freeBirth
      some { w with
        clocks := clocks
        births := match slot with
          | some slot => Function.update w.births slot (some stamp)
          | none => w.births
        threads := w.threads + 1
        status := Function.update w.status child .running
        id := Function.update w.id child id
        tracked := Function.update w.tracked child slot.isSome
        todo := Function.update w.todo child [.born slot] }
    else none
  | .createFails =>
    let (stamp, clocks) := w.clocks.here w.keyless t
    let w := { w with clocks := clocks }
    match w.freeBirth with
    | none => some w
    | some slot => some ({ w with births := Function.update w.births slot (some stamp) }.next t (.giveBack slot))
  | .giveBack slot => some { w with births := Function.update w.births slot none }
  | .born none => some w
  | .born (some slot) =>
    match w.births slot with
    | none => none
    | some stamp => some ({ w with births := Function.update w.births slot none }.next t (.sync stamp))
  | .exited =>
    if w.tracked t then
      let (stamp, clocks) := w.clocks.here w.keyless t
      let w := { w with clocks := clocks, status := Function.update w.status t (.finished true) }
      some (if w.id t = 0 ∨ stamp = NONE then w else { w with exits := w.exits.publish (w.id t) stamp })
    else none
  | .quit => some { w with status := Function.update w.status t (.finished false) }
  | .joined child =>
    match w.status child with
    | .finished _ =>
      let w := { w with status := Function.update w.status child .gone }
      some (if w.id child = 0 then w else w.next t (.sync (w.exits.published (w.id child))))
    | _ => none
  | .sync seen => some { w with clocks := w.clocks.sync w.keyless t seen }

/-- What the walk of a thread over the plane finds. -/
def found (w : World) (t addr len : ℕ) : Stamp :=
  let mine := (w.clocks.here w.keyless t).1
  if mine = NONE then NONE else stranger w.epochs addr len mine

/-- The next step of a thread, taken off what it has left to do. -/
def step (w : World) (t : ℕ) : Option (Micro × World) :=
  match w.status t, w.todo t with
  | .running, m :: rest => ({ w with todo := Function.update w.todo t rest }.exec t m).map fun w => (m, w)
  | _, _ => none

end World

/-! ## What threads do -/

/-- An operation of the program, as far as the race detector sees it. A lock is taken by a mutex, a reader-writer
lock, a semaphore or an atomic that acquires, and given up by one that releases. -/
inductive Op
  | store (addr size : ℕ)
  | load (addr size : ℕ)
  | malloc (payload block : ℕ)
  | free (payload : ℕ)
  | lock (key : ℕ)
  | unlock (key : ℕ)
  | wait (key : ℕ)
  | fenceRelease
  | fenceAcquire
  | create (child id : ℕ)
  | createFails
  | join (child : ℕ)
  | return_
  | quit

/-- The steps of an operation. -/
def Op.micros : Op → List Micro
  | store addr size => [.raced addr size, .stamped addr size]
  | load addr size => [.raced addr size]
  | malloc payload block => [.begin_ payload block]
  | free payload => [.end_ payload]
  | lock key => [.acquired key]
  | unlock key => [.released key]
  | wait key => [.released key, .acquired key]
  | fenceRelease => [.publishedEverywhere]
  | fenceAcquire => [.takenEverywhere]
  | create child id => [.create child id]
  | createFails => [.createFails]
  | join child => [.joined child]
  | return_ => [.exited]
  | quit => [.quit]

/-- A thread with nothing left to do begins an operation, a region is watched from now on, or a thread that
nobody may join is gone. -/
inductive Turn
  | start (t : ℕ) (op : Op)
  | watch (r : Region)
  | reap (t : ℕ)

def World.turn (w : World) : Turn → Option World
  | .start t op =>
    match w.status t, w.todo t with
    | .running, [] => some { w with todo := Function.update w.todo t op.micros }
    | _, _ => none
  | .watch r => some { w with regions := w.regions ++ [r] }
  | .reap t =>
    match w.status t with
    | .finished _ => some { w with status := Function.update w.status t .gone }
    | _ => none

/-! ## Runs -/

/-- A step that was made, and the clock of its thread once it was. -/
structure Event where
  thread : ℕ
  micro : Micro
  time : ℕ
  deriving DecidableEq

/-- The runs whose steps are all allowed, with their steps in order. -/
inductive Run (keyless : Bool) (allowed : World → ℕ → Micro → Prop) : List Event → World → Prop
  | init : Run keyless allowed [] (World.new keyless)
  | turn {events : List Event} {w w' : World} (h : Run keyless allowed events w) (turn : Turn)
      (hturn : w.turn turn = some w') : Run keyless allowed events w'
  | step {events : List Event} {w w' : World} (h : Run keyless allowed events w) (t : ℕ) (m : Micro)
      (hallowed : allowed w t m) (hstep : w.step t = some (m, w')) :
      Run keyless allowed (events ++ [⟨t, m, clock (w'.clocks.slot t)⟩]) w'

/-- Whether one step hands an ordering to whoever makes another one and then takes it. -/
def Hands (e look : Event) : Prop :=
  match e.micro, look.micro with
  | .released key, .acquired key' => key = key' ∧ key ≠ 0
  | .publishedEverywhere, .takenEverywhere => True
  | .create child _, .born (some _) => look.thread = child
  | .exited, .joined child => e.thread = child
  | .quit, .joined child => e.thread = child
  | _, _ => False

/-- One step of a run comes before another one directly: in one thread, or handed from one thread to another. -/
inductive Link (events : List Event) : ℕ → ℕ → Prop
  | program {i j : ℕ} {e e' : Event} (hi : events[i]? = some e) (hj : events[j]? = some e') (hlt : i < j)
      (hthread : e.thread = e'.thread) : Link events i j
  -- the step that takes what was handed is the next one of the thread that looked
  | handed {i l j : ℕ} {e look e' : Event} {seen : Stamp} (hi : events[i]? = some e) (hl : events[l]? = some look)
      (hj : events[j]? = some e') (hil : i < l) (hlj : l < j) (hhands : Hands e look)
      (hthread : look.thread = e'.thread) (hnext : ∀ m d, l < m → m < j → events[m]? = some d → d.thread ≠ e'.thread)
      (htake : e'.micro = .sync seen) : Link events i j
  -- a thread without a birth slot
  | born {i j id : ℕ} {e e' : Event} (hi : events[i]? = some e) (hj : events[j]? = some e') (hlt : i < j)
      (hcreate : e.micro = .create e'.thread id) (hborn : e'.micro = .born none) : Link events i j

/-- One step of a run happens before another one. -/
def Before (events : List Event) : ℕ → ℕ → Prop := Relation.TransGen (Link events)

/-- Whether a step writes a granule of the plane. -/
def Event.writes (e : Event) (granule : ℕ) : Prop := ∃ addr len stamp, e.micro = .fill addr len stamp ∧ touches addr len granule

instance (e : Event) (granule : ℕ) : Decidable (e.writes granule) :=
  match h : e.micro with
  | .fill addr len stamp => decidable_of_iff (touches addr len granule)
      ⟨fun htouches => ⟨addr, len, stamp, h, htouches⟩, fun ⟨_, _, _, hfill, htouches⟩ => by
        obtain ⟨rfl, rfl, rfl⟩ := Micro.fill.inj (h.symm.trans hfill)
        exact htouches⟩
  | .raced _ _ | .walk _ _ | .stamped _ _ | .begin_ _ _ | .end_ _ | .over_ _ _ | .released _ | .acquired _
  | .publishedEverywhere | .takenEverywhere | .create _ _ | .createFails | .giveBack _ | .born _ | .exited | .quit
  | .joined _ | .sync _ => isFalse fun ⟨_, _, _, hfill, _⟩ => by simp [h] at hfill

/-- The step is the last one that wrote the granule. -/
def Left (events : List Event) (granule i : ℕ) : Prop :=
  (∃ e, events[i]? = some e ∧ e.writes granule) ∧ ∀ j e, i < j → events[j]? = some e → ¬ e.writes granule

/-- What a walk over the plane reports was left there by a step, and no step that left it comes before the walk. -/
def Honest (events : List Event) (w : World) : Prop :=
  ∀ t addr len w', w.step t = some (.walk addr len, w') → w.found t addr len ≠ NONE →
    (∃ granule, touches addr len granule ∧ w.epochs granule = w.found t addr len) ∧
      ∀ granule, touches addr len granule → w.epochs granule = w.found t addr len →
        ∃ i, Left events granule i ∧
          ¬ Before (events ++ [⟨t, .walk addr len, clock (w'.clocks.slot t)⟩]) i events.length

/-- Whether a step loses no ordering. A publication under a key has a cell, which is its own or free, and does
not lower the clock in it. A new thread has a birth slot, a thread that ends has a cell for its clock, and a
thread that is joined has published one. No stamp has the largest clock, which nothing gets past. -/
def Keeps (w : World) (t : ℕ) : Micro → Prop
  | .stamped _ _ | .over_ _ _ => clock (w.clocks.slot t) + 1 ≠ CLOCKS
  | .released key => key = 0 ∨ (w.published.cellOf key).isSome = true ∧
      clock (w.published.published key) ≤ clock (w.clocks.here w.keyless t).1
  | .create _ _ => w.freeBirth.isSome = true
  | .exited => (w.exits.cellOf (w.id t)).isSome = true
  | .joined child => w.status child ≠ .finished false
  | _ => True

instance (w : World) (t : ℕ) : DecidablePred (Keeps w t)
  | .stamped _ _ | .over_ _ _ => inferInstanceAs (Decidable (_ ≠ _))
  | .released _ => inferInstanceAs (Decidable (_ ∨ _))
  | .create _ _ | .exited => inferInstanceAs (Decidable (_ = true))
  | .joined _ => inferInstanceAs (Decidable (_ ≠ _))
  | .raced _ _ | .walk _ _ | .begin_ _ _ | .end_ _ | .fill _ _ _ | .acquired _ | .publishedEverywhere
  | .takenEverywhere | .createFails | .giveBack _ | .born _ | .quit | .sync _ => inferInstanceAs (Decidable True)

/-- The steps and the world that turns and steps of threads lead to, as long as each can be made and is allowed. -/
def play (allowed : World → ℕ → Micro → Prop) [∀ w t, DecidablePred (allowed w t)] :
    List Event → World → List (Turn ⊕ ℕ) → Option (List Event × World)
  | events, w, [] => some (events, w)
  | events, w, .inl turn :: rest => (w.turn turn).bind fun w => play allowed events w rest
  | events, w, .inr t :: rest => (w.step t).bind fun (m, w') =>
    if allowed w t m then play allowed (events ++ [⟨t, m, clock (w'.clocks.slot t)⟩]) w' rest else none

theorem Run.play {keyless : Bool} {allowed : World → ℕ → Micro → Prop} [∀ w t, DecidablePred (allowed w t)]
    {moves : List (Turn ⊕ ℕ)} {events : List Event} {w : World} {run : List Event × World}
    (h : Run keyless allowed events w) (hplay : play allowed events w moves = some run) :
    Run keyless allowed run.1 run.2 := by
  induction moves generalizing events w with
  | nil =>
    obtain rfl := Option.some.inj hplay
    exact h
  | cons move rest ih =>
    cases move with
    | inl turn =>
      obtain ⟨w'', hturn, hrest⟩ := Option.bind_eq_some_iff.1 hplay
      exact ih (h.turn turn hturn) hrest
    | inr t =>
      obtain ⟨⟨m, w''⟩, hstep, hrest⟩ := Option.bind_eq_some_iff.1 hplay
      dsimp only at hrest
      split at hrest
      · rename_i hallowed
        exact ih (h.step t m hallowed hstep) hrest
      · exact absurd hrest (by simp)

end Rucc.SafeRt.Races
