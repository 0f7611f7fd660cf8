import Mathlib.Tactic

/-!
# The epoch plane

The stamps of `epoch.rs`: which thread last wrote a word, and when in its own counting. A stamp is a thread
number above a Lamport clock in one word, and zero is the stamp of a word that nothing has been seen to write.
The plane is a stamp for each granule of eight bytes.
-/

namespace Rucc.SafeRt.Epoch

/-- A thread number and that thread's own count, in 64 bits. -/
abbrev Stamp := ℕ

/-- The stamp of a word nothing has been seen to write. -/
def NONE : Stamp := 0

/-- How many bits of a stamp are the clock. -/
def CLOCK_BITS : ℕ := 48

/-- The largest clock a thread can reach. -/
def CLOCKS : ℕ := 2^CLOCK_BITS - 1

/-- How many threads can be told apart at once. -/
def THREADS : ℕ := 2^(64 - CLOCK_BITS) - 1

/-- A stamp saying that a thread wrote this at its own clock. -/
def stamp (thread clock : ℕ) : Stamp := min thread THREADS * 2^CLOCK_BITS + min clock CLOCKS

/-- Which thread a stamp says wrote the word. -/
def thread (of : Stamp) : ℕ := of / 2^CLOCK_BITS

/-- What that thread's clock was when it did. -/
def clock (of : Stamp) : ℕ := of % 2^CLOCK_BITS

/-- Whether nothing a reader has done orders what was found. -/
def unordered (found mine : Stamp) : Bool := found ≠ NONE && thread found ≠ thread mine && clock mine ≤ clock found

/-- The next thread number and the source after it. Every thread past the last number gets that number. -/
def Threads.next (numbers : ℕ) : ℕ × ℕ := if THREADS < numbers then (THREADS, THREADS + 1) else (numbers, numbers + 1)

/-- One thread's Lamport clock, and the number it stamps with. -/
structure Clock where
  thread : ℕ
  count : ℕ
  deriving DecidableEq

namespace Clock

/-- A clock at the start of its counting. -/
def new (thread : ℕ) : Clock := ⟨thread, 1⟩

/-- The stamp this thread would write without counting anything. -/
def now (c : Clock) : Stamp := stamp c.thread c.count

/-- The stamp to write, counting this store, or nothing once the counting has stopped. -/
def tick (c : Clock) : Stamp × Clock :=
  if CLOCKS ≤ c.count then (NONE, c) else (stamp c.thread (c.count + 1), { c with count := c.count + 1 })

/-- Takes the ordering an acquired lock carries. -/
def sync (c : Clock) (seen : Stamp) : Clock :=
  if seen = NONE then c else { c with count := min (max c.count (clock seen + 1)) CLOCKS }

end Clock

/-- How many bytes one stamp covers. -/
def EPOCH_GRANULE : ℕ := 8

/-- How many granules the bytes from an address on touch. -/
def granules (at_ len : ℕ) : ℕ := if len = 0 then 0 else (at_ % EPOCH_GRANULE + len + 7) / EPOCH_GRANULE

/-- Whether a granule is one that the bytes from an address on touch. -/
def touches (at_ len granule : ℕ) : Prop :=
  at_ / EPOCH_GRANULE ≤ granule ∧ granule < at_ / EPOCH_GRANULE + granules at_ len

instance (at_ len granule : ℕ) : Decidable (touches at_ len granule) := inferInstanceAs (Decidable (_ ∧ _))

/-- The plane with a stamp in every granule that the bytes touch. -/
def fill (epochs : ℕ → Stamp) (at_ len : ℕ) (stamp : Stamp) : ℕ → Stamp :=
  fun granule => if touches at_ len granule then stamp else epochs granule

/-- The first stamp over the bytes that nothing a thread at this stamp has done orders. -/
def stranger (epochs : ℕ → Stamp) (at_ len : ℕ) (mine : Stamp) : Stamp :=
  (((List.range (granules at_ len)).map fun i => epochs (at_ / EPOCH_GRANULE + i)).find? fun found =>
    unordered found mine).getD NONE

/-! ## Stamps -/

theorem min_clocks_lt (c : ℕ) : min c CLOCKS < 2^CLOCK_BITS := by
  unfold CLOCKS CLOCK_BITS
  omega

@[simp]
theorem clock_stamp (t c : ℕ) : clock (stamp t c) = min c CLOCKS := by
  unfold clock stamp
  rw [Nat.add_comm, Nat.add_mul_mod_self_right, Nat.mod_eq_of_lt (min_clocks_lt c)]

@[simp]
theorem clock_none : clock NONE = 0 := rfl

theorem clock_le (of : Stamp) : clock of ≤ CLOCKS := by
  have hlt := Nat.mod_lt of (Nat.two_pow_pos CLOCK_BITS)
  unfold clock CLOCKS
  omega

/-- A stamp of a count that has started is some stamp. -/
theorem stamp_ne_none {t c : ℕ} (hc : 0 < c) : stamp t c ≠ NONE := by
  intro h
  have hclock := congrArg clock h
  rw [clock_stamp, clock_none] at hclock
  have hpos : 0 < CLOCKS := by decide
  omega

variable {mine : Stamp}

theorem stranger_spec {epochs : ℕ → Stamp} {at_ len : ℕ} (h : stranger epochs at_ len mine ≠ NONE) :
    ∃ granule, touches at_ len granule ∧ epochs granule = stranger epochs at_ len mine ∧
      unordered (epochs granule) mine = true := by
  unfold stranger at h ⊢
  cases hfound : ((List.range (granules at_ len)).map fun i => epochs (at_ / EPOCH_GRANULE + i)).find? fun found =>
      unordered found mine with
  | none =>
    rw [hfound] at h
    exact absurd rfl h
  | some found =>
    obtain ⟨i, hi, rfl⟩ := List.mem_map.1 (List.mem_of_find?_eq_some hfound)
    have hunordered := List.find?_some hfound
    exact ⟨_, ⟨Nat.le_add_right _ _, Nat.add_lt_add_left (List.mem_range.1 hi) _⟩, rfl, hunordered⟩

end Rucc.SafeRt.Epoch
