import Rucc.SafeRt.HeapHeld

/-!
# The aux slot beside a pointer word

`address_of` of `aux_slot.rs`: which sixteen bytes are beside a word of an object, given the capability of the
object. An object of the arena has its aux in front of its header, in the order of the words of its payload.
Memory is kept as its 64-bit words, each at its address, as the arena keeps it.
-/

namespace Rucc.SafeRt

open Checked

variable {mem : ℕ → ℕ}

/-- The eight spare bits of the packed word. -/
def Meta.flags (m : ℕ) : ℕ := m / 2^13 % 256

/-- The flag of storage that is watched but was not laid out by the arena. -/
def Meta.ADOPTED : ℕ := 32

/-- A capability in flight. -/
structure Cap where
  lo : ℕ
  ext : ℕ
  ver : ℕ
  info : ℕ
  deriving DecidableEq

namespace Cap

/-- Whether this permits nothing at all. -/
def isBottom (c : Cap) : Bool := c.ver == DEAD

/-- Whether an access of `len` bytes at `addr` is inside what this permits. An address below wraps to an enormous
one. -/
def covers (c : Cap) (addr len : ℕ) : Bool :=
  if c.isBottom then false
  else match checkedSub c.ext len with
    | some room => (addr + 2^64 - c.lo) % 2^64 ≤ room
    | none => false

end Cap

/-- Where the slot for the word at `addr` is, given the capability of the object that word is in. -/
def addressOf (container : Cap) (addr : ℕ) : Option ℕ :=
  if Meta.class container.info ≠ Class.allocated.code then none
  else if Meta.flags container.info &&& Meta.ADOPTED ≠ 0 then none
  else if container.covers addr WORD = false then none
  else do
    let off ← checkedSub addr container.lo
    if off % WORD ≠ 0 then none
    else
      let header ← checkedSub container.lo HEADER
      let block ← checkedSub header (← aux (← sized container.ext))
      checkedWord (block + off / WORD * AUX_PER_WORD)

/-- The sixteen bytes beside one word of payload, as two words. -/
structure Slot where
  ver : ℕ
  packed : ℕ
  deriving DecidableEq

/-- A slot for a word that holds no pointer. -/
def Slot.EMPTY : Slot := ⟨DEAD, 0⟩

/-- The slot at an address. -/
def readSlot (mem : ℕ → ℕ) (slot : ℕ) : Slot := ⟨mem slot, mem (slot + 8)⟩

/-- The memory with a slot written. -/
def writeSlot (mem : ℕ → ℕ) (slot : ℕ) (value : Slot) : ℕ → ℕ :=
  Function.update (Function.update mem slot value.ver) (slot + 8) value.packed

@[simp]
theorem readSlot_writeSlot (mem : ℕ → ℕ) (slot : ℕ) (value : Slot) :
    readSlot (writeSlot mem slot value) slot = value := by
  unfold readSlot writeSlot
  rw [Function.update_self, Function.update_of_ne (by omega), Function.update_self]

variable {value : Slot}

theorem writeSlot_of_ne {slot a : ℕ} (h : a ≠ slot) (h' : a ≠ slot + 8) : writeSlot mem slot value a = mem a := by
  unfold writeSlot
  rw [Function.update_of_ne h', Function.update_of_ne h]

theorem writeSlot_self {slot : ℕ} (h : readSlot mem slot = value) : writeSlot mem slot value = mem := by
  subst h
  unfold writeSlot readSlot
  rw [Function.update_eq_self, Function.update_eq_self]

theorem readSlot_congr {mem' : ℕ → ℕ} {slot : ℕ} (h : mem' slot = mem slot)
    (h' : mem' (slot + 8) = mem (slot + 8)) : readSlot mem' slot = readSlot mem slot := by
  unfold readSlot
  rw [h, h']

/-! ## Instances -/

/-- An instance that the arena laid out: `ext` bytes are the program's, and `size` were given. -/
structure Instance where
  lo : ℕ
  ext : ℕ
  size : ℕ
  sized_ext : sized ext = some size
  aligned : lo % 16 = 0
  front : 32 + 2 * size ≤ lo
  fits : lo + size < 2^64

/-- A capability that names an instance. -/
structure Describes (c : Cap) (i : Instance) : Prop where
  lo : c.lo = i.lo
  ext : c.ext = i.ext
  live : c.isBottom = false
  allocated : Meta.class c.info = Class.allocated.code
  carved : Meta.flags c.info &&& Meta.ADOPTED = 0

/-- A capability of storage that has no aux. -/
def Bare (c : Cap) : Prop :=
  Meta.class c.info ≠ Class.allocated.code ∨ Meta.flags c.info &&& Meta.ADOPTED ≠ 0 ∨ c.isBottom = true

variable {c : Cap}

theorem addressOf_bare (h : Bare c) (addr : ℕ) : addressOf c addr = none := by
  unfold addressOf
  rcases h with hclass | hadopted | hbottom
  · rw [if_pos hclass]
  · rw [if_pos hadopted, ite_self]
  · have hcovers : c.covers addr WORD = false := by
      unfold Cap.covers
      rw [if_pos hbottom]
    rw [if_pos hcovers, ite_self, ite_self]

namespace Instance

variable {i j : Instance} {w w' : ℕ}

/-- The words of the program's bytes, which are those that have a slot. -/
def HasSlot (i : Instance) (w : ℕ) : Prop := w % 8 = 0 ∧ i.lo ≤ w ∧ w + 8 ≤ i.lo + i.ext

instance (i : Instance) (w : ℕ) : Decidable (i.HasSlot w) := inferInstanceAs (Decidable (_ ∧ _))

/-- Where the slot of a word is. -/
def slot (i : Instance) (w : ℕ) : ℕ := i.lo - 32 - 2 * i.size + (w - i.lo) / 8 * 16

theorem classSize (i : Instance) : ClassSize i.size := classSize_of_sized i.sized_ext

theorem ext_le (i : Instance) : i.ext ≤ i.size := by
  have hsized := i.sized_ext
  rw [sized_eq, checkedWord_eq_some] at hsized
  exact hsized.2 ▸ le_roundUp i.ext

/-- The slots are in the aux, sixteen bytes for a word, and their words are words of memory. -/
theorem slot_bounds (h : i.HasSlot w) :
    i.lo ≤ i.slot w + 32 + 2 * i.size ∧ i.slot w + 48 ≤ i.lo ∧ i.slot w % 16 = 0 := by
  obtain ⟨-, hlo, hhi⟩ := h
  have hext := i.ext_le
  have hfront := i.front
  have haligned := i.aligned
  have hsize := i.classSize.mod_eq_zero
  unfold slot
  omega

theorem slot_injective (h : i.HasSlot w) (h' : i.HasSlot w') (heq : i.slot w = i.slot w') : w = w' := by
  obtain ⟨hmod, hlo, -⟩ := h
  obtain ⟨hmod', hlo', -⟩ := h'
  have haligned := i.aligned
  unfold slot at heq
  omega

/-- The two words of a slot are not those of another. -/
theorem slot_ne (h : i.HasSlot w) (h' : i.HasSlot w') (hne : w ≠ w') :
    i.slot w ≠ i.slot w' ∧ i.slot w ≠ i.slot w' + 8 ∧ i.slot w + 8 ≠ i.slot w' ∧ i.slot w + 8 ≠ i.slot w' + 8 := by
  have hslot : i.slot w ≠ i.slot w' := fun heq => hne (slot_injective h h' heq)
  obtain ⟨-, -, haligned⟩ := slot_bounds h
  obtain ⟨-, -, haligned'⟩ := slot_bounds h'
  omega

theorem slot_apart (happart : Apart i.lo i.size j.lo j.size) (h : i.HasSlot w) (h' : j.HasSlot w') :
    i.slot w ≠ j.slot w' ∧ i.slot w ≠ j.slot w' + 8 ∧ i.slot w + 8 ≠ j.slot w' ∧ i.slot w + 8 ≠ j.slot w' + 8 := by
  obtain ⟨hlow, hhigh, -⟩ := slot_bounds h
  obtain ⟨hlow', hhigh', -⟩ := slot_bounds h'
  unfold Apart at happart
  omega

theorem fits_two (i j : Instance) : i.size + j.size < 2^64 := by
  have hifront := i.front
  have hifits := i.fits
  have hjfront := j.front
  have hjfits := j.fits
  omega

end Instance

/-- The capability of an instance finds the slots of its words, and nothing for what is no word of it. -/
theorem addressOf_eq {i : Instance} (h : Describes c i) {w : ℕ} (hw : w < 2^64) :
    addressOf c w = if i.HasSlot w then some (i.slot w) else none := by
  have hext := i.ext_le
  have hfront := i.front
  have hfits := i.fits
  have haligned := i.aligned
  have hcovers : c.covers w WORD = decide (i.lo ≤ w ∧ w + 8 ≤ i.lo + i.ext) := by
    unfold Cap.covers
    rw [h.live, if_neg Bool.false_ne_true, h.lo, h.ext]
    unfold checkedSub WORD
    by_cases hroom : 8 ≤ i.ext
    · rw [if_pos hroom, decide_eq_decide]
      omega
    · rw [if_neg hroom]
      exact (decide_eq_false (by omega)).symm
  unfold addressOf
  rw [if_neg (not_not.2 h.allocated), if_neg (not_not.2 h.carved), hcovers]
  by_cases hin : i.lo ≤ w ∧ w + 8 ≤ i.lo + i.ext
  · rw [if_neg (by rw [decide_eq_true hin]; decide), h.lo, h.ext, checkedSub_of_le hin.1, Option.bind_eq_bind,
      Option.bind_some]
    by_cases hmod : w % 8 = 0
    · have hslot : i.HasSlot w := ⟨hmod, hin⟩
      obtain ⟨hlow, hhigh, -⟩ := Instance.slot_bounds hslot
      rw [if_pos hslot, if_neg (by unfold WORD; omega), i.sized_ext]
      simp only [Option.bind_some, i.classSize.aux_eq, HEADER, checkedSub_of_le (by omega : 32 ≤ i.lo),
        checkedWord_of_lt (by omega : 2 * i.size < 2^64), checkedSub_of_le (by omega : 2 * i.size ≤ i.lo - 32)]
      exact checkedWord_of_lt (by unfold Instance.slot at hhigh; unfold WORD AUX_PER_WORD; omega)
    · rw [if_neg fun hslot : i.HasSlot w => hmod hslot.1, if_pos (by unfold WORD; omega)]
  · rw [if_pos (decide_eq_false hin), if_neg fun hslot : i.HasSlot w => hin hslot.2]

/-! ## Recovered capabilities -/

/-- What can be recovered from an address: the capability of the instance it is in, or one of storage without an
aux. -/
def Recovered (c : Cap) (addr : ℕ) : Option Instance → Prop
  | some i => Describes c i ∧ i.lo ≤ addr ∧ addr < i.lo + i.size
  | none => Bare c

/-- The slot that a word has in an instance, if there is one. -/
def slotOf : Option Instance → ℕ → Option ℕ
  | some i, w => if i.HasSlot w then some (i.slot w) else none
  | none, _ => none

/-- A word so far above a recovered address has its slot also where the sum of the two wraps. -/
theorem Recovered.addressOf_add {addr : ℕ} {source : Option Instance} (h : Recovered c addr source)
    (i : Instance) {d : ℕ} (hd : d < i.size) : addressOf c ((addr + d) % 2^64) = slotOf source (addr + d) := by
  cases source with
  | none => exact addressOf_bare h _
  | some j =>
    obtain ⟨hdescribes, hlo, hhi⟩ := h
    have hfits := j.fits
    have hext := j.ext_le
    have htwo := Instance.fits_two i j
    rw [addressOf_eq hdescribes (Nat.mod_lt _ (by decide)), slotOf]
    rcases lt_or_ge (addr + d) (2^64) with hlt | hge
    · rw [Nat.mod_eq_of_lt hlt]
    · rw [if_neg fun hslot : j.HasSlot (addr + d) => absurd hslot.2.2 (by omega), if_neg]
      rintro ⟨-, hlow, -⟩
      omega

end Rucc.SafeRt
