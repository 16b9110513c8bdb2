import Mathlib.Data.Nat.ModEq
import WaveDB.Basis.Runs
import WaveDB.Workers.TransactionId

/-!
The superblock slots of a page file (`page_file_write_superblock`,
`page_file_read_superblock`, `page_file_open` and `page_file_vacuum_file_swap` in
`Storage/page_file.c`, `database_vacuum_rewrite` in `Database/database.c`).

A superblock goes to the slot of its revision modulo the number of slots, and the valid slot
with the greatest revision counts. The vacuum swap puts a file with revisions 0 and 1 under a
handle whose revision is that of the old file. `next_slot_spares_newest` says that runs stay
safe as long as no swap brings the handle to the slot of revision 1.
-/

namespace WaveDB.Storage

open WaveDB.Basis Workers List

/-- The fields of `page_superblock_t` that describe a checkpoint. -/
structure Superblock where
  revision : Nat
  rootOffset : Nat
  rootSize : Nat
  lastTxnId : TransactionId
deriving DecidableEq

/-- A slot is `none` when it fails its checksum. -/
abbrev Slots := List (Option Superblock)

/-! ### Reading -/

/-- `candidate.revision > best_sb.revision`, or nothing found yet. -/
def betterThan (candidate : Superblock) (best : Option (Nat × Superblock)) : Bool :=
  best.all fun b => b.2.revision < candidate.revision

def readSlots : Slots → Nat → Option (Nat × Superblock) → Option (Nat × Superblock)
  | [], _, best => best
  | none :: rest, i, best => readSlots rest (i + 1) best
  | some candidate :: rest, i, best =>
    readSlots rest (i + 1) (if betterThan candidate best then some (i, candidate) else best)

/-- `page_file_read_superblock`: the slot and the superblock. -/
def pageFileReadSuperblock (slots : Slots) : Option (Nat × Superblock) := readSlots slots 0 none

/-- The slot holds a superblock of the greatest revision, and is the first that does. -/
structure IsNewest (slots : Slots) (slot : Nat) (sb : Superblock) : Prop where
  holds : slots[slot]? = some (some sb)
  greatest : ∀ (i : Nat) (other : Superblock), slots[i]? = some (some other) →
    other.revision ≤ sb.revision
  first : ∀ (i : Nat) (other : Superblock), slots[i]? = some (some other) → i < slot →
    other.revision < sb.revision

def Best (seen : Slots) : Option (Nat × Superblock) → Prop
  | none => ∀ (i : Nat) (other : Superblock), seen[i]? ≠ some (some other)
  | some (slot, sb) => IsNewest seen slot sb

variable {seen slots : Slots} {i : Nat} {sb : Superblock} {best : Option (Nat × Superblock)}

theorem getElem?_concat_cases {x : Option Superblock} {y : Superblock}
    (h : (seen ++ [x])[i]? = some (some y)) :
    seen[i]? = some (some y) ∨ i = seen.length ∧ x = some y := by
  rcases Nat.lt_trichotomy i seen.length with hlt | rfl | hgt
  · rw [getElem?_append_left hlt] at h
    exact .inl h
  · rw [getElem?_concat_length] at h
    exact .inr ⟨rfl, Option.some.inj h⟩
  · rw [getElem?_eq_none (by rw [length_append, length_singleton]; omega)] at h
    cases h

theorem lt_length_of_holds (h : slots[i]? = some (some sb)) : i < slots.length :=
  (List.getElem?_eq_some_iff.mp h).1

theorem Best.skip (h : Best seen best) : Best (seen ++ [none]) best := by
  have hold : ∀ (i : Nat) (other : Superblock), (seen ++ [none])[i]? = some (some other) →
      seen[i]? = some (some other) := by
    intro i other hi
    rcases getElem?_concat_cases hi with hi | ⟨-, hi⟩
    · exact hi
    · cases hi
  cases best with
  | none => exact fun i other hi => h i other (hold i other hi)
  | some b =>
    exact
      { holds := by rw [getElem?_append_left (lt_length_of_holds h.holds)]; exact h.holds
        greatest := fun i other hi => h.greatest i other (hold i other hi)
        first := fun i other hi => h.first i other (hold i other hi) }

theorem Best.replace {candidate : Superblock} (h : Best seen best)
    (hbetter : betterThan candidate best) :
    Best (seen ++ [some candidate]) (some (seen.length, candidate)) := by
  have hlt : ∀ (i : Nat) (other : Superblock), seen[i]? = some (some other) →
      other.revision < candidate.revision := by
    intro i other hi
    cases best with
    | none => exact absurd hi (h i other)
    | some b =>
      have hb : b.2.revision < candidate.revision := of_decide_eq_true hbetter
      exact Nat.lt_of_le_of_lt (h.greatest i other hi) hb
  constructor
  · rw [getElem?_concat_length]
  · intro i other hi
    rcases getElem?_concat_cases hi with hi | ⟨-, heq⟩
    · exact Nat.le_of_lt (hlt i other hi)
    · cases heq
      exact Nat.le_refl _
  · intro i other hi hfirst
    rcases getElem?_concat_cases hi with hi | ⟨rfl, -⟩
    · exact hlt i other hi
    · exact absurd hfirst (Nat.lt_irrefl _)

theorem Best.keep {candidate : Superblock} (h : Best seen best)
    (hbetter : ¬ betterThan candidate best) : Best (seen ++ [some candidate]) best := by
  cases best with
  | none => exact absurd rfl hbetter
  | some b =>
    have hle : candidate.revision ≤ b.2.revision :=
      Nat.not_lt.mp fun hlt => hbetter (decide_eq_true hlt)
    have hslot := lt_length_of_holds h.holds
    constructor
    · rw [getElem?_append_left hslot]
      exact h.holds
    · intro i other hi
      rcases getElem?_concat_cases hi with hi | ⟨-, heq⟩
      · exact h.greatest i other hi
      · cases heq
        exact hle
    · intro i other hi hfirst
      rcases getElem?_concat_cases hi with hi | ⟨rfl, -⟩
      · exact h.first i other hi hfirst
      · exact absurd hfirst (Nat.lt_asymm hslot)

theorem readSlots_best {rest : Slots} (h : Best seen best) :
    Best (seen ++ rest) (readSlots rest seen.length best) := by
  induction rest generalizing seen best with
  | nil => rwa [append_nil]
  | cons x rest ih =>
    have hlength : seen.length + 1 = (seen ++ [x]).length := by
      rw [length_append, length_singleton]
    rw [← singleton_append, ← append_assoc]
    cases x with
    | none =>
      rw [singleton_append, readSlots, hlength]
      exact ih h.skip
    | some candidate =>
      rw [singleton_append, readSlots, hlength]
      split
      · next hbetter => exact ih (h.replace hbetter)
      · next hbetter => exact ih (h.keep hbetter)

theorem pageFileReadSuperblock_best (slots : Slots) :
    Best slots (pageFileReadSuperblock slots) := by
  have hnone : Best [] none := by
    intro i other h
    cases h
  exact readSlots_best hnone

section Best

variable {slot : Nat} (h : IsNewest slots slot sb)

include h

theorem IsNewest.unique {slot' : Nat} {sb' : Superblock} (h' : IsNewest slots slot' sb') :
    slot = slot' ∧ sb = sb' := by
  have hle := h.greatest slot' sb' h'.holds
  have hge := h'.greatest slot sb h.holds
  have hslot : slot = slot' := by
    rcases Nat.lt_trichotomy slot slot' with hlt | heq | hgt
    · exact absurd (h'.first slot sb h.holds hlt) (Nat.not_lt.mpr hle)
    · exact heq
    · exact absurd (h.first slot' sb' h'.holds hgt) (Nat.not_lt.mpr hge)
  subst hslot
  exact ⟨rfl, Option.some.inj (Option.some.inj (h.holds.symm.trans h'.holds))⟩

theorem IsNewest.read : pageFileReadSuperblock slots = some (slot, sb) := by
  have hbest := pageFileReadSuperblock_best slots
  cases hread : pageFileReadSuperblock slots with
  | none =>
    rw [hread] at hbest
    exact absurd h.holds (hbest slot sb)
  | some b =>
    rw [hread] at hbest
    obtain ⟨hslot, hsb⟩ := h.unique hbest
    rw [hslot, hsb]

/-- Losing another slot does not change which one is the newest. -/
theorem IsNewest.set_none (hne : i ≠ slot) : IsNewest (slots.set i none) slot sb := by
  have hold : ∀ (j : Nat) (other : Superblock), (slots.set i none)[j]? = some (some other) →
      slots[j]? = some (some other) := by
    intro j other hj
    rcases getElem?_set_cases hj with ⟨-, hnone⟩ | ⟨-, hj⟩
    · cases hnone
    · exact hj
  exact
    { holds := by rw [getElem?_set_ne hne]; exact h.holds
      greatest := fun j other hj => h.greatest j other (hold j other hj)
      first := fun j other hj => h.first j other (hold j other hj) }

end Best

/-- A superblock above all others is the newest wherever it is written. -/
theorem IsNewest.set_some (hi : i < slots.length)
    (habove : ∀ (j : Nat) (other : Superblock), slots[j]? = some (some other) →
      other.revision < sb.revision) : IsNewest (slots.set i (some sb)) i sb := by
  have hcases : ∀ (j : Nat) (other : Superblock), (slots.set i (some sb))[j]? = some (some other) →
      (j = i ∧ other = sb) ∨ other.revision < sb.revision := by
    intro j other hj
    rcases getElem?_set_cases hj with ⟨rfl, heq⟩ | ⟨-, hj⟩
    · exact .inl ⟨rfl, Option.some.inj heq⟩
    · exact .inr (habove j other hj)
  constructor
  · exact getElem?_set_self hi
  · intro j other hj
    rcases hcases j other hj with ⟨-, rfl⟩ | hlt
    · exact Nat.le_refl _
    · exact Nat.le_of_lt hlt
  · intro j other hj hfirst
    rcases hcases j other hj with ⟨rfl, -⟩ | hlt
    · exact absurd hfirst (Nat.lt_irrefl _)
    · exact hlt

/-! ### Runs -/

/-- The slots on disk and the `revision` of the open handle. `committed` is the superblock whose
write last succeeded; no step reads it. -/
structure SuperblockState where
  slots : Slots
  revision : Nat
  committed : Superblock
deriving DecidableEq

def emptySuperblock : Superblock := ⟨0, 0, 0, ⟨0, 0, 0⟩⟩

/-- `page_file_open` on a new file: every slot has revision 0. -/
def newFile (numSuperblocks : Nat) : SuperblockState :=
  { slots := List.replicate numSuperblocks (some emptySuperblock)
    revision := 0
    committed := emptySuperblock }

variable (s : SuperblockState)

def SuperblockState.nextRevision : Nat := (s.revision + 1) % 2 ^ 64

/-- The slot that the next `page_file_write_superblock` overwrites. -/
def SuperblockState.nextSlot : Nat := s.nextRevision % s.slots.length

def SuperblockState.pageFileWriteSuperblock (rootOffset rootSize : Nat)
    (lastTxnId : TransactionId) : SuperblockState :=
  let sb : Superblock := ⟨s.nextRevision, rootOffset, rootSize, lastTxnId⟩
  { slots := s.slots.set s.nextSlot (some sb), revision := s.nextRevision, committed := sb }

/-- A failed `page_file_write_superblock`: the revision is taken back. The slot is unchanged, or
destroyed when part of the block was written. -/
def SuperblockState.pageFileWriteSuperblockFails (torn : Bool) : SuperblockState :=
  if torn then { s with slots := s.slots.set s.nextSlot none } else s

/-- `page_file_open` on an existing file; without a valid superblock the new handle keeps
revision 0. -/
def pageFileReopen : SuperblockState :=
  { s with revision := ((pageFileReadSuperblock s.slots).map (·.2.revision)).getD 0 }

/-- `database_vacuum_rewrite` into a fresh file and `page_file_vacuum_file_swap`: the file is the
new one, the revision that of the old handle plus one. -/
def vacuumFileSwap (rootOffset rootSize : Nat) (lastTxnId : TransactionId) : SuperblockState :=
  let new := (newFile s.slots.length).pageFileWriteSuperblock rootOffset rootSize lastTxnId
  { new with revision := s.nextRevision }

inductive SuperblockAction where
  | write (rootOffset rootSize : Nat) (lastTxnId : TransactionId)
  | writeFails (torn : Bool)
  | reopen
  | vacuum (rootOffset rootSize : Nat) (lastTxnId : TransactionId)

variable (s : SuperblockState)

def superblockStep : SuperblockAction → Option SuperblockState
  | .write rootOffset rootSize lastTxnId =>
    some (s.pageFileWriteSuperblock rootOffset rootSize lastTxnId)
  | .writeFails torn => some (s.pageFileWriteSuperblockFails torn)
  | .reopen => some (pageFileReopen s)
  | .vacuum rootOffset rootSize lastTxnId =>
    some (vacuumFileSwap s rootOffset rootSize lastTxnId)

/-- No revision is at the end of its 64 bits, and a swap does not bring the handle just before the
slot of revision 1. -/
def slotSafe : SuperblockAction → Bool
  | .write _ _ _ => s.revision + 2 < 2 ^ 64
  | .vacuum _ _ _ => s.revision + 2 < 2 ^ 64 && (s.revision + 2) % s.slots.length != 1
  | _ => true

/-- The newest superblock is the committed one, in the slot of its revision; the handle is at or
past it, and its next slot is another one. -/
structure SlotsOk : Prop where
  two : 2 ≤ s.slots.length
  bound : s.revision + 1 < 2 ^ 64
  newest : IsNewest s.slots (s.committed.revision % s.slots.length) s.committed
  behind : s.committed.revision ≤ s.revision
  spares : (s.revision + 1) % s.slots.length ≠ s.committed.revision % s.slots.length

section Steps

variable {s : SuperblockState} {rootOffset rootSize : Nat} {lastTxnId : TransactionId}

theorem SlotsOk.nextRevision (h : SlotsOk s) : s.nextRevision = s.revision + 1 :=
  Nat.mod_eq_of_lt h.bound

theorem SlotsOk.nextSlot (h : SlotsOk s) : s.nextSlot = (s.revision + 1) % s.slots.length := by
  rw [SuperblockState.nextSlot, h.nextRevision]

theorem succ_mod_ne {m n : Nat} (hn : 2 ≤ n) : (m + 1) % n ≠ m % n := by
  intro h
  have hdvd : (m + 1) ≡ m [MOD n] := h
  have hone := (Nat.modEq_iff_dvd' (Nat.le_succ m)).mp hdvd.symm
  rw [Nat.succ_sub (Nat.le_refl m), Nat.sub_self] at hone
  exact absurd (Nat.le_of_dvd Nat.one_pos hone) (by omega)

theorem SlotsOk.initial {n : Nat} (hn : 2 ≤ n) : SlotsOk (newFile n) := by
  have hholds : ∀ (i : Nat) (other : Superblock), (newFile n).slots[i]? = some (some other) →
      other = emptySuperblock := by
    intro i other hi
    have hmem := mem_of_getElem? hi
    exact Option.some.inj (eq_of_mem_replicate hmem)
  have hlength : (newFile n).slots.length = n := length_replicate
  constructor
  · rwa [hlength]
  · change 0 + 1 < 2 ^ 64
    decide
  · constructor
    · rw [hlength]
      exact getElem?_replicate_of_lt (Nat.mod_lt _ (by omega))
    · intro i other hi
      rw [hholds i other hi]
      exact Nat.le_refl _
    · intro i other _ hlt
      exact absurd (hlt.trans_le (Nat.mod_le _ _)) (Nat.not_lt_zero i)
  · exact Nat.le_refl _
  · rw [hlength]
    exact succ_mod_ne hn

theorem SlotsOk.write (h : SlotsOk s) (hbound : s.revision + 2 < 2 ^ 64) :
    SlotsOk (s.pageFileWriteSuperblock rootOffset rootSize lastTxnId) := by
  have hlength : (s.pageFileWriteSuperblock rootOffset rootSize lastTxnId).slots.length =
      s.slots.length := length_set
  have hrevision := h.nextRevision
  constructor
  · rw [hlength]
    exact h.two
  · change s.nextRevision + 1 < 2 ^ 64
    omega
  · rw [hlength]
    apply IsNewest.set_some
    · exact Nat.mod_lt _ (by have := h.two; omega)
    · intro j other hj
      have hle := (h.newest.greatest j other hj).trans h.behind
      change other.revision < s.nextRevision
      omega
  · exact Nat.le_refl _
  · rw [hlength]
    exact succ_mod_ne h.two

theorem SlotsOk.writeFails (h : SlotsOk s) (torn : Bool) :
    SlotsOk (s.pageFileWriteSuperblockFails torn) := by
  cases torn with
  | false => exact h
  | true =>
    have hlength : (s.slots.set s.nextSlot none).length = s.slots.length := length_set
    have hne : s.nextSlot ≠ s.committed.revision % s.slots.length := by
      rw [h.nextSlot]
      exact h.spares
    constructor
    · exact h.two.trans_eq hlength.symm
    · exact h.bound
    · change IsNewest (s.slots.set s.nextSlot none)
        (s.committed.revision % (s.slots.set s.nextSlot none).length) s.committed
      rw [hlength]
      exact h.newest.set_none hne
    · exact h.behind
    · change (s.revision + 1) % (s.slots.set s.nextSlot none).length ≠
        s.committed.revision % (s.slots.set s.nextSlot none).length
      rw [hlength]
      exact h.spares

theorem SlotsOk.reopen (h : SlotsOk s) : SlotsOk (pageFileReopen s) := by
  have hrevision : (pageFileReopen s).revision = s.committed.revision := by
    rw [pageFileReopen, h.newest.read]
    rfl
  have hbehind := h.behind
  have hbound := h.bound
  constructor
  · exact h.two
  · rw [hrevision]
    omega
  · exact h.newest
  · exact hrevision.ge
  · rw [hrevision]
    exact succ_mod_ne h.two

theorem SlotsOk.vacuum (h : SlotsOk s) (hbound : s.revision + 2 < 2 ^ 64)
    (hslot : (s.revision + 2) % s.slots.length ≠ 1) :
    SlotsOk (vacuumFileSwap s rootOffset rootSize lastTxnId) := by
  have htwo := h.two
  have hlength : (vacuumFileSwap s rootOffset rootSize lastTxnId).slots.length = s.slots.length :=
    length_set.trans length_replicate
  have hrevision : (vacuumFileSwap s rootOffset rootSize lastTxnId).revision = s.revision + 1 :=
    h.nextRevision
  -- The new file on its own is as after one write.
  have hzero : (newFile s.slots.length).revision + 2 < 2 ^ 64 := by
    change 0 + 2 < 2 ^ 64
    decide
  have hnew : SlotsOk ((newFile s.slots.length).pageFileWriteSuperblock rootOffset rootSize
      lastTxnId) := (initial htwo).write hzero
  have hcommitted : (vacuumFileSwap s rootOffset rootSize lastTxnId).committed.revision = 1 := rfl
  constructor
  · rwa [hlength]
  · rw [hrevision]
    omega
  · exact hnew.newest
  · rw [hrevision, hcommitted]
    omega
  · rw [hrevision, hcommitted, hlength, Nat.mod_eq_of_lt (show 1 < s.slots.length by omega)]
    exact hslot

theorem SlotsOk.step {a : SuperblockAction} {s' : SuperblockState} (h : SlotsOk s)
    (hsafe : slotSafe s a) (hstep : superblockStep s a = some s') : SlotsOk s' := by
  cases a with
  | write rootOffset rootSize lastTxnId =>
    cases hstep
    exact h.write (of_decide_eq_true hsafe)
  | writeFails torn =>
    cases hstep
    exact h.writeFails torn
  | reopen =>
    cases hstep
    exact h.reopen
  | vacuum rootOffset rootSize lastTxnId =>
    cases hstep
    simp only [slotSafe, Bool.and_eq_true, decide_eq_true_eq, bne_iff_ne] at hsafe
    exact h.vacuum hsafe.1 hsafe.2

end Steps

/-- In every state of a safe run the next superblock goes to another slot than the newest, and if
that write is torn the committed superblock is still read. -/
theorem next_slot_spares_newest {numSuperblocks : Nat} (htwo : 2 ≤ numSuperblocks)
    {s : SuperblockState} (hrun : Reaches superblockStep slotSafe (newFile numSuperblocks) s) :
    ∃ slot, pageFileReadSuperblock s.slots = some (slot, s.committed) ∧ slot ≠ s.nextSlot ∧
      pageFileReadSuperblock (s.slots.set s.nextSlot none) = some (slot, s.committed) := by
  have hok : SlotsOk s :=
    hrun.invariant SlotsOk (.initial htwo) fun _ _ _ hok hsafe hstep => hok.step hsafe hstep
  have hne : s.nextSlot ≠ s.committed.revision % s.slots.length := by
    rw [hok.nextSlot]
    exact hok.spares
  exact ⟨_, hok.newest.read, hne.symm, (hok.newest.set_none hne).read⟩

/-- Two writes, a failed one between them, and a vacuum. -/
theorem next_slot_spares_newest_vacuum :
    ∃ s, Reaches superblockStep slotSafe (newFile 2) s ∧ s.committed.rootOffset = 16384 ∧
      ∃ slot, pageFileReadSuperblock s.slots = some (slot, s.committed) ∧ slot ≠ s.nextSlot ∧
        pageFileReadSuperblock (s.slots.set s.nextSlot none) = some (slot, s.committed) := by
  exact exists_reaches_and [.write 8192 0 ⟨1, 0, 0⟩, .writeFails true, .reopen,
    .write 12288 0 ⟨2, 0, 0⟩, .vacuum 16384 0 ⟨2, 0, 0⟩] (by decide +kernel)
    fun s hs => next_slot_spares_newest (Nat.le_refl 2) hs

/-- After one flush and a vacuum the next superblock overwrites the newest; torn, it leaves an
empty file. -/
theorem vacuum_slot_collides :
    ∃ s, Reaches superblockStep always (newFile 2) s ∧ s.committed.rootOffset = 8192 ∧
      pageFileReadSuperblock s.slots = some (s.nextSlot, s.committed) ∧
      pageFileReadSuperblock (s.slots.set s.nextSlot none) = some (0, emptySuperblock) := by
  exact exists_reaches [.write 12288 0 ⟨1, 0, 0⟩, .vacuum 8192 0 ⟨1, 0, 0⟩] (by decide +kernel)

end WaveDB.Storage
