import Mathlib.Logic.Function.Basic
import WaveDB.Basis.Runs

/-!
A vacuum and concurrent writers (`database_vacuum_run`, `database_vacuum_walk_bnode` and
`database_vacuum_block_if_in_progress` in `Database/database.c`, against the concurrent paths
of `database_put_sync` and `database_delete_sync`).

A writer tests `vacuum_in_progress`, takes the lock of its shard, modifies one bnode of the
trie and releases the lock. The vacuum sets the flag, flushes, takes and releases every shard
lock in order, and then rewrites one bnode after the other into the new file. A write is named
by the index of its writer; of a bnode only the writes in it count.

* `vacuum_loses_write`: a writer that tested the flag before it was set modifies a bnode while
  it is rewritten, and its write is in neither place.
-/

namespace WaveDB.Database

open WaveDB.Basis List Option Function Bool

/-! ### The system -/

def writeLockShards : Nat := 64

inductive WriterPoint where
  | admitted
  | locked
  | applied
  | returned
deriving DecidableEq

/-- `database_put_sync` or `database_delete_sync`: the shard of its path
(`get_write_lock_shard`) and the bnode that holds the path's entry. -/
structure Writer where
  shard : Fin writeLockShards
  bnode : Nat
  point : WriterPoint
deriving DecidableEq

/-- A bnode of the trie: the writes in it, `is_dirty`, and the writes in its copy in the new
file. -/
structure WrittenBnode where
  writes : List Nat
  isDirty : Bool
  rewritten : List Nat
deriving DecidableEq

inductive VacuumPoint where
  | idle
  | flagged
  /-- The dirty bnodes are flushed; the first `taken` locks are held. -/
  | locking (taken : Nat)
  /-- The barrier is over but for the locks from `released` on. -/
  | unlocking (released : Nat)
  /-- The first `walked` bnodes are rewritten. -/
  | walking (walked : Nat)
  /-- The bnode is serialized; its `is_dirty` is about to be cleared. -/
  | serialized (bnode : Nat)
  | swapped
  | finished
deriving DecidableEq

/-- What the calls share. `disturbed` records whether a bnode was modified between the barrier
and the swap; no step reads it. -/
structure WriteState where
  vacuumInProgress : Bool
  writeLocks : Fin writeLockShards → Bool
  vacuum : VacuumPoint
  writers : List Writer
  bnodes : List WrittenBnode
  disturbed : Bool

def WriteState.initial (flags : List Bool) : WriteState :=
  { vacuumInProgress := false
    writeLocks := fun _ => false
    vacuum := .idle
    writers := []
    bnodes := flags.map fun isDirty => ⟨[], isDirty, []⟩
    disturbed := false }

inductive WriteAction where
  | check (shard : Fin writeLockShards) (bnode : Nat)
  | lock (i : Nat)
  | apply (i : Nat)
  | unlock (i : Nat)
  | vacuumSet
  | vacuumFlush
  | vacuumLock
  | vacuumUnlock
  | vacuumSerialize
  | vacuumClean
  | vacuumSwap
  | vacuumClear

variable (s : WriteState)

def WriteState.move (i : Nat) (w : Writer) (target : WriterPoint) :
    Option WriteState :=
  (moveCall s.writers i w { w with point := target }).map fun writers => { s with writers }

def WriteState.writerAt (i : Nat) (point : WriterPoint) : Option Writer :=
  (s.writers[i]?).filter (·.point == point)

def VacuumPoint.inWindow : VacuumPoint → Bool
  | .unlocking _ => true
  | .walking _ => true
  | .serialized _ => true
  | _ => false

/-- One step; `none` when it cannot be taken. A writer that sees the flag set waits, so it does
not appear yet. -/
def writeStep : WriteAction → Option WriteState
  | .check shard bnode =>
    if s.vacuumInProgress then none
    else some { s with writers := s.writers ++ [⟨shard, bnode, .admitted⟩] }
  | .lock i => do
      let w ← s.writerAt i .admitted
      if s.writeLocks w.shard then none
      else
        (s.move i w .locked).map fun s =>
          { s with writeLocks := update s.writeLocks w.shard true }
  | .apply i => do
      let w ← s.writerAt i .locked
      if s.bnodes.length ≤ w.bnode then none
      else
        (s.move i w .applied).map fun s =>
          { s with
            bnodes := s.bnodes.modify w.bnode fun b =>
              { b with writes := b.writes ++ [i], isDirty := true }
            disturbed := s.disturbed || s.vacuum.inWindow }
  | .unlock i => do
      let w ← s.writerAt i .applied
      (s.move i w .returned).map fun s =>
        { s with writeLocks := update s.writeLocks w.shard false }
  | .vacuumSet =>
    if s.vacuum = .idle then some { s with vacuumInProgress := true, vacuum := .flagged }
    else none
  | .vacuumFlush =>
    if s.vacuum = .flagged then
      some { s with
        bnodes := s.bnodes.map fun b => { b with isDirty := false }
        vacuum := .locking 0 }
    else none
  | .vacuumLock =>
    match s.vacuum with
    | .locking taken =>
      if h : taken < writeLockShards then
        if s.writeLocks ⟨taken, h⟩ then none
        else
          some { s with
            writeLocks := update s.writeLocks ⟨taken, h⟩ true
            vacuum := .locking (taken + 1) }
      else some { s with vacuum := .unlocking 0 }
    | _ => none
  | .vacuumUnlock =>
    match s.vacuum with
    | .unlocking released =>
      if h : released < writeLockShards then
        some { s with
          writeLocks := update s.writeLocks ⟨released, h⟩ false
          vacuum := .unlocking (released + 1) }
      else some { s with vacuum := .walking 0 }
    | _ => none
  | .vacuumSerialize =>
    match s.vacuum with
    | .walking walked =>
      if walked < s.bnodes.length then
        some { s with
          bnodes := s.bnodes.modify walked fun b => { b with rewritten := b.writes }
          vacuum := .serialized walked }
      else none
    | _ => none
  | .vacuumClean =>
    match s.vacuum with
    | .serialized bnode =>
      some { s with
        bnodes := s.bnodes.modify bnode fun b => { b with isDirty := false }
        vacuum := .walking (bnode + 1) }
    | _ => none
  | .vacuumSwap =>
    if s.vacuum = .walking s.bnodes.length then some { s with vacuum := .swapped } else none
  | .vacuumClear =>
    if s.vacuum = .swapped then some { s with vacuumInProgress := false, vacuum := .finished }
    else none

/-! ### What the vacuum must not lose -/

def VacuumPoint.hasSwapped : VacuumPoint → Bool
  | .swapped => true
  | .finished => true
  | _ => false

/-- Nothing was modified between the barrier and the swap, and once the new file is in place
every write that returned is in it or its bnode is dirty. -/
structure VacuumSafe : Prop where
  undisturbed : s.disturbed = false
  kept : s.vacuum.hasSwapped = true → ∀ (i : Nat) (w : Writer), s.writers[i]? = some w →
    w.point = .returned → ∃ b, s.bnodes[w.bnode]? = some b ∧ (i ∈ b.rewritten ∨ b.isDirty = true)

def VacuumPoint.passed (shard : Fin writeLockShards) : VacuumPoint → Bool
  | .locking taken => decide (shard.val < taken)
  | .unlocking _ => true
  | .walking _ => true
  | .serialized _ => true
  | _ => false

def lockInTime : WriteAction → Bool
  | .lock i => (s.writerAt i .admitted).all fun w => !s.vacuum.passed w.shard
  | _ => true

/-! ### The steps of a writer -/

section Steps

variable {s s' : WriteState} {i : Nat} {w : Writer}

theorem WriteState.writerAt_eq_some {point : WriterPoint} :
    s.writerAt i point = some w ↔ s.writers[i]? = some w ∧ w.point = point := by
  rw [writerAt, filter_eq_some_iff, beq_iff_eq]

theorem WriteState.move_eq_some {target : WriterPoint} (h : s.move i w target = some s') :
    s' = { s with writers := s.writers.set i { w with point := target } } := by
  obtain ⟨writers, hmove, rfl⟩ := map_eq_some_iff.mp h
  rw [(moveCall_eq_some.mp hmove).2]

theorem apply_eq_some (h : writeStep s (.apply i) = some s') :
    ∃ w, s.writers[i]? = some w ∧ w.point = .locked ∧ w.bnode < s.bnodes.length ∧ s' = { s with
        writers := s.writers.set i { w with point := .applied }
        bnodes := s.bnodes.modify w.bnode fun b =>
          { b with writes := b.writes ++ [i], isDirty := true }
        disturbed := s.disturbed || s.vacuum.inWindow } := by
  obtain ⟨w, hw, h⟩ := bind_eq_some_iff.mp h
  obtain ⟨hi, hpoint⟩ := WriteState.writerAt_eq_some.mp hw
  rw [ite_none_left_eq_some] at h
  obtain ⟨hbnode, h⟩ := h
  obtain ⟨mid, hmid, rfl⟩ := map_eq_some_iff.mp h
  rw [WriteState.move_eq_some hmid]
  exact ⟨w, hi, hpoint, Nat.not_le.mp hbnode, rfl⟩

end Steps

/-! ### The invariant -/

def Writer.holds (shard : Fin writeLockShards) (w : Writer) : Bool :=
  (w.point == .locked || w.point == .applied) && w.shard == shard

def VacuumPoint.holds (shard : Fin writeLockShards) : VacuumPoint → Bool
  | .locking taken => decide (shard.val < taken)
  | .unlocking released => decide (released ≤ shard.val)
  | _ => false

def VacuumPoint.copied (bnode : Nat) : VacuumPoint → Bool
  | .walking walked => decide (bnode < walked)
  | .serialized last => decide (bnode ≤ last)
  | _ => false

/-- Each lock has one holder, no writer that is about to modify the trie is behind the barrier,
and what is rewritten is what is in the trie. -/
structure WritersOk (s : WriteState) : Prop where
  locks : ∀ shard, s.writers.countP (Writer.holds shard) + (s.vacuum.holds shard).toNat =
    (s.writeLocks shard).toNat
  early : ∀ w ∈ s.writers, w.point = .locked → s.vacuum.passed w.shard = false
  undisturbed : s.disturbed = false
  applied : ∀ (i : Nat) (w : Writer), s.writers[i]? = some w →
    w.point = .applied ∨ w.point = .returned → ∃ b, s.bnodes[w.bnode]? = some b ∧ i ∈ b.writes
  copied : ∀ (j : Nat) (b : WrittenBnode), s.bnodes[j]? = some b → s.vacuum.copied j = true →
    b.rewritten = b.writes
  kept : s.vacuum.hasSwapped = true → ∀ b ∈ s.bnodes, ∀ i ∈ b.writes,
    i ∈ b.rewritten ∨ b.isDirty = true

theorem WritersOk.initial (flags : List Bool) : WritersOk (.initial flags) := by
  constructor <;> simp [WriteState.initial, VacuumPoint.holds, VacuumPoint.copied,
    VacuumPoint.hasSwapped]

theorem WritersOk.safe {s : WriteState} (h : WritersOk s) : VacuumSafe s where
  undisturbed := h.undisturbed
  kept hswapped i w hw hpoint := by
    obtain ⟨b, hb, hi⟩ := h.applied i w hw (.inr hpoint)
    exact ⟨b, hb, h.kept hswapped b (mem_of_getElem? hb) i hi⟩

section Writers

variable {s s' : WriteState} {i j : Nat} {w : Writer} {shard : Fin writeLockShards}

theorem WritersOk.check {bnode : Nat} (h : WritersOk s)
    (hs : writeStep s (.check shard bnode) = some s') : WritersOk s' := by
  simp only [writeStep, ite_none_left_eq_some, some.injEq] at hs
  obtain ⟨-, rfl⟩ := hs
  refine ⟨fun k => ?_, fun w hw hpoint => ?_, h.undisturbed, fun j w hj hpoint => ?_, h.copied,
    h.kept⟩
  · simpa [Writer.holds] using h.locks k
  · rcases mem_append.mp hw with hw | hw
    · exact h.early w hw hpoint
    · rw [mem_singleton.mp hw] at hpoint
      cases hpoint
  · rw [getElem?_append] at hj
    split at hj
    · exact h.applied j w hj hpoint
    · have hnew := mem_of_getElem? hj
      rw [mem_singleton.mp hnew] at hpoint
      rcases hpoint with hpoint | hpoint <;> cases hpoint

theorem WritersOk.moveWriter {target : WriterPoint} {writeLocks : Fin writeLockShards → Bool}
    (h : WritersOk s) (hi : s.writers[i]? = some w)
    (hlocks : ∀ k, (Writer.holds k { w with point := target }).toNat + (s.writeLocks k).toNat =
      (Writer.holds k w).toNat + (writeLocks k).toNat)
    (hearly : target = .locked → s.vacuum.passed w.shard = false)
    (happlied : target = .applied ∨ target = .returned →
      ∃ b, s.bnodes[w.bnode]? = some b ∧ i ∈ b.writes) :
    WritersOk { s with writers := s.writers.set i { w with point := target }, writeLocks } := by
  refine ⟨fun k => ?_, fun x hx hlocked => ?_, h.undisturbed, fun j x hj hdone => ?_, h.copied,
    h.kept⟩
  · have hcount := countP_moveCall (Writer.holds k)
      (moveCall_eq_some.mpr ⟨hi, rfl⟩ : moveCall s.writers i w { w with point := target } = some _)
    have hbefore := h.locks k
    have hchange := hlocks k
    simp only
    omega
  · rcases mem_or_eq_of_mem_set hx with hx | rfl
    · exact h.early x hx hlocked
    · exact hearly hlocked
  · rcases getElem?_set_cases hj with ⟨rfl, rfl⟩ | ⟨-, hj⟩
    · exact happlied hdone
    · exact h.applied j x hj hdone

theorem WritersOk.lock (h : WritersOk s) (hallowed : lockInTime s (.lock i))
    (hs : writeStep s (.lock i) = some s') : WritersOk s' := by
  obtain ⟨w, hat, hs⟩ := bind_eq_some_iff.mp hs
  obtain ⟨hi, hpoint⟩ := WriteState.writerAt_eq_some.mp hat
  obtain ⟨hfree, hs⟩ := ite_none_left_eq_some.mp hs
  obtain ⟨mid, hmid, rfl⟩ := map_eq_some_iff.mp hs
  rw [WriteState.move_eq_some hmid]
  rw [lockInTime, hat, all_some, not_eq_true'] at hallowed
  refine h.moveWriter hi (fun k => ?_) (fun _ => hallowed) (by simp)
  by_cases hk : k = w.shard
  · subst hk
    simp [Writer.holds, hpoint, hfree]
  · have hne : (w.shard == k) = false := beq_false_of_ne (Ne.symm hk)
    simp [Writer.holds, hne, update_of_ne hk]

/-- A writer that is about to modify the trie is before the barrier or after the swap. -/
theorem VacuumPoint.inWindow_of_passed {vacuum : VacuumPoint} (h : vacuum.passed shard = false) :
    vacuum.inWindow = false ∧ ∀ j, vacuum.copied j = false := by
  cases vacuum <;> first | exact ⟨rfl, fun _ => rfl⟩ | cases h

/-- The bnodes after a change of one that loses no write. -/
theorem modify_keeps_writes {bnodes : List WrittenBnode} {n : Nat} {f : WrittenBnode → WrittenBnode}
    (hf : ∀ b, ∀ i ∈ b.writes, i ∈ (f b).writes) (h : ∃ b, bnodes[j]? = some b ∧ i ∈ b.writes) :
    ∃ b, (bnodes.modify n f)[j]? = some b ∧ i ∈ b.writes := by
  obtain ⟨b, hb, hi⟩ := h
  rw [getElem?_modify, hb]
  refine ⟨_, rfl, ?_⟩
  split
  · exact hf b i hi
  · exact hi

theorem WritersOk.apply (h : WritersOk s) (hs : writeStep s (.apply i) = some s') :
    WritersOk s' := by
  obtain ⟨w, hi, hpoint, hbnode, rfl⟩ := apply_eq_some hs
  obtain ⟨hwindow, hcopied⟩ :=
    VacuumPoint.inWindow_of_passed (h.early w (mem_of_getElem? hi) hpoint)
  -- the bnode first, then the writer
  have hwritten : WritersOk { s with
      bnodes := s.bnodes.modify w.bnode fun b =>
        { b with writes := b.writes ++ [i], isDirty := true }
      disturbed := s.disturbed || s.vacuum.inWindow } := by
    refine ⟨h.locks, h.early, ?_, fun j x hj hdone => ?_, fun j b _ hj => ?_,
      fun hswapped b hb x hx => ?_⟩
    · simp only [h.undisturbed, hwindow, Bool.or_self]
    · exact modify_keeps_writes (fun b x hx => mem_append_left _ hx) (h.applied j x hj hdone)
    · rw [hcopied j] at hj
      cases hj
    · rcases mem_modify_cases hb with hb | ⟨old, -, rfl⟩
      · exact h.kept hswapped b hb x hx
      · exact .inr rfl
  refine hwritten.moveWriter hi (fun k => ?_) nofun fun _ => ?_
  · simp [Writer.holds, hpoint]
  · simp only [getElem?_modify, getElem?_eq_getElem hbnode]
    exact ⟨_, rfl, by simp⟩

theorem WritersOk.unlock (h : WritersOk s) (hs : writeStep s (.unlock i) = some s') :
    WritersOk s' := by
  obtain ⟨w, hat, hs⟩ := bind_eq_some_iff.mp hs
  obtain ⟨hi, hpoint⟩ := WriteState.writerAt_eq_some.mp hat
  obtain ⟨mid, hmid, rfl⟩ := map_eq_some_iff.mp hs
  rw [WriteState.move_eq_some hmid]
  have hheld : s.writeLocks w.shard = true := by
    have hpos : 0 < s.writers.countP (Writer.holds w.shard) :=
      countP_pos_iff.mpr ⟨w, mem_of_getElem? hi, by simp [Writer.holds, hpoint]⟩
    have hlocks := h.locks w.shard
    exact toNat_eq_one.mp (by have hone := (s.writeLocks w.shard).toNat_le; omega)
  refine h.moveWriter hi (fun k => ?_) nofun fun _ => h.applied _ w hi (.inl hpoint)
  by_cases hk : k = w.shard
  · subst hk
    simp [Writer.holds, hpoint, hheld]
  · have hne : (w.shard == k) = false := beq_false_of_ne (Ne.symm hk)
    simp [Writer.holds, hne, update_of_ne hk]

end Writers

section Vacuum

variable {s s' : WriteState} {vacuum : VacuumPoint}

variable (h : WritersOk s)

include h

theorem WritersOk.advance {flag : Bool} (hholds : ∀ k, vacuum.holds k = s.vacuum.holds k)
    (hearly : ∀ k, vacuum.passed k → s.vacuum.passed k)
    (hcopied : ∀ j, vacuum.copied j → s.vacuum.copied j)
    (hkept : vacuum.hasSwapped → ∀ b ∈ s.bnodes, ∀ i ∈ b.writes, i ∈ b.rewritten ∨ b.isDirty) :
    WritersOk { s with vacuum, vacuumInProgress := flag } where
  locks k := by
    simp only [hholds k]
    exact h.locks k
  early w hw hpoint := by
    rw [eq_false_iff]
    intro hpassed
    exact eq_false_iff.mp (h.early w hw hpoint) (hearly w.shard hpassed)
  undisturbed := h.undisturbed
  applied := h.applied
  copied j b hb hj := h.copied j b hb (hcopied j hj)
  kept := hkept

theorem WritersOk.vacuumLock {taken : Nat} (hat : s.vacuum = .locking taken)
    (hshard : taken < writeLockShards) (hfree : s.writeLocks ⟨taken, hshard⟩ = false) :
    WritersOk { s with
      writeLocks := update s.writeLocks ⟨taken, hshard⟩ true
      vacuum := .locking (taken + 1) } := by
  have hnone : s.writers.countP (Writer.holds ⟨taken, hshard⟩) = 0 := by
    have hlocks := h.locks ⟨taken, hshard⟩
    rw [hfree, toNat_false] at hlocks
    omega
  refine ⟨fun k => ?_, fun w hw hpoint => ?_, h.undisturbed, h.applied,
    fun _ _ _ hj => (nomatch hj), fun hswapped => (nomatch hswapped)⟩
  · by_cases hk : k = ⟨taken, hshard⟩
    · subst hk
      simp [hnone, VacuumPoint.holds]
    · have hlocks := h.locks k
      have hne : k.val ≠ taken := fun heq => hk (Fin.ext heq)
      have hsame : decide (k.val < taken + 1) = decide (k.val < taken) := by
        rw [decide_eq_decide]
        omega
      simpa only [update_of_ne hk, hat, VacuumPoint.holds, hsame] using hlocks
  · have hbefore := h.early w hw hpoint
    rw [hat, VacuumPoint.passed, decide_eq_false_iff_not] at hbefore
    have hne : w.shard.val ≠ taken := by
      intro heq
      have hpos : 0 < s.writers.countP (Writer.holds ⟨taken, hshard⟩) := by
        refine countP_pos_iff.mpr ⟨w, hw, ?_⟩
        have hshardEq : w.shard = ⟨taken, hshard⟩ := Fin.ext heq
        simp [Writer.holds, hpoint, hshardEq]
      omega
    simp only [VacuumPoint.passed, decide_eq_false_iff_not]
    omega

theorem WritersOk.vacuumUnlock {released : Nat} (hat : s.vacuum = .unlocking released)
    (hshard : released < writeLockShards) : WritersOk { s with
      writeLocks := update s.writeLocks ⟨released, hshard⟩ false
      vacuum := .unlocking (released + 1) } := by
  refine ⟨fun k => ?_, fun w hw hpoint => ?_, h.undisturbed, h.applied,
    fun _ _ _ hj => (nomatch hj), fun hswapped => (nomatch hswapped)⟩
  · have hlocks := h.locks k
    rw [hat] at hlocks
    by_cases hk : k = ⟨released, hshard⟩
    · subst hk
      have hone := (s.writeLocks ⟨released, hshard⟩).toNat_le
      simp only [VacuumPoint.holds, Nat.le_refl, decide_true, toNat_true] at hlocks
      simp only [VacuumPoint.holds, update_self, Nat.not_succ_le_self, decide_false]
      omega
    · have hne : k.val ≠ released := fun heq => hk (Fin.ext heq)
      have hsame : decide (released + 1 ≤ k.val) = decide (released ≤ k.val) := by
        rw [decide_eq_decide]
        omega
      simpa only [update_of_ne hk, VacuumPoint.holds, hsame] using hlocks
  · have hbefore := h.early w hw hpoint
    rw [hat] at hbefore
    cases hbefore

theorem WritersOk.walk {n : Nat} {f : WrittenBnode → WrittenBnode}
    (hat : s.vacuum.inWindow ∧ ∀ k, s.vacuum.holds k = false)
    (hvacuum : vacuum.inWindow ∧ ∀ k, vacuum.holds k = false) (hf : ∀ b, (f b).writes = b.writes)
    (hcopied : ∀ (j : Nat) (b : WrittenBnode), s.bnodes[j]? = some b → vacuum.copied j →
      (if n = j then f b else b).rewritten = b.writes) :
    WritersOk { s with bnodes := s.bnodes.modify n f, vacuum } := by
  refine ⟨fun k => ?_, fun w hw hpoint => ?_, h.undisturbed, fun j w hj hdone => ?_,
    fun j b hb hj => ?_, fun hswapped => ?_⟩
  · have hlocks := h.locks k
    simpa only [hat.2 k, hvacuum.2 k] using hlocks
  · have hwindow := (VacuumPoint.inWindow_of_passed (h.early w hw hpoint)).1
    rw [hat.1] at hwindow
    cases hwindow
  · exact modify_keeps_writes (fun b i hi => hf b ▸ hi) (h.applied j w hj hdone)
  · rw [getElem?_modify] at hb
    obtain ⟨old, hold, rfl⟩ := map_eq_some_iff.mp hb
    have hsame : (if n = j then f old else old).writes = old.writes := by
      split
      · exact hf old
      · rfl
    rw [hsame]
    exact hcopied j old hold hj
  · have hwindow := hvacuum.1
    cases vacuum with
    | swapped | finished => cases hwindow
    | _ => cases hswapped

theorem WritersOk.step {a : WriteAction} (hallowed : lockInTime s a)
    (hs : writeStep s a = some s') : WritersOk s' := by
  cases a with
  | check shard bnode => exact h.check hs
  | lock i => exact h.lock hallowed hs
  | apply i => exact h.apply hs
  | unlock i => exact h.unlock hs
  | vacuumSet =>
    simp only [writeStep, ite_none_right_eq_some, some.injEq] at hs
    obtain ⟨hat, rfl⟩ := hs
    refine h.advance (fun _ => ?_) nofun nofun
      nofun
    rw [hat]
    rfl
  | vacuumFlush =>
    simp only [writeStep, ite_none_right_eq_some, some.injEq] at hs
    obtain ⟨hat, rfl⟩ := hs
    refine ⟨fun k => ?_, fun w _ _ => ?_, h.undisturbed, fun j w hj hdone => ?_,
      fun _ _ _ hj => (nomatch hj), fun hswapped => (nomatch hswapped)⟩
    · have hlocks := h.locks k
      rw [hat] at hlocks
      simpa [VacuumPoint.holds] using hlocks
    · simp [VacuumPoint.passed]
    · obtain ⟨b, hb, hi⟩ := h.applied j w hj hdone
      exact ⟨{ b with isDirty := false }, by simp [hb], hi⟩
  | vacuumLock =>
    simp only [writeStep] at hs
    split at hs
    · rename_i taken hat
      split at hs
      · rename_i hshard
        rw [ite_none_left_eq_some] at hs
        obtain ⟨hfree, hs⟩ := hs
        cases hs
        exact h.vacuumLock hat hshard (not_eq_true _ ▸ hfree)
      · rename_i hend
        cases hs
        -- every shard is below `taken`: all locks are held and none is still ahead
        refine h.advance (fun k => ?_) (fun k _ => ?_) nofun
          nofun
        · have := k.isLt
          simp only [hat, VacuumPoint.holds, decide_eq_decide]
          omega
        · have := k.isLt
          simp only [hat, VacuumPoint.passed, decide_eq_true_eq]
          omega
    · cases hs
  | vacuumUnlock =>
    simp only [writeStep] at hs
    split at hs
    · rename_i released hat
      split at hs
      · rename_i hshard
        cases hs
        exact h.vacuumUnlock hat hshard
      · rename_i hend
        cases hs
        refine h.advance (fun k => ?_) (fun k _ => ?_) (fun j hj => ?_)
          nofun
        · have := k.isLt
          rw [hat]
          exact (decide_eq_false (by omega)).symm
        · rw [hat]
          rfl
        · simp [VacuumPoint.copied] at hj
    · cases hs
  | vacuumSerialize =>
    simp only [writeStep] at hs
    split at hs
    · rename_i walked hat
      rw [ite_none_right_eq_some] at hs
      obtain ⟨-, hs⟩ := hs
      cases hs
      refine h.walk (hat ▸ ⟨rfl, fun _ => rfl⟩) ⟨rfl, fun _ => rfl⟩ (fun _ => rfl)
        fun j b hb hj => ?_
      split
      · rfl
      · rename_i hne
        refine h.copied j b hb ?_
        simp only [VacuumPoint.copied, decide_eq_true_eq] at hj
        simp only [hat, VacuumPoint.copied, decide_eq_true_eq]
        omega
    · cases hs
  | vacuumClean =>
    simp only [writeStep] at hs
    split at hs
    · rename_i bnode hat
      cases hs
      refine h.walk (hat ▸ ⟨rfl, fun _ => rfl⟩) ⟨rfl, fun _ => rfl⟩ (fun _ => rfl)
        fun j b hb hj => ?_
      have hcopied : b.rewritten = b.writes := by
        refine h.copied j b hb ?_
        simp only [VacuumPoint.copied, decide_eq_true_eq] at hj
        simp only [hat, VacuumPoint.copied, decide_eq_true_eq]
        omega
      split <;> exact hcopied
    · cases hs
  | vacuumSwap =>
    simp only [writeStep, ite_none_right_eq_some, some.injEq] at hs
    obtain ⟨hat, rfl⟩ := hs
    refine h.advance (fun _ => ?_) nofun nofun
      fun _ b hb i hi => ?_
    · rw [hat]
      rfl
    · obtain ⟨j, hj⟩ := mem_iff_getElem?.mp hb
      have hlt := (List.getElem?_eq_some_iff.mp hj).1
      rw [h.copied j b hj (by simpa [hat, VacuumPoint.copied] using hlt)]
      exact .inl hi
  | vacuumClear =>
    simp only [writeStep, ite_none_right_eq_some, some.injEq] at hs
    obtain ⟨hat, rfl⟩ := hs
    refine h.advance (fun _ => ?_) nofun nofun
      fun _ => h.kept ?_
    · rw [hat]
      rfl
    · rw [hat]
      rfl

end Vacuum

/-! ### Runs -/

/-- If no writer takes the lock of a shard behind the vacuum's barrier, nothing is modified
between the barrier and the swap and no write is lost. -/
theorem vacuum_excludes_writers {flags : List Bool} {s : WriteState}
    (h : Reaches writeStep lockInTime (.initial flags) s) : VacuumSafe s :=
  (h.invariant WritersOk (.initial flags) fun _ _ _ hok hallowed hstep =>
    hok.step hallowed hstep).safe

def firstShard : Fin writeLockShards := ⟨0, by decide⟩

def barrier : List WriteAction :=
  List.replicate (writeLockShards + 1) .vacuumLock ++
    List.replicate (writeLockShards + 1) .vacuumUnlock

def writesAround : List WriteAction :=
  [.check firstShard 0, .lock 0, .apply 0, .unlock 0, .vacuumSet, .vacuumFlush] ++ barrier ++
    [.vacuumSerialize, .vacuumClean, .vacuumSwap, .vacuumClear, .check firstShard 0, .lock 1,
      .apply 1, .unlock 1]

/-- One writer returns before the vacuum, one starts after it. -/
theorem vacuum_excludes_writers_around : ∃ s, Reaches writeStep lockInTime (.initial [false]) s ∧
      (s.vacuum = .finished ∧ s.writers.map Writer.point = [.returned, .returned]) ∧
      VacuumSafe s := by
  exact exists_reaches_and writesAround (by decide +kernel) fun s hs => vacuum_excludes_writers hs

/-- The writer tested the flag before it was set, and modifies the bnode after it was
serialized and before its flag is cleared. -/
def lateWrite : List WriteAction :=
  [.check firstShard 0, .vacuumSet, .vacuumFlush] ++ barrier ++
    [.vacuumSerialize, .lock 0, .apply 0, .unlock 0, .vacuumClean, .vacuumSwap]

/-- The new file has the bnode without the write, which returned. -/
theorem vacuum_loses_write :
    ∃ s, Reaches writeStep always (.initial [false]) s ∧ s.disturbed = true ∧
      s.vacuum = .swapped ∧ s.writers = [⟨firstShard, 0, .returned⟩] ∧
        s.bnodes = [⟨[0], false, []⟩] := by
  exact exists_reaches lateWrite (by decide +kernel)

end WaveDB.Database
