import WaveDB.Basis.Runs

/-!
Vacuums and cursors (`database_vacuum` and `database_vacuum_auto` in `Database/database.c`,
`database_scan_start` and `database_scan_end` in `Database/database_iterator.c`).

Each call is at a point of its code; `gateStep` moves one call, and calls interleave freely.
`database_scan_start` tests `vacuum_in_progress` under `cursor_count_mutex` and counts its
cursor after releasing it. `database_vacuum` tests `open_cursor_count` and sets the flag
without the mutex, `database_vacuum_auto` with it; neither looks whether a vacuum is running.

`GateCounts` forgets the calls and keeps how many are where. `vacuum_exclusive_of_undisturbed`:
the tests are enough as long as nothing that conflicts comes between a test and its act.
-/

namespace WaveDB.Database

open WaveDB.Basis Option

/-! ### The system -/

inductive GatePoint where
  /-- `database_scan_start` holds the mutex and is about to test the flag. -/
  | scanLocked
  /-- It waits on `cursor_cvar`, without the mutex. -/
  | scanWaiting
  /-- It has seen the flag clear and released the mutex. -/
  | scanAdmitted
  /-- Its cursor is counted, until `database_scan_end`. -/
  | cursorOpen
  /-- `database_vacuum` has seen no cursor. -/
  | vacuumChecked
  /-- `database_vacuum_auto` holds the mutex and is about to test the count. -/
  | autoLocked
  /-- It waits on `cursor_cvar`, without the mutex. -/
  | autoWaiting
  /-- It has seen no cursor and still holds the mutex. -/
  | autoChecked
  /-- Either vacuum between setting and clearing the flag. -/
  | vacuumRunning
  | returned
deriving DecidableEq

structure GateState where
  vacuumInProgress : Bool
  openCursorCount : Nat
  /-- `cursor_count_mutex` is held. -/
  cursorCountMutex : Bool
  calls : List GatePoint
deriving DecidableEq

def GateState.initial : GateState := ⟨false, 0, false, []⟩

inductive GateAction where
  | scanLock
  | scanTest (i : Nat)
  | scanWake (i : Nat)
  | scanRegister (i : Nat)
  /-- The iterator cannot be allocated. -/
  | scanFail (i : Nat)
  | scanEnd (i : Nat)
  | vacuumTest
  | vacuumSet (i : Nat)
  | autoLock
  | autoTest (i : Nat)
  | autoWake (i : Nat)
  /-- `cursor_close_wait_ms` is over. -/
  | autoTimeout (i : Nat)
  | autoSet (i : Nat)
  | vacuumClear (i : Nat)

variable (s : GateState)

def GateState.enter (point : GatePoint) : GateState :=
  { s with calls := s.calls ++ [point] }

def GateState.move (i : Nat) (source target : GatePoint) : Option GateState :=
  (moveCall s.calls i source target).map fun calls => { s with calls }

def GateState.lock : Option GateState :=
  if s.cursorCountMutex then none else some { s with cursorCountMutex := true }

def GateState.unlock : GateState := { s with cursorCountMutex := false }

/-- One step of one call; `none` when the call cannot take it. -/
def gateStep (s : GateState) : GateAction → Option GateState
  | .scanLock => s.lock.map fun s => s.enter .scanLocked
  | .scanTest i =>
    (s.move i .scanLocked (if s.vacuumInProgress then .scanWaiting else .scanAdmitted)).map
      GateState.unlock
  | .scanWake i => s.lock.bind fun s => s.move i .scanWaiting .scanLocked
  | .scanRegister i =>
    (s.move i .scanAdmitted .cursorOpen).map fun s =>
      { s with openCursorCount := s.openCursorCount + 1 }
  | .scanFail i => s.move i .scanAdmitted .returned
  | .scanEnd i =>
    (s.move i .cursorOpen .returned).map fun s =>
      { s with openCursorCount := s.openCursorCount - 1 }
  | .vacuumTest => some (if 0 < s.openCursorCount then s else s.enter .vacuumChecked)
  | .vacuumSet i =>
    (s.move i .vacuumChecked .vacuumRunning).map fun s => { s with vacuumInProgress := true }
  | .autoLock => s.lock.map fun s => s.enter .autoLocked
  | .autoTest i =>
    if 0 < s.openCursorCount then (s.move i .autoLocked .autoWaiting).map GateState.unlock
    else s.move i .autoLocked .autoChecked
  | .autoWake i => s.lock.bind fun s => s.move i .autoWaiting .autoLocked
  | .autoTimeout i => s.move i .autoWaiting .returned
  | .autoSet i =>
    (s.move i .autoChecked .vacuumRunning).map fun s =>
      { s with vacuumInProgress := true, cursorCountMutex := false }
  | .vacuumClear i =>
    (s.move i .vacuumRunning .returned).map fun s => { s with vacuumInProgress := false }

/-! ### What is excluded -/

def GateState.callsAt (point : GatePoint) : Nat := s.calls.countP (· == point)

/-- What the exclusion depends on: the calls at the points that matter, the count and the flag.
`admitted` are the scans between their test and counting their cursor, `checked` the vacuums
between their test and setting the flag, `vacuums` those between setting and clearing it. -/
@[ext]
structure GateCounts where
  vacuums : Nat
  cursors : Nat
  admitted : Nat
  checked : Nat
  openCursorCount : Nat
  vacuumInProgress : Bool

def GateState.counts : GateCounts where
  vacuums := s.callsAt .vacuumRunning
  cursors := s.callsAt .cursorOpen
  admitted := s.callsAt .scanAdmitted
  checked := s.callsAt .vacuumChecked + s.callsAt .autoChecked
  openCursorCount := s.openCursorCount
  vacuumInProgress := s.vacuumInProgress

/-- At most one vacuum runs, and none beside an open cursor. -/
structure VacuumExclusive (c : GateCounts) : Prop where
  one : c.vacuums ≤ 1
  alone : 0 < c.vacuums → c.cursors = 0

/-- No call acts between the test and the act of a call that it conflicts with: a cursor is
counted while no vacuum has tested without having set the flag, and the flag is set while no scan
is admitted and no other vacuum has tested. Vacuums do not test the flag, so a test that lets a
vacuum go on must not fall into the run of another. -/
def undisturbed (s : GateState) : GateAction → Bool
  | .scanRegister _ => s.counts.checked == 0
  | .vacuumTest => !s.vacuumInProgress || decide (0 < s.openCursorCount)
  | .autoTest _ => !s.vacuumInProgress || decide (0 < s.openCursorCount)
  | .vacuumSet _ => s.counts.admitted == 0 && s.counts.checked == 1
  | .autoSet _ => s.counts.admitted == 0 && s.counts.checked == 1
  | _ => true

/-! ### One step -/

def GateCounts.after (c : GateCounts) : GateAction → GateCounts
  | .scanTest _ => if c.vacuumInProgress then c else { c with admitted := c.admitted + 1 }
  | .scanRegister _ =>
    { c with admitted := c.admitted - 1, cursors := c.cursors + 1
             openCursorCount := c.openCursorCount + 1 }
  | .scanFail _ => { c with admitted := c.admitted - 1 }
  | .scanEnd _ => { c with cursors := c.cursors - 1, openCursorCount := c.openCursorCount - 1 }
  | .vacuumTest | .autoTest _ =>
    if 0 < c.openCursorCount then c else { c with checked := c.checked + 1 }
  | .vacuumSet _ | .autoSet _ =>
    { c with checked := c.checked - 1, vacuums := c.vacuums + 1, vacuumInProgress := true }
  | .vacuumClear _ => { c with vacuums := c.vacuums - 1, vacuumInProgress := false }
  | _ => c

def GateCounts.moved (c : GateCounts) (source target : GatePoint) : GateCounts :=
  { c with
    vacuums := c.vacuums + (target == .vacuumRunning).toNat - (source == .vacuumRunning).toNat
    cursors := c.cursors + (target == .cursorOpen).toNat - (source == .cursorOpen).toNat
    admitted := c.admitted + (target == .scanAdmitted).toNat - (source == .scanAdmitted).toNat
    checked := c.checked + (target == .vacuumChecked).toNat + (target == .autoChecked).toNat -
      (source == .vacuumChecked).toNat - (source == .autoChecked).toNat }

section Step

variable {s s' : GateState} {i : Nat} {source target : GatePoint}

theorem GateState.move_counts (h : s.move i source target = some s') :
    s'.counts = s.counts.moved source target := by
  obtain ⟨calls, hcalls, rfl⟩ := map_eq_some_iff.mp h
  have hmoved : ∀ point, calls.countP (· == point) + (source == point).toNat =
      s.callsAt point + (target == point).toNat := fun point => countP_moveCall _ hcalls
  ext
  · exact Nat.eq_sub_of_add_eq (hmoved .vacuumRunning)
  · exact Nat.eq_sub_of_add_eq (hmoved .cursorOpen)
  · exact Nat.eq_sub_of_add_eq (hmoved .scanAdmitted)
  · have hvacuum := hmoved .vacuumChecked
    have hauto := hmoved .autoChecked
    simp only [counts, GateCounts.moved, callsAt] at hvacuum hauto ⊢
    omega
  · rfl
  · rfl

theorem GateState.enter_counts (s : GateState) (point : GatePoint) :
    (s.enter point).counts = s.counts.moved .returned point := by
  have hentered : ∀ other, (s.enter point).callsAt other =
      s.callsAt other + (point == other).toNat := by
    intro other
    simp only [enter, callsAt, List.countP_append, List.countP_singleton]
    cases point == other <;> rfl
  simp only [counts, hentered]
  ext
  · rfl
  · rfl
  · rfl
  · exact Nat.add_add_add_comm _ _ _ _ |>.trans (Nat.add_assoc _ _ _).symm
  · rfl
  · rfl

theorem GateState.lock_counts (h : s.lock = some s') : s'.counts = s.counts := by
  simp only [lock, ite_none_left_eq_some, some.injEq] at h
  obtain ⟨-, rfl⟩ := h
  rfl

/-- Every step of the calls is one of the counts. -/
theorem gateStep_counts {a : GateAction} (h : gateStep s a = some s') :
    s'.counts = s.counts.after a := by
  cases a with
  | scanLock | autoLock =>
    obtain ⟨mid, hmid, rfl⟩ := map_eq_some_iff.mp h
    exact (mid.enter_counts _).trans (GateState.lock_counts hmid)
  | scanTest i =>
    obtain ⟨mid, hmid, rfl⟩ := map_eq_some_iff.mp h
    refine (GateState.move_counts hmid).trans ?_
    rw [GateCounts.after]
    split
    · exact (if_pos ‹_›).symm
    · exact (if_neg ‹_›).symm
  | scanWake i | autoWake i =>
    obtain ⟨mid, hmid, hmove⟩ := bind_eq_some_iff.mp h
    exact (GateState.move_counts hmove).trans (GateState.lock_counts hmid)
  | scanRegister i =>
    obtain ⟨mid, hmid, rfl⟩ := map_eq_some_iff.mp h
    exact congrArg (fun c => { c with openCursorCount := c.openCursorCount + 1 })
      (GateState.move_counts hmid)
  | scanFail i | autoTimeout i => exact GateState.move_counts h
  | scanEnd i =>
    obtain ⟨mid, hmid, rfl⟩ := map_eq_some_iff.mp h
    exact congrArg (fun c => { c with openCursorCount := c.openCursorCount - 1 })
      (GateState.move_counts hmid)
  | vacuumTest =>
    cases h
    rw [GateCounts.after, apply_ite GateState.counts, s.enter_counts]
    rfl
  | vacuumSet i | autoSet i =>
    obtain ⟨mid, hmid, rfl⟩ := map_eq_some_iff.mp h
    exact congrArg (fun c => { c with vacuumInProgress := true }) (GateState.move_counts hmid)
  | autoTest i =>
    rw [gateStep] at h
    rw [GateCounts.after]
    split at h
    · obtain ⟨mid, hmid, rfl⟩ := map_eq_some_iff.mp h
      rw [if_pos ‹_›]
      exact GateState.move_counts hmid
    · rw [if_neg ‹_›]
      exact GateState.move_counts h
  | vacuumClear i =>
    obtain ⟨mid, hmid, rfl⟩ := map_eq_some_iff.mp h
    exact congrArg (fun c => { c with vacuumInProgress := false }) (GateState.move_counts hmid)

/-- A call can only move from where it is. -/
theorem callsAt_pos_of_move (h : s.move i source target = some s') : 0 < s.callsAt source := by
  obtain ⟨calls, hcalls, -⟩ := map_eq_some_iff.mp h
  have hmem := List.mem_of_getElem? (moveCall_eq_some.mp hcalls).1
  exact List.countP_pos_iff.mpr ⟨source, hmem, beq_self_eq_true source⟩

end Step

/-! ### Runs -/

/-- The flag and the count say what is running and what is open. Beside an admitted scan no vacuum
runs; beside a vacuum that has tested nothing runs and no cursor is open. -/
structure GateCounts.Ok (c : GateCounts) : Prop where
  flag : c.vacuumInProgress = true ↔ 0 < c.vacuums
  count : c.openCursorCount = c.cursors
  exclusive : VacuumExclusive c
  admitted : 0 < c.admitted → c.vacuums = 0
  checked : 0 < c.checked → c.vacuums = 0 ∧ c.cursors = 0

/-- The tests of the flag and of the count are what makes the admitted scans and the vacuums that
have tested safe. -/
theorem GateCounts.Ok.step {s s' : GateState} {a : GateAction} (h : s.counts.Ok)
    (hallowed : undisturbed s a = true) (hs : gateStep s a = some s') : s'.counts.Ok := by
  obtain ⟨hflag, hcount, ⟨hone, halone⟩, hadmitted, hchecked⟩ := h
  have hkept : s'.counts = s.counts → s'.counts.Ok := by
    intro heq
    rw [heq]
    exact ⟨hflag, hcount, ⟨hone, halone⟩, hadmitted, hchecked⟩
  have hafter := gateStep_counts hs
  cases a with
  | scanLock | scanWake i | autoLock | autoWake i | autoTimeout i => exact hkept hafter
  | scanTest i =>
    cases hclear : s.counts.vacuumInProgress with
    | true =>
      rw [GateCounts.after, if_pos hclear] at hafter
      exact hkept hafter
    | false =>
      rw [GateCounts.after, if_neg (Bool.eq_false_iff.mp hclear)] at hafter
      have hnone : s.counts.vacuums = 0 := by simpa [hclear] using hflag
      rw [hafter]
      exact ⟨hflag, hcount, ⟨hone, halone⟩, fun _ => hnone, hchecked⟩
  | scanRegister i =>
    have hpos : 0 < s.counts.admitted := by
      obtain ⟨mid, hmid, -⟩ := map_eq_some_iff.mp hs
      exact callsAt_pos_of_move hmid
    have hnone := hadmitted hpos
    have hzero : s.counts.checked = 0 := beq_iff_eq.mp hallowed
    rw [hafter]
    refine ⟨hflag, congrArg (· + 1) hcount, ⟨hone, fun hrun => ?_⟩, fun _ => hnone,
      fun htested => ?_⟩
    · exact absurd hnone (Nat.ne_of_gt hrun)
    · exact absurd hzero (Nat.ne_of_gt htested)
  | scanFail i =>
    rw [hafter]
    refine ⟨hflag, hcount, ⟨hone, halone⟩, fun hpos => hadmitted ?_, hchecked⟩
    exact Nat.lt_of_lt_of_le hpos (Nat.sub_le _ _)
  | scanEnd i =>
    rw [hafter]
    refine ⟨hflag, congrArg (· - 1) hcount, ⟨hone, fun hrun => ?_⟩, hadmitted, fun htested => ?_⟩
    · exact congrArg (· - 1) (halone hrun)
    · obtain ⟨hnone, hclosed⟩ := hchecked htested
      exact ⟨hnone, congrArg (· - 1) hclosed⟩
  | vacuumTest | autoTest i =>
    by_cases hopen : 0 < s.counts.openCursorCount
    · rw [GateCounts.after, if_pos hopen] at hafter
      exact hkept hafter
    · have hclear : s.counts.vacuumInProgress = false := by
        have hopen' : ¬ 0 < s.openCursorCount := hopen
        simpa [undisturbed, hopen', GateState.counts] using hallowed
      have hnone : s.counts.vacuums = 0 := by simpa [hclear] using hflag
      have hclosed : s.counts.cursors = 0 := hcount.symm.trans (Nat.eq_zero_of_not_pos hopen)
      rw [GateCounts.after, if_neg hopen] at hafter
      rw [hafter]
      exact ⟨hflag, hcount, ⟨hone, halone⟩, hadmitted, fun _ => ⟨hnone, hclosed⟩⟩
  | vacuumSet i | autoSet i =>
    obtain ⟨hnoScan, honly⟩ : s.counts.admitted = 0 ∧ s.counts.checked = 1 := by
      simpa [undisturbed] using hallowed
    obtain ⟨hnone, hclosed⟩ := hchecked (honly ▸ Nat.one_pos)
    rw [hafter]
    refine ⟨⟨fun _ => Nat.succ_pos _, fun _ => rfl⟩, hcount, ⟨?_, fun _ => hclosed⟩,
      fun hpos => absurd hnoScan (Nat.ne_of_gt hpos), fun htested => ?_⟩
    · exact Nat.le_of_eq (congrArg (· + 1) hnone)
    · exact absurd (congrArg (· - 1) honly) (Nat.ne_of_gt htested)
  | vacuumClear i =>
    have hnone : s.counts.vacuums - 1 = 0 := Nat.sub_eq_zero_of_le hone
    rw [hafter]
    refine ⟨⟨nofun, fun hrun => absurd hnone (Nat.ne_of_gt hrun)⟩, hcount,
      ⟨Nat.le_trans (Nat.sub_le _ _) hone,
      fun hrun => absurd hnone (Nat.ne_of_gt hrun)⟩, fun _ => hnone, fun htested => ⟨hnone, ?_⟩⟩
    exact (hchecked htested).2

/-- In every run in which no call is disturbed between its test and its act, a vacuum excludes
cursors and other vacuums. -/
theorem vacuum_exclusive_of_undisturbed {s : GateState}
    (h : Reaches gateStep undisturbed .initial s) : VacuumExclusive s.counts := by
  have hstart : GateState.initial.counts.Ok :=
    ⟨by decide, rfl, ⟨by decide, fun _ => rfl⟩, nofun, nofun⟩
  have hok := h.invariant (fun s => s.counts.Ok) hstart fun s a s' hs hallowed hstep =>
    hs.step hallowed hstep
  exact hok.exclusive

def cursorThenVacuum : List GateAction :=
  [.scanLock, .scanTest 0, .scanRegister 0, .scanEnd 0, .vacuumTest, .vacuumSet 1]

/-- A vacuum that starts after a cursor has ended. -/
theorem vacuum_exclusive_after_cursor :
    ∃ s, Reaches gateStep undisturbed .initial s ∧ s.counts.vacuums = 1 ∧
      VacuumExclusive s.counts := by
  exact exists_reaches_and cursorThenVacuum (by decide +kernel)
    fun s hs => vacuum_exclusive_of_undisturbed hs

/-- A cursor that was admitted before the flag was set is counted after it; and two vacuums
that saw no cursor both run. -/
theorem vacuum_meets_cursor : (∃ s, Reaches gateStep always .initial s ∧ 0 < s.counts.vacuums ∧
        0 < s.counts.cursors) ∧
      ∃ s, Reaches gateStep always .initial s ∧ 1 < s.counts.vacuums := by
  constructor
  · exact exists_reaches [.scanLock, .scanTest 0, .vacuumTest, .vacuumSet 1, .scanRegister 0]
      (by decide +kernel)
  · exact exists_reaches [.vacuumTest, .vacuumTest, .vacuumSet 0, .vacuumSet 1] (by decide +kernel)

end WaveDB.Database
