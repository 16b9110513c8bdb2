import WaveDB.Database.WalRecover
import WaveDB.HBTrie.TxManager
import WaveDB.Storage.Superblock

/-!
The committed watermark over the life of a database (`database_create_with_config` in
`Database/database.c`, the end of `wal_manager_recover` in `Database/wal_manager.c`,
`tx_manager_commit` in `HBTrie/mvcc.c`).

Opening creates a transaction manager, stores the id of the superblock as its last committed id
and then the greatest id in the log, each without a comparison. Only commits compare. Every
opening makes a new manager; `marks` are the values its last committed id has had. Both stores
advance the id generator, whose ids are followed at the end.
-/

namespace WaveDB.Database

open WaveDB.Basis Workers HBTrie Storage List Option

/-! ### Opening -/

structure DatabaseFiles where
  slots : Slots
  manifest : Bytes
  wal : WalDirectory

/-- `pending_txn_id`: the id of a superblock with a root, unless all its fields are 0. -/
def pendingTxnId (slots : Slots) : Option TransactionId :=
  (pageFileReadSuperblock slots).bind fun best =>
    if best.2.rootOffset ≠ 0 ∧ best.2.rootOffset ≠ 2 ^ 64 - 1 ∧ best.2.lastTxnId ≠ ⟨0, 0, 0⟩ then
      some best.2.lastTxnId
    else none

variable (gen : IdGenerator) (files : DatabaseFiles) (generator : IdGenerator)
  (target : TransactionId)

/-- `transaction_id_advance_to`, with `TXN_ID_BATCH_SIZE` = 1000. -/
def transactionIdAdvanceTo (target : TransactionId) : IdGenerator :=
  { highWaterTime := if gen.highWaterTime < target.time then target.time else gen.highWaterTime
    globalCount :=
      if gen.globalCount < target.count + 1000 then target.count + 1000 else gen.globalCount }

/-- Both writers of the watermark at opening: no comparison with the value that is there. -/
def storeLastCommitted (mvcc : MvccState) (id : TransactionId) : MvccState :=
  { mvcc with
    generator := transactionIdAdvanceTo mvcc.generator id
    manager := { mvcc.manager with lastCommittedTxnId := id } }

def applyPending (mvcc : MvccState) : MvccState :=
  match pendingTxnId files.slots with
  | some id => storeLastCommitted mvcc id
  | none => mvcc

def recoverWatermark (mvcc : MvccState) : MvccState :=
  if (collectEntries files.manifest files.wal).isEmpty then mvcc
  else storeLastCommitted mvcc (maxTxnId (collectEntries files.manifest files.wal))

/-! ### The system -/

inductive OpenPhase where
  | closed
  | managerCreated
  | pendingApplied
  | opened
deriving DecidableEq

/-- A database. `marks` records the values of the watermark of the current manager and `readIds`
the ids that `tx_manager_get_last_committed` returned, the latest first; no step reads them. -/
structure WatermarkState where
  files : DatabaseFiles
  phase : OpenPhase
  mvcc : MvccState
  marks : List TransactionId
  readIds : List TransactionId

/-- A step of opening, of the calls on an open database, or a read of the watermark. -/
inductive WatermarkAction where
  | createManager (files : DatabaseFiles)
  | applyPending
  | recover
  | call (action : MvccAction)
  | getLastCommitted

variable (s : WatermarkState)

def WatermarkState.lastCommitted : TransactionId :=
  s.mvcc.manager.lastCommittedTxnId

def WatermarkState.advance (phase : OpenPhase) (mvcc : MvccState) : WatermarkState :=
  { s with phase := phase, mvcc := mvcc, marks := mvcc.manager.lastCommittedTxnId :: s.marks }

/-- One step; `none` when it cannot be taken. A database may be opened again at any time, after a
close or a crash, from whatever files are there. The id generator is global. -/
def watermarkStep : WatermarkAction → Option WatermarkState
  | .createManager files =>
    some { files, phase := .managerCreated, mvcc := .initial s.mvcc.generator
           marks := [txManagerCreate.lastCommittedTxnId], readIds := [] }
  | .applyPending =>
    if s.phase = .managerCreated then
      some (s.advance .pendingApplied (applyPending s.files s.mvcc))
    else none
  | .recover =>
    if s.phase = .pendingApplied then
      some (s.advance .opened (recoverWatermark s.files s.mvcc))
    else none
  | .call action =>
    if s.phase = .opened then (mvccStep s.mvcc action).map (s.advance .opened) else none
  | .getLastCommitted =>
    if s.phase ≠ .closed then some { s with readIds := s.lastCommitted :: s.readIds } else none

def neverOpened (files : DatabaseFiles) : WatermarkState :=
  { files, phase := .closed, mvcc := .initial generator, marks := [], readIds := [] }

def opensOnly (accepted : DatabaseFiles → Bool) (_ : WatermarkState) : WatermarkAction → Bool
  | .createManager files => accepted files
  | _ => true

/-- The watermark has only risen, and so have the read ids. -/
structure WatermarkState.NeverDecreased : Prop where
  marks : s.marks.Pairwise (· ≥ ·)
  readIds : s.readIds.Pairwise (· ≥ ·)

def logReachesSuperblock : Bool :=
  (collectEntries files.manifest files.wal).isEmpty ||
    (pendingTxnId files.slots).all fun id =>
      decide (id ≤ maxTxnId (collectEntries files.manifest files.wal))

/-! ### Steps -/

/-- All recorded values are at most the watermark, and it is still what opening has made it so
far. -/
structure WatermarkInv : Prop where
  decreased : s.NeverDecreased
  marks_le : ∀ mark ∈ s.marks, mark ≤ s.lastCommitted
  readIds_le : ∀ id ∈ s.readIds, id ≤ s.lastCommitted
  files : s.phase = .managerCreated ∨ s.phase = .pendingApplied →
    logReachesSuperblock s.files = true
  created : s.phase = .managerCreated → s.lastCommitted = ⟨0, 0, 0⟩
  pending : s.phase = .pendingApplied →
    s.lastCommitted = (pendingTxnId s.files.slots).getD ⟨0, 0, 0⟩

section Steps

variable {s s' : WatermarkState} {phase : OpenPhase} {mvcc : MvccState}

theorem WatermarkInv.advance (h : WatermarkInv s)
    (hle : s.lastCommitted ≤ mvcc.manager.lastCommittedTxnId)
    (hfiles : phase = .managerCreated ∨ phase = .pendingApplied → logReachesSuperblock s.files)
    (hcreated : phase ≠ .managerCreated) (hpending : phase = .pendingApplied →
      mvcc.manager.lastCommittedTxnId = (pendingTxnId s.files.slots).getD ⟨0, 0, 0⟩) :
    WatermarkInv (s.advance phase mvcc) := by
  constructor
  · constructor
    · refine pairwise_cons.mpr ⟨?_, h.decreased.marks⟩
      intro mark hmark
      exact (h.marks_le mark hmark).trans hle
    · exact h.decreased.readIds
  · intro mark hmark
    rcases mem_cons.mp hmark with rfl | hmark
    · exact le_rfl
    · exact (h.marks_le mark hmark).trans hle
  · intro id hid
    exact (h.readIds_le id hid).trans hle
  · exact hfiles
  · intro hphase
    exact absurd hphase hcreated
  · exact hpending

theorem WatermarkInv.createManager (files : DatabaseFiles) (hfiles : logReachesSuperblock files) :
    WatermarkInv
      { files, phase := .managerCreated, mvcc := .initial s.mvcc.generator
        marks := [txManagerCreate.lastCommittedTxnId], readIds := [] } := by
  constructor
  · exact ⟨pairwise_singleton _ _, List.Pairwise.nil⟩
  · exact forall_mem_singleton.mpr le_rfl
  · exact nofun
  · exact fun _ => hfiles
  · exact fun _ => rfl
  · exact nofun

variable (h : WatermarkInv s)

include h

theorem WatermarkInv.applyPending (hphase : s.phase = .managerCreated) :
    WatermarkInv (s.advance .pendingApplied (applyPending s.files s.mvcc)) := by
  have hzero := h.created hphase
  have hmark : (Database.applyPending s.files s.mvcc).manager.lastCommittedTxnId =
      (pendingTxnId s.files.slots).getD ⟨0, 0, 0⟩ := by
    rw [Database.applyPending]
    split
    · rename_i id hid
      rw [hid]
      rfl
    · rename_i hnone
      rw [hnone]
      exact hzero
  refine h.advance ?_ (fun _ => h.files (.inl hphase)) nofun fun _ => hmark
  rw [hzero]
  exact zero_le_txnId _

theorem WatermarkInv.recover (hphase : s.phase = .pendingApplied) :
    WatermarkInv (s.advance .opened (recoverWatermark s.files s.mvcc)) := by
  refine h.advance ?_ nofun nofun nofun
  have hmark := h.pending hphase
  have hfiles := h.files (.inr hphase)
  rw [recoverWatermark]
  split
  · exact le_rfl
  · rename_i hentries
    rw [logReachesSuperblock, Bool.or_eq_true, or_iff_right hentries] at hfiles
    rw [hmark]
    cases hid : pendingTxnId s.files.slots with
    | none => exact zero_le_txnId _
    | some id =>
      rw [hid, all_some, decide_eq_true_eq] at hfiles
      exact hfiles

theorem WatermarkInv.getLastCommitted :
    WatermarkInv { s with readIds := s.lastCommitted :: s.readIds } := by
  constructor
  · exact ⟨h.decreased.marks, pairwise_cons.mpr ⟨h.readIds_le, h.decreased.readIds⟩⟩
  · exact h.marks_le
  · exact forall_mem_cons.mpr ⟨le_rfl, h.readIds_le⟩
  · exact h.files
  · exact h.created
  · exact h.pending

theorem WatermarkInv.step {a : WatermarkAction}
    (hallowed : opensOnly logReachesSuperblock s a) (hs : watermarkStep s a = some s') :
    WatermarkInv s' := by
  cases a with
  | createManager files =>
    obtain rfl := some.inj hs
    exact .createManager files hallowed
  | applyPending =>
    obtain ⟨hphase, ⟨⟩⟩ := ite_none_right_eq_some.mp hs
    exact h.applyPending hphase
  | recover =>
    obtain ⟨hphase, ⟨⟩⟩ := ite_none_right_eq_some.mp hs
    exact h.recover hphase
  | call action =>
    obtain ⟨-, hs⟩ := ite_none_right_eq_some.mp hs
    obtain ⟨mvcc, hmvcc, rfl⟩ := map_eq_some_iff.mp hs
    exact h.advance (mvccStep_lastCommitted hmvcc) nofun nofun nofun
  | getLastCommitted =>
    obtain ⟨-, ⟨⟩⟩ := ite_none_right_eq_some.mp hs
    exact h.getLastCommitted

end Steps

/-! ### Runs -/

def openedFrom (files : DatabaseFiles) : WatermarkState :=
  let created : WatermarkState :=
    { files, phase := .managerCreated, mvcc := .initial generator
      marks := [txManagerCreate.lastCommittedTxnId], readIds := [] }
  let pending := created.advance .pendingApplied (applyPending files created.mvcc)
  pending.advance .opened (recoverWatermark files pending.mvcc)

theorem reaches_openedFrom {accepted : DatabaseFiles → Bool} {files : DatabaseFiles}
    (haccepted : accepted files) (generator : IdGenerator) (before : DatabaseFiles) :
    Reaches watermarkStep (opensOnly accepted) (neverOpened generator before)
      (openedFrom generator files) := by
  have hcreated : Reaches watermarkStep (opensOnly accepted) (neverOpened generator before) _ :=
    Reaches.start.next (.createManager files) haccepted rfl
  have hpending := hcreated.next .applyPending rfl rfl
  exact hpending.next .recover rfl rfl

/-- Recovery stores the greatest id of the log over the id of the superblock. -/
theorem openedFrom_decreased {files : DatabaseFiles} {generator : IdGenerator}
    (h : (openedFrom generator files).NeverDecreased) : logReachesSuperblock files = true := by
  have hmarks := (pairwise_cons.mp h.marks).1 _ mem_cons_self
  rw [logReachesSuperblock, Bool.or_eq_true, or_iff_not_imp_left]
  intro hentries
  rw [Option.all_eq_true]
  intro id hid
  rw [applyPending, hid, recoverWatermark, if_neg hentries] at hmarks
  exact decide_eq_true hmarks

/-- The watermark of every manager only rises, in all runs that open accepted files, exactly when
no accepted log is older than the superblock beside it. -/
theorem watermark_never_decreases_iff (accepted : DatabaseFiles → Bool) (generator : IdGenerator)
    (before : DatabaseFiles) :
    (∀ s, Reaches watermarkStep (opensOnly accepted) (neverOpened generator before) s →
      s.NeverDecreased) ↔
    ∀ files, accepted files = true → logReachesSuperblock files = true := by
  constructor
  · intro h files haccepted
    exact openedFrom_decreased (h _ (reaches_openedFrom haccepted generator before))
  · intro haccepted s hs
    have hstart : WatermarkInv (neverOpened generator before) := by
      constructor
      · exact ⟨List.Pairwise.nil, List.Pairwise.nil⟩
      · exact nofun
      · exact nofun
      · exact nofun
      · exact nofun
      · exact nofun
    have hinv : WatermarkInv s := by
      refine hs.invariant _ hstart ?_
      intro s a s' hinv hallowed hstep
      refine hinv.step ?_ hstep
      cases a with
      | createManager files => exact haccepted files hallowed
      | applyPending => rfl
      | recover => rfl
      | call action => rfl
      | getLastCommitted => rfl
    exact hinv.decreased

def olderLog : DatabaseFiles where
  slots := [some ⟨0, 8192, 100, ⟨2, 0, 0⟩⟩]
  manifest := []
  wal := oneFile threadPath

/-- A read during opening gets the id of the superblock, one after it a smaller one. -/
theorem recovery_lowers_watermark :
    ∃ s, Reaches watermarkStep always (neverOpened ⟨0, 1⟩ olderLog) s ∧
      s.readIds = [⟨1, 0, 0⟩, ⟨2, 0, 0⟩] ∧ ¬ s.NeverDecreased := by
  obtain ⟨s, hs, hreads⟩ : ∃ s, Reaches watermarkStep always (neverOpened ⟨0, 1⟩ olderLog) s ∧
      s.readIds = [⟨1, 0, 0⟩, ⟨2, 0, 0⟩] :=
    exists_reaches [.createManager olderLog, .applyPending, .getLastCommitted, .recover,
      .getLastCommitted] (by decide +kernel)
  refine ⟨s, hs, hreads, ?_⟩
  intro h
  have hpair := h.readIds
  rw [hreads, pairwise_pair] at hpair
  exact absurd hpair (by decide)

/-! ### Ids issued after opening -/

/-- The generator after `transaction_id_get_next` was called at these clock readings. -/
def afterCalls (clocks : List ClockReading) : IdGenerator :=
  clocks.foldl (fun gen clock => (transactionIdGetNext gen clock).2) gen

theorem afterCalls_eq (clocks : List ClockReading) : afterCalls gen clocks =
      ⟨gen.highWaterTime, gen.globalCount + UInt64.ofNat clocks.length⟩ := by
  induction clocks generalizing gen with
  | nil => simp [afterCalls]
  | cons clock rest ih =>
    rw [afterCalls, foldl_cons, ← afterCalls, ih]
    simp [transactionIdGetNext, UInt64.add_assoc, UInt64.add_comm 1]

/-- The clock is past the target, or it agrees with the target up to a count that is not. A clock
behind the target reads as its second with no nanoseconds. -/
def PassesTarget (target : TransactionId) (earlier : Nat) (clock : ClockReading) : Prop :=
  target.time < gen.highWaterTime ∨ target.time < clock.secs ∨
    (clock.secs = target.time ∧ target.nanos < clock.nsecs) ∨
    ((clock.secs = target.time ∧ clock.nsecs = target.nanos ∨
        clock.secs < target.time ∧ target.nanos = 0) ∧
      target.count < (transactionIdAdvanceTo gen target).globalCount + UInt64.ofNat earlier)

/-- The generator with the ids it has returned, the latest first; no step reads them. -/
structure IssuedIds where
  generator : IdGenerator
  ids : List TransactionId

inductive IdAction where
  | getNext (clock : ClockReading)
  | advanceTo (target : TransactionId)

def idStep (s : IssuedIds) : IdAction → Option IssuedIds
  | .getNext clock =>
    some ⟨(transactionIdGetNext s.generator clock).2,
      (transactionIdGetNext s.generator clock).1 :: s.ids⟩
  | .advanceTo target => some { s with generator := transactionIdAdvanceTo s.generator target }

def countRemains (s : IssuedIds) : IdAction → Bool
  | .getNext _ => s.generator.globalCount != 0xFFFFFFFFFFFFFFFF
  | .advanceTo _ => true

/-- Every id has a count below the generator's, so the next one is new. -/
structure IssuedInv (s : IssuedIds) : Prop where
  nodup : s.ids.Nodup
  count_lt : ∀ id ∈ s.ids, id.count < s.generator.globalCount

theorem le_globalCount_advanceTo :
    gen.globalCount ≤ (transactionIdAdvanceTo gen target).globalCount := by
  dsimp only [transactionIdAdvanceTo]
  split
  · rename_i hlt
    exact UInt64.le_of_lt hlt
  · exact UInt64.le_refl _

theorem IssuedInv.step {s s' : IssuedIds} {a : IdAction} (h : IssuedInv s)
    (hallowed : countRemains s a) (hs : idStep s a = some s') : IssuedInv s' := by
  cases a with
  | getNext clock =>
    obtain rfl := some.inj hs
    have hcount : (transactionIdGetNext s.generator clock).1.count = s.generator.globalCount := by
      rw [transactionIdGetNext]
      split <;> rfl
    have hlt : s.generator.globalCount < s.generator.globalCount + 1 := by
      have hmax : s.generator.globalCount ≠ 0xFFFFFFFFFFFFFFFF := bne_iff_ne.mp hallowed
      grind
    constructor
    · refine nodup_cons.mpr ⟨?_, h.nodup⟩
      intro hmem
      have hold := h.count_lt _ hmem
      rw [hcount] at hold
      exact UInt64.lt_irrefl _ hold
    · refine forall_mem_cons.mpr ⟨?_, ?_⟩
      · rw [hcount]
        exact hlt
      · intro id hid
        exact UInt64.lt_trans (h.count_lt id hid) hlt
  | advanceTo target =>
    obtain rfl := some.inj hs
    constructor
    · exact h.nodup
    · intro id hid
      exact UInt64.lt_of_lt_of_le (h.count_lt id hid) (le_globalCount_advanceTo _ _)

/-- After an advance an id is above the target exactly when the clock or the count passes it, and
ids are distinct in every run that does not bring the count back to 0. -/
theorem ids_above_target_iff_and_distinct (gen : IdGenerator) : (∀ target earlier clock,
      0 < transactionIdCompare (transactionIdGetNext
          (afterCalls (transactionIdAdvanceTo gen target) earlier) clock).1 target ↔
        PassesTarget gen target earlier.length clock) ∧
    ∀ s, Reaches idStep countRemains ⟨gen, []⟩ s → s.ids.Nodup := by
  refine ⟨fun target earlier clock => ?_, fun s hs => ?_⟩
  · rw [transactionIdCompare_gt, TransactionId.lt_iff, afterCalls_eq, PassesTarget]
    generalize (transactionIdAdvanceTo gen target).globalCount + UInt64.ofNat earlier.length =
      count
    have hzero : (0 : UInt64).toNat = 0 := rfl
    simp only [transactionIdGetNext, transactionIdAdvanceTo, UInt64.lt_iff_toNat_lt,
      ← UInt64.toNat_inj]
    split_ifs <;> dsimp only <;> omega
  · have hinv : IssuedInv s :=
      hs.invariant _ ⟨nodup_nil, forall_mem_nil _⟩
        fun _ _ _ h hallowed hstep => h.step hallowed hstep
    exact hinv.nodup

def secondOne : ClockReading := ⟨1, 3, by decide⟩

/-- Two calls in the same nanosecond. -/
theorem two_ids_distinct :
    ∃ s, Reaches idStep countRemains ⟨⟨0, 0⟩, []⟩ s ∧ s.ids = [⟨1, 3, 1⟩, ⟨1, 3, 0⟩] ∧
      s.ids.Nodup := by
  exact exists_reaches_and [.getNext secondOne, .getNext secondOne] (by decide +kernel)
    (ids_above_target_iff_and_distinct _).2

/-- The id that follows one of the same second, or of a later one, is below it; and an advance to
the top of the counter brings an id back. -/
theorem ids_below_target_and_repeated : transactionIdCompare (transactionIdGetNext
      (transactionIdAdvanceTo ⟨0, 0⟩ ⟨1, 7, 0⟩) secondOne).1 ⟨1, 7, 0⟩ = -1 ∧
    transactionIdCompare (transactionIdGetNext
      (transactionIdAdvanceTo ⟨0, 0⟩ ⟨2, 7, 0⟩) secondOne).1 ⟨2, 7, 0⟩ = -1 ∧
    ∃ s, Reaches idStep always ⟨⟨0, 0⟩, []⟩ s ∧ ¬ s.ids.Nodup := by
  refine ⟨by decide, by decide, ?_⟩
  exact exists_reaches [.getNext secondOne, .advanceTo ⟨1, 0, 0xFFFFFFFFFFFFFC17⟩,
    .getNext secondOne, .getNext secondOne] (by decide +kernel)

end WaveDB.Database
