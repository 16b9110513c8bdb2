import WaveDB.Database.VersionOrder

/-!
What concurrent readers see.

The argument has three layers: the ids of transactions (`IdsOk`), the contents of the
trie as a function of the applied calls, and the snapshots over both (`SnapshotOk`).
-/

namespace WaveDB.Database

open WaveDB.Basis Workers HBTrie List Option TxManager

/-! ### The ids of transactions -/

/-- Each live transaction is in one place, and was issued. -/
structure IdsOk (s : MvccState) : Prop where
  live_issued : ∀ id ∈ s.live, id ∈ s.issued
  pending_live : ∀ id ∈ s.pending, id ∈ s.live
  active_live : ∀ i, ∀ id ∈ (s.manager.shards i).txns, id ∈ s.live
  home : ∀ i, ∀ id ∈ (s.manager.shards i).txns, txnShard id = i
  pending_nodup : s.pending.Nodup
  active_nodup : ∀ i, (s.manager.shards i).txns.Nodup
  apart : ∀ i, ∀ id ∈ (s.manager.shards i).txns, id ∉ s.pending
  committed_issued : s.manager.lastCommittedTxnId = ⟨0, 0, 0⟩ ∨
    s.manager.lastCommittedTxnId ∈ s.issued

section Ids

variable {s s' : MvccState} {id : TransactionId}

theorem IdsOk.takeId {clock : ClockReading} (h : IdsOk s)
    (hnew : ∀ v ∈ s.issued, v < (transactionIdGetNext s.generator clock).1)
    (hs : mvccStep s (.takeId clock) = some s') : IdsOk s' := by
  simp only [mvccStep, some.injEq] at hs
  subst hs
  generalize (transactionIdGetNext s.generator clock).1 = id at hnew ⊢
  have hfresh : id ∉ s.live := fun hid => lt_irrefl id (hnew id (h.live_issued id hid))
  constructor
  · simp only [mem_append]
    exact fun v hv => hv.imp_left (h.live_issued v)
  · simp only [mem_append]
    exact fun v hv => hv.imp_left (h.pending_live v)
  · exact fun i v hv => mem_append_left _ (h.active_live i v hv)
  · exact h.home
  · refine nodup_append.mpr ⟨h.pending_nodup, nodup_singleton _, ?_⟩
    simp only [mem_singleton]
    rintro v hv _ rfl rfl
    exact hfresh (h.pending_live v hv)
  · exact h.active_nodup
  · simp only [mem_append, mem_singleton, not_or]
    rintro i v hv
    refine ⟨h.apart i v hv, ?_⟩
    rintro rfl
    exact hfresh (h.active_live i v hv)
  · exact h.committed_issued.imp_right fun hc => mem_append_left _ hc

theorem IdsOk.register (h : IdsOk s) (hs : mvccStep s (.register id) = some s') : IdsOk s' := by
  simp only [mvccStep, ite_none_right_eq_some, some.injEq] at hs
  obtain ⟨hid, rfl⟩ := hs
  refine ⟨h.live_issued, fun v hv => h.pending_live v (mem_of_mem_erase hv), ?_, ?_,
    h.pending_nodup.erase id, ?_, ?_, h.committed_issued⟩
  · intro i v hv
    rcases mem_txManagerBegin.mp hv with hv | ⟨-, rfl⟩
    · exact h.active_live i v hv
    · exact h.pending_live v hid
  · intro i v hv
    rcases mem_txManagerBegin.mp hv with hv | ⟨rfl, rfl⟩
    · exact h.home i v hv
    · rfl
  · apply (Function.forall_update_iff s.manager.shards fun _ shard => shard.txns.Nodup).mpr
    refine ⟨nodup_append.mpr ⟨h.active_nodup _, nodup_singleton _, ?_⟩, fun i _ => h.active_nodup i⟩
    simp only [mem_singleton]
    rintro v hv _ rfl rfl
    exact h.apart _ v hv hid
  · intro i v hv hpending
    rcases mem_txManagerBegin.mp hv with hv | ⟨-, rfl⟩
    · exact h.apart i v hv (mem_of_mem_erase hpending)
    · exact (h.pending_nodup.mem_erase_iff.mp hpending).1 rfl

/-- After a commit or an abort a transaction is still registered only if it was another
one that was registered before. -/
theorem IdsOk.mem_abort {manager : TxManager} (h : IdsOk s)
    (hshards : manager.shards = s.manager.shards)
    (hid : id ∈ (s.manager.shards (txnShard id)).txns) {i : Fin txManagerShards}
    {v : TransactionId} (hv : v ∈ ((txManagerAbort manager id).shards i).txns) :
    v ∈ (s.manager.shards i).txns ∧ v ≠ id := by
  have hold : v ∈ (s.manager.shards i).txns := by
    rw [← hshards] at hid ⊢
    exact mem_of_mem_txManagerAbort hid hv
  refine ⟨hold, ?_⟩
  rintro rfl
  obtain rfl := h.home i v hold
  simp only [txManagerAbort, onShard, Function.update_self, hshards] at hv
  have herase := (swapRemove_perm hid).mem_iff.mp hv
  exact ((h.active_nodup _).mem_erase_iff.mp herase).1 rfl

theorem IdsOk.commit (h : IdsOk s) (hs : mvccStep s (.commit id) = some s') : IdsOk s' := by
  simp only [mvccStep, isActive, contains_iff_mem, ite_none_right_eq_some, some.injEq] at hs
  obtain ⟨hid, rfl⟩ := hs
  have hleft : ∀ i, ∀ v ∈ ((txManagerCommit s.manager id).shards i).txns,
      v ∈ (s.manager.shards i).txns ∧ v ≠ id := fun _ _ hv =>
    h.mem_abort raiseLastCommitted_shards hid hv
  refine ⟨fun v hv => h.live_issued v (mem_of_mem_erase hv), ?_, ?_, ?_, h.pending_nodup, ?_,
    ?_, ?_⟩
  · intro v hv
    have hne : v ≠ id := fun heq => h.apart _ id hid (heq ▸ hv)
    exact (mem_erase_of_ne hne).mpr (h.pending_live v hv)
  · intro i v hv
    obtain ⟨hold, hne⟩ := hleft i v hv
    exact (mem_erase_of_ne hne).mpr (h.active_live i v hold)
  · exact fun i v hv => h.home i v (hleft i v hv).1
  · intro i
    by_cases hi : i = txnShard id
    · subst hi
      simp only [txManagerCommit, onShard, Function.update_self, raiseLastCommitted_shards]
      exact (swapRemove_perm hid).nodup_iff.mpr ((h.active_nodup _).erase id)
    · simpa [txManagerCommit, onShard, hi] using h.active_nodup i
  · exact fun i v hv => h.apart i v (hleft i v hv).1
  · simp only [txManagerCommit, raiseLastCommitted]
    split
    · exact .inr (h.live_issued id (h.active_live _ id hid))
    · exact h.committed_issued

end Ids

/-! ### Reads as a function of the applied calls -/

theorem readsBeforeSingleValue_iff (writes : List Write) (readTxnId : TransactionId) :
    readsBeforeSingleValue writes readTxnId ↔
      ∃ value txnId, contentOf writes = some (.legacy value txnId) ∧ readTxnId < txnId := by
  unfold readsBeforeSingleValue
  rcases contentOf_shape writes with ⟨hdrop, hcontent⟩ | ⟨w, value, hdrop, -, hcontent⟩ |
    ⟨w, w', rest, hdrop, hcontent⟩
  · simp [hdrop, hcontent]
  · simp [hdrop, hcontent]
  · simp [hdrop, hcontent]

variable {readTxnId : TransactionId}

/-- A call newer than the read id does not change what the calls read. -/
theorem snapshotRead_history_concat {accept : Path → Bool} {calls : List TrieOp} {call : TrieOp}
    {key : List Chunk} (h : readTxnId < call.txnId) :
    snapshotRead (history accept (calls ++ [call]) key) readTxnId =
      snapshotRead (history accept calls key) readTxnId := by
  rw [history, filterMap_append, filterMap_cons, filterMap_nil, ← history]
  cases hwrite : call.writeTo accept key with
  | none => simp
  | some w =>
    have hid : readTxnId < w.txnId := TrieOp.writeTo_txnId hwrite ▸ h
    simp [snapshotRead, not_le.mpr hid]

/-! ### Runs -/

/-- Every value read was written by a transaction that had committed before the reader
took its id, and reads of one path at one id agree. -/
def ReadsCommitted (cfg : Config) (s : DbState) : Prop :=
  (∀ e ∈ s.reads, ∀ value, e.result = some value →
    ∃ call ∈ s.calls, call.writeTo (pathAccepted cfg) (pathChunks e.path) =
      some ⟨call.txnId, some value⟩ ∧ call.txnId ∈ e.snapshot.committed) ∧
  ∀ e ∈ s.reads, ∀ e' ∈ s.reads, e.path = e'.path →
    e.snapshot.readTxnId = e'.snapshot.readTxnId → e.result = e'.result

def newerSingleValue (load : Loader) (trie : HbtrieNode) (path : Path)
    (readTxnId : TransactionId) : Bool :=
  match storedAt load trie path with
  | some (.legacy _ txnId) => decide (readTxnId < txnId)
  | _ => false

/-- Ids increase from above zero; writes split no leaf at or below its separator; a
snapshot is taken when no live transaction is at or below it; no lookup meets a single
value newer than its snapshot. -/
def readsSettled (cfg : Config) (load : Loader) (s : DbState) : DbAction → Bool
  | .takeId clock =>
    (⟨0, 0, 0⟩ :: s.mvcc.issued).all fun v =>
      decide (v < (transactionIdGetNext s.mvcc.generator clock).1)
  | .apply call => decide (ValidPath call.path) && opSplitsSafely cfg load s.trie call
  | .takeSnapshot =>
    s.mvcc.live.all fun id => decide (s.mvcc.manager.lastCommittedTxnId < id)
  | .find index path =>
    decide (ValidPath path) && (s.snapshots[index]?).all fun snapshot =>
      !newerSingleValue load s.trie path snapshot.readTxnId
  | _ => true

/-- All calls at or below the read id had committed by then, and all others are above. -/
structure SnapshotOk (s : DbState) (snapshot : Snapshot) : Prop where
  origin : snapshot.readTxnId = ⟨0, 0, 0⟩ ∨ snapshot.readTxnId ∈ s.mvcc.issued
  live : ∀ id ∈ s.mvcc.live, snapshot.readTxnId < id
  calls : ∀ call ∈ s.calls, call.txnId ≤ snapshot.readTxnId → call.txnId ∈ snapshot.committed

structure ReadsInv (cfg : Config) (load : Loader) (s : DbState) : Prop where
  ids : IdsOk s.mvcc
  trie : TrieOk load s.trie
  content : ∀ key, contentAt load s.trie key = contentOf (history (pathAccepted cfg) s.calls key)
  calls : ∀ call ∈ s.calls, call.txnId ∈ s.committed ∨ call.txnId ∈ s.mvcc.live
  snapshots : ∀ snapshot ∈ s.snapshots, SnapshotOk s snapshot
  readers : ∀ e ∈ s.reads, e.snapshot ∈ s.snapshots
  reads : ∀ e ∈ s.reads, e.result =
    snapshotRead (history (pathAccepted cfg) s.calls (pathChunks e.path)) e.snapshot.readTxnId

section Steps

variable {cfg : Config} {load : Loader} {s s' : DbState} {id : TransactionId} {path : Path}

theorem ReadsInv.initial (generator : IdGenerator) :
    ReadsInv cfg load (.initial generator hbtrieNodeCreate) where
  ids := by constructor <;> simp [DbState.initial, MvccState.initial, txManagerCreate]
  trie := .create load
  content := contentAt_create load
  calls := by simp [DbState.initial]
  snapshots := by simp [DbState.initial]
  readers := by simp [DbState.initial]
  reads := by simp [DbState.initial]

variable (h : ReadsInv cfg load s)

include h

theorem ReadsInv.takeId {clock : ClockReading} (hallowed : readsSettled cfg load s (.takeId clock))
    (hs : dbStep cfg load s (.takeId clock) = some s') : ReadsInv cfg load s' := by
  simp only [readsSettled, all_cons, Bool.and_eq_true, List.all_eq_true,
    decide_eq_true_eq] at hallowed
  obtain ⟨hzero, hnew⟩ := hallowed
  simp only [dbStep, map_eq_some_iff] at hs
  obtain ⟨mvcc, hmvcc, rfl⟩ := hs
  have hids := h.ids.takeId hnew hmvcc
  simp only [mvccStep, some.injEq] at hmvcc
  subst hmvcc
  refine ⟨hids, h.trie, h.content, fun call hcall => ?_, fun snapshot hsnap => ?_, h.readers,
    h.reads⟩
  · exact (h.calls call hcall).imp_right fun hl => mem_append_left _ hl
  · obtain ⟨horigin, hlive, hcalls⟩ := h.snapshots snapshot hsnap
    refine ⟨horigin.imp_right fun hi => mem_append_left _ hi, fun id hid => ?_, hcalls⟩
    rcases mem_append.mp hid with hid | hid
    · exact hlive id hid
    · rw [mem_singleton.mp hid]
      rcases horigin with hz | hi
      · exact hz ▸ hzero
      · exact hnew _ hi

theorem ReadsInv.register (hs : dbStep cfg load s (.register id) = some s') :
    ReadsInv cfg load s' := by
  simp only [dbStep, map_eq_some_iff] at hs
  obtain ⟨mvcc, hmvcc, rfl⟩ := hs
  have hids := h.ids.register hmvcc
  simp only [mvccStep, ite_none_right_eq_some, some.injEq] at hmvcc
  obtain ⟨-, rfl⟩ := hmvcc
  refine ⟨hids, h.trie, h.content, h.calls, fun snapshot hsnap => ?_, h.readers, h.reads⟩
  obtain ⟨horigin, hlive, hcalls⟩ := h.snapshots snapshot hsnap
  exact ⟨horigin, hlive, hcalls⟩

theorem ReadsInv.apply {call : TrieOp} (hallowed : readsSettled cfg load s (.apply call))
    (hs : dbStep cfg load s (.apply call) = some s') : ReadsInv cfg load s' := by
  simp only [readsSettled, Bool.and_eq_true, decide_eq_true_eq] at hallowed
  simp only [dbStep, isActive, contains_iff_mem, ite_none_right_eq_some, some.injEq] at hs
  obtain ⟨hactive, rfl⟩ := hs
  have hcallLive := h.ids.active_live _ _ hactive
  obtain ⟨htrie, hcontent⟩ := applyOp_spec h.trie hallowed.1 hallowed.2
  refine ⟨h.ids, htrie, fun key => ?_, fun c hc => ?_, fun snapshot hsnap => ?_, h.readers,
    fun e he => ?_⟩
  · rw [hcontent, contentOf_history_concat, h.content]
  · rcases mem_append.mp hc with hc | hc
    · exact h.calls c hc
    · rw [mem_singleton.mp hc]
      exact .inr hcallLive
  · obtain ⟨horigin, hlive, hcalls⟩ := h.snapshots snapshot hsnap
    refine ⟨horigin, hlive, fun c hc hle => ?_⟩
    rcases mem_append.mp hc with hc | hc
    · exact hcalls c hc hle
    · rw [mem_singleton.mp hc] at hle
      exact absurd (hlive _ hcallLive) (not_lt.mpr hle)
  · rw [h.reads e he]
    exact (snapshotRead_history_concat ((h.snapshots _ (h.readers e he)).live _ hcallLive)).symm

theorem ReadsInv.commit (hs : dbStep cfg load s (.commit id) = some s') : ReadsInv cfg load s' := by
  simp only [dbStep, map_eq_some_iff] at hs
  obtain ⟨mvcc, hmvcc, rfl⟩ := hs
  have hids := h.ids.commit hmvcc
  simp only [mvccStep, ite_none_right_eq_some, some.injEq] at hmvcc
  obtain ⟨-, rfl⟩ := hmvcc
  refine ⟨hids, h.trie, h.content, fun call hcall => ?_, fun snapshot hsnap => ?_, h.readers,
    h.reads⟩
  · by_cases heq : call.txnId = id
    · exact .inl (mem_append_right _ (mem_singleton.mpr heq))
    · exact (h.calls call hcall).imp (fun hc => mem_append_left _ hc)
        fun hl => (mem_erase_of_ne heq).mpr hl
  · obtain ⟨horigin, hlive, hcalls⟩ := h.snapshots snapshot hsnap
    exact ⟨horigin, fun v hv => hlive v (mem_of_mem_erase hv), hcalls⟩

theorem ReadsInv.takeSnapshot (hallowed : readsSettled cfg load s .takeSnapshot)
    (hs : dbStep cfg load s .takeSnapshot = some s') : ReadsInv cfg load s' := by
  simp only [readsSettled, List.all_eq_true, decide_eq_true_eq] at hallowed
  simp only [dbStep, some.injEq] at hs
  subst hs
  refine { h with snapshots := fun snapshot hsnap => ?_, readers := fun e he => ?_ }
  · rcases mem_append.mp hsnap with hsnap | hsnap
    · obtain ⟨horigin, hlive, hcalls⟩ := h.snapshots snapshot hsnap
      exact ⟨horigin, hlive, hcalls⟩
    · obtain rfl := mem_singleton.mp hsnap
      refine ⟨h.ids.committed_issued, hallowed, fun call hcall hle => ?_⟩
      -- a call of a live transaction would be above the snapshot
      exact (h.calls call hcall).resolve_right fun hl => absurd (hallowed _ hl) (not_lt.mpr hle)
  · exact mem_append_left _ (h.readers e he)

theorem ReadsInv.hbtrieFind_eq (hvalid : ValidPath path)
    (hsingle : newerSingleValue load s.trie path readTxnId = false) :
    hbtrieFind load s.trie path readTxnId =
      snapshotRead (history (pathAccepted cfg) s.calls (pathChunks path)) readTxnId := by
  rw [HBTrie.hbtrieFind_eq load _ hvalid, h.content, contentOf_visible_iff, ← Bool.not_eq_true,
    readsBeforeSingleValue_iff]
  rintro ⟨value, txnId, hcontent, hlt⟩
  have hstored : storedAt load s.trie path = some (.legacy value txnId) := by
    rw [storedAt, hbtrieFindEntry_content load _ hvalid.endsInChunk, stepChunks_pathSteps,
      h.content, hcontent]
  simp [newerSingleValue, hstored, hlt] at hsingle

theorem ReadsInv.find {index : Nat} (hallowed : readsSettled cfg load s (.find index path))
    (hs : dbStep cfg load s (.find index path) = some s') : ReadsInv cfg load s' := by
  simp only [dbStep, map_eq_some_iff] at hs
  obtain ⟨snapshot, hsnap, rfl⟩ := hs
  simp only [readsSettled, hsnap, all_some, Bool.and_eq_true, decide_eq_true_eq,
    Bool.not_eq_true'] at hallowed
  obtain ⟨htrie, hcontent⟩ := @hbtrieFindAttach_spec (pathSteps path) load s.trie h.trie
  refine ⟨h.ids, htrie, fun key => (hcontent key).trans (h.content key), h.calls,
    fun snapshot' hsnap' => ?_, fun e he => ?_, fun e he => ?_⟩
  · obtain ⟨horigin, hlive, hcalls⟩ := h.snapshots snapshot' hsnap'
    exact ⟨horigin, hlive, hcalls⟩
  · rcases mem_append.mp he with he | he
    · exact h.readers e he
    · rw [mem_singleton.mp he]
      exact mem_of_getElem? hsnap
  · rcases mem_append.mp he with he | he
    · exact h.reads e he
    · rw [mem_singleton.mp he]
      exact h.hbtrieFind_eq hallowed.1 hallowed.2

theorem ReadsInv.step {a : DbAction} (hallowed : readsSettled cfg load s a)
    (hs : dbStep cfg load s a = some s') : ReadsInv cfg load s' := by
  cases a with
  | takeId clock => exact h.takeId hallowed hs
  | register id => exact h.register hs
  | apply call => exact h.apply hallowed hs
  | commit id => exact h.commit hs
  | takeSnapshot => exact h.takeSnapshot hallowed hs
  | find index path => exact h.find hallowed hs

theorem ReadsInv.readsCommitted : ReadsCommitted cfg s := by
  constructor
  · intro e he value hvalue
    rw [h.reads e he] at hvalue
    obtain ⟨w, hlast, hwvalue⟩ := bind_eq_some_iff.mp hvalue
    obtain ⟨hw, hle⟩ := mem_filter.mp (mem_of_getLast? hlast)
    rw [decide_eq_true_eq] at hle
    obtain ⟨call, hcall, hwrite⟩ := mem_filterMap.mp hw
    have hid := TrieOp.writeTo_txnId hwrite
    refine ⟨call, hcall, ?_, (h.snapshots _ (h.readers e he)).calls call hcall (hid ▸ hle)⟩
    rw [hwrite, hid, ← hwvalue]
  · intro e he e' he' hpath hread
    rw [h.reads e he, h.reads e' he', hpath, hread]

end Steps

/-- Readers of a settled run see committed values only, and see them again. -/
theorem reads_committed (cfg : Config) (load : Loader) (generator : IdGenerator) (s : DbState)
    (h : Reaches (dbStep cfg load) (readsSettled cfg load) (.initial generator hbtrieNodeCreate)
      s) : ReadsCommitted cfg s :=
  (h.invariant (ReadsInv cfg load) (.initial generator) fun _ _ _ hi => hi.step).readsCommitted

def results (s : DbState) : List (Option Bytes) := s.reads.map ReadEvent.result

def settledRun : List DbAction :=
  [.takeId stoppedClock, .register ⟨0, 0, 1⟩, .apply (.insert (bytePath 1) [1] ⟨0, 0, 1⟩),
    .commit ⟨0, 0, 1⟩, .takeSnapshot, .find 0 (bytePath 1), .takeId stoppedClock,
    .register ⟨0, 0, 2⟩, .apply (.insert (bytePath 1) [2] ⟨0, 0, 2⟩), .find 0 (bytePath 1)]

/-- A reader repeats its lookup while another transaction writes. -/
theorem reads_committed_settled :
    ∃ s, results s = [some [1], some [1]] ∧ ReadsCommitted defaultConfig s := by
  obtain ⟨s, hs, hresults⟩ : ∃ s, Reaches (dbStep defaultConfig noLoader)
      (readsSettled defaultConfig noLoader) (.initial firstId hbtrieNodeCreate) s ∧
        results s = [some [1], some [1]] :=
    exists_reaches settledRun (by decide +kernel)
  exact ⟨s, hresults, reads_committed defaultConfig noLoader firstId s hs⟩

def readFirstWrite : List DbAction :=
  [.takeId stoppedClock, .register ⟨0, 0, 1⟩, .apply (.insert (bytePath 1) [1] ⟨0, 0, 1⟩),
    .takeSnapshot, .find 0 (bytePath 1)]

/-- Id 2 commits while id 1 is live; a reader at 2 looks up before and after 1 applies. -/
def readSmallerId : List DbAction :=
  [.takeId stoppedClock, .takeId stoppedClock, .register ⟨0, 0, 1⟩, .register ⟨0, 0, 2⟩,
    .apply (.insert (bytePath 1) [2] ⟨0, 0, 2⟩), .commit ⟨0, 0, 2⟩, .takeSnapshot,
    .find 0 (bytePath 1), .apply (.insert (bytePath 1) [1] ⟨0, 0, 1⟩), .find 0 (bytePath 1)]

/-- Some lookup returned a value that no transaction committed at the time had written. -/
def readsUncommittedValue (cfg : Config) (s : DbState) : Bool :=
  s.reads.any fun e => e.result.any fun value =>
    s.calls.all fun call =>
      !decide (call.writeTo (pathAccepted cfg) (pathChunks e.path) =
        some ⟨call.txnId, some value⟩ ∧ call.txnId ∈ e.snapshot.committed)

theorem not_readsCommitted {cfg : Config} {s : DbState}
    (h : readsUncommittedValue cfg s) : ¬ ReadsCommitted cfg s := by
  rintro ⟨hcommitted, -⟩
  obtain ⟨e, he, hany⟩ := any_eq_true.mp h
  cases hresult : e.result with
  | none => simp [hresult] at hany
  | some value =>
    rw [hresult, any_some, List.all_eq_true] at hany
    obtain ⟨call, hcall, hwrote⟩ := hcommitted e he value hresult
    have hnot := hany call hcall
    rw [decide_eq_true hwrote] at hnot
    cases hnot

/-- Uncommitted values are read in both runs: as a first write whatever its id, and by a
reader whose id is above that of a live transaction. In the second run two lookups of
one path at one id differ. -/
theorem reads_uncommitted :
    (∃ s, Reaches (dbStep defaultConfig noLoader) always (.initial firstId hbtrieNodeCreate) s ∧
      results s = [some [1]] ∧ ¬ ReadsCommitted defaultConfig s) ∧
    ∃ s, Reaches (dbStep defaultConfig noLoader) always (.initial firstId hbtrieNodeCreate) s ∧
      results s = [some [2], some [1]] ∧ ¬ ReadsCommitted defaultConfig s := by
  constructor
  · obtain ⟨s, hs, hresults, hbad⟩ : ∃ s, Reaches (dbStep defaultConfig noLoader) always
        (.initial firstId hbtrieNodeCreate) s ∧
          results s = [some [1]] ∧ readsUncommittedValue defaultConfig s = true :=
      exists_reaches readFirstWrite (by decide +kernel)
    exact ⟨s, hs, hresults, not_readsCommitted hbad⟩
  · obtain ⟨s, hs, hresults, hbad⟩ : ∃ s, Reaches (dbStep defaultConfig noLoader) always
        (.initial firstId hbtrieNodeCreate) s ∧
          results s = [some [2], some [1]] ∧ readsUncommittedValue defaultConfig s = true :=
      exists_reaches readSmallerId (by decide +kernel)
    exact ⟨s, hs, hresults, not_readsCommitted hbad⟩

end WaveDB.Database
