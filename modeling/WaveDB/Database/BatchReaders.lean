import WaveDB.Database.BatchErrors
import WaveDB.Database.ReadCommitted

/-!
Batches among concurrent readers (the concurrent path of `database_write_batch_sync` in
`Database/database.c`).

A batch takes its id, registers, applies its operations one by one and commits; it stops
at an operation that is refused. `batchStep` is one such step of any batch or a step of a
reader. Puts and deletes of other writers are batches of one operation.

* `batch_half_applied` shows a failed batch with its first put in place, and a reader that sees
  one of two puts.
-/

namespace WaveDB.Database

open WaveDB.Basis Workers HBTrie List Option

/-! ### The system -/

/-- Where a batch stands: how many of its operations it has applied, and how it ended. -/
inductive BatchPoint where
  | begun
  | applying (next : Nat)
  | failed (applied : Nat)
  | returned
deriving DecidableEq

structure BatchCall where
  ops : List BatchOp
  txnId : TransactionId
  point : BatchPoint

structure BatchState where
  db : DbState
  batches : List BatchCall

inductive BatchAction where
  | submit (ops : List BatchOp) (clock : ClockReading)
  | register (i : Nat)
  /-- Serialization or the write to the log fails. -/
  | refuse (i : Nat)
  | apply (i : Nat)
  | commit (i : Nat)
  | takeSnapshot
  | find (index : Nat) (path : Path)

/-- `op_result` is 0. -/
def opResult (cfg : Config) (load : Loader) (trie : HbtrieNode) (txnId : TransactionId) :
    BatchOp → Bool
  | .put path value => (hbtrieInsert cfg load trie path value txnId).2
  | .delete _ => true

def BatchState.move (s : BatchState) (i : Nat) (call : BatchCall) (point : BatchPoint)
    (db : DbState) : BatchState :=
  { db, batches := s.batches.set i { call with point } }

section System

variable (cfg : Config) (load : Loader)

def batchStep (s : BatchState) : BatchAction → Option BatchState
  | .submit ops clock =>
    (dbStep cfg load s.db (.takeId clock)).map fun db =>
      { db
        batches := s.batches ++
          [⟨ops, (transactionIdGetNext s.db.mvcc.generator clock).1, .begun⟩] }
  | .register i =>
    (s.batches[i]?).bind fun call =>
      if call.point = .begun then
        (dbStep cfg load s.db (.register call.txnId)).map (s.move i call (.applying 0))
      else none
  | .refuse i =>
    (s.batches[i]?).bind fun call =>
      if call.point = .applying 0 then some (s.move i call (.failed 0) s.db) else none
  | .apply i =>
    (s.batches[i]?).bind fun call =>
      match call.point with
      | .applying next =>
        (call.ops[next]?).bind fun op =>
          (dbStep cfg load s.db (.apply (op.call call.txnId))).map <| s.move i call <|
            if opResult cfg load s.db.trie call.txnId op then .applying (next + 1)
            else .failed (next + 1)
      | _ => none
  | .commit i =>
    (s.batches[i]?).bind fun call =>
      if call.point = .applying call.ops.length then
        (dbStep cfg load s.db (.commit call.txnId)).map (s.move i call .returned)
      else none
  | .takeSnapshot => (dbStep cfg load s.db .takeSnapshot).map fun db => { s with db }
  | .find index path => (dbStep cfg load s.db (.find index path)).map fun db => { s with db }

def BatchState.dbAction (s : BatchState) : BatchAction → Option DbAction
  | .submit _ clock => some (.takeId clock)
  | .register i => (s.batches[i]?).map fun call => .register call.txnId
  | .refuse _ => none
  | .apply i =>
    (s.batches[i]?).bind fun call =>
      match call.point with
      | .applying next => (call.ops[next]?).map fun op => .apply (op.call call.txnId)
      | _ => none
  | .commit i => (s.batches[i]?).map fun call => .commit call.txnId
  | .takeSnapshot => some .takeSnapshot
  | .find index path => some (.find index path)

/-- The condition of `reads_committed` on what the step is for the database. -/
def batchSettled (s : BatchState) (a : BatchAction) : Bool :=
  (s.dbAction a).all (readsSettled cfg load s.db)

end System

def BatchState.initial (generator : IdGenerator) : BatchState :=
  ⟨.initial generator hbtrieNodeCreate, []⟩

def BatchCall.calls (call : BatchCall) : List TrieOp := call.ops.map (BatchOp.call call.txnId)

def BatchCall.made (call : BatchCall) (op : TrieOp) : Bool := op.txnId = call.txnId

/-- The lookups of the reader agree with a history of calls. -/
def ReadsFrom (cfg : Config) (s : DbState) (snapshot : Snapshot) (calls : List TrieOp) : Prop :=
  ∀ e ∈ s.reads, e.snapshot = snapshot →
    e.result =
      snapshotRead (history (pathAccepted cfg) calls (pathChunks e.path)) snapshot.readTxnId

/-- For every reader and every batch, the lookups of the reader agree with the history without
the batch, or all operations of the batch are applied and the lookups agree with the history. -/
def AllOrNothing (cfg : Config) (s : BatchState) : Prop :=
  ∀ call ∈ s.batches, ∀ snapshot ∈ s.db.snapshots,
    ReadsFrom cfg s.db snapshot (s.db.calls.filter fun op => !call.made op) ∨
      s.db.calls.filter call.made = call.calls ∧ ReadsFrom cfg s.db snapshot s.db.calls

/-! ### Runs -/

def BatchCall.applied (call : BatchCall) : Nat :=
  match call.point with
  | .begun => 0
  | .applying next => next
  | .failed applied => applied
  | .returned => call.ops.length

structure BatchInv (cfg : Config) (load : Loader) (s : BatchState) : Prop where
  reads : ReadsInv cfg load s.db
  issued : ∀ call ∈ s.batches, call.txnId ∈ s.db.mvcc.issued
  distinct : (s.batches.map BatchCall.txnId).Nodup
  owned : ∀ op ∈ s.db.calls, ∃ call ∈ s.batches, op.txnId = call.txnId
  applied : ∀ call ∈ s.batches, s.db.calls.filter call.made = (call.calls).take call.applied
  live : ∀ call ∈ s.batches, call.point ≠ .returned → call.txnId ∈ s.db.mvcc.live

section Runs

variable {cfg : Config} {load : Loader} {s s' : BatchState} {i : Nat}

theorem snapshotRead_history_filter {accept : Path → Bool} {calls : List TrieOp}
    {key : List Chunk} {readTxnId : TransactionId} {keep : TrieOp → Bool}
    (h : ∀ op ∈ calls, keep op = false → readTxnId < op.txnId) :
    snapshotRead (history accept (calls.filter keep) key) readTxnId =
      snapshotRead (history accept calls key) readTxnId := by
  have hfilter : (history accept (calls.filter keep) key).filter
      (·.txnId ≤ readTxnId) =
        (history accept calls key).filter (·.txnId ≤ readTxnId) := by
    induction calls with
    | nil => rfl
    | cons op calls ih =>
      have hrest := ih fun o ho => h o (mem_cons_of_mem _ ho)
      cases hkeep : keep op with
      | true =>
        rw [filter_cons_of_pos hkeep]
        simp only [history, filterMap_cons] at hrest ⊢
        cases op.writeTo accept key with
        | none => exact hrest
        | some w => simp only [filter_cons, hrest]
      | false =>
        rw [filter_cons_of_neg (by simp [hkeep]), hrest]
        simp only [history, filterMap_cons]
        cases hwrite : op.writeTo accept key with
        | none => rfl
        | some w =>
          have hnewer : ¬ w.txnId ≤ readTxnId := by
            rw [← TrieOp.writeTo_txnId hwrite]
            exact not_le.mpr (h op mem_cons_self hkeep)
          rw [filter_cons_of_neg (by simp [hnewer])]
  rw [snapshotRead, snapshotRead, hfilter]

@[simp] theorem BatchOp.call_txnId (op : BatchOp) (txnId : TransactionId) :
    (op.call txnId).txnId = txnId := by
  cases op <;> rfl

theorem BatchInv.allOrNothing (h : BatchInv cfg load s) : AllOrNothing cfg s := by
  intro call hcall snapshot hsnapshot
  have hok := h.reads.snapshots snapshot hsnapshot
  have hreads : ReadsFrom cfg s.db snapshot s.db.calls := by
    intro e he heq
    rw [h.reads.reads e he, heq]
  by_cases hlt : snapshot.readTxnId < call.txnId
  · left
    intro e he heq
    rw [hreads e he heq]
    refine (snapshotRead_history_filter fun op _ hmade => ?_).symm
    have hid : op.txnId = call.txnId := by simpa [BatchCall.made] using hmade
    rwa [hid]
  · right
    refine ⟨?_, hreads⟩
    have hreturned : call.point = .returned := by
      by_contra hne
      exact hlt (hok.live _ (h.live call hcall hne))
    rw [h.applied call hcall, BatchCall.applied, hreturned]
    exact take_of_length_le (by simp [BatchCall.calls])

theorem BatchInv.initial (generator : IdGenerator) : BatchInv cfg load (.initial generator) where
  reads := .initial generator
  issued := nofun
  distinct := nodup_nil
  owned := nofun
  applied := nofun
  live := nofun

/-- After a change of one batch, the others have other ids. -/
theorem BatchInv.move {call : BatchCall} {point : BatchPoint} {db : DbState}
    (h : BatchInv cfg load s) (hcall : s.batches[i]? = some call) (hreads : ReadsInv cfg load db)
    (hissued : db.mvcc.issued = s.db.mvcc.issued)
    (howned : ∀ op ∈ db.calls, op ∈ s.db.calls ∨ op.txnId = call.txnId)
    (hself : db.calls.filter call.made = call.calls.take (BatchCall.applied { call with point }))
    (hothers : ∀ c : BatchCall, c.txnId ≠ call.txnId → db.calls.filter c.made = s.db.calls.filter
      c.made) (hlive : ∀ id ∈ s.db.mvcc.live, id ≠ call.txnId → id ∈ db.mvcc.live)
    (hselfLive : point ≠ .returned → call.txnId ∈ db.mvcc.live) :
    BatchInv cfg load (s.move i call point db) := by
  have hmem := mem_of_getElem? hcall
  have hids : (s.move i call point db).batches.map BatchCall.txnId =
      s.batches.map BatchCall.txnId := map_set_of_eq hcall rfl
  constructor
  · exact hreads
  · intro c hc
    have hid : c.txnId ∈ s.batches.map BatchCall.txnId := hids ▸ mem_map_of_mem hc
    obtain ⟨c', hc', heq⟩ := mem_map.mp hid
    rw [BatchState.move, hissued, ← heq]
    exact h.issued c' hc'
  · rw [hids]
    exact h.distinct
  · intro op hop
    have hid : op.txnId ∈ (s.move i call point db).batches.map BatchCall.txnId := by
      rw [hids]
      rcases howned op hop with hop | hop
      · obtain ⟨c, hc, heq⟩ := h.owned op hop
        exact heq ▸ mem_map_of_mem hc
      · exact hop ▸ mem_map_of_mem hmem
    obtain ⟨c, hc, heq⟩ := mem_map.mp hid
    exact ⟨c, hc, heq.symm⟩
  · intro c hc
    rcases mem_set_of_nodup h.distinct hcall hc with rfl | ⟨hc, hne⟩
    · exact hself
    · exact (hothers c hne).trans (h.applied c hc)
  · intro c hc hpoint
    rcases mem_set_of_nodup h.distinct hcall hc with rfl | ⟨hc, hne⟩
    · exact hselfLive hpoint
    · exact hlive _ (h.live c hc hpoint) hne

variable (h : BatchInv cfg load s)

include h

/-- Steps that change neither the calls nor the ids. -/
theorem BatchInv.sameCalls {db : DbState} (hreads : ReadsInv cfg load db)
    (hcalls : db.calls = s.db.calls) (hmvcc : db.mvcc = s.db.mvcc) :
    BatchInv cfg load { s with db } :=
  ⟨hreads, hmvcc ▸ h.issued, h.distinct, hcalls ▸ h.owned, hcalls ▸ h.applied, hmvcc ▸ h.live⟩

theorem BatchInv.submit {ops : List BatchOp} {clock : ClockReading}
    (hallowed : readsSettled cfg load s.db (.takeId clock))
    (hs : batchStep cfg load s (.submit ops clock) = some s') : BatchInv cfg load s' := by
  simp only [batchStep, map_eq_some_iff] at hs
  obtain ⟨db, hdb, rfl⟩ := hs
  have hreads := h.reads.step hallowed hdb
  simp only [dbStep, mvccStep, map_some, some.injEq] at hdb
  subst hdb
  simp only [readsSettled, all_cons, Bool.and_eq_true, List.all_eq_true,
    decide_eq_true_eq] at hallowed
  obtain ⟨-, hnew⟩ := hallowed
  generalize (transactionIdGetNext s.db.mvcc.generator clock).1 = id at hnew hreads ⊢
  have hfresh : ∀ call ∈ s.batches, call.txnId ≠ id :=
    fun call hcall => (hnew _ (h.issued call hcall)).ne
  constructor
  · exact hreads
  · intro c hc
    rcases mem_append.mp hc with hc | hc
    · exact mem_append_left _ (h.issued c hc)
    · rw [mem_singleton.mp hc]
      exact mem_append_right _ (mem_singleton.mpr rfl)
  · rw [map_append, nodup_append]
    refine ⟨h.distinct, nodup_singleton _, ?_⟩
    rintro v hv _ hid rfl
    obtain ⟨call, hcall, rfl⟩ := mem_map.mp hv
    exact hfresh call hcall (mem_singleton.mp hid)
  · intro op hop
    obtain ⟨call, hcall, heq⟩ := h.owned op hop
    exact ⟨call, mem_append_left _ hcall, heq⟩
  · intro c hc
    rcases mem_append.mp hc with hc | hc
    · exact h.applied c hc
    · rw [mem_singleton.mp hc]
      -- no call has the new id
      refine filter_eq_nil_iff.mpr fun op hop hmade => ?_
      obtain ⟨call, hcall, heq⟩ := h.owned op hop
      exact hfresh call hcall (heq.symm.trans (of_decide_eq_true hmade))
  · intro c hc hpoint
    rcases mem_append.mp hc with hc | hc
    · exact mem_append_left _ (h.live c hc hpoint)
    · rw [mem_singleton.mp hc]
      exact mem_append_right _ (mem_singleton.mpr rfl)

theorem BatchInv.register (hs : batchStep cfg load s (.register i) = some s') :
    BatchInv cfg load s' := by
  simp only [batchStep, bind_eq_some_iff, ite_none_right_eq_some, map_eq_some_iff] at hs
  obtain ⟨call, hcall, hpoint, db, hdb, rfl⟩ := hs
  have hreads := h.reads.step rfl hdb
  simp only [dbStep, mvccStep, map_eq_some_iff, ite_none_right_eq_some, some.injEq] at hdb
  obtain ⟨_, ⟨-, rfl⟩, rfl⟩ := hdb
  have hmem := mem_of_getElem? hcall
  refine h.move hcall hreads rfl (fun op hop => .inl hop) ?_ (fun _ _ => rfl)
    (fun _ hid _ => hid) fun _ => h.live call hmem (by simp [hpoint])
  have happlied := h.applied call hmem
  rwa [BatchCall.applied, hpoint] at happlied

theorem BatchInv.refuse (hs : batchStep cfg load s (.refuse i) = some s') :
    BatchInv cfg load s' := by
  simp only [batchStep, bind_eq_some_iff, ite_none_right_eq_some, some.injEq] at hs
  obtain ⟨call, hcall, hpoint, rfl⟩ := hs
  have hmem := mem_of_getElem? hcall
  refine h.move hcall h.reads rfl (fun op hop => .inl hop) ?_ (fun _ _ => rfl)
    (fun _ hid _ => hid) fun _ => h.live call hmem (by simp [hpoint])
  have happlied := h.applied call hmem
  rwa [BatchCall.applied, hpoint] at happlied

theorem BatchInv.apply (hallowed : batchSettled cfg load s (.apply i))
    (hs : batchStep cfg load s (.apply i) = some s') : BatchInv cfg load s' := by
  simp only [batchStep, bind_eq_some_iff] at hs
  obtain ⟨call, hcall, hs⟩ := hs
  split at hs
  case h_2 => cases hs
  next next hpoint =>
    simp only [bind_eq_some_iff, map_eq_some_iff] at hs
    obtain ⟨op, hop, db, hdb, rfl⟩ := hs
    simp only [batchSettled, BatchState.dbAction, hcall, bind_some, hpoint, hop,
      map_some, all_some] at hallowed
    have hreads := h.reads.step hallowed hdb
    simp only [dbStep, ite_none_right_eq_some, some.injEq] at hdb
    obtain ⟨-, rfl⟩ := hdb
    have hmem := mem_of_getElem? hcall
    have happlied := h.applied call hmem
    rw [BatchCall.applied, hpoint] at happlied
    refine h.move hcall hreads rfl (fun o ho => ?_) ?_ (fun c hne => ?_) (fun _ hid _ => hid)
      fun _ => h.live call hmem (by simp [hpoint])
    · rcases mem_append.mp ho with ho | ho
      · exact .inl ho
      · rw [mem_singleton.mp ho]
        exact .inr (op.call_txnId _)
    · have hmade : call.made (op.call call.txnId) = true := by simp [BatchCall.made]
      have hcallAt : call.calls[next]? = some (op.call call.txnId) := by
        rw [BatchCall.calls, getElem?_map, hop, map_some]
      have hcount : BatchCall.applied { call with
          point := if opResult cfg load s.db.trie call.txnId op then .applying (next + 1)
            else .failed (next + 1) } = next + 1 := by
        cases opResult cfg load s.db.trie call.txnId op <;> rfl
      rw [hcount, filter_append, happlied, filter_cons_of_pos hmade, filter_nil,
        take_add_one, hcallAt]
      rfl
    · have hmade : ¬ c.made (op.call call.txnId) = true := by
        simpa [BatchCall.made] using Ne.symm hne
      rw [filter_append, filter_cons_of_neg hmade, filter_nil, append_nil]

theorem BatchInv.commit (hs : batchStep cfg load s (.commit i) = some s') :
    BatchInv cfg load s' := by
  simp only [batchStep, bind_eq_some_iff, ite_none_right_eq_some, map_eq_some_iff] at hs
  obtain ⟨call, hcall, hpoint, db, hdb, rfl⟩ := hs
  have hreads := h.reads.step rfl hdb
  simp only [dbStep, mvccStep, map_eq_some_iff, ite_none_right_eq_some, some.injEq] at hdb
  obtain ⟨_, ⟨-, rfl⟩, rfl⟩ := hdb
  refine h.move hcall hreads rfl (fun op hop => .inl hop) ?_ (fun _ _ => rfl)
    (fun _ hid hne => (mem_erase_of_ne hne).mpr hid) fun hne => absurd rfl hne
  have happlied := h.applied call (mem_of_getElem? hcall)
  rwa [BatchCall.applied, hpoint] at happlied

theorem BatchInv.step {a : BatchAction} (hallowed : batchSettled cfg load s a)
    (hs : batchStep cfg load s a = some s') : BatchInv cfg load s' := by
  cases a with
  | submit ops clock => exact h.submit hallowed hs
  | register i => exact h.register hs
  | refuse i => exact h.refuse hs
  | apply i => exact h.apply hallowed hs
  | commit i => exact h.commit hs
  | takeSnapshot =>
    simp only [batchStep, map_eq_some_iff] at hs
    obtain ⟨db, hdb, rfl⟩ := hs
    have hreads := h.reads.takeSnapshot hallowed hdb
    simp only [dbStep, some.injEq] at hdb
    subst hdb
    exact h.sameCalls hreads rfl rfl
  | find index path =>
    simp only [batchStep, map_eq_some_iff] at hs
    obtain ⟨db, hdb, rfl⟩ := hs
    have hreads := h.reads.find hallowed hdb
    simp only [dbStep, map_eq_some_iff] at hdb
    obtain ⟨snapshot, -, rfl⟩ := hdb
    exact h.sameCalls hreads rfl rfl

end Runs

/-- Errors are undone exactly when they come before the transaction begins; and a reader of a
settled run sees all of a batch or nothing. -/
theorem batches_all_or_nothing [Libcbor] (cfg : Config) (load : Loader) :
    (∀ s env batch, LinkedTrie load s.trie →
      ((∀ code, (databaseWriteBatchSync cfg load s env batch).2.2 = .error code →
          BatchUndone cfg load s (databaseWriteBatchSync cfg load s env batch).1) ↔
        ¬ (beginsBatch s env batch = true ∧ failsInTransaction cfg s env batch = true))) ∧
    ∀ generator s, Reaches (batchStep cfg load) (batchSettled cfg load) (.initial generator) s →
      AllOrNothing cfg s := by
  constructor
  · intro s env batch h
    exact batchUndone_iff h
  · intro generator s h
    exact (h.invariant (BatchInv cfg load) (.initial generator)
      fun _ _ _ hinv => hinv.step).allOrNothing

def halfBatch : Batch where
  ops := [.put (bytePath 1) [1], .put [] [2]]
  submitted := false
  sized := batchToCbor_fits (by decide) (by decide)

/-- Two batches write the same two paths; a reader looks both up while the second batch is half
applied. -/
def settledBatches : List BatchAction :=
  [.submit [.put (bytePath 1) [1], .put (bytePath 2) [2]] stoppedClock, .register 0, .apply 0,
    .apply 0, .commit 0, .submit [.put (bytePath 1) [3], .put (bytePath 2) [4]] stoppedClock,
    .register 1, .apply 1, .takeSnapshot, .find 0 (bytePath 1), .find 0 (bytePath 2)]

section Samples

attribute [local instance] headCbor

theorem batches_all_or_nothing_settled : BatchUndone defaultConfig noLoader (freshDb false)
        (databaseWriteBatchSync defaultConfig noLoader (freshDb false) calmEnv
          { halfBatch with submitted := true }).1 ∧
      ∃ s, results s.db = [some [1], some [2]] ∧ AllOrNothing defaultConfig s := by
  obtain ⟨herror, hreaders⟩ := batches_all_or_nothing defaultConfig noLoader
  constructor
  · exact (herror (freshDb false) calmEnv { halfBatch with submitted := true }
      .create).mpr (by decide) (-6) rfl
  · obtain ⟨s, hs, hresults⟩ : ∃ s, Reaches (batchStep defaultConfig noLoader)
        (batchSettled defaultConfig noLoader) (.initial firstId) s ∧
          results s.db = [some [1], some [2]] :=
      exists_reaches settledBatches (by decide +kernel)
    exact ⟨s, hresults, hreaders firstId s hs⟩

def seesHalf (cfg : Config) (s : BatchState) : Bool :=
  s.batches.any fun call =>
    decide ((s.db.calls.filter call.made).length < call.ops.length) &&
      s.db.reads.any fun e => decide (e.snapshot ∈ s.db.snapshots) &&
        decide (e.result ≠ snapshotRead (history (pathAccepted cfg)
          (s.db.calls.filter fun op => !call.made op) (pathChunks e.path)) e.snapshot.readTxnId)

theorem not_allOrNothing {cfg : Config} {s : BatchState} (h : seesHalf cfg s) :
    ¬ AllOrNothing cfg s := by
  intro hall
  simp only [seesHalf, List.any_eq_true, Bool.and_eq_true, decide_eq_true_eq] at h
  obtain ⟨call, hcall, hhalf, e, he, hsnapshot, hne⟩ := h
  rcases hall call hcall e.snapshot hsnapshot with hnone | ⟨hmade, -⟩
  · exact hne (hnone e he rfl)
  · rw [hmade, BatchCall.calls, length_map] at hhalf
    exact absurd hhalf (lt_irrefl _)

/-- A reader looks two paths up while the first batch that writes them is half applied. -/
def halfApplied : List BatchAction :=
  [.submit [.put (bytePath 1) [1], .put (bytePath 2) [2]] stoppedClock, .register 0, .apply 0,
    .takeSnapshot, .find 0 (bytePath 1), .find 0 (bytePath 2)]

/-- A batch fails at its second put and keeps the first; a reader between two puts sees one. -/
theorem batch_half_applied :
    ((databaseWriteBatchSync defaultConfig noLoader (freshDb false) calmEnv halfBatch).2.2 =
        .error (-1) ∧
      ¬ BatchUndone defaultConfig noLoader (freshDb false)
        (databaseWriteBatchSync defaultConfig noLoader (freshDb false) calmEnv halfBatch).1) ∧
    ∃ s, Reaches (batchStep defaultConfig noLoader) (fun _ _ => true) (.initial firstId) s ∧
      results s.db = [some [1], none] ∧ ¬ AllOrNothing defaultConfig s := by
  refine ⟨⟨rfl, fun h => ?_⟩, ?_⟩
  · have hbefore : (freshDb false).visible noLoader (bytePath 1) = none := by decide +kernel
    have hafter : (databaseWriteBatchSync defaultConfig noLoader (freshDb false) calmEnv
        halfBatch).1.visible noLoader (bytePath 1) = some [1] := by decide +kernel
    have hsame := h.values (bytePath 1)
    rw [hbefore, hafter] at hsame
    cases hsame
  · obtain ⟨s, hs, hresults, hhalf⟩ : ∃ s, Reaches (batchStep defaultConfig noLoader)
        (fun _ _ => true) (.initial firstId) s ∧
          results s.db = [some [1], none] ∧ seesHalf defaultConfig s = true :=
      exists_reaches halfApplied (by decide +kernel)
    exact ⟨s, hs, hresults, not_allOrNothing hhalf⟩

end Samples

end WaveDB.Database
