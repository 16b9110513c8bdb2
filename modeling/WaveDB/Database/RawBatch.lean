import WaveDB.Database.PrefixDelete

/-!
Batches of raw keys (`database_batch_sync_raw` in `Database/database.c`).

The keys are cut at the delimiter and the operations written as one batch.

* `databaseBatchSyncRaw_ok`: a batch that succeeds applies all its operations with one id, which
  scans can read afterwards.
* `databaseBatchSyncRaw_error`: a batch that fails applies the operations before the one that is
  refused; if none is, the trie stays as it is.
-/

namespace WaveDB.Database

open WaveDB.Basis HBTrie Workers List BatchOp

inductive RawOp where
  | put (key value : Bytes)
  | delete (key : Bytes)

def RawOp.key : RawOp → Bytes
  | .put key _ => key
  | .delete key => key

def RawOp.batchOp (cs : ChunkSize) (delimiter : UInt8) : RawOp → BatchOp
  | .put key value => .put (pathCreateFromRaw cs key delimiter) value
  | .delete key => .delete (pathCreateFromRaw cs key delimiter)

def batchDefaultMaxSize : Nat := 10000

/-- The batch of the operations. None is made if they are too many, or if a length in them is
beyond `size_t`. -/
def rawBatch (ops : List BatchOp) : Option Batch :=
  if hlength : ops.length ≤ batchDefaultMaxSize then
    if hfits : ∀ op ∈ ops, op.fits = true then
      some ⟨ops, false, batchToCbor_fits (hlength.trans_lt (by decide)) hfits⟩
    else none
  else none

def databaseBatchSyncRaw [Libcbor] (cfg : Config) (load : Loader) (s : SyncDb) (env : CallEnv)
    (delimiter : UInt8) (ops : List RawOp) : SyncDb × Except Int Int :=
  if ops = [] then (s, .error (-1))
  else
    match rawBatch (ops.map (RawOp.batchOp cfg.chunkSize delimiter)) with
    | none => (s, .error (-1))
    | some batch =>
      ((databaseWriteBatchSync cfg load s env batch).1,
        (databaseWriteBatchSync cfg load s env batch).2.2)

section Effect

variable {cfg : Config} {load : Loader} {s s' : SyncDb} {env : CallEnv} {delimiter : UInt8}
  {ops : List RawOp} {batch batch' : Batch} {value code : Int} {id : TransactionId}

def rawCalls (cfg : Config) (delimiter : UInt8) (txnId : TransactionId) (ops : List RawOp) :
    List TrieOp :=
  (ops.map (RawOp.batchOp cfg.chunkSize delimiter)).map (call txnId)

theorem rawBatch_ops {ops : List BatchOp} (h : rawBatch ops = some batch) : batch.ops = ops := by
  unfold rawBatch at h
  split at h
  · split at h
    · cases h
      rfl
    · cases h
  · cases h

theorem writeBatchInTransaction_committed [Libcbor]
    (h : writeBatchInTransaction cfg load s env batch id = (s', .ok value)) :
    ∃ trie, s' = { s.writeWal env (batchRecord batch id) with trie }.commit id := by
  unfold writeBatchInTransaction finishBatch at h
  split at h
  · cases h
  split at h
  · cases h
  split at h
  · rename_i trie hbatch
    cases h
    exact ⟨trie, rfl⟩
  · cases h

/-- A batch that succeeds is visible to scans, and they read no earlier than before. -/
theorem databaseWriteBatchSync_readTxnId [Libcbor]
    (h : databaseWriteBatchSync cfg load s env batch = (s', batch', .ok value)) :
    s.readTxnId ≤ s'.readTxnId ∧ s.nextId env ≤ s'.readTxnId ∧ s'.syncOnly = s.syncOnly := by
  rcases databaseWriteBatchSync_ok_cases h with ⟨hsync, rfl⟩ | ⟨hsync, hok⟩
  · have hafter : (((s.takeId env).logEntry env (batchRecord batch (s.nextId env))).apply cfg load
        (batch.ops.map (call (s.nextId env)))).syncOnly = true :=
      (SyncDb.logEntry_frame _ _ _).2.2.trans hsync
    rw [SyncDb.readTxnId_sync hafter, hafter, hsync]
    exact ⟨le_txnIdSentinel _, le_txnIdSentinel _, rfl⟩
  · obtain ⟨trie, rfl⟩ := writeBatchInTransaction_committed hok
    have hafter : ({ (s.begin env).writeWal env (batchRecord batch (s.nextId env)) with
        trie }.commit (s.nextId env)).syncOnly = false :=
      (SyncDb.writeWal_frame _ _ _).2.2.trans hsync
    rw [SyncDb.readTxnId_concurrent hsync, SyncDb.readTxnId_concurrent hafter,
      SyncDb.commit_lastCommitted, hafter, hsync]
    have hmanager := ((s.begin env).writeWal_frame env (batchRecord batch (s.nextId env))).2.1
    have hraise := le_raiseLastCommitted (s.begin env).manager (s.nextId env)
    rw [← hmanager] at hraise
    refine ⟨?_, hraise.2, rfl⟩
    have hbefore : ((s.begin env).writeWal env (batchRecord batch
        (s.nextId env))).manager.lastCommittedTxnId = s.manager.lastCommittedTxnId := by
      rw [hmanager]
      rfl
    rw [← hbefore]
    exact hraise.1

structure BatchApplied (cfg : Config) (load : Loader) (delimiter : UInt8) (s : SyncDb)
    (env : CallEnv) (ops : List RawOp) (s' : SyncDb) : Prop where
  trie : s'.trie = (rawCalls cfg delimiter (s.nextId env) ops).foldl (applyOp cfg load) s.trie
  later : s.readTxnId ≤ s'.readTxnId
  readable : s.nextId env ≤ s'.readTxnId
  syncOnly : s'.syncOnly = s.syncOnly

theorem databaseBatchSyncRaw_ok [Libcbor]
    (h : databaseBatchSyncRaw cfg load s env delimiter ops = (s', .ok value)) :
    BatchApplied cfg load delimiter s env ops s' := by
  unfold databaseBatchSyncRaw at h
  split at h
  · cases h
  split at h
  · cases h
  · rename_i batch hbatch
    obtain ⟨rfl, hresult⟩ := Prod.mk.inj h
    have hwritten : databaseWriteBatchSync cfg load s env batch = (_, _, .ok value) :=
      Prod.ext rfl (Prod.ext rfl hresult)
    obtain ⟨hlater, hreadable, hsync⟩ := databaseWriteBatchSync_readTxnId hwritten
    refine ⟨?_, hlater, hreadable, hsync⟩
    have htrie := (databaseWriteBatchSync_ok hwritten).trie
    rw [WriteCall.ops, rawBatch_ops hbatch] at htrie
    exact htrie

/-! ### Batches that fail -/

theorem applyBatch_take (txnId : TransactionId) (trie : HbtrieNode) (ops : List BatchOp) :
    ∃ n, (applyBatch cfg load txnId trie ops).1 =
      ((ops.map (call txnId)).take n).foldl (applyOp cfg load) trie := by
  induction ops generalizing trie with
  | nil => exact ⟨0, rfl⟩
  | cons op ops ih =>
    cases op with
    | put path value =>
      rw [applyBatch]
      split
      · rename_i trie' heq
        obtain ⟨n, hn⟩ := ih trie'
        have htrie : trie' = applyOp cfg load trie (.insert path value txnId) := by
          rw [applyOp, heq]
        refine ⟨n + 1, ?_⟩
        rw [hn, map_cons, take_succ_cons, foldl_cons, htrie]
        rfl
      · rename_i trie' heq
        refine ⟨1, ?_⟩
        rw [map_cons, take_succ_cons, take_zero, foldl_cons, foldl_nil, call, applyOp, heq]
    | delete path =>
      obtain ⟨n, hn⟩ := ih (hbtrieDelete load trie path txnId).1
      exact ⟨n + 1, hn⟩

structure BatchFailed (cfg : Config) (load : Loader) (s : SyncDb) (calls : List TrieOp)
    (s' : SyncDb) : Prop where
  trie : ∃ n, s'.trie = (calls.take n).foldl (applyOp cfg load) s.trie
  readTxnId : s'.readTxnId = s.readTxnId
  syncOnly : s'.syncOnly = s.syncOnly

theorem BatchFailed.refl (calls : List TrieOp) : BatchFailed cfg load s calls s :=
  ⟨⟨0, rfl⟩, rfl, rfl⟩

/-- A transaction that fails has come to some operation, or to none. -/
theorem writeBatchInTransaction_failed [Libcbor]
    (h : writeBatchInTransaction cfg load s env batch id = (s', .error code)) :
    BatchFailed cfg load s (batch.ops.map (call id)) s' ∧
      ((applyBatch cfg load id s.trie batch.ops).2 → s'.trie = s.trie) := by
  obtain ⟨htrie, hmanager, hsync⟩ := s.writeWal_frame env (batchRecord batch id)
  have hread : (s.writeWal env (batchRecord batch id)).readTxnId = s.readTxnId := by
    rw [SyncDb.readTxnId, SyncDb.readTxnId, hsync, hmanager]
  unfold writeBatchInTransaction finishBatch at h
  split at h
  · cases h
    exact ⟨.refl _, fun _ => rfl⟩
  split at h
  · cases h
    exact ⟨⟨⟨0, htrie⟩, hread, hsync⟩, fun _ => htrie⟩
  split at h
  · cases h
  · rename_i trie hbatch
    cases h
    rw [htrie] at hbatch
    obtain ⟨n, hn⟩ := @applyBatch_take cfg load id s.trie batch.ops
    rw [hbatch] at hn
    refine ⟨⟨⟨n, hn⟩, hread, hsync⟩, fun happlied => ?_⟩
    rw [hbatch] at happlied
    cases happlied

theorem databaseWriteBatchSync_failed [Libcbor]
    (h : (databaseWriteBatchSync cfg load s env batch).2.2 = .error code) :
    BatchFailed cfg load s (batch.ops.map (call (s.nextId env)))
        (databaseWriteBatchSync cfg load s env batch).1 ∧
      ((applyBatch cfg load (s.nextId env) s.trie batch.ops).2 →
        (databaseWriteBatchSync cfg load s env batch).1.trie = s.trie) := by
  cases hbegins : beginsBatch s env batch with
  | false =>
    rw [databaseWriteBatchSync_not_begun hbegins h]
    exact ⟨.refl _, fun _ => rfl⟩
  | true =>
    obtain ⟨hdb, hresult⟩ := @databaseWriteBatchSync_begun cfg load s env batch _ hbegins
    rw [hresult] at h
    rw [hdb]
    obtain ⟨hfailed, hsame⟩ := writeBatchInTransaction_failed (Prod.ext rfl h)
    exact ⟨⟨hfailed.trie, hfailed.readTxnId, hfailed.syncOnly⟩, hsame⟩

theorem databaseBatchSyncRaw_error [Libcbor]
    (h : databaseBatchSyncRaw cfg load s env delimiter ops = (s', .error code)) :
    BatchFailed cfg load s (rawCalls cfg delimiter (s.nextId env) ops) s' ∧
      ((applyBatch cfg load (s.nextId env) s.trie
          (ops.map (RawOp.batchOp cfg.chunkSize delimiter))).2 → s'.trie = s.trie) := by
  unfold databaseBatchSyncRaw at h
  split at h
  · cases h
    exact ⟨.refl _, fun _ => rfl⟩
  split at h
  · cases h
    exact ⟨.refl _, fun _ => rfl⟩
  · rename_i batch hbatch
    obtain ⟨rfl, hresult⟩ := Prod.mk.inj h
    have hfailed := databaseWriteBatchSync_failed hresult
    rw [rawBatch_ops hbatch] at hfailed
    exact hfailed

/-- Whatever its result, a batch makes some of its calls, and reads are not earlier afterwards. -/
theorem databaseBatchSyncRaw_take [Libcbor] (cfg : Config) (load : Loader) (s : SyncDb)
    (env : CallEnv) (delimiter : UInt8) (ops : List RawOp) :
    ∃ n, (databaseBatchSyncRaw cfg load s env delimiter ops).1.trie =
        ((rawCalls cfg delimiter (s.nextId env) ops).take n).foldl (applyOp cfg load) s.trie ∧
      s.readTxnId ≤ (databaseBatchSyncRaw cfg load s env delimiter ops).1.readTxnId := by
  cases hresult : (databaseBatchSyncRaw cfg load s env delimiter ops).2 with
  | ok value =>
    obtain ⟨happlied, hlater, -, -⟩ := databaseBatchSyncRaw_ok (Prod.ext rfl hresult)
    refine ⟨(rawCalls cfg delimiter (s.nextId env) ops).length, ?_, hlater⟩
    rw [take_length]
    exact happlied
  | error code =>
    obtain ⟨⟨⟨n, hn⟩, hread, -⟩, -⟩ := databaseBatchSyncRaw_error (Prod.ext rfl hresult)
    exact ⟨n, hn, hread.ge⟩

end Effect

end WaveDB.Database
