import WaveDB.Database.Iterator
import WaveDB.Database.LoggedWrites
import WaveDB.HBTrie.Linked

/-!
Batches that return an error.

`database_write_batch_sync` checks the batch before it begins a transaction. An error after
that leaves the transaction registered, the operations before the error applied and the record
in the log. `batchUndone_iff` says that an error leaves everything as it was exactly when it
does not come after the begin.
-/

namespace WaveDB.Database

open WaveDB.Basis Workers HBTrie Bool BatchOp

/-! ### What an error should leave -/

def SyncDb.scanned (cfg : Config) (load : Loader) (s : SyncDb) : Db :=
  ⟨cfg.chunkSize, load, s.trie, s.syncOnly, s.manager.lastCommittedTxnId⟩

/-- What a reader gets for a path: `database_get_sync` without the cache. -/
def SyncDb.visible (load : Loader) (s : SyncDb) (path : Path) : Option Bytes :=
  if s.syncOnly then hbtrieFindUnsafe load s.trie path
  else hbtrieFind load s.trie path s.manager.lastCommittedTxnId

/-- The log in an order that recovery may replay it in. -/
structure ReplayOrder (logged sorted : List WalRecord) : Prop where
  perm : sorted.Perm logged
  sorted : sorted.Pairwise fun a b => a.txnId ≤ b.txnId

/-- Lookups, scans and replays of the log give what they gave before, and no transaction is
registered that was not. -/
structure BatchUndone [Libcbor] (cfg : Config) (load : Loader) (s s' : SyncDb) : Prop where
  values : ∀ path, s'.visible load path = s.visible load path
  scans : ∀ startPath endPath fuel,
    scanAll (s'.scanned cfg load) fuel (databaseScanStart (s'.scanned cfg load) startPath endPath) =
        scanAll (s.scanned cfg load) fuel
          (databaseScanStart (s.scanned cfg load) startPath endPath) ∧
      scanAllReverse (s'.scanned cfg load) fuel
          (databaseScanStartReverse (s'.scanned cfg load) startPath endPath) =
        scanAllReverse (s.scanned cfg load) fuel
          (databaseScanStartReverse (s.scanned cfg load) startPath endPath)
  replays : ∀ behind base sorted, ReplayOrder s'.logged sorted →
    ∃ before, ReplayOrder s.logged before ∧
      ∀ path, hbtrieFindUnsafe load (replayOnto cfg load behind base sorted) path =
        hbtrieFindUnsafe load (replayOnto cfg load behind base before) path
  inactive : ∀ i, (s'.manager.shards i).txns.Perm (s.manager.shards i).txns

/-! ### When an error comes after the begin -/

/-- `hbtrie_insert` refuses the operation: its path is empty or has an identifier that does not
pass the guard. Deletes are never refused. -/
def BatchOp.refused (cfg : Config) : BatchOp → Bool
  | .put path _ => !(decide (path ≠ []) && pathAccepted cfg path)
  | .delete _ => false

def beginsBatch [Libcbor] (s : SyncDb) (env : CallEnv) (batch : Batch) : Bool :=
  !batch.ops.isEmpty && !batch.submitted && !s.syncOnly &&
    !(s.wal.any fun manager => manager.config.maxFileSize < batchEstimateSize batch) && env.begins

/-- The batch cannot be serialized, its record is refused, or one of its operations is. -/
def failsInTransaction [Libcbor] (cfg : Config) (s : SyncDb) (env : CallEnv) (batch : Batch) :
    Bool :=
  !env.encodes ||
    ((s.threadWal env).isSome && !s.walAccepts env (batchRecord batch (s.nextId env))) ||
    batch.ops.any (refused cfg)

section Errors

variable {cfg : Config} {load : Loader} {s : SyncDb} {env : CallEnv} {batch : Batch}

theorem applyBatch_result {ops : List BatchOp} {trie : HbtrieNode} {txnId : TransactionId}
    (h : LinkedTrie load trie) :
    (applyBatch cfg load txnId trie ops).2 = !ops.any (refused cfg) := by
  induction ops generalizing trie with
  | nil => rfl
  | cons op ops ih =>
    rw [List.any_cons, Bool.not_or]
    cases op with
    | put path value =>
      have hresult := h.hbtrieInsert_accepted cfg path value txnId
      have hnext := h.applyOp cfg (.insert path value txnId)
      rw [applyBatch, BatchOp.refused, Bool.not_not, ← hresult]
      rw [applyOp] at hnext
      split
      · rename_i trie' heq
        rw [heq] at hnext ⊢
        rw [ih hnext, Bool.true_and]
      · rename_i trie' heq
        rw [heq, Bool.false_and]
    | delete path =>
      exact ih (h.applyOp cfg (.delete path txnId))

variable [Libcbor]

/-- In its transaction a batch fails exactly for the three reasons, and a failure leaves the
transaction manager alone. -/
theorem writeBatchInTransaction_result (h : LinkedTrie load s.trie) :
    (failsInTransaction cfg s env batch →
      (writeBatchInTransaction cfg load (s.begin env) env batch (s.nextId env)).2 = .error (-1) ∧
      (writeBatchInTransaction cfg load (s.begin env) env batch (s.nextId env)).1.manager =
        (s.begin env).manager) ∧ (failsInTransaction cfg s env batch = false →
      (writeBatchInTransaction cfg load (s.begin env) env batch (s.nextId env)).2 = .ok 0) := by
  have hthread : (s.begin env).threadWal env = s.threadWal env := rfl
  have haccepts : (s.begin env).walAccepts env (batchRecord batch (s.nextId env)) =
      s.walAccepts env (batchRecord batch (s.nextId env)) := rfl
  have hresult : (applyBatch cfg load (s.nextId env)
      ((s.begin env).writeWal env (batchRecord batch (s.nextId env))).trie batch.ops).2 =
        !batch.ops.any (refused cfg) := by
    rw [(SyncDb.writeWal_frame _ _ _).1]
    exact applyBatch_result h
  unfold writeBatchInTransaction failsInTransaction
  rw [hthread, haccepts]
  cases env.encodes with
  | false => simp
  | true =>
    simp only [Bool.not_true]
    cases (s.threadWal env).isSome &&
        !s.walAccepts env (batchRecord batch (s.nextId env)) with
    | true => simp [SyncDb.writeWal_frame]
    | false =>
      simp only [Bool.false_or, Bool.false_eq_true, if_false]
      unfold finishBatch
      split
      · rename_i trie heq
        rw [heq] at hresult
        cases hrefused : batch.ops.any (refused cfg) with
        | true =>
          rw [hrefused] at hresult
          cases hresult
        | false => simp
      · rename_i trie heq
        rw [heq] at hresult
        cases hrefused : batch.ops.any (refused cfg) with
        | true => simp [SyncDb.writeWal_frame]
        | false =>
          rw [hrefused] at hresult
          cases hresult

theorem databaseWriteBatchSync_begun (h : beginsBatch s env batch) :
    (databaseWriteBatchSync cfg load s env batch).1 =
        (writeBatchInTransaction cfg load (s.begin env) env batch (s.nextId env)).1 ∧
      (databaseWriteBatchSync cfg load s env batch).2.2 =
        (writeBatchInTransaction cfg load (s.begin env) env batch (s.nextId env)).2 := by
  simp only [beginsBatch, and_eq_true, not_eq_true'] at h
  obtain ⟨⟨⟨⟨hops, hsubmitted⟩, hsync⟩, hsize⟩, hbegins⟩ := h
  unfold databaseWriteBatchSync
  simp only [hops, hsubmitted, hsync, hsize, hbegins, false_eq_true, if_false, if_true]
  exact ⟨trivial, trivial⟩

/-- An error without a transaction leaves the database as it was. -/
theorem databaseWriteBatchSync_not_begun {code : Int} (h : beginsBatch s env batch = false)
    (herror : (databaseWriteBatchSync cfg load s env batch).2.2 = .error code) :
    (databaseWriteBatchSync cfg load s env batch).1 = s := by
  unfold databaseWriteBatchSync at herror ⊢
  unfold beginsBatch at h
  cases hops : batch.ops.isEmpty with
  | true => rfl
  | false =>
    cases hsubmitted : batch.submitted with
    | true => rfl
    | false =>
      cases hsync : s.syncOnly with
      | true =>
        simp only [hops, hsubmitted, hsync] at herror
        cases herror
      | false =>
        cases hsize : s.wal.any fun manager =>
            manager.config.maxFileSize < batchEstimateSize batch with
        | true => rfl
        | false =>
          have hbegins : env.begins = false := by
            simpa [hops, hsubmitted, hsync, hsize] using h
          rw [hbegins]
          rfl

theorem not_batchUndone {s' : SyncDb} (h : s'.manager = (s.begin env).manager) :
    ¬ BatchUndone cfg load s s' := by
  intro hundone
  have hlength := (hundone.inactive (txnShard (s.nextId env))).length_eq
  rw [h] at hlength
  simp only [SyncDb.begin, txManagerBegin, TxManager.onShard, Function.update_self,
    TxShard.register, List.length_append, List.length_singleton] at hlength
  omega

theorem batchUndone_iff (h : LinkedTrie load s.trie) :
    (∀ code, (databaseWriteBatchSync cfg load s env batch).2.2 = .error code →
        BatchUndone cfg load s (databaseWriteBatchSync cfg load s env batch).1) ↔
      ¬ (beginsBatch s env batch ∧ failsInTransaction cfg s env batch) := by
  obtain ⟨hfails, hsucceeds⟩ := @writeBatchInTransaction_result cfg load s env batch _ h
  have hbegun := @databaseWriteBatchSync_begun cfg load s env batch _
  constructor
  · rintro hundone ⟨hbegins, hfailing⟩
    obtain ⟨hdb, hresult⟩ := hbegun hbegins
    obtain ⟨herror, hmanager⟩ := hfails hfailing
    rw [← hdb] at hmanager
    exact not_batchUndone hmanager (hundone (-1) (hresult.trans herror))
  · intro hnot code herror
    cases hbegins : beginsBatch s env batch with
    | true =>
      obtain ⟨-, hresult⟩ := hbegun hbegins
      have hfine : failsInTransaction cfg s env batch = false :=
        eq_false_of_not_eq_true fun hfailing => hnot ⟨hbegins, hfailing⟩
      rw [hresult, hsucceeds hfine] at herror
      cases herror
    | false =>
      rw [databaseWriteBatchSync_not_begun hbegins herror]
      exact ⟨fun _ => rfl, fun _ _ _ => ⟨rfl, rfl⟩, fun _ _ sorted h => ⟨sorted, h, fun _ => rfl⟩,
        fun _ => .refl _⟩

end Errors

end WaveDB.Database
