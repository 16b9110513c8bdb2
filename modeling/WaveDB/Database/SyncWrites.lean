import WaveDB.Database.Batch
import WaveDB.Database.Increment
import WaveDB.Database.WalManager

/-!
The write calls as a whole (`database_put_sync`, `database_delete_sync`,
`database_increment_sync` and `database_write_batch_sync` in `Database/database.c`), in
sync-only and in concurrent mode.

Each call takes an id, writes a record to the WAL of its thread and applies its operations to
the trie; in concurrent mode it does so within a transaction. The calls differ in what they do
when the record cannot be made or is refused. The least recently used cache is left out.
-/

namespace WaveDB.Database

open WaveDB.Basis Workers HBTrie

/-! ### The database -/

/-- The parts of `database_t` that the calls use. Without a location there is no WAL. -/
structure SyncDb where
  syncOnly : Bool
  generator : IdGenerator
  manager : TxManager
  trie : HbtrieNode
  wal : Option WalManager

/-- What a call meets besides the database: the clocks, its thread, and how the vacuum gate, the
allocations and the system calls turn out. -/
structure CallEnv where
  clock : ClockReading
  second : UInt64
  thread : Nat
  /-- What `database_vacuum_block_if_in_progress` returns. -/
  vacuum : Int
  /-- The copies of the path and the value are made. -/
  allocates : Bool
  /-- `tx_manager_begin` returns a transaction. -/
  begins : Bool
  /-- The encoder of the record returns a buffer. -/
  encodes : Bool
  /-- A system call of `thread_wal_write` fails. -/
  walIoFails : Bool

section Database

variable (cfg : Config) (load : Loader) (s : SyncDb) (env : CallEnv)

def SyncDb.nextId : TransactionId := (transactionIdGetNext s.generator env.clock).1

def SyncDb.takeId : SyncDb :=
  { s with generator := (transactionIdGetNext s.generator env.clock).2 }

def SyncDb.begin : SyncDb :=
  { s.takeId env with manager := txManagerBegin s.manager (s.nextId env) }

/-- `tx_manager_commit` without interruption. -/
def SyncDb.commit (id : TransactionId) : SyncDb :=
  { s with
    manager :=
      if transactionIdCompare id s.manager.minActiveTxnId = 0 ∨
          isTxnIdSentinel s.manager.minActiveTxnId = true then
        { txManagerCommit s.manager id with
          minActiveTxnId := recomputeGlobalMin (txManagerCommit s.manager id) }
      else txManagerCommit s.manager id }

def SyncDb.apply (ops : List TrieOp) : SyncDb :=
  { s with trie := ops.foldl (applyOp cfg load) s.trie }

/-- The WAL of the call's thread: what `get_thread_wal` returns. -/
def SyncDb.threadWal : Option (WalManager × ThreadWal) :=
  s.wal.bind fun manager => (manager.threads[env.thread]?).map (manager, ·)

def SyncDb.walAccepts (record : WalRecord) : Bool :=
  !env.walIoFails &&
    (s.threadWal env).any fun wal => wal.1.accepts env.thread wal.2 record env.second

/-- `thread_wal_write`, if there is a WAL. A failed system call leaves the manager as it was. -/
def SyncDb.writeWal (record : WalRecord) : SyncDb :=
  match s.threadWal env with
  | none => s
  | some (manager, twal) =>
    if env.walIoFails then s
    else { s with wal := some (threadWalWrite manager env.thread twal record env.second) }

def SyncDb.logEntry (record : WalRecord) : SyncDb :=
  if env.encodes then s.writeWal env record else s

def SyncDb.logged : List WalRecord :=
  (s.wal.map fun manager => manager.threads.flatMap ThreadWal.accepted).getD []

/-! ### Puts and deletes -/

/-- The part that `database_put_sync` and `database_delete_sync` share. -/
def writeEntrySync (record : TransactionId → WalRecord) (op : TransactionId → TrieOp) :
    SyncDb × Except Int Int :=
  if env.vacuum ≠ 0 then (s, .error env.vacuum)
  else if s.syncOnly then
    (((s.takeId env).logEntry env (record (s.nextId env))).apply cfg load [op (s.nextId env)],
      .ok 0)
  else if env.begins then
    ((((s.begin env).logEntry env (record (s.nextId env))).apply cfg load
      [op (s.nextId env)]).commit (s.nextId env), .ok 0)
  else (s, .error (-1))

variable (path : Path)

def putRecord (value : Bytes) (id : TransactionId) : WalRecord :=
  ⟨walPut, id, encodePutEntryBinary path value⟩

def deleteRecord (id : TransactionId) : WalRecord :=
  ⟨walDelete, id, encodeDeleteEntryBinary path⟩

def databasePutSync (value : Bytes) : SyncDb × Except Int Int :=
  writeEntrySync cfg load s env (putRecord path value) (.insert path value)

def databaseDeleteSync : SyncDb × Except Int Int :=
  writeEntrySync cfg load s env (deleteRecord path) (.delete path)

/-! ### Increments -/

def SyncDb.lookUp : SyncDb :=
  { s with trie := hbtrieFindAttach load s.trie (pathSteps path) }

/-- The new value: from the newest version in sync-only mode, else from the last committed one. -/
def SyncDb.incremented (delta : Int) : Int :=
  addInt64 (counterValue (if s.syncOnly then hbtrieFindUnsafe load s.trie path
    else hbtrieFind load s.trie path s.manager.lastCommittedTxnId)) delta

/-- `database_increment_sync`. The concurrent path makes no record. -/
def databaseIncrementSync (delta : Int) : SyncDb × Except Int Int :=
  if s.syncOnly then
    if env.allocates then
      ((((s.takeId env).lookUp load path).logEntry env (putRecord path
          (formatLld (s.incremented load path delta)) (s.nextId env))).apply cfg load
        [.insert path (formatLld (s.incremented load path delta)) (s.nextId env)],
        .ok (s.incremented load path delta))
    else ((s.takeId env).lookUp load path, .error (-1))
  else if env.allocates && env.begins then
    ((((s.lookUp load path).begin env).apply cfg load
        [.insert path (formatLld (s.incremented load path delta)) (s.nextId env)]).commit
      (s.nextId env), .ok (s.incremented load path delta))
  else (s.lookUp load path, .error (-1))

/-! ### Batches -/

variable (batch : Batch)

def batchRecord [Libcbor] (id : TransactionId) : WalRecord :=
  ⟨walBatch, id, serializeBatch batch.ops⟩

def applyBatch (txnId : TransactionId) : HbtrieNode → List BatchOp → HbtrieNode × Bool
  | trie, [] => (trie, true)
  | trie, .put path value :: ops =>
    match hbtrieInsert cfg load trie path value txnId with
    | (trie, true) => applyBatch txnId trie ops
    | (trie, false) => (trie, false)
  | trie, .delete path :: ops => applyBatch txnId (hbtrieDelete load trie path txnId).1 ops

/-- The end of the concurrent path, once the record is written or skipped. An error leaves the
transaction as it is. -/
def finishBatch (id : TransactionId) : SyncDb × Except Int Int :=
  match applyBatch cfg load id s.trie batch.ops with
  | (trie, true) => ({ s with trie }.commit id, .ok 0)
  | (trie, false) => ({ s with trie }, .error (-1))

/-- The concurrent path after `tx_manager_begin`. -/
def writeBatchInTransaction [Libcbor] (id : TransactionId) :
    SyncDb × Except Int Int :=
  if !env.encodes then (s, .error (-1))
  else if (s.threadWal env).isSome && !s.walAccepts env (batchRecord batch id) then
    (s.writeWal env (batchRecord batch id), .error (-1))
  else finishBatch cfg load (s.writeWal env (batchRecord batch id)) batch id

/-- `database_write_batch_sync`: the database, the batch and the result. -/
def databaseWriteBatchSync [Libcbor] : SyncDb × Batch × Except Int Int :=
  if batch.ops.isEmpty then (s, batch, .error (-3))
  else if batch.submitted then (s, batch, .error (-6))
  else if s.syncOnly then
    (((s.takeId env).logEntry env (batchRecord batch (s.nextId env))).apply cfg load
      (batch.ops.map (BatchOp.call (s.nextId env))), { batch with submitted := true }, .ok 0)
  else if s.wal.any fun manager => manager.config.maxFileSize < batchEstimateSize batch then
    (s, batch, .error (-5))
  else if env.begins then
    ((writeBatchInTransaction cfg load (s.begin env) env batch (s.nextId env)).1,
      { batch with submitted := true },
      (writeBatchInTransaction cfg load (s.begin env) env batch (s.nextId env)).2)
  else (s, batch, .error (-1))

end Database

end WaveDB.Database
