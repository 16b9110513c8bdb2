import WaveDB.HBTrie.TrieHistory
import WaveDB.HBTrie.TxManager

/-!
Concurrent writers and readers of one database (`Database/database.c`).

A writer (`_database_put`, `_database_delete` and the concurrent paths of their
`_sync` variants) takes an id, registers it, applies its calls to the trie under the
write lock and commits. A reader (`_database_get` on a cache miss) reads the last
committed id and then looks paths up at that id. `dbStep` is one such step of any
writer or reader; steps of different calls interleave freely. The least recently used
cache, the write-ahead log and garbage collection are not part of the system.
-/

namespace WaveDB.Database

open WaveDB.Basis Workers HBTrie

/-- A reader that has its read id. `committed` records which transactions had committed
by then. -/
structure Snapshot where
  readTxnId : TransactionId
  committed : List TransactionId
deriving DecidableEq

structure ReadEvent where
  snapshot : Snapshot
  path : Path
  result : Option Bytes

/-- The shared state of all writers and readers. `calls`, `committed` and `reads` record
what happened; no step reads them. -/
structure DbState where
  mvcc : MvccState
  trie : HbtrieNode
  calls : List TrieOp
  committed : List TransactionId
  snapshots : List Snapshot
  reads : List ReadEvent

def DbState.initial (generator : IdGenerator) (trie : HbtrieNode) : DbState :=
  { mvcc := .initial generator, trie, calls := [], committed := [], snapshots := [], reads := [] }

inductive DbAction where
  | takeId (clock : ClockReading)
  | register (id : TransactionId)
  | apply (call : TrieOp)
  | commit (id : TransactionId)
  | takeSnapshot
  | find (index : Nat) (path : Path)

/-- One step of the system; `none` when no call can take it. -/
def dbStep (cfg : Config) (load : Loader) (s : DbState) : DbAction → Option DbState
  | .takeId clock => (mvccStep s.mvcc (.takeId clock)).map fun mvcc => { s with mvcc }
  | .register id => (mvccStep s.mvcc (.register id)).map fun mvcc => { s with mvcc }
  | .apply call =>
    if s.mvcc.manager.isActive call.txnId then
      some { s with trie := applyOp cfg load s.trie call, calls := s.calls ++ [call] }
    else none
  | .commit id =>
    (mvccStep s.mvcc (.commit id)).map fun mvcc =>
      { s with mvcc, committed := s.committed ++ [id] }
  | .takeSnapshot =>
    some { s with
      snapshots := s.snapshots ++ [⟨s.mvcc.manager.lastCommittedTxnId, s.committed⟩] }
  | .find index path =>
    (s.snapshots[index]?).map fun snapshot =>
      { s with
        trie := hbtrieFindAttach load s.trie (pathSteps path)
        reads := s.reads ++ [⟨snapshot, path, hbtrieFind load s.trie path snapshot.readTxnId⟩] }

end WaveDB.Database
