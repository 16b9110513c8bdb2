import Mathlib.Logic.Function.Basic
import Mathlib.Data.List.FinRange
import WaveDB.Basis.Runs
import WaveDB.Workers.TransactionId

/-!
The transaction manager (`HBTrie/mvcc.c`) as a system of concurrent calls.

`tx_manager_begin` takes its id before it registers in a shard, `tx_manager_commit`
and `tx_manager_abort` end a transaction under the shard lock and then decide
without a lock whether to recompute the global minimum, and `recompute_global_min`
reads the shards one after the other. `mvccStep` is one such step of any of the
calls in progress. Each critical section and each seqlock access is one step.
-/

namespace WaveDB.HBTrie

open WaveDB.Basis Workers Option

/-! ### Shards -/

/-- `tx_shard_t`: the active transactions, named by their ids, and their minimum. -/
structure TxShard where
  txns : List TransactionId
  minTxnId : TransactionId

def txnShard (id : TransactionId) : Fin txManagerShards := ⟨txnShardIndex id, txnShardIndex_lt id⟩

/-- The scan for the new shard minimum, starting from `data[0]`. -/
def shardMin : List TransactionId → TransactionId
  | [] => txnIdSentinel
  | first :: rest =>
    rest.foldl (fun newMin id => if transactionIdCompare id newMin < 0 then id else newMin) first

def swapRemove (txns : List TransactionId) (txn : TransactionId) : List TransactionId :=
  match txns.idxOf? txn, txns.getLast? with
  | some found, some last => (txns.set found last).dropLast
  | _, _ => txns

/-- The critical section of `tx_manager_begin`. The minimum is written only when the
shard was empty. -/
def TxShard.register (shard : TxShard) (txn : TransactionId) : TxShard :=
  { txns := shard.txns ++ [txn]
    minTxnId := if isTxnIdSentinel shard.minTxnId then txn else shard.minTxnId }

def TxShard.remove (shard : TxShard) (txn : TransactionId) : TxShard :=
  let txns := swapRemove shard.txns txn
  let wasShardMin := decide (transactionIdCompare txn shard.minTxnId = 0)
  { txns, minTxnId := if wasShardMin || txns.isEmpty then shardMin txns else shard.minTxnId }

/-! ### The manager -/

structure TxManager where
  shards : Fin txManagerShards → TxShard
  minActiveTxnId : TransactionId
  lastCommittedTxnId : TransactionId

def txManagerCreate : TxManager :=
  { shards := fun _ => ⟨[], txnIdSentinel⟩
    minActiveTxnId := txnIdSentinel
    lastCommittedTxnId := ⟨0, 0, 0⟩ }

variable (manager : TxManager) (id : TransactionId)

/-- Replace the shard of an id by what `f` makes of it. -/
def TxManager.onShard (f : TxShard → TxShard) : TxManager :=
  { manager with
    shards := Function.update manager.shards (txnShard id) (f (manager.shards (txnShard id))) }

def txManagerBegin : TxManager :=
  manager.onShard id fun shard => shard.register id

/-- The effect of the compare-and-swap loop on `last_committed_txn_id`. -/
def TxManager.raiseLastCommitted : TxManager :=
  if 0 < transactionIdCompare id manager.lastCommittedTxnId then
    { manager with lastCommittedTxnId := id }
  else manager

theorem le_raiseLastCommitted :
    manager.lastCommittedTxnId ≤ (manager.raiseLastCommitted id).lastCommittedTxnId ∧
      id ≤ (manager.raiseLastCommitted id).lastCommittedTxnId := by
  rw [TxManager.raiseLastCommitted]
  split
  · next hgt => exact ⟨((transactionIdCompare_gt ..).mp hgt).le, le_rfl⟩
  · rename_i hgt
    rw [transactionIdCompare_gt, not_lt] at hgt
    exact ⟨le_rfl, hgt⟩

def txManagerCommit : TxManager :=
  (manager.raiseLastCommitted id).onShard id fun shard => shard.remove id

def txManagerAbort : TxManager :=
  manager.onShard id fun shard => shard.remove id

/-- One iteration of the loop in `recompute_global_min`. -/
def mergeShardMin (newGlobalMin shardMin : TransactionId) : TransactionId :=
  if !isTxnIdSentinel shardMin then
    if isTxnIdSentinel newGlobalMin || decide (transactionIdCompare shardMin newGlobalMin < 0) then
      shardMin
    else newGlobalMin
  else newGlobalMin

/-- The end of `recompute_global_min`: without an active transaction the minimum is
`last_committed`. -/
def TxManager.globalMinOf (newGlobalMin : TransactionId) : TransactionId :=
  if isTxnIdSentinel newGlobalMin then manager.lastCommittedTxnId else newGlobalMin

/-- `recompute_global_min` without interruption: the value it writes. -/
def recomputeGlobalMin : TransactionId :=
  manager.globalMinOf <| (List.finRange txManagerShards).foldl
    (fun newGlobalMin i => mergeShardMin newGlobalMin (manager.shards i).minTxnId) txnIdSentinel

/-- `tx_manager_get_min_active` without interruption: the value it returns. -/
def txManagerGetMinActive : TransactionId :=
  if isTxnIdSentinel manager.minActiveTxnId then recomputeGlobalMin manager
  else manager.minActiveTxnId

/-! ### The calls in progress -/

/-- A `recompute_global_min` in progress: before it reads shard `next`, or with the
value it is about to write. -/
inductive MinScan where
  | scanning (next : Nat) (newGlobalMin : TransactionId)
  | writing (value : TransactionId)

def MinScan.start : MinScan := .scanning 0 txnIdSentinel

/-- A read of the loop, or of `last_committed` after it. -/
def MinScan.advance (next : Nat) (newGlobalMin : TransactionId) : MinScan :=
  if h : next < txManagerShards then
    .scanning (next + 1) (mergeShardMin newGlobalMin (manager.shards ⟨next, h⟩).minTxnId)
  else .writing (manager.globalMinOf newGlobalMin)

/-- All calls on one manager. `issued` records every id handed out and `live` those
of transactions not yet committed or aborted; no call reads either. -/
structure MvccState where
  generator : IdGenerator
  issued : List TransactionId
  live : List TransactionId
  /-- Begins between their two steps. -/
  pending : List TransactionId
  manager : TxManager
  /-- Commits and aborts past their critical section. -/
  ending : List TransactionId
  scans : List MinScan

def MvccState.initial (generator : IdGenerator) : MvccState :=
  { generator, issued := [], live := [], pending := [], manager := txManagerCreate, ending := []
    scans := [] }

inductive MvccAction where
  | takeId (clock : ClockReading)
  | register (id : TransactionId)
  | commit (id : TransactionId)
  | abort (id : TransactionId)
  | checkGlobalMin (id : TransactionId)
  | getMinActive
  | scan (index : Nat)

def TxManager.isActive (id : TransactionId) : Bool :=
  (manager.shards (txnShard id)).txns.contains id

def MvccState.stepScan (s : MvccState) (index : Nat) : Option MvccState :=
  match s.scans[index]? with
  | none => none
  | some (.scanning next newGlobalMin) =>
    some { s with scans := s.scans.set index (.advance s.manager next newGlobalMin) }
  | some (.writing value) =>
    some { s with
      manager := { s.manager with minActiveTxnId := value }
      scans := s.scans.eraseIdx index }

/-- One step of the system; `none` when no call can take it. A commit or abort of a
transaction that is not active returns -1 and changes nothing. -/
def mvccStep (s : MvccState) : MvccAction → Option MvccState
  | .takeId clock =>
    let (id, generator) := transactionIdGetNext s.generator clock
    some { s with
      generator
      issued := s.issued ++ [id]
      live := s.live ++ [id]
      pending := s.pending ++ [id] }
  | .register id =>
    if id ∈ s.pending then
      some { s with pending := s.pending.erase id, manager := txManagerBegin s.manager id }
    else none
  | .commit id =>
    if s.manager.isActive id then
      some { s with
        live := s.live.erase id
        manager := txManagerCommit s.manager id
        ending := s.ending ++ [id] }
    else none
  | .abort id =>
    if s.manager.isActive id then
      some { s with
        live := s.live.erase id
        manager := txManagerAbort s.manager id
        ending := s.ending ++ [id] }
    else none
  | .checkGlobalMin id =>
    if id ∈ s.ending then
      let recompute := decide (transactionIdCompare id s.manager.minActiveTxnId = 0) ||
        isTxnIdSentinel s.manager.minActiveTxnId
      some { s with
        ending := s.ending.erase id
        scans := if recompute then s.scans ++ [.start] else s.scans }
    else none
  | .getMinActive =>
    some { s with
      scans := if isTxnIdSentinel s.manager.minActiveTxnId then s.scans ++ [.start]
        else s.scans }
  | .scan index => s.stepScan index

theorem mvccStep_lastCommitted {s s' : MvccState} {a : MvccAction} (h : mvccStep s a = some s') :
    s.manager.lastCommittedTxnId ≤ s'.manager.lastCommittedTxnId := by
  cases a with
  | takeId clock | getMinActive =>
    obtain rfl := some.inj h
    exact le_rfl
  | register id | abort id | checkGlobalMin id =>
    obtain ⟨-, ⟨⟩⟩ := ite_none_right_eq_some.mp h
    exact le_rfl
  | commit id =>
    obtain ⟨-, ⟨⟩⟩ := ite_none_right_eq_some.mp h
    exact (le_raiseLastCommitted s.manager id).1
  | scan index =>
    rw [mvccStep, MvccState.stepScan] at h
    split at h
    · cases h
    · obtain rfl := some.inj h
      exact le_rfl
    · obtain rfl := some.inj h
      exact le_rfl

end WaveDB.HBTrie
