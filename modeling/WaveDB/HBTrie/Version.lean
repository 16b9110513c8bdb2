import Mathlib.Data.List.DropRight
import WaveDB.Workers.TransactionId

/-!
MVCC version chains (`HBTrie/bnode.c`, `version_entry_*`).

A chain is the list of its versions from the head. `versionEntryFindVisible_eq`
says what the walk computes without the fast path.
-/

namespace WaveDB.HBTrie

open Workers

/-- The bytes of a stored value, as `identifier_to_buffer` gives them. The trie
never reads a value's chunking. -/
abbrev Bytes := List UInt8

structure VersionEntry where
  txnId : TransactionId
  value : Option Bytes
  isDeleted : Bool
deriving DecidableEq

/-- The slow path of `version_entry_find_visible`: walk towards older versions
until one is not newer than the read id. -/
def findVisibleFrom (readTxnId : TransactionId) : List VersionEntry → Option VersionEntry
  | [] => none
  | current :: older =>
    if transactionIdCompare current.txnId readTxnId ≤ 0 then
      if !current.isDeleted then some current else none
    else findVisibleFrom readTxnId older

variable (versions : List VersionEntry)

/-- `version_entry_find_visible`, with its fast path for the head. -/
def versionEntryFindVisible (readTxnId : TransactionId) : Option VersionEntry :=
  match versions with
  | [] => none
  | newest :: older =>
    if transactionIdCompare newest.txnId readTxnId ≤ 0 then
      if !newest.isDeleted then some newest else none
    else findVisibleFrom readTxnId older

def versionEntryAdd (txnId : TransactionId) (value : Option Bytes)
    (isDeleted : Bool) : List VersionEntry :=
  ⟨txnId, value, isDeleted⟩ :: versions

def olderThan (minActive : TransactionId) (version : VersionEntry) : Bool :=
  decide (transactionIdCompare version.txnId minActive < 0)

/-- `version_entry_gc`: from the oldest version on, remove while older than the
cutoff; the head always stays. Returns the chain and the number removed. -/
def versionEntryGc (minActive : TransactionId) : List VersionEntry × Nat :=
  match versions with
  | [] => ([], 0)
  | newest :: older =>
    let kept := older.rdropWhile (olderThan minActive)
    (newest :: kept, older.length - kept.length)

/-! ### What the walks compute -/

theorem findVisibleFrom_eq (readTxnId : TransactionId) (versions : List VersionEntry) :
    findVisibleFrom readTxnId versions =
      (versions.find? (·.txnId ≤ readTxnId)).filter fun v => !v.isDeleted := by
  induction versions with
  | nil => rfl
  | cons current older ih =>
    simp only [findVisibleFrom, transactionIdCompare_le]
    by_cases h : current.txnId ≤ readTxnId
    · simp [h, Option.filter]
    · simp [h, ih]

/-- The visible version is the first one from the head that is not newer than
the read id, unless it is a tombstone. -/
theorem versionEntryFindVisible_eq (readTxnId : TransactionId) :
    versionEntryFindVisible versions readTxnId =
      (versions.find? (·.txnId ≤ readTxnId)).filter fun v => !v.isDeleted := by
  rw [← findVisibleFrom_eq]
  cases versions with
  | nil => rfl
  | cons newest older => rfl

end WaveDB.HBTrie
