import WaveDB.Basis.Cbor
import WaveDB.Database.Replay

/-!
Batches and their records (`Database/batch.c`, `serialize_batch` in `Database/database.c`, the
`WAL_BATCH` case of `wal_manager_recover` in `Database/wal_manager.c`, and the CBOR forms of
`HBTrie/path.c` and `HBTrie/identifier.c`).

A batch is logged as one record, an array with one array per operation, whose bytes are libcbor's.
`decodeBatch_serialize` says what recovery makes of the record: the operations of the batch, on the
paths that are built anew from the bytes of the old ones.
-/

namespace WaveDB.Database

open WaveDB.Basis Workers HBTrie List

/-! ### Paths and identifiers -/

def identifierToCbor (id : Identifier) : CborItem := .bytes (identifierToBuffer id)

def pathToCbor (path : Path) : CborItem := .array (path.map identifierToCbor)

def cborBytes : CborItem → Option Bytes
  | .bytes data => some data
  | _ => none

variable (cs : ChunkSize) (behind : Bytes) (txnId : TransactionId)

/-- `cbor_to_identifier_old`: an array with the bytes of each chunk. Bytes beyond the chunk size
are dropped. -/
def cborToIdentifierOld (items : List CborItem) : Option Identifier :=
  if items = [] then some (identifierCreate [] cs)
  else (items.mapM cborBytes).map fun chunks =>
    { chunks := chunks.map (paddedChunk cs)
      length := (chunks.length - 1) * cs.size + (chunks.getLast?.getD []).length }

/-- `cbor_to_identifier`: byte strings are copied, and `behind` follows the copies of length 0. -/
def cborToIdentifier (cs : ChunkSize) (behind : Bytes) : CborItem → Option Identifier
  | .bytes data => some (identifierCreateOver behind data cs)
  | .array items => cborToIdentifierOld cs items
  | .uint _ => none

def cborToPath (cs : ChunkSize) (behind : Bytes) : CborItem → Option Path
  | .array items => items.mapM (cborToIdentifier cs behind)
  | _ => none

/-! ### Batches -/

inductive BatchOp where
  | put (path : Path) (value : Bytes)
  | delete (path : Path)

def BatchOp.call (txnId : TransactionId) : BatchOp → TrieOp
  | .put path value => .insert path value txnId
  | .delete path => .delete path txnId

def BatchOp.toCbor : BatchOp → CborItem
  | .put path value => .array [.uint walPut.toNat, pathToCbor path, .bytes value]
  | .delete path => .array [.uint walDelete.toNat, pathToCbor path]

def batchToCbor (ops : List BatchOp) : CborItem := .array (ops.map BatchOp.toCbor)

def serializeBatch [Libcbor] (ops : List BatchOp) : Bytes := Libcbor.serialize (batchToCbor ops)

def estimateOperationSize [Libcbor] : BatchOp → Nat
  | .put path value =>
    1 + (Libcbor.serialize (pathToCbor path)).length +
      (Libcbor.serialize (.bytes value)).length + 8
  | .delete path => 1 + (Libcbor.serialize (pathToCbor path)).length + 8

/-- The lengths in an operation are of type `size_t`. -/
def BatchOp.fits : BatchOp → Bool
  | .put path value => pathFits path && decide (value.length < 256 ^ 8)
  | .delete path => pathFits path
where
  /-- The lengths in a path are. -/
  pathFits (path : Path) : Bool :=
    decide (path.length < 256 ^ 8) &&
      path.all fun id => decide ((identifierToBuffer id).length < 256 ^ 8)

theorem pathToCbor_fits {path : Path} (h : BatchOp.fits.pathFits path) :
    (pathToCbor path).Fits := by
  simp only [BatchOp.fits.pathFits, Bool.and_eq_true, decide_eq_true_eq, all_eq_true] at h
  refine .array ((length_map _).trans_lt h.1) fun item hitem => ?_
  obtain ⟨id, hid, rfl⟩ := mem_map.mp hitem
  exact .bytes (h.2 id hid)

theorem BatchOp.toCbor_fits {op : BatchOp} (h : op.fits) : op.toCbor.Fits := by
  have hput : (CborItem.uint walPut.toNat).Fits := .uint (by decide)
  have hdelete : (CborItem.uint walDelete.toNat).Fits := .uint (by decide)
  cases op with
  | put path value =>
    simp only [fits, Bool.and_eq_true, decide_eq_true_eq] at h
    refine .array (by simp) ?_
    simpa using ⟨hput, pathToCbor_fits h.1, CborItem.Fits.bytes h.2⟩
  | delete path =>
    refine .array (by simp) ?_
    simpa using ⟨hdelete, pathToCbor_fits h⟩

theorem batchToCbor_fits {ops : List BatchOp} (hlength : ops.length < 256 ^ 8)
    (h : ∀ op ∈ ops, op.fits) : (batchToCbor ops).Fits := by
  refine .array ((length_map _).trans_lt hlength) fun item hitem => ?_
  obtain ⟨op, hop, rfl⟩ := mem_map.mp hitem
  exact op.toCbor_fits (h op hop)

/-- `batch_t`. All lengths in it are of type `size_t`. -/
structure Batch where
  ops : List BatchOp
  submitted : Bool
  sized : (batchToCbor ops).Fits

def batchEstimateSize [Libcbor] (batch : Batch) : Nat := (batch.ops.map estimateOperationSize).sum

/-! ### Recovery -/

/-- One turn of the loops over a batch in `wal_manager_recover`; `none` where nothing is applied.
An operation that is not a put is applied as a delete. -/
def decodeBatchOp (cs : ChunkSize) (behind : Bytes) (txnId : TransactionId) :
    CborItem → Option TrieOp
  | .array (.uint type :: pathItem :: rest) =>
    (cborToPath cs behind pathItem).bind fun path =>
      if UInt8.ofNat type = walPut then
        (rest.head?.bind (cborToIdentifier cs behind)).map fun value =>
          .insert path (identifierToBuffer value) txnId
      else some (.delete path txnId)
  | _ => none

/-- The calls that recovery makes for the payload of a `WAL_BATCH` record. -/
def decodeBatch [Libcbor] (txnId : TransactionId) (data : Bytes) : List TrieOp :=
  match Libcbor.load data with
  | some (.array items) => items.filterMap (decodeBatchOp cs behind txnId)
  | _ => []

def decodeRecordOps [Libcbor] (record : WalRecord) : List TrieOp :=
  if record.type = walBatch then decodeBatch cs behind record.txnId record.data
  else (decodeRecord cs behind record).toList

/-! ### What comes back -/

theorem map_identifierToBuffer_pathOf (components : List Bytes) :
    (pathOf cs components).map identifierToBuffer = components := by
  rw [pathOf, map_map]
  exact (map_congr_left fun data _ => identifierToBuffer_create cs data).trans (map_id components)

def rebuiltPath (path : Path) : Path := pathOver cs behind (path.map identifierToBuffer)

theorem cborToPath_pathToCbor (path : Path) :
    cborToPath cs behind (pathToCbor path) = some (rebuiltPath cs behind path) := by
  rw [pathToCbor, cborToPath, rebuiltPath, pathOver]
  induction path with
  | nil => rfl
  | cons id path ih =>
    rw [map_cons, mapM_cons, ih]
    rfl

def BatchOp.rebuilt (cs : ChunkSize) (behind : Bytes) : BatchOp → BatchOp
  | .put path value => .put (rebuiltPath cs behind path) value
  | .delete path => .delete (rebuiltPath cs behind path)

theorem decodeBatchOp_toCbor (op : BatchOp) :
    decodeBatchOp cs behind txnId op.toCbor = some ((op.rebuilt cs behind).call txnId) := by
  cases op with
  | put path value =>
    simp only [BatchOp.toCbor, decodeBatchOp, cborToPath_pathToCbor, Option.bind_some,
      UInt8.ofNat_toNat, if_pos, head?_cons, cborToIdentifier, Option.map_some,
      identifierToBuffer_createOver, BatchOp.rebuilt, BatchOp.call]
  | delete path =>
    have hne : walDelete ≠ walPut := by decide
    simp only [BatchOp.toCbor, decodeBatchOp, cborToPath_pathToCbor, Option.bind_some,
      UInt8.ofNat_toNat, if_neg hne, BatchOp.rebuilt, BatchOp.call]

theorem decodeBatch_serialize [Libcbor] (batch : Batch) :
    decodeBatch cs behind txnId (serializeBatch batch.ops) =
      batch.ops.map fun op => (op.rebuilt cs behind).call txnId := by
  rw [decodeBatch, serializeBatch, Libcbor.load_serialize batch.sized]
  simp only [batchToCbor, filterMap_map]
  rw [← filterMap_eq_map]
  exact filterMap_congr fun op _ => decodeBatchOp_toCbor cs behind txnId op

def BatchOp.path : BatchOp → Path
  | .put path _ => path
  | .delete path => path

def BatchOp.logged (txnId : TransactionId) : BatchOp → LoggedCall
  | .put path value => ⟨txnId, path.map identifierToBuffer, some value⟩
  | .delete path => ⟨txnId, path.map identifierToBuffer, none⟩

theorem BatchOp.rebuilt_call_eq_iff (op : BatchOp) :
    (op.rebuilt cs behind).call txnId = (op.logged txnId).op cs ↔
      rebuiltPath cs behind op.path = pathOf cs (op.path.map identifierToBuffer) := by
  cases op <;> simp [rebuilt, call, logged, LoggedCall.op, BatchOp.path]

/-- Recovery finds the operations of a batch in its record, in order, each with the components of
its path and its value, exactly if no component of a path is empty: the chunk of an empty one is
taken from what follows its buffer. -/
theorem batch_log_exact_iff [Libcbor] (cs : ChunkSize) (txnId : TransactionId) (batch : Batch) :
    (∀ behind, decodeBatch cs behind txnId (serializeBatch batch.ops) =
        batch.ops.map fun op => (op.logged txnId).op cs) ↔
      ∀ op ∈ batch.ops, ∀ id ∈ op.path, identifierToBuffer id ≠ [] := by
  have hop : ∀ op : BatchOp, (∀ behind, (op.rebuilt cs behind).call txnId =
      (op.logged txnId).op cs) ↔ ∀ id ∈ op.path, identifierToBuffer id ≠ [] := by
    intro op
    simp only [op.rebuilt_call_eq_iff, rebuiltPath]
    rw [pathOver_eq_iff, forall_mem_map]
  simp only [decodeBatch_serialize, map_inj_left, ← hop]
  exact ⟨fun h op hmem behind => h behind op hmem, fun h behind op hmem => h op hmem behind⟩

section Empty

attribute [local instance] headCbor

def emptyComponent : Batch where
  ops := [.put (pathOf defaultChunkSize [[]]) [1]]
  submitted := false
  sized := batchToCbor_fits (by decide) (by decide)

/-- The put comes back under the chunk that lies behind the empty buffer. -/
theorem batch_log_reads_behind :
    (decodeBatch defaultChunkSize [97] ⟨0, 0, 1⟩ (serializeBatch emptyComponent.ops)).map
        (fun op => pathChunks op.path) = [[paddedChunk defaultChunkSize [97]]] ∧
      (emptyComponent.ops.map fun op => pathChunks op.path) =
        [[paddedChunk defaultChunkSize []]] := by
  rw [decodeBatch_serialize]
  exact ⟨rfl, rfl⟩

end Empty

end WaveDB.Database
