import Mathlib.Data.List.Sort
import WaveDB.Basis.Runs
import WaveDB.Database.WalRecover

/-!
The WAL manager at work (`create_thread_wal`, `thread_wal_write`, `thread_wal_rotate` and
`compact_wal_files` in `Database/wal_manager.c`).

Files are inodes with names, so that a file can be unlinked while a thread still has it open.
All system calls succeed. The name of a rotated file holds the second of its thread's last
record and the name of a compacted file the second of the clock; both are opened for
appending, whether or not a file of that name exists.
-/

namespace WaveDB.Database

open WaveDB.Basis Workers HBTrie List

/-! ### The disk -/

/-- The WAL directory: the contents of all inodes, the names, and the records of the manifest. -/
structure WalDisk where
  location : Bytes
  manifest : List ManifestEntry
  inodes : List Bytes
  names : List (Bytes × Nat)
  distinct : (names.map Prod.fst).Nodup
deriving DecidableEq

variable (disk : WalDisk)

def WalDisk.directory : WalDirectory where
  location := disk.location
  files := disk.names.map fun name => (name.1, disk.inodes.getD name.2 [])
  distinct := by
    have hfst : (disk.names.map fun name => (name.1, disk.inodes.getD name.2 [])).map Prod.fst =
        disk.names.map Prod.fst := by
      rw [List.map_map]
      rfl
    rw [hfst]
    exact disk.distinct

theorem nodup_concat_name {names : List (Bytes × Nat)} {path : Bytes} {inode : Nat}
    (hdistinct : (names.map Prod.fst).Nodup) (hlookup : names.lookup path = none) :
    ((names ++ [(path, inode)]).map Prod.fst).Nodup := by
  rw [map_append, nodup_append]
  refine ⟨hdistinct, nodup_singleton _, ?_⟩
  rintro name hname _ hpath rfl
  obtain rfl := mem_singleton.mp hpath
  obtain ⟨entry, hentry, heq⟩ := mem_map.mp hname
  have hne := lookup_eq_none_iff.mp hlookup entry hentry
  simp [heq] at hne

/-- `open` with `O_CREAT | O_APPEND`: the inode of the name, a new empty one if there is none. -/
def WalDisk.openAppend (path : Bytes) : WalDisk × Nat :=
  match hlookup : disk.names.lookup path with
  | some inode => (disk, inode)
  | none =>
    ({ disk with
        inodes := disk.inodes ++ [[]]
        names := disk.names ++ [(path, disk.inodes.length)]
        distinct := nodup_concat_name disk.distinct hlookup }, disk.inodes.length)

def WalDisk.append (inode : Nat) (data : Bytes) : WalDisk :=
  { disk with inodes := disk.inodes.modify inode (· ++ data) }

def WalDisk.unlink (paths : List Bytes) : WalDisk :=
  { disk with
    names := disk.names.filter fun name => !paths.contains name.1
    distinct := disk.distinct.sublist (List.filter_sublist.map Prod.fst) }

def WalDisk.writeManifestEntry (threadId : UInt64) (path : Bytes) (status : WalFileStatus)
    (txnId : TransactionId) : WalDisk :=
  { disk with manifest := disk.manifest ++ [manifestEntry threadId path status txnId] }

def emptyDisk : WalDisk :=
  { location := ascii ['d'], manifest := [], inodes := [], names := [], distinct := List.nodup_nil }

/-! ### Names -/

def decimal (n : UInt64) : List Char := Nat.toDigits 10 n.toNat

def threadWalPath (location : Bytes) (threadId : UInt64) : Bytes :=
  pathJoin location
    (ascii (['t', 'h', 'r', 'e', 'a', 'd', '_'] ++ decimal threadId ++ ['.', 'w', 'a', 'l']))

def rotatedWalPath (location : Bytes) (threadId time : UInt64) : Bytes :=
  pathJoin location
    (ascii (['t', 'h', 'r', 'e', 'a', 'd', '_'] ++ decimal threadId ++ ['_'] ++ decimal time ++
      ['.', 'w', 'a', 'l']))

/-- `compacted_<second>.wal`, in a buffer of 512 bytes. -/
def compactedWalPath (location : Bytes) (clock : UInt64) : Bytes :=
  (location ++ ascii (['/', 'c', 'o', 'm', 'p', 'a', 'c', 't', 'e', 'd', '_'] ++ decimal clock ++
    ['.', 'w', 'a', 'l'])).take 511

/-! ### Threads -/

/-- The fields of `wal_config_t` that decide when files are written and changed. -/
structure WalConfig where
  maxFileSize : Nat
  maxSealedWals : Nat
  /-- `WAL_SYNC_IMMEDIATE` -/
  immediate : Bool
deriving DecidableEq

/-- `thread_wal_t`. `accepted` are the records for which `thread_wal_write` returned 0; no step
reads it. -/
structure ThreadWal where
  threadId : UInt64
  filePath : Bytes
  fd : Nat
  newestTxnId : TransactionId
  currentSize : Nat
  maxSize : Nat
  entryBuf : Bytes
  batchCount : Nat
  batchSize : Nat
  accepted : List WalRecord
deriving DecidableEq

section Thread

variable (twal : ThreadWal) (record : WalRecord)

def ThreadWal.flushed : List WalRecord :=
  twal.accepted.take (twal.accepted.length - twal.batchCount)

def createThreadWal (config : WalConfig) (disk : WalDisk) (threadId : UInt64) :
    WalDisk × ThreadWal :=
  let path := threadWalPath disk.location threadId
  let opened := disk.openAppend path
  (opened.1.writeManifestEntry threadId path .active ⟨0, 0, 0⟩,
    { threadId
      filePath := path
      fd := opened.2
      newestTxnId := ⟨0, 0, 0⟩
      currentSize := 0
      maxSize := config.maxFileSize
      entryBuf := []
      batchCount := 0
      batchSize := if config.immediate then 1 else 0
      accepted := [] })

def flushBuffer : WalDisk × ThreadWal :=
  if twal.batchCount = 0 ∨ twal.entryBuf = [] then (disk, twal)
  else
    (disk.append twal.fd twal.entryBuf,
      { twal with
        currentSize := twal.currentSize + twal.entryBuf.length
        entryBuf := []
        batchCount := 0 })

def threadWalRotate : WalDisk × ThreadWal :=
  let path := rotatedWalPath disk.location twal.threadId twal.newestTxnId.time
  let sealed := disk.writeManifestEntry twal.threadId twal.filePath .sealed twal.newestTxnId
  let opened := sealed.openAppend path
  (opened.1.writeManifestEntry twal.threadId path .active ⟨0, 0, 0⟩,
    { twal with filePath := path, fd := opened.2, currentSize := 0, newestTxnId := ⟨0, 0, 0⟩ })

def entryBufSize : Nat := 4096

/-- The record goes to the buffer, which is flushed when it is more than half full or the batch is
complete. -/
def bufferRecord : WalDisk × ThreadWal :=
  let twal := { twal with
    entryBuf := twal.entryBuf ++ encodeWalRecord record
    batchCount := twal.batchCount + 1
    newestTxnId := record.txnId
    accepted := twal.accepted ++ [record] }
  if entryBufSize / 2 < twal.entryBuf.length ∨
      (0 < twal.batchSize ∧ twal.batchSize ≤ twal.batchCount) then flushBuffer disk twal
  else (disk, twal)

def writeDirectly : WalDisk × ThreadWal :=
  (disk.append twal.fd (encodeWalRecord record),
    { twal with
      currentSize := twal.currentSize + (encodeWalRecord record).length
      newestTxnId := record.txnId
      accepted := twal.accepted ++ [record] })

/-- `thread_wal_write` once the file has room. -/
def appendRecord : WalDisk × ThreadWal :=
  let entrySize := (encodeWalRecord record).length
  if entryBufSize < twal.entryBuf.length + entrySize then
    let flushed := flushBuffer disk twal
    if entryBufSize < entrySize then writeDirectly flushed.1 flushed.2 record
    else bufferRecord flushed.1 flushed.2 record
  else bufferRecord disk twal record

end Thread

/-! ### Compaction -/

def sealedEntries (manifest : List ManifestEntry) : List ManifestEntry :=
  manifest.filter (·.status = .sealed)

/-- The records in the files of these entries, by transaction id. The order of equal ids is one
that `qsort` may leave. -/
def sealedRecords (entries : List ManifestEntry) : List WalRecord :=
  ((entries.flatMap fun entry => disk.directory.readFile entry.filePath).map
    RecoveryEntry.record).insertionSort fun a b => a.txnId ≤ b.txnId

/-- The disk after the records of the sealed files have moved to a compacted file, as they were
read. -/
def compactTo (sealed : List ManifestEntry) (records : List WalRecord) (clock : UInt64) : WalDisk :=
  let path := compactedWalPath disk.location clock
  let opened := disk.openAppend path
  let written := opened.1.append opened.2 (records.flatMap encodeWalRecord)
  let marked := sealed.foldl (fun disk entry =>
    disk.writeManifestEntry entry.threadId entry.filePath .compacted entry.newestTxnId) written
  (marked.writeManifestEntry 0 path .sealed ⟨0, 0, 0⟩).unlink (sealed.map ManifestEntry.filePath)

/-- The body of `compact_wal_files(manager, 0)` once it has read the manifest: the disk and the
number of records it compacted. -/
def compactEntries (entries : List ManifestEntry) (clock : UInt64) : WalDisk × Nat :=
  let sealed := sealedEntries entries
  if sealed = [] then (disk, 0)
  else (compactTo disk sealed (sealedRecords disk sealed) clock, sealed.length)

/-- `compact_wal_files(manager, 0)` at a second of the clock; `none` when it fails. -/
def compactWalFiles (clock : UInt64) : Option (WalDisk × Nat) :=
  match readManifest (manifestFile disk.manifest) with
  | .error _ => none
  | .ok entries => some (compactEntries disk entries clock)

theorem compactWalFiles_eq (clock : UInt64) : compactWalFiles disk clock =
      if disk.manifest.length ≤ manifestMaxEntries then
        some (compactEntries disk disk.manifest clock) else none := by
  have hread := readManifest_append disk.manifest (show ([] : Bytes).length < 328 by decide)
  rw [append_nil, if_pos rfl] at hread
  rw [compactWalFiles, hread]
  split_ifs <;> rfl

/-! ### The manager -/

structure WalManager where
  config : WalConfig
  disk : WalDisk
  threads : List ThreadWal
  sealedCount : Nat
deriving DecidableEq

def walManagerCreate (config : WalConfig) (disk : WalDisk) : WalManager :=
  { config, disk, threads := [], sealedCount := 0 }

variable (manager : WalManager) (thread : Nat) (twal : ThreadWal) (record : WalRecord)
  (clock : UInt64)

def WalManager.update (result : WalDisk × ThreadWal) : WalManager :=
  { manager with disk := result.1, threads := manager.threads.set thread result.2 }

def WalManager.compact : Option WalManager :=
  (compactWalFiles manager.disk clock).map fun (disk, compacted) =>
    { manager with disk, sealedCount := manager.sealedCount - compacted }

def needsRotation : Bool :=
  twal.maxSize ≤ twal.currentSize + twal.entryBuf.length + (encodeWalRecord record).length

def WalManager.sealedLimitReached : Bool :=
  0 < manager.config.maxSealedWals && manager.config.maxSealedWals ≤ manager.sealedCount

def rotateAndAppend : WalManager :=
  let rotated := threadWalRotate manager.disk twal
  { manager with sealedCount := manager.sealedCount + 1 }.update thread
    (appendRecord rotated.1 rotated.2 record)

/-- `thread_wal_write` by a thread; where it returns -1 the record is not among `accepted`. -/
def threadWalWrite : WalManager :=
  if needsRotation twal record then
    let flushed := flushBuffer manager.disk twal
    let manager := manager.update thread flushed
    if manager.sealedLimitReached then
      match manager.compact clock with
      | none => manager
      | some manager =>
        if manager.sealedLimitReached then manager
        else rotateAndAppend manager thread flushed.2 record
    else rotateAndAppend manager thread flushed.2 record
  else manager.update thread (appendRecord manager.disk twal record)

/-- `thread_wal_write` returns 0: the record fits into the file, or the file can be rotated. -/
def WalManager.accepts : Bool :=
  !needsRotation twal record || !manager.sealedLimitReached ||
    ((manager.update thread (flushBuffer manager.disk twal)).compact clock).any fun compacted =>
      !compacted.sealedLimitReached

inductive WalAction where
  | create (threadId : UInt64)
  | write (thread : Nat) (record : WalRecord) (clock : UInt64)
  | flush (thread : Nat)
  | compact (clock : UInt64)

def walStep : WalAction → Option WalManager
  | .create threadId =>
    let created := createThreadWal manager.config manager.disk threadId
    some { manager with disk := created.1, threads := manager.threads ++ [created.2] }
  | .write thread record clock =>
    (manager.threads[thread]?).map fun twal => threadWalWrite manager thread twal record clock
  | .flush thread =>
    (manager.threads[thread]?).map fun twal =>
      manager.update thread (flushBuffer manager.disk twal)
  | .compact clock => some ((manager.compact clock).getD manager)

/-! ### What a write accepts -/

theorem flushBuffer_accepted : (flushBuffer disk twal).2.accepted = twal.accepted := by
  unfold flushBuffer
  split <;> rfl

theorem bufferRecord_accepted :
    (bufferRecord disk twal record).2.accepted = twal.accepted ++ [record] := by
  unfold bufferRecord
  simp only
  split
  · rw [flushBuffer_accepted]
  · rfl

theorem appendRecord_accepted :
    (appendRecord disk twal record).2.accepted = twal.accepted ++ [record] := by
  unfold appendRecord
  simp only
  split
  · split
    · rw [writeDirectly, flushBuffer_accepted]
    · rw [bufferRecord_accepted, flushBuffer_accepted]
  · exact bufferRecord_accepted disk twal record

theorem WalManager.compact_threads {manager compacted : WalManager} {clock : UInt64}
    (h : manager.compact clock = some compacted) : compacted.threads = manager.threads := by
  obtain ⟨_, -, rfl⟩ := Option.map_eq_some_iff.mp h
  rfl

theorem threadWalWrite_threads :
    ∃ twal', (threadWalWrite manager thread twal record clock).threads =
        manager.threads.set thread twal' ∧ twal'.accepted =
        if manager.accepts thread twal record clock then twal.accepted ++ [record]
        else twal.accepted := by
  have hlimit : (manager.update thread (flushBuffer manager.disk twal)).sealedLimitReached =
      manager.sealedLimitReached := rfl
  -- rotating and appending to the flushed WAL, in a manager with the flushed WAL in place
  have hrotate : ∀ m : WalManager,
      m.threads = manager.threads.set thread (flushBuffer manager.disk twal).2 →
      ∃ twal', (rotateAndAppend m thread (flushBuffer manager.disk twal).2 record).threads =
          manager.threads.set thread twal' ∧ twal'.accepted = twal.accepted ++ [record] := by
    intro m hm
    have hthreads : (rotateAndAppend m thread (flushBuffer manager.disk twal).2 record).threads =
        m.threads.set thread (appendRecord
          (threadWalRotate m.disk (flushBuffer manager.disk twal).2).1
          (threadWalRotate m.disk (flushBuffer manager.disk twal).2).2 record).2 := rfl
    rw [hm, set_set] at hthreads
    refine ⟨_, hthreads, ?_⟩
    rw [appendRecord_accepted, threadWalRotate, flushBuffer_accepted]
  unfold threadWalWrite WalManager.accepts
  by_cases hfits : needsRotation twal record
  · rw [if_pos hfits]
    simp only [hlimit, hfits]
    by_cases hfull : manager.sealedLimitReached
    · rw [if_pos hfull, hfull]
      cases hcompact : (manager.update thread (flushBuffer manager.disk twal)).compact clock with
      | none => exact ⟨_, rfl, flushBuffer_accepted _ _⟩
      | some compacted =>
        have hthreads := WalManager.compact_threads hcompact
        cases hstill : compacted.sealedLimitReached with
        | true =>
          simp only [Option.any_some, hstill]
          exact ⟨_, hthreads, flushBuffer_accepted _ _⟩
        | false =>
          simp only [Option.any_some, hstill]
          exact hrotate compacted hthreads
    · rw [if_neg hfull, Bool.eq_false_of_not_eq_true hfull]
      exact hrotate _ rfl
  · rw [if_neg hfits, Bool.eq_false_of_not_eq_true hfits]
    exact ⟨_, rfl, appendRecord_accepted _ _ _⟩

/-! ### What a write moves -/

theorem WalDisk.append_empty (inode : Nat) : disk.append inode [] = disk := by
  have hid : (fun content : Bytes => content ++ []) = id := funext append_nil
  rw [append, hid, modify_id]

theorem WalDisk.append_append (inode : Nat) (data more : Bytes) :
    (disk.append inode data).append inode more = disk.append inode (data ++ more) := by
  have hcomp : (fun content : Bytes => content ++ more) ∘ (fun content => content ++ data) =
      fun content => content ++ (data ++ more) := funext fun _ => append_assoc ..
  simp only [append, modify_modify_eq, hcomp]

/-- The bytes `more` went into the buffer, and some bytes from its front to the file. -/
structure Moves (disk : WalDisk) (twal : ThreadWal) (more : Bytes) (result : WalDisk × ThreadWal) :
    Prop where
  bytes : ∃ data, result.1 = disk.append twal.fd data ∧
    data ++ result.2.entryBuf = twal.entryBuf ++ more ∧
    result.2.currentSize = twal.currentSize + data.length
  fd : result.2.fd = twal.fd
  filePath : result.2.filePath = twal.filePath
  maxSize : result.2.maxSize = twal.maxSize
  room : result.2.entryBuf.length ≤ entryBufSize
  buffered : result.2.batchCount = 0 → result.2.entryBuf = []

theorem Moves.trans {disk : WalDisk} {twal : ThreadWal} {more more' : Bytes}
    {mid result : WalDisk × ThreadWal} (h : Moves disk twal more mid)
    (h' : Moves mid.1 mid.2 more' result) : Moves disk twal (more ++ more') result := by
  obtain ⟨data, hdisk, hbytes, hsize⟩ := h.bytes
  obtain ⟨data', hdisk', hbytes', hsize'⟩ := h'.bytes
  refine ⟨⟨data ++ data', ?_, ?_, ?_⟩, h'.fd.trans h.fd, h'.filePath.trans h.filePath,
    h'.maxSize.trans h.maxSize, h'.room, h'.buffered⟩
  · rw [hdisk', hdisk, h.fd, WalDisk.append_append]
  · rw [append_assoc, hbytes', ← append_assoc, hbytes, append_assoc]
  · rw [hsize', hsize, length_append, Nat.add_assoc]

section Moves

variable {twal : ThreadWal}

theorem flushBuffer_moves (h : twal.batchCount = 0 → twal.entryBuf = []) :
    Moves disk twal [] (flushBuffer disk twal) ∧ (flushBuffer disk twal).2.entryBuf = [] := by
  rw [flushBuffer]
  split
  · rename_i hempty
    have hnil : twal.entryBuf = [] := hempty.elim h id
    refine ⟨⟨⟨[], (disk.append_empty _).symm, ?_, rfl⟩, rfl, rfl, rfl, ?_, h⟩, hnil⟩
    · rw [hnil]
    · rw [hnil]
      exact Nat.zero_le _
  · exact ⟨⟨⟨twal.entryBuf, rfl, rfl, rfl⟩, rfl, rfl, rfl, Nat.zero_le _, fun _ => rfl⟩, rfl⟩

theorem bufferRecord_moves {record : WalRecord}
    (h : twal.entryBuf.length + (encodeWalRecord record).length ≤ entryBufSize) :
    Moves disk twal (encodeWalRecord record) (bufferRecord disk twal record) := by
  have hbuffered : Moves disk twal (encodeWalRecord record) (disk, { twal with
      entryBuf := twal.entryBuf ++ encodeWalRecord record
      batchCount := twal.batchCount + 1
      newestTxnId := record.txnId
      accepted := twal.accepted ++ [record] }) := by
    refine ⟨⟨[], (disk.append_empty _).symm, rfl, rfl⟩, rfl, rfl, rfl, ?_, nofun⟩
    rwa [length_append]
  rw [bufferRecord]
  split
  · have hflushed := hbuffered.trans (flushBuffer_moves disk hbuffered.buffered).1
    rwa [append_nil] at hflushed
  · exact hbuffered

theorem writeDirectly_moves (h : twal.entryBuf = []) (record : WalRecord) :
    Moves disk twal (encodeWalRecord record) (writeDirectly disk twal record) := by
  refine ⟨⟨encodeWalRecord record, rfl, ?_, rfl⟩, rfl, rfl, rfl, ?_, fun _ => h⟩
  · rw [writeDirectly, h, append_nil, nil_append]
  · rw [writeDirectly, h]
    exact Nat.zero_le _

/-- The bytes of the record follow those in the buffer. -/
theorem appendRecord_moves (h : twal.batchCount = 0 → twal.entryBuf = []) (record : WalRecord) :
    Moves disk twal (encodeWalRecord record) (appendRecord disk twal record) := by
  obtain ⟨hflushed, hnil⟩ := flushBuffer_moves disk h
  rw [appendRecord]
  split
  · split
    · exact hflushed.trans (writeDirectly_moves _ hnil record)
    · rename_i hsize
      refine hflushed.trans (bufferRecord_moves _ ?_)
      rw [hnil, length_nil, Nat.zero_add]
      exact not_lt.mp hsize
  · rename_i hsize
    exact bufferRecord_moves disk (not_lt.mp hsize)

end Moves

end WaveDB.Database
