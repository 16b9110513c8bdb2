import WaveDB.Database.WalRecord

/-!
The manifest of the WAL files (`write_manifest_entry` and `read_manifest` in
`Database/wal_manager.c`).

The manifest is a header of 272 bytes and the memory images of the records appended so far,
328 bytes each. `readManifest_append` says what is read from a manifest whose last record may
be torn: all records or nothing.
-/

namespace WaveDB.Database

open WaveDB.Basis Workers HBTrie List

/-! ### Records -/

inductive WalFileStatus where
  | active
  | sealed
  | compacted
deriving DecidableEq

def WalFileStatus.code : WalFileStatus → Nat
  | .active => 1
  | .sealed => 2
  | .compacted => 3

/-- `manifest_entry_t`; the checksum is a function of the rest. The path is the string in the
256 bytes of its field. -/
structure ManifestEntry where
  threadId : UInt64
  filePath : Bytes
  status : WalFileStatus
  oldestTxnId : TransactionId
  newestTxnId : TransactionId
  path_length : filePath.length < 256
  path_nul : ∀ b ∈ filePath, b ≠ 0
deriving DecidableEq

def truncatePath (path : Bytes) : Bytes := (path.take 255).takeWhile (· ≠ 0)

theorem truncatePath_length (path : Bytes) : (truncatePath path).length < 256 := by
  have hwhile := ( takeWhile_prefix (l := path.take 255) (fun b : UInt8 => b ≠ 0)).length_le
  have htake := length_take_le 255 path
  exact Nat.lt_succ_of_le (hwhile.trans htake)

theorem truncatePath_nul (path : Bytes) : ∀ b ∈ truncatePath path, b ≠ 0 := by
  intro b hb
  exact of_decide_eq_true (mem_takeWhile_imp (p := fun b : UInt8 => decide (b ≠ 0)) hb)

theorem truncatePath_eq {path : Bytes} (hlength : path.length < 256) (hnul : ∀ b ∈ path, b ≠ 0) :
    truncatePath path = path := by
  rw [truncatePath, take_of_length_le (Nat.le_of_lt_succ hlength), takeWhile_eq_self_iff]
  exact fun b hb => decide_eq_true (hnul b hb)

def manifestEntry (threadId : UInt64) (path : Bytes) (status : WalFileStatus)
    (txnId : TransactionId) : ManifestEntry :=
  { threadId
    filePath := truncatePath path
    status
    oldestTxnId := txnId
    newestTxnId := txnId
    path_length := truncatePath_length path
    path_nul := truncatePath_nul path }

/-! ### The file -/

def transactionIdImage (id : TransactionId) : Bytes :=
  writeUintLe 8 id.time.toNat ++ (writeUintLe 8 id.nanos.toNat ++ writeUintLe 8 id.count.toNat)

/-- The record in memory up to its checksum, with four bytes of padding after the status. -/
def ManifestEntry.image (entry : ManifestEntry) : Bytes :=
  writeUintLe 8 entry.threadId.toNat ++
    ((entry.filePath ++ List.replicate (256 - entry.filePath.length) 0) ++
      (writeUintLe 4 entry.status.code ++ (List.replicate 4 0 ++
        (transactionIdImage entry.oldestTxnId ++ transactionIdImage entry.newestTxnId))))

/-- The checksum covers the image and the checksum field itself, which is 0 at that time. -/
def imageChecksum (image : Bytes) : Nat := (walCrc32 (image ++ List.replicate 4 0)).toNat

def encodeManifestEntry (entry : ManifestEntry) : Bytes :=
  entry.image ++ (writeUintLe 4 (imageChecksum entry.image) ++ List.replicate 4 0)

def manifestVersion : Nat := 1

/-- `manifest_header_t` of a new manifest. -/
def manifestHeader : Bytes := writeUintLe 4 manifestVersion ++ List.replicate 268 0

def manifestMaxEntries : Nat := 10000

def manifestFile (history : List ManifestEntry) : Bytes :=
  manifestHeader ++ history.flatMap encodeManifestEntry

/-! ### Reading -/

def readTransactionIdImage : Reader TransactionId := do
  let time ← readUintLe 8
  let nanos ← readUintLe 8
  let count ← readUintLe 8
  pure ⟨.ofNat time, .ofNat nanos, .ofNat count⟩

/-- The enumeration is read from a `uint32_t`. The program writes no other value, and one that is
none of the three is taken for corruption. -/
def readStatus : Reader WalFileStatus := do
  let code ← readUintLe 4
  if code = 1 then pure .active
  else if code = 2 then pure .sealed
  else if code = 3 then pure .compacted
  else failure

def readImage : Reader ManifestEntry := do
  let threadId ← readUintLe 8
  let path ← readBytes 256
  let status ← readStatus
  let _ ← readBytes 4
  let oldestTxnId ← readTransactionIdImage
  let newestTxnId ← readTransactionIdImage
  pure
    { threadId := .ofNat threadId
      filePath := truncatePath path
      status
      oldestTxnId
      newestTxnId
      path_length := truncatePath_length path
      path_nul := truncatePath_nul path }

def readManifestEntry : Reader ManifestEntry := do
  let image ← readBytes 320
  let storedChecksum ← readUintLe 4
  let _ ← readBytes 4
  if imageChecksum image = storedChecksum then
    fun rest => (readImage image).map fun (entry, _) => (entry, rest)
  else failure

inductive WalError where
  | io
  | corrupt
  | limit
deriving DecidableEq

/-- The loop of `read_manifest` with room for `room` more records. -/
def readEntries : Nat → Bytes → Except WalError (List ManifestEntry)
  | 0, bytes =>
    if bytes = [] then .ok []
    else if bytes.length < 328 then .error .io
    else .error .limit
  | room + 1, bytes =>
    if bytes = [] then .ok []
    else if bytes.length < 328 then .error .io
    else
      match readManifestEntry bytes with
      | none => .error .corrupt
      | some (entry, rest) => (readEntries room rest).map (entry :: ·)

def readManifest (manifest : Bytes) : Except WalError (List ManifestEntry) :=
  if manifest.length < 272 then .error .io
  else if ofDigits (manifest.take 4).reverse ≠ manifestVersion then .error .corrupt
  else readEntries manifestMaxEntries (manifest.drop 272)

/-! ### Reading back -/

variable (entry : ManifestEntry)

theorem ManifestEntry.image_length : entry.image.length = 320 := by
  have hpath := entry.path_length
  simp only [image, length_append, length_replicate, writeUintLe_length, transactionIdImage]
  omega

theorem encodeManifestEntry_length : (encodeManifestEntry entry).length = 328 := by
  simp only [encodeManifestEntry, length_append, length_replicate, writeUintLe_length,
    entry.image_length]

theorem reads_transactionIdImage (id : TransactionId) :
    Reads readTransactionIdImage (transactionIdImage id) id := by
  have hfield (n : UInt64) : Reads (readUintLe 8) (writeUintLe 8 n.toNat) n.toNat :=
    .uintLe n.toNat_lt
  refine (hfield id.time).bind ((hfield id.nanos).bind ((hfield id.count).last ?_))
  simp only [UInt64.ofNat_toNat]
  exact .pure id

theorem reads_status (status : WalFileStatus) :
    Reads readStatus (writeUintLe 4 status.code) status := by
  have hcode : Reads (readUintLe 4) (writeUintLe 4 status.code) status.code := by
    apply Reads.uintLe
    cases status <;> decide
  refine hcode.last ?_
  cases status <;> exact .pure _

theorem truncatePath_field :
    truncatePath (entry.filePath ++ replicate (256 - entry.filePath.length) 0) =
      entry.filePath := by
  have hpath := entry.path_length
  have htake : (entry.filePath ++ replicate (256 - entry.filePath.length) 0).take 255 =
      entry.filePath ++ replicate (255 - entry.filePath.length) 0 := by
    rw [take_append, take_of_length_le (by omega), take_replicate]
    congr 2
    omega
  have hstop : (replicate (255 - entry.filePath.length) (0 : UInt8)).takeWhile (· ≠ 0) = [] := by
    cases 255 - entry.filePath.length <;> rfl
  rw [truncatePath, htake, takeWhile_append_of_pos
    (fun b hb => decide_eq_true (entry.path_nul b hb)), hstop, append_nil]

theorem reads_image : Reads readImage entry.image entry := by
  have hthread : Reads (readUintLe 8) (writeUintLe 8 entry.threadId.toNat) entry.threadId.toNat :=
    .uintLe entry.threadId.toNat_lt
  have hwidth : (entry.filePath ++ replicate (256 - entry.filePath.length) 0).length = 256 := by
    have hpath := entry.path_length
    rw [length_append, length_replicate]
    omega
  have hpad : Reads (readBytes 4) (replicate 4 0) _ := .bytes rfl
  refine hthread.bind ((Reads.bytes hwidth).bind ((reads_status _).bind (hpad.bind
    ((reads_transactionIdImage _).bind ((reads_transactionIdImage _).last ?_)))))
  simp only [truncatePath_field, UInt64.ofNat_toNat]
  exact .pure entry

theorem reads_manifestEntry : Reads readManifestEntry (encodeManifestEntry entry) entry := by
  have hsum : Reads (readUintLe 4) (writeUintLe 4 (imageChecksum entry.image))
      (imageChecksum entry.image) := .uintLe (walCrc32 _).toNat_lt
  have hpad : Reads (readBytes 4) (replicate 4 0) _ := .bytes rfl
  refine (Reads.bytes entry.image_length).bind (hsum.bind (hpad.last ?_))
  rw [if_pos rfl]
  intro rest
  have himage := (reads_image entry).run_eq
  change readImage entry.image = _ at himage
  rw [himage]
  rfl

theorem readEntries_append {history : List ManifestEntry} {tail : Bytes}
    (htail : tail.length < 328) (room : Nat) :
    readEntries room (history.flatMap encodeManifestEntry ++ tail) =
      if history.length ≤ room then if tail = [] then .ok history else .error .io
      else .error .limit := by
  induction history generalizing room with
  | nil =>
    cases room with
    | zero => simp only [readEntries, flatMap_nil, nil_append, if_pos htail,
        length_nil, Nat.le_refl, if_true]
    | succ room => simp only [readEntries, flatMap_nil, nil_append, if_pos htail,
        length_nil, Nat.zero_le, if_true]
  | cons entry history ih =>
    have hread := reads_manifestEntry entry (history.flatMap encodeManifestEntry ++ tail)
    have hlength : 328 ≤ (encodeManifestEntry entry ++
        (history.flatMap encodeManifestEntry ++ tail)).length := by
      rw [length_append, encodeManifestEntry_length]
      omega
    have hne : encodeManifestEntry entry ++ (history.flatMap encodeManifestEntry ++ tail) ≠ [] :=
      ne_nil_of_length_pos (by omega)
    rw [flatMap_cons, append_assoc]
    cases room with
    | zero =>
      rw [readEntries, if_neg hne, if_neg (Nat.not_lt.mpr hlength), length_cons,
        if_neg (Nat.not_succ_le_zero _)]
    | succ room =>
      rw [readEntries, if_neg hne, if_neg (Nat.not_lt.mpr hlength), hread]
      simp only [ih, length_cons, Nat.add_le_add_iff_right]
      split_ifs <;> rfl

/-- A manifest is read as a whole: a torn record at its end, or one record too many, and nothing is
read. -/
theorem readManifest_append (history : List ManifestEntry) {tail : Bytes}
    (htail : tail.length < 328) : readManifest (manifestFile history ++ tail) =
      if history.length ≤ manifestMaxEntries then if tail = [] then .ok history else .error .io
      else .error .limit := by
  have hheader : manifestHeader.length = 272 := by
    rw [manifestHeader, length_append, writeUintLe_length, length_replicate]
  have hfile : manifestFile history ++ tail =
      manifestHeader ++ (history.flatMap encodeManifestEntry ++ tail) := by
    rw [manifestFile, append_assoc]
  have hshort : ¬ (manifestFile history ++ tail).length < 272 := by
    rw [hfile, length_append, hheader]
    omega
  have hversion : ¬ ofDigits ((manifestFile history ++ tail).take 4).reverse ≠ manifestVersion := by
    rw [hfile, take_append_of_le_length (by omega)]
    decide
  rw [readManifest, if_neg hshort, if_neg hversion, hfile, ← hheader, drop_left]
  exact readEntries_append htail manifestMaxEntries

end WaveDB.Database
