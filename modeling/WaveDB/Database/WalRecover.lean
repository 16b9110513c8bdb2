import WaveDB.Basis.Collect
import WaveDB.Database.Manifest

/-!
Which WAL files recovery reads (`scan_wal_directory` and the first half of
`wal_manager_recover` in `Database/wal_manager.c`).

The manifest is a log of status changes, but recovery looks at each of its records alone: a
file is read once for every record that is not COMPACTED. Where the manifest cannot be read,
recovery goes by the names in the directory.
-/

namespace WaveDB.Database

open WaveDB.Basis Workers HBTrie List

/-! ### The directory -/

def ascii (chars : List Char) : Bytes := chars.map fun c => UInt8.ofNat c.toNat

/-- `path_join` for a file name without a leading separator. -/
def pathJoin (dir file : Bytes) : Bytes :=
  if (ascii ['/']).isSuffixOf dir then dir ++ file else dir ++ ascii ['/'] ++ file

/-- The filter of `scan_wal_directory`, `thread_*.wal`, on a full path. -/
def isThreadWal (location path : Bytes) : Bool :=
  (pathJoin location (ascii ['t', 'h', 'r', 'e', 'a', 'd', '_'])).isPrefixOf path &&
    (ascii ['.', 'w', 'a', 'l']).isSuffixOf path

structure WalDirectory where
  location : Bytes
  files : List (Bytes × Bytes)
  distinct : (files.map Prod.fst).Nodup

structure RecoveryEntry where
  record : WalRecord
  filePath : Bytes
  offset : Nat
deriving DecidableEq

def recoveryEntries (path : Bytes) : Nat → List WalRecord → List RecoveryEntry
  | _, [] => []
  | offset, record :: rest =>
    ⟨record, path, offset⟩ :: recoveryEntries path (offset + 33 + record.data.length) rest

/-- The entries that `read_wal_file` finds under a path; a file that cannot be opened has none. -/
def WalDirectory.readFile (dir : WalDirectory) (path : Bytes) : List RecoveryEntry :=
  match dir.files.lookup path with
  | none => []
  | some content => recoveryEntries path 0 (readWalFile content)

def scanWalDirectory (dir : WalDirectory) : List Bytes :=
  (dir.files.map Prod.fst).filter (isThreadWal dir.location)

/-! ### Recovery -/

def manifestEntries (manifest : Bytes) : List ManifestEntry :=
  match readManifest manifest with
  | .ok entries => entries
  | .error _ => []

/-- The paths that the two loops of `wal_manager_recover` read, in order. -/
def filesRead (manifest : Bytes) (dir : WalDirectory) : List Bytes :=
  let entries := manifestEntries manifest
  (entries.filter (·.status ≠ .compacted)).map ManifestEntry.filePath ++
    (scanWalDirectory dir).filter fun path => !entries.any (·.filePath = path)

/-- `all_entries`, which `wal_manager_recover` sorts and replays. -/
def collectEntries (manifest : Bytes) (dir : WalDirectory) : List RecoveryEntry :=
  (filesRead manifest dir).flatMap dir.readFile

def newerTxnId (max : TransactionId) (entry : RecoveryEntry) : TransactionId :=
  if 0 < transactionIdCompare entry.record.txnId max then entry.record.txnId else max

def maxTxnId (entries : List RecoveryEntry) : TransactionId := entries.foldl newerTxnId ⟨0, 0, 0⟩

/-! ### Live files -/

def recordsOf (history : List ManifestEntry) (path : Bytes) : List ManifestEntry :=
  history.filter (·.filePath = path)

/-- The file's last status is not COMPACTED, or it is an unlisted `thread_*.wal`. -/
def isLive (location : Bytes) (history : List ManifestEntry) (path : Bytes) : Bool :=
  match (recordsOf history path).getLast? with
  | some entry => entry.status ≠ .compacted
  | none => isThreadWal location path

def liveEntries (history : List ManifestEntry) (dir : WalDirectory) : List RecoveryEntry :=
  ((dir.files.map Prod.fst).filter (isLive dir.location history)).flatMap dir.readFile

/-! ### Counting visits -/

variable {path manifest : Bytes} {dir : WalDirectory}

theorem filePath_of_mem_recoveryEntries {records : List WalRecord} {offset : Nat} :
    ∀ e ∈ recoveryEntries path offset records, e.filePath = path := by
  induction records generalizing offset with
  | nil => exact nofun
  | cons record rest ih =>
    intro e he
    rcases mem_cons.mp he with rfl | he
    · rfl
    · exact ih e he

theorem map_record_recoveryEntries (records : List WalRecord) (offset : Nat) :
    (recoveryEntries path offset records).map RecoveryEntry.record = records := by
  induction records generalizing offset with
  | nil => rfl
  | cons record rest ih => exact congrArg (record :: ·) (ih _)

theorem filePath_of_mem_readFile (dir : WalDirectory) (path : Bytes) :
    ∀ e ∈ dir.readFile path, e.filePath = path := by
  rw [WalDirectory.readFile]
  split
  · exact nofun
  · exact filePath_of_mem_recoveryEntries

theorem mem_paths_of_readFile (h : dir.readFile path ≠ []) : path ∈ dir.files.map Prod.fst := by
  by_contra hmem
  apply h
  have hlookup : dir.files.lookup path = none := by
    rw [lookup_eq_none_iff]
    intro p hp
    have hne : path ≠ p.1 := fun heq => hmem (mem_map.mpr ⟨p, hp, heq.symm⟩)
    simpa using hne
  rw [WalDirectory.readFile, hlookup]

theorem count_filter_paths (p : Bytes → Bool) (h : dir.readFile path ≠ []) :
    ((dir.files.map Prod.fst).filter p).count path = if p path then 1 else 0 := by
  have hcount := count_eq_one_of_mem dir.distinct (mem_paths_of_readFile h)
  split
  case isTrue hp => rw [count_filter hp, hcount]
  case isFalse hp =>
    apply count_eq_zero_of_not_mem
    exact fun hmem => hp (mem_filter.mp hmem).2

variable (entries : List ManifestEntry)

theorem count_map_filePath (path : Bytes) :
    ((entries.filter (·.status ≠ .compacted)).map ManifestEntry.filePath).count path =
      (recordsOf entries path).countP (·.status ≠ .compacted) := by
  rw [count, countP_map, countP_filter, recordsOf, countP_filter]
  apply countP_congr
  intro e he
  simp [and_comm]

theorem any_filePath_eq (path : Bytes) :
    entries.any (·.filePath = path) = !(recordsOf entries path).isEmpty := by
  induction entries with
  | nil => rfl
  | cons entry entries ih =>
    by_cases h : entry.filePath = path
    · simp [recordsOf, h]
    · rw [any_cons, ih, decide_eq_false h, Bool.false_or, recordsOf, recordsOf,
        filter_cons_of_neg (by simpa using h)]

theorem filesRead_eq {entries : List ManifestEntry} (h : manifestEntries manifest = entries)
    (dir : WalDirectory) :
    filesRead manifest dir = (entries.filter (·.status ≠ .compacted)).map ManifestEntry.filePath ++
      (dir.files.map Prod.fst).filter
        (fun path => (recordsOf entries path).isEmpty && isThreadWal dir.location path) := by
  subst h
  rw [filesRead, scanWalDirectory, filter_filter]
  simp only [any_filePath_eq, Bool.not_not]

theorem visits_eq_live_iff (location : Bytes) (history : List ManifestEntry) (path : Bytes) :
    (recordsOf history path).countP (·.status ≠ .compacted) +
        (if (recordsOf history path).isEmpty && isThreadWal location path then 1 else 0) =
      (if isLive location history path then 1 else 0) ↔
    ∀ entry ∈ (recordsOf history path).dropLast, entry.status = .compacted := by
  rcases eq_nil_or_concat' (recordsOf history path) with hnil | ⟨earlier, last, hlast⟩
  · simp [isLive, hnil]
  · have hzero : earlier.countP (·.status ≠ .compacted) = 0 ↔
        ∀ entry ∈ earlier, entry.status = .compacted := by
      rw [countP_eq_zero]
      simp
    rw [isLive, hlast, getLast?_append, dropLast_concat, ← hzero, countP_append]
    by_cases hstatus : last.status = .compacted <;> simp

theorem manifestEntries_append (history : List ManifestEntry) {tail : Bytes}
    (htail : tail.length < 328) : manifestEntries (manifestFile history ++ tail) =
      if history.length ≤ manifestMaxEntries ∧ tail = [] then history else [] := by
  rw [manifestEntries, readManifest_append history htail]
  split_ifs with hlength hnil hboth <;> simp_all

theorem manifestEntries_manifestFile (history : List ManifestEntry) :
    manifestEntries (manifestFile history) =
      if history.length ≤ manifestMaxEntries then history else [] := by
  have hread := manifestEntries_append history (show ([] : Bytes).length < 328 by decide)
  simpa only [append_nil, and_true] using hread

/-! ### Exactly the live files -/

/-- Recovery reads the live files and no other, each once, exactly when every record of a file but
its last is COMPACTED; past the limit of the manifest, when the live files are exactly the
`thread_*.wal` files. Files without a record do not count. -/
theorem collectEntries_perm_live_iff (history : List ManifestEntry) (dir : WalDirectory) :
    (collectEntries (manifestFile history) dir).Perm (liveEntries history dir) ↔
      (history.length ≤ manifestMaxEntries ∧
        ∀ path, dir.readFile path ≠ [] →
          ∀ entry ∈ (recordsOf history path).dropLast, entry.status = .compacted) ∨
      (manifestMaxEntries < history.length ∧
        ∀ path, dir.readFile path ≠ [] →
          isThreadWal dir.location path = isLive dir.location history path) := by
  have hentries := manifestEntries_manifestFile history
  rw [collectEntries, liveEntries, flatMap_perm_flatMap_iff (filePath_of_mem_readFile dir)]
  rcases Nat.lt_or_ge manifestMaxEntries history.length with hlong | hshort
  · rw [if_neg (Nat.not_le.mpr hlong)] at hentries
    rw [or_iff_right fun h => Nat.not_le.mpr hlong h.1, and_iff_right hlong]
    refine forall_congr' fun path => forall_congr' fun hne => ?_
    rw [filesRead_eq hentries, count_append, count_map_filePath, count_filter_paths _ hne,
      count_filter_paths _ hne]
    cases isThreadWal dir.location path <;>
      cases isLive dir.location history path <;> simp [recordsOf]
  · rw [if_pos hshort] at hentries
    rw [or_iff_left fun h => Nat.not_le.mpr h.1 hshort, and_iff_right hshort]
    refine forall_congr' fun path => forall_congr' fun hne => ?_
    rw [filesRead_eq hentries, count_append, count_map_filePath, count_filter_paths _ hne,
      count_filter_paths _ hne, visits_eq_live_iff]

/-- A directory `d` with one file, which holds one put. -/
def oneFile (path : Bytes) : WalDirectory where
  location := ascii ['d']
  files := [(path, encodeWalRecord ⟨walPut, ⟨1, 0, 0⟩, [7]⟩)]
  distinct := List.nodup_singleton _

def threadPath : Bytes :=
  ascii ['d', '/', 't', 'h', 'r', 'e', 'a', 'd', '_', '1', '.', 'w', 'a', 'l']

def rotatedHistory : List ManifestEntry :=
  [manifestEntry 1 threadPath .active ⟨0, 0, 0⟩, manifestEntry 1 threadPath .sealed ⟨1, 0, 0⟩]

/-- A rotated file is read twice: once for its ACTIVE and once for its SEALED record. -/
theorem collectEntries_rotated_twice :
    ¬ (collectEntries (manifestFile rotatedHistory) (oneFile threadPath)).Perm
      (liveEntries rotatedHistory (oneFile threadPath)) := by
  intro hperm
  have hlength := hperm.length_eq
  revert hlength
  decide +kernel

/-! ### A torn tail -/

def markedLive (history : List ManifestEntry) (path : Bytes) : Bool :=
  (recordsOf history path).getLast?.any (·.status ≠ .compacted)

theorem subset_collectEntries_iff : dir.readFile path ⊆ collectEntries manifest dir ↔
      (dir.readFile path ≠ [] → path ∈ filesRead manifest dir) := by
  constructor
  · intro hsub hne
    obtain ⟨e, he⟩ := exists_mem_of_ne_nil _ hne
    obtain ⟨path', hpath', he'⟩ := mem_flatMap.mp (hsub he)
    rw [filePath_of_mem_readFile dir path e he |>.symm, filePath_of_mem_readFile dir path' e he']
    exact hpath'
  · intro hmem e he
    exact mem_flatMap.mpr ⟨path, hmem (ne_nil_of_mem he), he⟩

theorem mem_filesRead_of_markedLive {history : List ManifestEntry}
    (h : manifestEntries manifest = history) (hlive : markedLive history path) :
    path ∈ filesRead manifest dir := by
  rw [markedLive] at hlive
  cases hlast : (recordsOf history path).getLast? with
  | none =>
    rw [hlast] at hlive
    cases hlive
  | some entry =>
    rw [hlast] at hlive
    have hmem := mem_filter.mp (mem_of_getLast? hlast)
    obtain rfl : entry.filePath = path := of_decide_eq_true hmem.2
    rw [filesRead_eq h]
    apply mem_append_left
    exact mem_map_of_mem (mem_filter.mpr ⟨hmem.1, hlive⟩)

theorem mem_filesRead_iff_of_unread (h : manifestEntries manifest = [])
    (hne : dir.readFile path ≠ []) :
    path ∈ filesRead manifest dir ↔ isThreadWal dir.location path = true := by
  have hpath := mem_paths_of_readFile hne
  rw [filesRead_eq h]
  simp only [filter_nil, map_nil, nil_append, recordsOf, isEmpty_nil,
    Bool.true_and, mem_filter, hpath, true_and]

/-- With a manifest whose last record is torn (after `torn` of its bytes), recovery replays every
file that the whole records mark as not compacted exactly when the tear is at a boundary, or when
all those files are `thread_*.wal`. -/
theorem collectEntries_torn_iff (history : List ManifestEntry) (next : ManifestEntry)
    (torn : Fin 328) (dir : WalDirectory) :
    (∀ path, markedLive history path = true →
      dir.readFile path ⊆
        collectEntries (manifestFile history ++ (encodeManifestEntry next).take torn) dir) ↔
    (torn.val = 0 ∧ history.length ≤ manifestMaxEntries) ∨
      ∀ path, markedLive history path = true → dir.readFile path ≠ [] →
        isThreadWal dir.location path = true := by
  have hlength : ((encodeManifestEntry next).take torn).length = torn := by
    rw [length_take, encodeManifestEntry_length, Nat.min_eq_left (Nat.le_of_lt torn.isLt)]
  have hentries := manifestEntries_append history
    (show ((encodeManifestEntry next).take torn).length < 328 by rw [hlength]; exact torn.isLt)
  have hnil : (encodeManifestEntry next).take torn = [] ↔ torn.val = 0 := by
    rw [← length_eq_zero_iff, hlength]
  simp only [hnil] at hentries
  simp only [subset_collectEntries_iff]
  by_cases hread : history.length ≤ manifestMaxEntries ∧ torn.val = 0
  · rw [if_pos hread] at hentries
    exact iff_of_true (fun path hlive _ => mem_filesRead_of_markedLive hentries hlive)
      (.inl hread.symm)
  · rw [if_neg hread] at hentries
    rw [or_iff_right fun h => hread h.symm]
    refine forall_congr' fun path => forall_congr' fun hlive => forall_congr' fun hne => ?_
    exact mem_filesRead_iff_of_unread hentries hne

/-- `d/compacted_1.wal` -/
def compactedPath : Bytes :=
  ascii ['d', '/', 'c', 'o', 'm', 'p', 'a', 'c', 't', 'e', 'd', '_', '1', '.', 'w', 'a', 'l']

/-- One byte of a further record hides a compacted file that the manifest lists as SEALED. -/
theorem collectEntries_torn_loses_compacted :
    markedLive [manifestEntry 0 compactedPath .sealed ⟨0, 0, 0⟩] compactedPath = true ∧
      (oneFile compactedPath).readFile compactedPath ≠ [] ∧
      collectEntries (manifestFile [manifestEntry 0 compactedPath .sealed ⟨0, 0, 0⟩] ++
        (encodeManifestEntry (manifestEntry 1 threadPath .active ⟨0, 0, 0⟩)).take 1)
          (oneFile compactedPath) = [] := by
  decide +kernel

end WaveDB.Database
