import WaveDB.Database.WalManager

/-!
A manifest past the limit of `read_manifest`, which `write_manifest_entry` never looks at:
`wal_manager_recover` then goes by the names in the directory, and `compact_wal_files` fails.
-/

namespace WaveDB.Database

open WaveDB.Basis HBTrie List

def lastStatus (manifest : List ManifestEntry) (path : Bytes) : Option WalFileStatus :=
  (recordsOf manifest path).getLast?.map ManifestEntry.status

def filesCompacted (manifest : Bytes) : List Bytes :=
  (sealedEntries (manifestEntries manifest)).map ManifestEntry.filePath

/-- Recovery reads the files whose last status is not COMPACTED and no other, and compaction selects
those whose last status is SEALED. -/
@[mk_iff manifestReadable_iff]
structure ManifestReadable (disk : WalDisk) : Prop where
  recover : ∀ path ∈ disk.names.map Prod.fst,
    path ∈ filesRead (manifestFile disk.manifest) disk.directory ↔
      isLive disk.location disk.manifest path = true
  compact : ∀ path, lastStatus disk.manifest path = some .sealed →
    path ∈ filesCompacted (manifestFile disk.manifest)

variable {disk : WalDisk} {entries : List ManifestEntry} {path : Bytes}

theorem mem_filesRead_iff (h : manifestEntries (manifestFile disk.manifest) = entries)
    (hpath : path ∈ disk.names.map Prod.fst) :
    path ∈ filesRead (manifestFile disk.manifest) disk.directory ↔
      (∃ e ∈ recordsOf entries path, e.status ≠ .compacted) ∨
        recordsOf entries path = [] ∧ isThreadWal disk.location path := by
  have hfile : path ∈ disk.directory.files.map Prod.fst := by
    simpa [WalDisk.directory] using hpath
  have hlocation : disk.directory.location = disk.location := rfl
  rw [filesRead_eq h, mem_append, mem_filter, Bool.and_eq_true, List.isEmpty_iff, hlocation]
  simp only [mem_map, mem_filter, hfile, true_and, recordsOf, decide_eq_true_eq]
  exact or_congr (exists_congr fun e => and_right_comm) .rfl

/-- Up to the limit, a file that is still there and whose last record is COMPACTED has no other
records. Beyond it, the names in the directory give the same files, and no file waits for
compaction. -/
theorem long_manifest_readable_iff (disk : WalDisk) : ManifestReadable disk ↔
      (disk.manifest.length ≤ manifestMaxEntries ∧
        ∀ path ∈ disk.names.map Prod.fst, lastStatus disk.manifest path = some .compacted →
          ∀ e ∈ recordsOf disk.manifest path, e.status = .compacted) ∨
      (manifestMaxEntries < disk.manifest.length ∧
        (∀ path ∈ disk.names.map Prod.fst,
          isThreadWal disk.location path = isLive disk.location disk.manifest path) ∧
        ∀ path, lastStatus disk.manifest path ≠ some .sealed) := by
  have hentries := manifestEntries_manifestFile disk.manifest
  rcases Nat.lt_or_ge manifestMaxEntries disk.manifest.length with hlong | hshort
  · rw [if_neg (Nat.not_le.mpr hlong)] at hentries
    rw [or_iff_right fun h => Nat.not_le.mpr hlong h.1, and_iff_right hlong, manifestReadable_iff]
    refine and_congr (forall₂_congr fun path hpath => ?_) (forall_congr' fun path => ?_)
    · rw [mem_filesRead_iff hentries hpath, Bool.eq_iff_iff]
      simp [recordsOf]
    · simp [filesCompacted, hentries, sealedEntries]
  · rw [if_pos hshort] at hentries
    rw [or_iff_left fun h => Nat.not_le.mpr h.1 hshort, and_iff_right hshort,
      manifestReadable_iff, and_iff_left]
    · refine forall₂_congr fun path hpath => ?_
      rw [mem_filesRead_iff hentries hpath, isLive, lastStatus]
      cases hlast : (recordsOf disk.manifest path).getLast? with
      | none => simp [getLast?_eq_none_iff.mp hlast]
      | some last =>
        have hmem := mem_of_getLast? hlast
        by_cases hstatus : last.status = .compacted
        · simp [hstatus, ne_nil_of_mem hmem]
        · have hlive : ∃ e ∈ recordsOf disk.manifest path, e.status ≠ .compacted :=
            ⟨last, hmem, hstatus⟩
          simp [hlive, hstatus]
    · intro path hstatus
      obtain ⟨last, hlast, hsealed⟩ := Option.map_eq_some_iff.mp hstatus
      obtain ⟨hmem, hpath⟩ := mem_filter.mp (mem_of_getLast? hlast)
      rw [filesCompacted, hentries]
      exact mem_map.mpr
        ⟨last, mem_filter.mpr ⟨hmem, decide_eq_true hsealed⟩, of_decide_eq_true hpath⟩

theorem WalDisk.openAppend_keeps (disk : WalDisk) (path : Bytes) :
    (disk.openAppend path).1.location = disk.location ∧
      disk.names ⊆ (disk.openAppend path).1.names ∧
      (disk.openAppend path).1.manifest = disk.manifest := by
  rw [openAppend]
  split
  · exact ⟨rfl, Subset.refl _, rfl⟩
  · exact ⟨rfl, subset_append_left _ _, rfl⟩

/-- Threads come and go with one id, and each appends its record. -/
theorem exists_reaches_creates {start manager : WalManager} (threadId : UInt64)
    (h : Reaches walStep always start manager) (k : Nat) :
    ∃ later, Reaches walStep always start later ∧ later.disk.location = manager.disk.location ∧
      manager.disk.names ⊆ later.disk.names ∧
      later.disk.manifest = manager.disk.manifest ++ replicate k (manifestEntry threadId
        (threadWalPath manager.disk.location threadId) .active ⟨0, 0, 0⟩) := by
  induction k with
  | zero => exact ⟨manager, h, rfl, Subset.refl _, by simp⟩
  | succ k ih =>
    obtain ⟨later, hlater, hlocation, hnames, hmanifest⟩ := ih
    refine ⟨_, hlater.next (.create threadId) rfl rfl, ?_⟩
    obtain ⟨hlocation', hnames', hmanifest'⟩ :=
      later.disk.openAppend_keeps (threadWalPath later.disk.location threadId)
    refine ⟨hlocation'.trans hlocation, Subset.trans hnames hnames', ?_⟩
    simp only [createThreadWal, WalDisk.writeManifestEntry]
    rw [hmanifest', hmanifest, hlocation, append_assoc, ← replicate_succ']

/-- The file of a compaction is lost to recovery after enough threads, and nothing is compacted. -/
theorem long_manifest_hides_compacted :
    ∃ manager, Reaches walStep always (walManagerCreate ⟨1, 0, true⟩ emptyDisk) manager ∧
      compactedPath ∈ manager.disk.names.map Prod.fst ∧
      lastStatus manager.disk.manifest compactedPath = some .sealed ∧
      compactedPath ∉ filesRead (manifestFile manager.disk.manifest) manager.disk.directory ∧
      ∀ clock, compactWalFiles manager.disk clock = none := by
  obtain ⟨manager, hrun, hnamed, hstatus, hlocation⟩ :
      ∃ m : WalManager, Reaches walStep always (walManagerCreate ⟨1, 0, true⟩ emptyDisk) m ∧
        compactedPath ∈ m.disk.names.map Prod.fst ∧
        lastStatus m.disk.manifest compactedPath = some .sealed ∧ m.disk.location = ascii ['d'] :=
    exists_reaches [.create 1, .write 0 ⟨walPut, ⟨1, 0, 0⟩, [7]⟩ 1, .compact 1]
      (by decide +kernel)
  obtain ⟨later, hlater, hloc, hnames, hmanifest⟩ :=
    exists_reaches_creates 1 hrun manifestMaxEntries
  have hlong : manifestMaxEntries < later.disk.manifest.length := by
    have hpos : manager.disk.manifest ≠ [] := by
      rintro hnil
      simp [hnil, lastStatus, recordsOf] at hstatus
    rw [hmanifest, length_append, length_replicate]
    exact Nat.lt_add_of_pos_left (length_pos_iff.mpr hpos)
  have hnamed' := map_subset Prod.fst hnames hnamed
  refine ⟨later, hlater, hnamed', ?_, ?_, ?_⟩
  · rw [hmanifest, hlocation, lastStatus, recordsOf, filter_append, filter_replicate,
      if_neg (by decide +kernel), append_nil]
    exact hstatus
  · have hentries := manifestEntries_manifestFile later.disk.manifest
    rw [if_neg (Nat.not_le.mpr hlong)] at hentries
    rw [mem_filesRead_iff hentries hnamed', hloc, hlocation]
    simp only [recordsOf, filter_nil]
    decide +kernel
  · intro clock
    rw [compactWalFiles_eq, if_neg (Nat.not_le.mpr hlong)]

end WaveDB.Database
