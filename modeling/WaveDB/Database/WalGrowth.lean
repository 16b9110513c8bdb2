import WaveDB.Database.WalManager

/-!
What one step of the WAL manager does to the directory (`Database/wal_manager.c`).

* `appendRecord_appends`: writing lets the thread's file grow by whole records.
* `threadWalRotate_rotates`: a rotation to a fresh path lists only the old file as SEALED.
* `compactWalFiles_compacts`: a compaction into a fresh path loses no record, and unlinks
  only files that are listed as SEALED.
-/

namespace WaveDB.Database

open WaveDB.Basis Workers HBTrie List List.Subset

/-! ### Whole records -/

/-- The bytes are a sequence of records that can be read back. -/
def Whole (bytes : Bytes) : Prop :=
  ∃ records : List WalRecord, (∀ r ∈ records, r.Fits) ∧ bytes = records.flatMap encodeWalRecord

theorem Whole.of_records {records : List WalRecord} (h : ∀ r ∈ records, r.Fits) :
    Whole (records.flatMap encodeWalRecord) := ⟨records, h, rfl⟩

theorem Whole.nil : Whole [] := ⟨[], nofun, rfl⟩

variable {bytes path : Bytes} {disk disk' : WalDisk} {record : WalRecord} {inode : Nat}
  {twal : ThreadWal}

theorem Whole.append {more : Bytes} (h : Whole bytes) (hmore : Whole more) :
    Whole (bytes ++ more) := by
  obtain ⟨records, hfits, rfl⟩ := h
  obtain ⟨records', hfits', rfl⟩ := hmore
  refine ⟨records ++ records', ?_, flatMap_append.symm⟩
  exact forall_mem_append.mpr ⟨hfits, hfits'⟩

theorem Whole.readWalFile_append {more : Bytes} (h : Whole bytes) (hmore : Whole more) :
    readWalFile (bytes ++ more) = readWalFile bytes ++ readWalFile more := by
  obtain ⟨records, hfits, rfl⟩ := h
  obtain ⟨records', hfits', rfl⟩ := hmore
  have hboth : ∀ r ∈ records ++ records', r.Fits := by
    exact forall_mem_append.mpr ⟨hfits, hfits'⟩
  rw [← flatMap_append, readWalFile_encode hboth, readWalFile_encode hfits,
    readWalFile_encode hfits']

/-! ### Directories that grow -/

/-- All files hold whole records, and all names name a file. -/
structure WalDisk.Ok (disk : WalDisk) : Prop where
  whole : ∀ bytes ∈ disk.inodes, Whole bytes
  bound : ∀ name ∈ disk.names, name.2 < disk.inodes.length

/-- Names and manifest records were only added, and files only grew by whole records. -/
structure WalDisk.Extends (disk disk' : WalDisk) : Prop where
  location : disk'.location = disk.location
  names : disk.names ⊆ disk'.names
  manifest : disk.manifest ⊆ disk'.manifest
  inodes : ∀ (i : Nat) (bytes : Bytes), disk.inodes[i]? = some bytes →
    ∃ more, Whole more ∧ disk'.inodes[i]? = some (bytes ++ more)

theorem WalDisk.Extends.refl (disk : WalDisk) : disk.Extends disk where
  location := rfl
  names := List.Subset.refl _
  manifest := List.Subset.refl _
  inodes := fun _ bytes h => ⟨[], Whole.nil, by rw [append_nil]; exact h⟩

theorem WalDisk.Extends.trans {disk'' : WalDisk} (h : disk.Extends disk')
    (h' : disk'.Extends disk'') : disk.Extends disk'' where
  location := h'.location.trans h.location
  names := List.Subset.trans h.names h'.names
  manifest := List.Subset.trans h.manifest h'.manifest
  inodes := by
    intro i bytes hi
    obtain ⟨more, hmore, hi'⟩ := h.inodes i bytes hi
    obtain ⟨more', hmore', hi''⟩ := h'.inodes i _ hi'
    exact ⟨more ++ more', hmore.append hmore', by rw [hi'', append_assoc]⟩

/-- A file that the manifest lists as not compacted holds the record. -/
def Recoverable (disk : WalDisk) (record : WalRecord) : Prop :=
  ∃ path inode bytes, (path, inode) ∈ disk.names ∧ disk.inodes[inode]? = some bytes ∧
    record ∈ readWalFile bytes ∧
    ∃ entry ∈ disk.manifest, entry.filePath = path ∧ entry.status ≠ .compacted

theorem WalDisk.Extends.readable (hok : disk.Ok) (hext : disk.Extends disk')
    (hbytes : disk.inodes[inode]? = some bytes) (hmem : record ∈ readWalFile bytes) :
    ∃ bytes', disk'.inodes[inode]? = some bytes' ∧ record ∈ readWalFile bytes' := by
  obtain ⟨more, hmore, hbytes'⟩ := hext.inodes inode bytes hbytes
  refine ⟨bytes ++ more, hbytes', ?_⟩
  rw [(hok.whole bytes (mem_of_getElem? hbytes)).readWalFile_append hmore]
  exact mem_append_left _ hmem

theorem Recoverable.mono (hok : disk.Ok) (hext : disk.Extends disk') (h : Recoverable disk record) :
    Recoverable disk' record := by
  obtain ⟨path, inode, bytes, hname, hbytes, hmem, entry, hentry, hlisted⟩ := h
  obtain ⟨bytes', hbytes', hmem'⟩ := hext.readable hok hbytes hmem
  exact ⟨path, inode, bytes', hext.names hname, hbytes', hmem', entry, hext.manifest hentry,
    hlisted⟩

section Operations

variable {data : Bytes} {threadId : UInt64} {status : WalFileStatus} {txnId : TransactionId}

theorem mem_names_of_lookup {names : List (Bytes × Nat)} (h : names.lookup path = some inode) :
    (path, inode) ∈ names := by
  obtain ⟨before, after, hsplit, -⟩ := lookup_eq_some_iff.mp h
  rw [hsplit]
  exact mem_append_right _ mem_cons_self

/-- What `open` does: the directory grows, and the name is there. -/
structure Opened (disk : WalDisk) (path : Bytes) (opened : WalDisk × Nat) : Prop where
  grows : disk.Extends opened.1
  ok : opened.1.Ok
  named : (path, opened.2) ∈ opened.1.names
  manifest : opened.1.manifest = disk.manifest

theorem openAppend_opened (hok : disk.Ok) (path : Bytes) :
    Opened disk path (disk.openAppend path) := by
  rw [WalDisk.openAppend]
  split
  · rename_i inode hlookup
    exact ⟨.refl disk, hok, mem_names_of_lookup hlookup, rfl⟩
  · rename_i hlookup
    constructor
    · exact
        { location := rfl
          names := subset_append_left _ _
          manifest := refl _
          inodes := fun i bytes hi => ⟨[], Whole.nil, by
            rw [append_nil, getElem?_append_left (List.getElem?_eq_some_iff.mp hi).1]
            exact hi⟩ }
    · constructor
      · exact forall_mem_append.mpr ⟨hok.whole, forall_mem_singleton.mpr Whole.nil⟩
      · intro name hname
        rw [length_append, length_singleton]
        rcases mem_append.mp hname with hname | hname
        · exact (hok.bound name hname).trans (Nat.lt_succ_self _)
        · rw [mem_singleton.mp hname]
          exact Nat.lt_succ_self _
    · exact mem_append_right _ mem_cons_self
    · rfl

theorem append_inodes (disk : WalDisk) (inode : Nat) (data : Bytes) :
    (disk.append inode data).inodes = disk.inodes.modify inode (· ++ data) := rfl

theorem append_extends (hdata : Whole data) : disk.Extends (disk.append inode data) where
  location := rfl
  names := refl _
  manifest := refl _
  inodes := by
    intro i bytes hi
    rw [append_inodes]
    by_cases hne : inode = i
    · subst hne
      refine ⟨data, hdata, ?_⟩
      rw [getElem?_modify_eq, hi]
      rfl
    · refine ⟨[], Whole.nil, ?_⟩
      rw [append_nil, getElem?_modify_ne _ _ hne, hi]

theorem append_ok (hok : disk.Ok) (hdata : Whole data) : (disk.append inode data).Ok where
  whole := by
    intro bytes hbytes
    obtain ⟨i, hi⟩ := mem_iff_getElem?.mp hbytes
    have hlt : i < disk.inodes.length := by
      have hlt' := (List.getElem?_eq_some_iff.mp hi).1
      rwa [append_inodes, length_modify] at hlt'
    obtain ⟨more, hmore, hi'⟩ := (append_extends hdata).inodes i _ (getElem?_eq_getElem hlt)
    rw [hi] at hi'
    cases hi'
    exact (hok.whole _ (getElem_mem hlt)).append hmore
  bound := by
    intro name hname
    rw [append_inodes, length_modify]
    exact hok.bound name hname

theorem append_readable {records : List WalRecord} (hok : disk.Ok)
    (hnamed : (path, inode) ∈ disk.names) (hfits : ∀ r ∈ records, r.Fits)
    (hmem : record ∈ records) :
    ∃ bytes, (disk.append inode (records.flatMap encodeWalRecord)).inodes[inode]? = some bytes ∧
      record ∈ readWalFile bytes := by
  have hlt := hok.bound _ hnamed
  refine ⟨disk.inodes[inode] ++ records.flatMap encodeWalRecord, ?_, ?_⟩
  · rw [append_inodes, getElem?_modify_eq, getElem?_eq_getElem hlt]
    rfl
  · rw [(hok.whole _ (getElem_mem hlt)).readWalFile_append (.of_records hfits),
      readWalFile_encode hfits]
    exact mem_append_right _ hmem

theorem writeManifestEntry_extends :
    disk.Extends (disk.writeManifestEntry threadId path status txnId) where
  location := rfl
  names := refl _
  manifest := subset_append_left _ _
  inodes := (WalDisk.Extends.refl disk).inodes

theorem writeManifestEntry_ok (hok : disk.Ok) :
    (disk.writeManifestEntry threadId path status txnId).Ok :=
  ⟨hok.whole, hok.bound⟩

end Operations

/-! ### Threads -/

/-- The buffer holds the accepted records that are not flushed; the others can be recovered. -/
def Buffered (disk : WalDisk) (twal : ThreadWal) : Prop :=
  ∃ flushed pending : List WalRecord, twal.accepted = flushed ++ pending ∧
    twal.batchCount = pending.length ∧ twal.entryBuf = pending.flatMap encodeWalRecord ∧
    (∀ r ∈ pending, r.Fits) ∧ ∀ r ∈ flushed, Recoverable disk r

theorem Buffered.mono (h : Buffered disk twal)
    (hmono : ∀ r, Recoverable disk r → Recoverable disk' r) : Buffered disk' twal := by
  obtain ⟨flushed, pending, haccepted, hcount, hbuf, hfits, hrecoverable⟩ := h
  exact ⟨flushed, pending, haccepted, hcount, hbuf, hfits, fun r hr => hmono r (hrecoverable r hr)⟩

/-- The thread's file is named and listed, and nothing lists it as SEALED. -/
structure ThreadOk (disk : WalDisk) (twal : ThreadWal) : Prop where
  named : (twal.filePath, twal.fd) ∈ disk.names
  listed : ∃ entry ∈ disk.manifest, entry.filePath = twal.filePath ∧ entry.status ≠ .compacted
  unsealed : ∀ entry ∈ disk.manifest, entry.status = .sealed → entry.filePath ≠ twal.filePath
  buffer : Buffered disk twal

theorem ThreadOk.flushed (h : ThreadOk disk twal) : ∀ r ∈ twal.flushed, Recoverable disk r := by
  obtain ⟨flushed, pending, haccepted, hcount, -, -, hrecoverable⟩ := h.buffer
  intro r hr
  rw [ThreadWal.flushed, haccepted, hcount, length_append, Nat.add_sub_cancel_right,
    take_left] at hr
  exact hrecoverable r hr

theorem ThreadOk.mono (hok : disk.Ok) (h : ThreadOk disk twal) (hext : disk.Extends disk')
    (hunsealed : ∀ entry ∈ disk'.manifest, entry.status = .sealed →
      entry.filePath ≠ twal.filePath) : ThreadOk disk' twal := by
  obtain ⟨entry, hentry, hlisted⟩ := h.listed
  exact
    { named := hext.names h.named
      listed := ⟨entry, hext.manifest hentry, hlisted⟩
      unsealed := hunsealed
      buffer := h.buffer.mono fun _ => Recoverable.mono hok hext }

theorem ThreadOk.truncatePath (h : ThreadOk disk twal) :
    truncatePath twal.filePath = twal.filePath := by
  obtain ⟨entry, -, hpath, -⟩ := h.listed
  rw [← hpath]
  exact truncatePath_eq entry.path_length entry.path_nul

/-- A thread wrote to its file: the disk grew, and the manifest and the thread's file are the
same. -/
structure Appends (disk : WalDisk) (twal : ThreadWal) (result : WalDisk × ThreadWal) : Prop where
  grows : disk.Extends result.1
  ok : result.1.Ok
  thread : ThreadOk result.1 result.2
  manifest : result.1.manifest = disk.manifest
  filePath : result.2.filePath = twal.filePath
  threadId : result.2.threadId = twal.threadId

theorem Appends.trans {mid result : WalDisk × ThreadWal} (h : Appends disk twal mid)
    (h' : Appends mid.1 mid.2 result) : Appends disk twal result where
  grows := h.grows.trans h'.grows
  ok := h'.ok
  thread := h'.thread
  manifest := h'.manifest.trans h.manifest
  filePath := h'.filePath.trans h.filePath
  threadId := h'.threadId.trans h.threadId

section Writes

theorem ThreadOk.append_appends {flushed records : List WalRecord} {twal' : ThreadWal}
    (hok : disk.Ok) (h : ThreadOk disk twal) (hfits : ∀ r ∈ records, r.Fits)
    (hflushed : ∀ r ∈ flushed, Recoverable disk r) (haccepted : twal'.accepted = flushed ++ records)
    (hempty : twal'.batchCount = 0 ∧ twal'.entryBuf = [])
    (hsame : twal'.fd = twal.fd ∧ twal'.filePath = twal.filePath)
    (hid : twal'.threadId = twal.threadId) :
    Appends disk twal (disk.append twal.fd (records.flatMap encodeWalRecord), twal') := by
  have hgrows : disk.Extends (disk.append twal.fd (records.flatMap encodeWalRecord)) :=
    append_extends (.of_records hfits)
  obtain ⟨entry, hentry, hlisted⟩ := h.listed
  refine ⟨hgrows, append_ok hok (.of_records hfits), ?_, rfl, hsame.2, hid⟩
  refine ⟨?_, hsame.2 ▸ h.listed, hsame.2 ▸ h.unsealed, flushed ++ records, [], ?_, hempty.1,
    hempty.2, forall_mem_nil _, fun r hr => ?_⟩
  · rw [hsame.1, hsame.2]
    exact h.named
  · rw [append_nil, haccepted]
  · rcases mem_append.mp hr with hr | hr
    · exact (hflushed r hr).mono hok hgrows
    · obtain ⟨bytes, hbytes, hmem⟩ := append_readable hok h.named hfits hr
      exact ⟨_, _, bytes, h.named, hbytes, hmem, entry, hentry, hlisted⟩

theorem flushBuffer_appends (hok : disk.Ok) (h : ThreadOk disk twal) :
    Appends disk twal (flushBuffer disk twal) := by
  rw [flushBuffer]
  split
  · exact ⟨.refl disk, hok, h, rfl, rfl, rfl⟩
  · obtain ⟨flushed, pending, haccepted, -, hbuf, hfits, hrecoverable⟩ := h.buffer
    rw [hbuf]
    exact h.append_appends hok hfits hrecoverable haccepted ⟨rfl, rfl⟩ ⟨rfl, rfl⟩ rfl

theorem flushBuffer_empty (h : ThreadOk disk twal) :
    (flushBuffer disk twal).2.batchCount = 0 ∧ (flushBuffer disk twal).2.entryBuf = [] := by
  obtain ⟨flushed, pending, -, hcount, hbuf, -, -⟩ := h.buffer
  rw [flushBuffer]
  split
  case isFalse => exact ⟨rfl, rfl⟩
  case isTrue hnone =>
    have hpending : pending = [] := by
      rcases hnone with hzero | hempty
      · exact length_eq_zero_iff.mp (hcount.symm.trans hzero)
      · have hle := length_le_flatMap_encode pending
        rw [← hbuf, hempty] at hle
        exact length_eq_zero_iff.mp (Nat.le_zero.mp hle)
    subst hpending
    exact ⟨hcount, hbuf⟩

variable (hok : disk.Ok) (h : ThreadOk disk twal)

include hok h

theorem bufferRecord_appends (hfits : record.Fits) :
    Appends disk twal (bufferRecord disk twal record) := by
  obtain ⟨flushed, pending, haccepted, hcount, hbuf, hpending, hrecoverable⟩ := h.buffer
  have hbuffered : ThreadOk disk { twal with
      entryBuf := twal.entryBuf ++ encodeWalRecord record
      batchCount := twal.batchCount + 1
      newestTxnId := record.txnId
      accepted := twal.accepted ++ [record] } := by
    refine ⟨h.named, h.listed, h.unsealed, flushed, pending ++ [record], ?_, ?_, ?_, ?_,
      hrecoverable⟩
    · change twal.accepted ++ [record] = _
      rw [haccepted, append_assoc]
    · change twal.batchCount + 1 = _
      rw [hcount, length_append, length_singleton]
    · change twal.entryBuf ++ encodeWalRecord record = _
      rw [hbuf, flatMap_append, flatMap_singleton]
    · exact forall_mem_append.mpr ⟨hpending, forall_mem_singleton.mpr hfits⟩
  have hstays : Appends disk twal (disk, _) := ⟨.refl disk, hok, hbuffered, rfl, rfl, rfl⟩
  simp only [bufferRecord]
  split
  · exact hstays.trans (flushBuffer_appends hok hbuffered)
  · exact hstays

theorem writeDirectly_appends (hempty : twal.batchCount = 0) (hfits : record.Fits) :
    Appends disk twal (writeDirectly disk twal record) := by
  obtain ⟨flushed, pending, haccepted, hcount, hbuf, -, hrecoverable⟩ := h.buffer
  obtain rfl : pending = [] := length_eq_zero_iff.mp (hcount.symm.trans hempty)
  rw [append_nil] at haccepted
  rw [writeDirectly, ← flatMap_singleton encodeWalRecord record]
  exact h.append_appends hok (forall_mem_singleton.mpr hfits) hrecoverable
    (congrArg (· ++ _) haccepted) ⟨hempty, hbuf⟩ ⟨rfl, rfl⟩ rfl

theorem appendRecord_appends (hfits : record.Fits) :
    Appends disk twal (appendRecord disk twal record) := by
  have hflushed := flushBuffer_appends hok h
  simp only [appendRecord]
  split
  · split
    · exact hflushed.trans
        (writeDirectly_appends hflushed.ok hflushed.thread (flushBuffer_empty h).1 hfits)
    · exact hflushed.trans (bufferRecord_appends hflushed.ok hflushed.thread hfits)
  · exact bufferRecord_appends hok h hfits

end Writes

/-! ### Opening fresh files -/

/-- The path is stored in the manifest as it is, and no record lists it as SEALED. -/
structure FreshPath (manifest : List ManifestEntry) (path : Bytes) : Prop where
  length : path.length < 256
  nul : ∀ b ∈ path, b ≠ 0
  unsealed : ∀ entry ∈ manifest, entry.status = .sealed → entry.filePath ≠ path

theorem FreshPath.truncatePath {manifest : List ManifestEntry} (h : FreshPath manifest path) :
    truncatePath path = path := truncatePath_eq h.length h.nul

theorem manifestEntry_filePath (threadId : UInt64) (path : Bytes) (status : WalFileStatus)
    (txnId : TransactionId) :
    (manifestEntry threadId path status txnId).filePath = truncatePath path := rfl

theorem ThreadOk.opened {threadId : UInt64} (hok : disk.Ok) (hfresh : FreshPath disk.manifest path)
    (hpath : twal.filePath = path) (hfd : twal.fd = (disk.openAppend path).2)
    (hbuffer : Buffered disk twal) :
    ThreadOk ((disk.openAppend path).1.writeManifestEntry threadId path .active ⟨0, 0, 0⟩)
      twal := by
  have hopened := openAppend_opened hok path
  refine ⟨?_, ?_, ?_, hbuffer.mono fun _ => Recoverable.mono hok
    (hopened.grows.trans writeManifestEntry_extends)⟩
  · rw [hpath, hfd]
    exact hopened.named
  · refine ⟨_, mem_append_right _ mem_cons_self, ?_, ?_⟩
    · rw [hpath, manifestEntry_filePath, hfresh.truncatePath]
    · change WalFileStatus.active ≠ .compacted
      decide
  · intro entry hentry hsealed
    rw [WalDisk.writeManifestEntry, hopened.manifest] at hentry
    rcases mem_append.mp hentry with hentry | hentry
    · rw [hpath]
      exact hfresh.unsealed entry hentry hsealed
    · rw [mem_singleton.mp hentry] at hsealed
      cases hsealed

/-- What a rotation does: the disk grows, and the only new SEALED record is that of the old
file. -/
structure Rotates (disk : WalDisk) (twal : ThreadWal) (result : WalDisk × ThreadWal) : Prop where
  grows : disk.Extends result.1
  ok : result.1.Ok
  thread : ThreadOk result.1 result.2
  sealed : ∀ entry ∈ result.1.manifest, entry.status = .sealed →
    entry ∈ disk.manifest ∨ entry.filePath = twal.filePath
  length : result.1.manifest.length = disk.manifest.length + 2
  filePath : result.2.filePath = rotatedWalPath disk.location twal.threadId twal.newestTxnId.time

theorem threadWalRotate_rotates (hok : disk.Ok) (h : ThreadOk disk twal)
    (hfresh : FreshPath disk.manifest
      (rotatedWalPath disk.location twal.threadId twal.newestTxnId.time))
    (hother : rotatedWalPath disk.location twal.threadId twal.newestTxnId.time ≠ twal.filePath) :
    Rotates disk twal (threadWalRotate disk twal) := by
  let sealed := disk.writeManifestEntry twal.threadId twal.filePath .sealed twal.newestTxnId
  let path := rotatedWalPath disk.location twal.threadId twal.newestTxnId.time
  have hsealedOk : sealed.Ok := writeManifestEntry_ok hok
  have hgrows : disk.Extends sealed := writeManifestEntry_extends
  have hopened := openAppend_opened hsealedOk path
  have hfresh' : FreshPath sealed.manifest path := by
    refine ⟨hfresh.length, hfresh.nul, ?_⟩
    intro entry hentry hstatus
    rcases mem_append.mp hentry with hentry | hentry
    · exact hfresh.unsealed entry hentry hstatus
    · rw [mem_singleton.mp hentry, manifestEntry_filePath, h.truncatePath]
      exact hother.symm
  have hmanifest : (threadWalRotate disk twal).1.manifest =
      disk.manifest ++ [manifestEntry twal.threadId twal.filePath .sealed twal.newestTxnId] ++
        [manifestEntry twal.threadId path .active ⟨0, 0, 0⟩] :=
    congrArg (· ++ _) hopened.manifest
  constructor
  · exact hgrows.trans (hopened.grows.trans writeManifestEntry_extends)
  · exact writeManifestEntry_ok hopened.ok
  · exact ThreadOk.opened hsealedOk hfresh' rfl rfl
      (h.buffer.mono fun _ => Recoverable.mono hok hgrows)
  · intro entry hentry hstatus
    rw [hmanifest] at hentry
    rcases mem_append.mp hentry with hentry | hentry
    · rcases mem_append.mp hentry with hentry | hentry
      · exact .inl hentry
      · rw [mem_singleton.mp hentry, manifestEntry_filePath, h.truncatePath]
        exact .inr rfl
    · rw [mem_singleton.mp hentry] at hstatus
      cases hstatus
  · rw [hmanifest, length_append, length_append]
    rfl
  · rfl

/-! ### Compaction -/

theorem lookup_of_mem_names {files : List (Bytes × Bytes)} {content : Bytes}
    (hdistinct : (files.map Prod.fst).Nodup) (h : (path, content) ∈ files) :
    files.lookup path = some content := by
  obtain ⟨before, after, rfl⟩ := append_of_mem h
  rw [lookup_eq_some_iff]
  refine ⟨before, after, rfl, ?_⟩
  intro p hp
  rw [map_append, map_cons, nodup_append] at hdistinct
  have hne := hdistinct.2.2 p.1 (mem_map_of_mem hp) path mem_cons_self
  simpa using hne.symm

theorem mem_readFile_of_named (hname : (path, inode) ∈ disk.names)
    (hbytes : disk.inodes[inode]? = some bytes) (hmem : record ∈ readWalFile bytes) :
    ∃ entry ∈ disk.directory.readFile path, entry.record = record := by
  have hfile : (path, bytes) ∈ disk.directory.files := by
    refine mem_map.mpr ⟨(path, inode), hname, ?_⟩
    rw [getD_eq_getElem?_getD, hbytes]
    rfl
  rw [WalDirectory.readFile, lookup_of_mem_names disk.directory.distinct hfile]
  rw [← map_record_recoveryEntries (readWalFile bytes) 0] at hmem
  exact mem_map.mp hmem

theorem fits_of_mem_readFile (hok : disk.Ok) :
    ∀ entry ∈ disk.directory.readFile path, entry.record.Fits := by
  intro entry hentry
  rw [WalDirectory.readFile] at hentry
  split at hentry
  · exact absurd hentry not_mem_nil
  · rename_i content hlookup
    obtain ⟨before, after, hfiles, -⟩ := lookup_eq_some_iff.mp hlookup
    have hfile : (path, content) ∈ disk.directory.files := by
      rw [hfiles]
      exact mem_append_right _ mem_cons_self
    obtain ⟨name, hname, heq⟩ := mem_map.mp hfile
    have hlt := hok.bound name hname
    have hcontent : disk.inodes[name.2] = content := by
      have hsnd := congrArg Prod.snd heq
      rwa [getD_eq_getElem?_getD, getElem?_eq_getElem hlt] at hsnd
    obtain ⟨records, hfits, hencoded⟩ := hok.whole _ (getElem_mem hlt)
    have hmem := mem_map_of_mem (f := RecoveryEntry.record) hentry
    rw [map_record_recoveryEntries, ← hcontent, hencoded, readWalFile_encode hfits] at hmem
    exact hfits _ hmem

theorem sealedRecords_fits (hok : disk.Ok) (entries : List ManifestEntry) :
    ∀ r ∈ sealedRecords disk entries, r.Fits := by
  intro r hr
  rw [sealedRecords, mem_insertionSort] at hr
  obtain ⟨entry, hentry, rfl⟩ := mem_map.mp hr
  obtain ⟨listed, -, hread⟩ := mem_flatMap.mp hentry
  exact fits_of_mem_readFile hok entry hread

/-- The COMPACTED records of a compaction are added to the manifest and nothing else happens. -/
theorem foldl_writeManifestEntry (entries : List ManifestEntry) (disk : WalDisk) :
    entries.foldl (fun disk entry =>
      disk.writeManifestEntry entry.threadId entry.filePath .compacted entry.newestTxnId) disk =
    { disk with manifest := disk.manifest ++ entries.map fun entry =>
        manifestEntry entry.threadId entry.filePath .compacted entry.newestTxnId } := by
  induction entries generalizing disk with
  | nil => simp only [foldl_nil, map_nil, append_nil]
  | cons entry entries ih =>
    rw [foldl_cons, ih]
    simp only [WalDisk.writeManifestEntry, map_cons, append_assoc, singleton_append]

/-- What a compaction does: it unlinks only files that are listed as SEALED, lists only its own
file as SEALED, and loses no record. -/
structure Compacts (disk disk' : WalDisk) (path : Bytes) : Prop where
  location : disk'.location = disk.location
  ok : disk'.Ok
  manifest : disk.manifest ⊆ disk'.manifest
  names : ∀ name ∈ disk.names, (∀ entry ∈ disk.manifest, entry.status = .sealed →
    entry.filePath ≠ name.1) → name ∈ disk'.names
  sealed : ∀ entry ∈ disk'.manifest, entry.status = .sealed →
    entry ∈ disk.manifest ∨ entry.filePath = path
  recoverable : ∀ r, Recoverable disk r → Recoverable disk' r
  length : disk'.manifest.length ≤ disk.manifest.length + (sealedEntries disk.manifest).length + 1

theorem Compacts.nothing (hok : disk.Ok) (path : Bytes) : Compacts disk disk path where
  location := rfl
  ok := hok
  manifest := refl _
  names := fun _ hname _ => hname
  sealed := fun _ hentry _ => .inl hentry
  recoverable := fun _ h => h
  length := by omega

theorem mem_sealedEntries {manifest : List ManifestEntry} {entry : ManifestEntry} :
    entry ∈ sealedEntries manifest ↔ entry ∈ manifest ∧ entry.status = .sealed := by
  rw [sealedEntries, mem_filter, decide_eq_true_eq]

def copiedDisk (disk : WalDisk) (path : Bytes) : WalDisk :=
  let opened := disk.openAppend path
  let written := opened.1.append opened.2
    ((sealedRecords disk (sealedEntries disk.manifest)).flatMap encodeWalRecord)
  { written with
    manifest := (written.manifest ++ (sealedEntries disk.manifest).map fun entry =>
      manifestEntry entry.threadId entry.filePath .compacted entry.newestTxnId) ++
        [manifestEntry 0 path .sealed ⟨0, 0, 0⟩] }

theorem compactWalFiles_cases {clock : UInt64} {compacted : Nat}
    (h : compactWalFiles disk clock = some (disk', compacted)) :
    disk' = disk ∨ disk' = (copiedDisk disk (compactedWalPath disk.location clock)).unlink
      ((sealedEntries disk.manifest).map ManifestEntry.filePath) := by
  rw [compactWalFiles_eq] at h
  split at h
  case isFalse => cases h
  case isTrue =>
    simp only [compactEntries, compactTo, foldl_writeManifestEntry] at h
    split at h
    · cases h
      exact .inl rfl
    · cases h
      exact .inr rfl

section Grown

variable (hok : disk.Ok)

include hok

theorem copiedDisk_manifest :
    (copiedDisk disk path).manifest = (disk.manifest ++ (sealedEntries disk.manifest).map
      fun entry => manifestEntry entry.threadId entry.filePath .compacted entry.newestTxnId) ++
        [manifestEntry 0 path .sealed ⟨0, 0, 0⟩] := by
  have hopened := (openAppend_opened hok path).manifest
  change ((disk.openAppend path).1.manifest ++ _) ++ _ = _
  rw [hopened]

theorem copiedDisk_extends : disk.Extends (copiedDisk disk path) := by
  have hopened := openAppend_opened hok path
  have hwhole := Whole.of_records (sealedRecords_fits hok (sealedEntries disk.manifest))
  have hwritten : disk.Extends ((disk.openAppend path).1.append (disk.openAppend path).2 _) :=
    hopened.grows.trans (append_extends hwhole)
  refine ⟨hwritten.location, hwritten.names, ?_, hwritten.inodes⟩
  rw [copiedDisk_manifest hok, append_assoc]
  exact subset_append_left _ _

theorem copiedDisk_ok : (copiedDisk disk path).Ok := by
  have hopened := openAppend_opened hok path
  have hwhole := Whole.of_records (sealedRecords_fits hok (sealedEntries disk.manifest))
  have hwritten : ((disk.openAppend path).1.append (disk.openAppend path).2 _).Ok :=
    append_ok hopened.ok hwhole
  exact ⟨hwritten.whole, hwritten.bound⟩

theorem recoverable_copied (hfresh : FreshPath disk.manifest path)
    (hmem : record ∈ sealedRecords disk (sealedEntries disk.manifest)) :
    ∃ inode bytes, (path, inode) ∈ (copiedDisk disk path).names ∧
      (copiedDisk disk path).inodes[inode]? = some bytes ∧ record ∈ readWalFile bytes ∧
      ∃ entry ∈ (copiedDisk disk path).manifest, entry.filePath = path ∧
        entry.status ≠ .compacted := by
  have hopened := openAppend_opened hok path
  obtain ⟨bytes, hbytes, hread⟩ := append_readable hopened.ok hopened.named
    (sealedRecords_fits hok (sealedEntries disk.manifest)) hmem
  refine ⟨_, bytes, hopened.named, hbytes, hread, manifestEntry 0 path .sealed ⟨0, 0, 0⟩, ?_,
    hfresh.truncatePath, ?_⟩
  · rw [copiedDisk_manifest hok]
    exact mem_append_right _ mem_cons_self
  · change WalFileStatus.sealed ≠ .compacted
    decide

theorem copiedDisk_unlink_compacts (hfresh : FreshPath disk.manifest path) :
    Compacts disk ((copiedDisk disk path).unlink
      ((sealedEntries disk.manifest).map ManifestEntry.filePath)) path := by
  have hext : disk.Extends (copiedDisk disk path) := copiedDisk_extends hok
  have hcopied : (copiedDisk disk path).Ok := copiedDisk_ok hok
  -- A name survives unless a SEALED record lists it.
  have hkept : ∀ name ∈ (copiedDisk disk path).names, (∀ entry ∈ disk.manifest,
      entry.status = .sealed → entry.filePath ≠ name.1) → name ∈ ((copiedDisk disk path).unlink
        ((sealedEntries disk.manifest).map ManifestEntry.filePath)).names := by
    intro name hname hunsealed
    refine mem_filter.mpr ⟨hname, ?_⟩
    rw [Bool.not_eq_true', contains_eq_mem, decide_eq_false_iff_not]
    intro hmem
    obtain ⟨entry, hentry, heq⟩ := mem_map.mp hmem
    obtain ⟨hentry, hstatus⟩ := mem_sealedEntries.mp hentry
    exact hunsealed entry hentry hstatus heq
  constructor
  · exact hext.location
  · exact ⟨hcopied.whole, fun name hname => hcopied.bound name (mem_of_mem_filter hname)⟩
  · exact hext.manifest
  · exact fun name hname => hkept name (hext.names hname)
  · intro entry hentry hstatus
    change entry ∈ (copiedDisk disk path).manifest at hentry
    rw [copiedDisk_manifest hok] at hentry
    rcases mem_append.mp hentry with hentry | hentry
    · rcases mem_append.mp hentry with hentry | hentry
      · exact .inl hentry
      · obtain ⟨_, -, rfl⟩ := mem_map.mp hentry
        cases hstatus
    · rw [mem_singleton.mp hentry]
      exact .inr hfresh.truncatePath
  · intro r hr
    obtain ⟨listedPath, inode, bytes, hname, hbytes, hmem, entry, hentry, hlisted⟩ := hr
    by_cases hsealed : ∀ entry ∈ disk.manifest, entry.status = .sealed → entry.filePath ≠ listedPath
    · obtain ⟨bytes', hbytes', hmem'⟩ := hext.readable hok hbytes hmem
      exact ⟨listedPath, inode, bytes', hkept _ (hext.names hname) hsealed, hbytes', hmem', entry,
        hext.manifest hentry, hlisted⟩
    · push Not at hsealed
      obtain ⟨entry', hentry', hstatus, rfl⟩ := hsealed
      obtain ⟨read, hread, rfl⟩ := mem_readFile_of_named hname hbytes hmem
      have hcopy : read.record ∈ sealedRecords disk (sealedEntries disk.manifest) := by
        rw [sealedRecords, mem_insertionSort]
        exact mem_map_of_mem (mem_flatMap.mpr ⟨_, mem_sealedEntries.mpr ⟨hentry', hstatus⟩, hread⟩)
      obtain ⟨inode', bytes', hname', hbytes', hmem', hlisted'⟩ :=
        recoverable_copied hok hfresh hcopy
      exact ⟨path, inode', bytes', hkept _ hname' hfresh.unsealed, hbytes', hmem', hlisted'⟩
  · change (copiedDisk disk path).manifest.length ≤ _
    rw [copiedDisk_manifest hok, length_append, length_append, length_map, length_singleton]

end Grown

theorem ThreadOk.compact (h : ThreadOk disk twal) (hcompact : Compacts disk disk' path)
    (hother : twal.filePath ≠ path) : ThreadOk disk' twal := by
  obtain ⟨entry, hentry, hlisted⟩ := h.listed
  refine ⟨hcompact.names _ h.named h.unsealed, ⟨entry, hcompact.manifest hentry, hlisted⟩, ?_,
    h.buffer.mono hcompact.recoverable⟩
  intro entry hentry hstatus
  rcases hcompact.sealed entry hentry hstatus with hentry | heq
  · exact h.unsealed entry hentry hstatus
  · rw [heq]
    exact hother.symm

end WaveDB.Database
