import WaveDB.Database.WalGrowth

/-!
Runs of the WAL manager (`Database/wal_manager.c`).

`flushed_record_recovered`: as long as no step opens a file that the manifest lists as SEALED
or that a thread has open, recovery finds every record that was accepted and flushed.
-/

namespace WaveDB.Database

open WaveDB.Basis Workers HBTrie List Option WalManager Bool

/-! ### Runs -/

variable (manager : WalManager)

/-- What a step may open: a path that the manifest can store, that no record lists as SEALED and
that no thread has open. -/
def WalManager.canOpen (path : Bytes) : Bool :=
  path.length < 256 && path.all (· ≠ 0) &&
    manager.disk.manifest.all (fun entry => entry.status ≠ .sealed ∨ entry.filePath ≠ path) &&
    manager.threads.all (·.filePath ≠ path)

def WalManager.hasRoom (records : Nat) : Bool :=
  manager.disk.manifest.length + records ≤ manifestMaxEntries

def WalManager.canCompact (clock : UInt64) : Bool :=
  manager.canOpen (compactedWalPath manager.disk.location clock) &&
    manager.hasRoom ((sealedEntries manager.disk.manifest).length + 1)

def WalManager.canRotate (twal : ThreadWal) (clock : UInt64) : Bool :=
  let path := rotatedWalPath manager.disk.location twal.threadId twal.newestTxnId.time
  manager.canOpen path && manager.hasRoom 2 &&
    (!manager.sealedLimitReached || (manager.canCompact clock &&
      path != compactedWalPath manager.disk.location clock &&
      manager.hasRoom ((sealedEntries manager.disk.manifest).length + 3)))

def opensFresh (manager : WalManager) : WalAction → Bool
  | .create threadId =>
    manager.canOpen (threadWalPath manager.disk.location threadId) && manager.hasRoom 1
  | .write thread record clock =>
    record.Fits && (manager.threads[thread]?).all fun twal =>
      !needsRotation twal record || manager.canRotate twal clock
  | .flush _ => true
  | .compact clock => manager.canCompact clock

/-- The disk and all threads are in order, no two threads share a file, and the manifest can be
read. -/
structure WalOk (manager : WalManager) : Prop where
  disk : manager.disk.Ok
  threads : ∀ twal ∈ manager.threads, ThreadOk manager.disk twal
  paths : (manager.threads.map ThreadWal.filePath).Nodup
  limit : manager.disk.manifest.length ≤ manifestMaxEntries

section Manager

variable {manager : WalManager} {thread : Nat} {twal : ThreadWal} {path : Bytes}
  {result : WalDisk × ThreadWal} {manager' : WalManager} {clock : UInt64} {record : WalRecord}

theorem canOpen_iff : manager.canOpen path ↔
    FreshPath manager.disk.manifest path ∧ ∀ twal ∈ manager.threads, twal.filePath ≠ path := by
  simp only [canOpen, and_eq_true, List.all_eq_true, decide_eq_true_eq]
  constructor
  · rintro ⟨⟨⟨hlength, hnul⟩, hsealed⟩, hthreads⟩
    exact ⟨⟨hlength, hnul, fun entry hentry hstatus =>
      (hsealed entry hentry).resolve_left fun hne => hne hstatus⟩, hthreads⟩
  · rintro ⟨hfresh, hthreads⟩
    exact ⟨⟨⟨hfresh.length, hfresh.nul⟩, fun entry hentry =>
      Decidable.or_iff_not_imp_left.mpr fun hstatus =>
        hfresh.unsealed entry hentry (not_not.mp hstatus)⟩, hthreads⟩

section Kept

variable (h : WalOk manager)

include h

/-- One thread and the disk change, and the other threads keep their files. -/
theorem WalOk.update (hthread : manager.threads[thread]? = some twal) (hok : result.1.Ok)
    (hresult : ThreadOk result.1 result.2)
    (hothers : ∀ other ∈ manager.threads, other.filePath ≠ twal.filePath → ThreadOk result.1 other)
    (hpath : result.2.filePath = twal.filePath ∨ ∀ other ∈ manager.threads, other.filePath ≠
      result.2.filePath) (hlimit : result.1.manifest.length ≤ manifestMaxEntries) :
    WalOk (manager.update thread result) := by
  constructor
  · exact hok
  · intro other hother
    rcases mem_set_of_nodup h.paths hthread hother with rfl | ⟨hother, hne⟩
    · exact hresult
    · exact hothers other hother hne
  · change ((manager.threads.set thread result.2).map ThreadWal.filePath).Nodup
    rcases hpath with heq | hfresh
    · rw [map_set_of_eq hthread heq]
      exact h.paths
    · rw [map_set]
      apply h.paths.set
      intro hmem
      obtain ⟨other, hother, heq⟩ := mem_map.mp hmem
      exact hfresh other hother heq
  · exact hlimit

theorem WalOk.appends (hthread : manager.threads[thread]? = some twal)
    (happends : Appends manager.disk twal result) : WalOk (manager.update thread result) := by
  have hlimit := h.limit
  rw [← happends.manifest] at hlimit
  refine h.update hthread happends.ok happends.thread ?_ (.inl happends.filePath) hlimit
  intro other hother _
  have hok := h.threads other hother
  refine hok.mono h.disk happends.grows ?_
  rw [happends.manifest]
  exact hok.unsealed

theorem WalOk.compact (hsafe : manager.canCompact clock)
    (hcompact : manager.compact clock = some manager') :
    WalOk manager' ∧ manager'.threads = manager.threads ∧
      Compacts manager.disk manager'.disk (compactedWalPath manager.disk.location clock) := by
  rw [canCompact, and_eq_true, canOpen_iff] at hsafe
  obtain ⟨⟨hfresh, hthreads⟩, hroom⟩ := hsafe
  obtain ⟨⟨disk', compacted⟩, hdisk, rfl⟩ := map_eq_some_iff.mp hcompact
  have hspec : Compacts manager.disk disk' (compactedWalPath manager.disk.location clock) := by
    rcases compactWalFiles_cases hdisk with rfl | rfl
    · exact .nothing h.disk _
    · exact copiedDisk_unlink_compacts h.disk hfresh
  refine ⟨⟨hspec.ok, ?_, h.paths, ?_⟩, rfl, hspec⟩
  · intro twal htwal
    exact (h.threads twal htwal).compact hspec (hthreads twal htwal)
  · exact hspec.length.trans (of_decide_eq_true hroom)

/-- Rotating and appending, when the new file is fresh. -/
theorem WalOk.rotateAndAppend (hthread : manager.threads[thread]? = some twal) (hfits : record.Fits)
    (hopen : manager.canOpen (rotatedWalPath manager.disk.location twal.threadId
      twal.newestTxnId.time)) (hroom : manager.disk.manifest.length + 2 ≤ manifestMaxEntries) :
    WalOk (rotateAndAppend manager thread twal record) := by
  obtain ⟨hfresh, hthreads⟩ := canOpen_iff.mp hopen
  have hmem := mem_of_getElem? hthread
  have hrotates := threadWalRotate_rotates h.disk (h.threads twal hmem) hfresh
    (hthreads twal hmem).symm
  have happends := appendRecord_appends hrotates.ok hrotates.thread hfits
  have hcounted : WalOk { manager with sealedCount := manager.sealedCount + 1 } :=
    ⟨h.disk, h.threads, h.paths, h.limit⟩
  refine hcounted.update hthread happends.ok happends.thread ?_ (.inr ?_) ?_
  · intro other hother hne
    have hok := h.threads other hother
    refine hok.mono h.disk (hrotates.grows.trans happends.grows) ?_
    intro entry hentry hstatus
    rw [happends.manifest] at hentry
    rcases hrotates.sealed entry hentry hstatus with hentry | heq
    · exact hok.unsealed entry hentry hstatus
    · rw [heq]
      exact hne.symm
  · intro other hother
    rw [happends.filePath, hrotates.filePath]
    exact hthreads other hother
  · rw [happends.manifest, hrotates.length]
    exact hroom

end Kept

theorem canOpen_of_appends (hthread : manager.threads[thread]? = some twal)
    (happends : Appends manager.disk twal result) (h : manager.canOpen path) :
    (manager.update thread result).canOpen path = true := by
  obtain ⟨hfresh, hthreads⟩ := canOpen_iff.mp h
  refine canOpen_iff.mpr ⟨?_, ?_⟩
  · rw [update, happends.manifest]
    exact hfresh
  · intro other hother
    rcases mem_or_eq_of_mem_set hother with hother | rfl
    · exact hthreads other hother
    · rw [happends.filePath]
      exact hthreads twal (mem_of_getElem? hthread)

theorem canOpen_of_compacts {compactedPath : Bytes}
    (hcompacts : Compacts manager.disk manager'.disk compactedPath)
    (hthreads : manager'.threads = manager.threads) (hne : path ≠ compactedPath)
    (h : manager.canOpen path) : manager'.canOpen path = true := by
  obtain ⟨hfresh, hothers⟩ := canOpen_iff.mp h
  refine canOpen_iff.mpr ⟨⟨hfresh.length, hfresh.nul, ?_⟩, ?_⟩
  · intro entry hentry hstatus
    rcases hcompacts.sealed entry hentry hstatus with hentry | heq
    · exact hfresh.unsealed entry hentry hstatus
    · rw [heq]
      exact hne.symm
  · rw [hthreads]
    exact hothers

theorem WalOk.write (h : WalOk manager) (hthread : manager.threads[thread]? = some twal)
    (hfits : record.Fits) (hsafe : needsRotation twal record → manager.canRotate twal clock) :
    WalOk (threadWalWrite manager thread twal record clock) := by
  have hmem := mem_of_getElem? hthread
  simp only [threadWalWrite]
  split
  case isFalse =>
    exact h.appends hthread (appendRecord_appends h.disk (h.threads twal hmem) hfits)
  case isTrue hrotation =>
    have hflushed := flushBuffer_appends h.disk (h.threads twal hmem)
    have hok := h.appends hthread hflushed
    have hthread' : (manager.update thread (flushBuffer manager.disk twal)).threads[thread]? =
        some (flushBuffer manager.disk twal).2 :=
      getElem?_set_self (List.getElem?_eq_some_iff.mp hthread).1
    have hrotate := hsafe hrotation
    simp only [canRotate, and_eq_true, or_eq_true, bne_iff_ne] at hrotate
    obtain ⟨⟨hopen, hroom⟩, hcompact⟩ := hrotate
    have hopen' := canOpen_of_appends hthread hflushed hopen
    -- The path of the rotated file is the same before and after the flush.
    have hpath : rotatedWalPath
        (manager.update thread (flushBuffer manager.disk twal)).disk.location
        (flushBuffer manager.disk twal).2.threadId
        (flushBuffer manager.disk twal).2.newestTxnId.time =
          rotatedWalPath manager.disk.location twal.threadId twal.newestTxnId.time := by
      rw [WalManager.update, hflushed.grows.location, hflushed.threadId, flushBuffer]
      split <;> rfl
    split
    case isFalse =>
      refine hok.rotateAndAppend hthread' hfits (by rw [hpath]; exact hopen') ?_
      rw [WalManager.update, hflushed.manifest]
      exact of_decide_eq_true hroom
    case isTrue hlimit =>
      obtain ⟨⟨hcompact, hne⟩, hroom'⟩ := hcompact.resolve_left fun hfree => by
        rw [WalManager.sealedLimitReached, WalManager.update] at hlimit
        rw [sealedLimitReached, hlimit] at hfree
        cases hfree
      split
      · exact hok
      · rename_i manager' hrun
        rw [canCompact, and_eq_true, hasRoom] at hcompact
        obtain ⟨hok', hthreads, hcompacts⟩ := hok.compact (by
          rw [WalManager.canCompact, Bool.and_eq_true, WalManager.hasRoom, WalManager.update,
            hflushed.manifest, hflushed.grows.location]
          exact ⟨canOpen_of_appends hthread hflushed hcompact.1, hcompact.2⟩) hrun
        split
        · exact hok'
        · refine hok'.rotateAndAppend (by rw [hthreads]; exact hthread') hfits ?_ ?_
          · rw [hcompacts.location, hpath]
            refine canOpen_of_compacts hcompacts hthreads ?_ hopen'
            rw [WalManager.update, hflushed.grows.location]
            exact hne
          · have hlength := hcompacts.length
            rw [WalManager.update, hflushed.manifest] at hlength
            have hroom' := of_decide_eq_true hroom'
            omega

theorem WalOk.create {threadId : UInt64} (h : WalOk manager)
    (hopen : manager.canOpen (threadWalPath manager.disk.location threadId))
    (hroom : manager.hasRoom 1)
    (hstep : walStep manager (.create threadId) = some manager') : WalOk manager' := by
  cases hstep
  obtain ⟨hfresh, hthreads⟩ := canOpen_iff.mp hopen
  have hopened := openAppend_opened h.disk (threadWalPath manager.disk.location threadId)
  have hgrows : manager.disk.Extends (createThreadWal manager.config manager.disk threadId).1 :=
    hopened.grows.trans writeManifestEntry_extends
  have hmanifest : (createThreadWal manager.config manager.disk threadId).1.manifest =
      manager.disk.manifest ++ [manifestEntry threadId
        (threadWalPath manager.disk.location threadId) .active ⟨0, 0, 0⟩] :=
    congrArg (· ++ _) hopened.manifest
  constructor
  · exact writeManifestEntry_ok hopened.ok
  · intro twal htwal
    rcases mem_append.mp htwal with htwal | htwal
    · have hok := h.threads twal htwal
      refine hok.mono h.disk hgrows ?_
      intro entry hentry hstatus
      rw [hmanifest] at hentry
      rcases mem_append.mp hentry with hentry | hentry
      · exact hok.unsealed entry hentry hstatus
      · rw [mem_singleton.mp hentry] at hstatus
        cases hstatus
    · rw [mem_singleton.mp htwal]
      refine ThreadOk.opened h.disk hfresh rfl rfl ⟨[], [], rfl, rfl, rfl, ?_, ?_⟩
      · exact nofun
      · exact nofun
  · rw [map_append, nodup_append]
    refine ⟨h.paths, nodup_singleton _, ?_⟩
    rintro _ hpath _ hnew rfl
    obtain ⟨twal, htwal, heq⟩ := mem_map.mp hpath
    exact hthreads twal htwal (heq.trans (mem_singleton.mp hnew))
  · rw [hmanifest, length_append]
    exact of_decide_eq_true hroom

theorem WalOk.step {action : WalAction} (h : WalOk manager)
    (hfresh : opensFresh manager action) (hstep : walStep manager action = some manager') :
    WalOk manager' := by
  cases action with
  | create threadId =>
    rw [opensFresh, and_eq_true] at hfresh
    exact h.create hfresh.1 hfresh.2 hstep
  | write thread record clock =>
    obtain ⟨twal, hthread, rfl⟩ := map_eq_some_iff.mp hstep
    simp only [opensFresh, hthread, all_some, and_eq_true, or_eq_true, decide_eq_true_eq] at hfresh
    refine h.write hthread hfresh.1 fun hrotation => hfresh.2.resolve_left ?_
    rw [hrotation]
    exact Bool.noConfusion
  | flush thread =>
    obtain ⟨twal, hthread, rfl⟩ := map_eq_some_iff.mp hstep
    exact h.appends hthread (flushBuffer_appends h.disk (h.threads twal (mem_of_getElem? hthread)))
  | compact clock =>
    obtain rfl : (manager.compact clock).getD manager = manager' := some.inj hstep
    cases hrun : manager.compact clock with
    | none => exact h
    | some manager' => exact (h.compact hfresh hrun).1

end Manager

/-- Recovery reads every recoverable record as long as the manifest is within its limit. -/
theorem Recoverable.collected {disk : WalDisk} {record : WalRecord} (h : Recoverable disk record)
    (hlimit : disk.manifest.length ≤ manifestMaxEntries) :
    ∃ entry ∈ collectEntries (manifestFile disk.manifest) disk.directory,
      entry.record = record := by
  obtain ⟨path, inode, bytes, hname, hbytes, hmem, listed, hlisted, rfl, hstatus⟩ := h
  obtain ⟨entry, hentry, heq⟩ := mem_readFile_of_named hname hbytes hmem
  have hentries := manifestEntries_manifestFile disk.manifest
  rw [if_pos hlimit] at hentries
  refine ⟨entry, mem_flatMap.mpr ⟨listed.filePath, ?_, hentry⟩, heq⟩
  rw [filesRead_eq hentries]
  apply mem_append_left
  exact mem_map_of_mem (mem_filter.mpr ⟨hlisted, decide_eq_true hstatus⟩)

/-- From any directory of whole records on, in every state of a run whose steps open only fresh
files, recovery collects every record that was accepted and flushed. -/
theorem flushed_record_recovered {config : WalConfig} {disk : WalDisk} (hdisk : disk.Ok)
    (hlimit : disk.manifest.length ≤ manifestMaxEntries) {manager : WalManager}
    (hrun : Reaches walStep opensFresh (walManagerCreate config disk) manager) :
    ∀ twal ∈ manager.threads, ∀ record ∈ twal.flushed,
      ∃ entry ∈ collectEntries (manifestFile manager.disk.manifest) manager.disk.directory,
        entry.record = record := by
  have hstart : WalOk (walManagerCreate config disk) := ⟨hdisk, nofun, nodup_nil, hlimit⟩
  have hok : WalOk manager :=
    hrun.invariant WalOk hstart fun _ _ _ hok hfresh hstep => hok.step hfresh hstep
  intro twal htwal record hrecord
  exact ((hok.threads twal htwal).flushed record hrecord).collected hok.limit

/-! ### Names that collide -/

theorem emptyDisk_ok : emptyDisk.Ok := ⟨nofun, nofun⟩

def smallFiles : WalConfig := { maxFileSize := 60, maxSealedWals := 10, immediate := true }

def rotatingRun : List WalAction :=
  [.create 1, .write 0 ⟨walPut, ⟨1, 0, 1⟩, [7]⟩ 5, .write 0 ⟨walPut, ⟨2, 0, 2⟩, [8]⟩ 5]

/-- The manager after `rotatingRun`. -/
def rotatedManager : WalManager :=
  (perform walStep opensFresh (walManagerCreate smallFiles emptyDisk) rotatingRun).getD
    (walManagerCreate smallFiles emptyDisk)

def WalManager.compacted (clock : UInt64) : WalManager :=
  let result := compactEntries manager.disk manager.disk.manifest clock
  { manager with disk := result.1, sealedCount := manager.sealedCount - result.2 }

theorem walStep_compact {manager : WalManager} {clock : UInt64}
    (h : manager.disk.manifest.length ≤ manifestMaxEntries) :
    walStep manager (.compact clock) = some (manager.compacted clock) := by
  rw [walStep, compact, compactWalFiles_eq, if_pos h]
  rfl

theorem rotatedManager_reached :
    Reaches walStep opensFresh (walManagerCreate smallFiles emptyDisk) rotatedManager := by
  have hsome : (perform walStep opensFresh (walManagerCreate smallFiles emptyDisk)
      rotatingRun).isSome = true := by decide +kernel
  obtain ⟨manager, hrun⟩ := isSome_iff_exists.mp hsome
  rw [rotatedManager, hrun]
  exact Reaches.start.perform hrun

theorem flushed_record_recovered_compacted :
    ∃ manager, Reaches walStep opensFresh (walManagerCreate smallFiles emptyDisk) manager ∧
      (∃ twal ∈ manager.threads, twal.flushed.length = 2) ∧
      ∀ twal ∈ manager.threads, ∀ record ∈ twal.flushed,
        ∃ entry ∈ collectEntries (manifestFile manager.disk.manifest) manager.disk.directory,
          entry.record = record := by
  have hfirst := rotatedManager_reached.next (.compact 5) (by decide +kernel)
    (walStep_compact (by decide +kernel))
  have hsecond := hfirst.next (.compact 6) (by decide +kernel) (walStep_compact (by decide +kernel))
  exact ⟨_, hsecond, by decide +kernel, flushed_record_recovered emptyDisk_ok (by decide) hsecond⟩

/-- Two compactions in the same second write to one file, which the second one then unlinks: the
first record is gone. -/
theorem compaction_loses_record :
    ∃ manager, Reaches walStep always (walManagerCreate smallFiles emptyDisk) manager ∧
      ∃ twal ∈ manager.threads, ∃ record ∈ twal.flushed,
        ∀ entry ∈ collectEntries (manifestFile manager.disk.manifest) manager.disk.directory,
          entry.record ≠ record := by
  have hstart : Reaches walStep always (walManagerCreate smallFiles emptyDisk) rotatedManager :=
    rotatedManager_reached.unguarded
  have hfirst := hstart.next (.compact 5) rfl (walStep_compact (by decide +kernel))
  have hsecond := hfirst.next (.compact 5) rfl (walStep_compact (by decide +kernel))
  refine ⟨_, hsecond, ?_⟩
  have hentries := manifestEntries_manifestFile
    ((rotatedManager.compacted 5).compacted 5).disk.manifest
  rw [collectEntries, filesRead_eq hentries]
  decide +kernel

end WaveDB.Database
