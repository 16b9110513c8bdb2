import WaveDB.Database.TornTail

/-!
A thread's WAL as a queue (`thread_wal_write`, `thread_wal_seal` and the flush timer in
`Database/wal_manager.c`).

The files that a thread has created, one after the other, and its buffer hold the records it was
given, unless a rotation opens an older file again. Sealing closes the file: until the next
rotation records can only be buffered.
-/

namespace WaveDB.Database

open WaveDB.Basis Workers HBTrie List Option

/-! ### Calls on one thread -/

/-- `isOpen` says that `fd` is not -1. No step reads `files`, the inodes that the thread has
opened, in the order of their creation. -/
structure ThreadQueue where
  manager : WalManager
  isOpen : Bool
  files : List Nat

inductive QueueAction where
  | write (record : WalRecord) (clock : UInt64)
  | flush
  | sealFile

def ThreadQueue.canFlush (s : ThreadQueue) (twal : ThreadWal) : Bool :=
  s.isOpen || twal.batchCount == 0 || twal.entryBuf.isEmpty

def staysBuffered (twal : ThreadWal) (record : WalRecord) : Bool :=
  decide (twal.entryBuf.length + (encodeWalRecord record).length ≤ entryBufSize / 2) &&
    !(decide (0 < twal.batchSize) && decide (twal.batchSize ≤ twal.batchCount + 1))

def ThreadQueue.writes (s : ThreadQueue) (thread : Nat) (twal : ThreadWal) (record : WalRecord)
    (clock : UInt64) : Bool :=
  s.manager.accepts thread twal record clock &&
    if needsRotation twal record then s.canFlush twal else s.isOpen || staysBuffered twal record

/-- `thread_wal_seal`, without the closed descriptor. -/
def sealThread (manager : WalManager) (thread : Nat) (twal : ThreadWal) : WalManager :=
  manager.update thread
    ((flushBuffer manager.disk twal).1.writeManifestEntry twal.threadId twal.filePath .sealed
      twal.newestTxnId, (flushBuffer manager.disk twal).2)

def noteFile (files : List Nat) (inode : Nat) : List Nat :=
  if inode ∈ files then files else files ++ [inode]

/-- One call on the thread; `none` when it fails. -/
def queueStep (thread : Nat) (s : ThreadQueue) : QueueAction → Option ThreadQueue
  | .write record clock =>
    (s.manager.threads[thread]?).bind fun twal =>
      if s.writes thread twal record clock then
        ((threadWalWrite s.manager thread twal record clock).threads[thread]?).map fun twal' =>
          ⟨threadWalWrite s.manager thread twal record clock,
            s.isOpen || needsRotation twal record, noteFile s.files twal'.fd⟩
      else none
  | .flush =>
    (s.manager.threads[thread]?).bind fun twal =>
      if s.canFlush twal then
        some { s with manager := s.manager.update thread (flushBuffer s.manager.disk twal) }
      else none
  | .sealFile =>
    (s.manager.threads[thread]?).bind fun twal =>
      if s.canFlush twal then
        some { s with manager := sealThread s.manager thread twal, isOpen := false }
      else none

variable (disk : WalDisk)

def contents (files : List Nat) : Bytes :=
  files.flatMap fun inode => disk.inodes.getD inode []

/-- Files and buffer hold the records in the order of the calls, and the buffer does not
overflow. -/
def ThreadQueue.Faithful (thread : Nat) (s : ThreadQueue) : Prop :=
  ∀ twal, s.manager.threads[thread]? = some twal →
    contents s.manager.disk s.files ++ twal.entryBuf = twal.accepted.flatMap encodeWalRecord ∧
      twal.entryBuf.length ≤ entryBufSize

def nextWalPath (twal : ThreadWal) : Bytes :=
  rotatedWalPath disk.location twal.threadId twal.newestTxnId.time

def opensInOrder (twal : ThreadWal) : Bool :=
  (disk.names.lookup (nextWalPath disk twal)).isNone || nextWalPath disk twal == twal.filePath

def rotatesInOrder (thread : Nat) (s : ThreadQueue) : QueueAction → Bool
  | .write record _ => (s.manager.threads[thread]?).all fun twal => !needsRotation twal record ||
      !s.manager.sealedLimitReached && opensInOrder s.manager.disk twal
  | _ => true

/-! ### One call -/

/-- The current file is the last of the thread's files. -/
structure QueueOk (disk : WalDisk) (twal : ThreadWal) (files : List Nat) : Prop where
  named : disk.names.lookup twal.filePath = some twal.fd
  last : ∃ earlier, files = earlier ++ [twal.fd] ∧ twal.fd ∉ earlier
  bound : ∀ inode ∈ files, inode < disk.inodes.length
  bytes : contents disk files ++ twal.entryBuf = twal.accepted.flatMap encodeWalRecord
  room : twal.entryBuf.length ≤ entryBufSize
  buffered : twal.batchCount = 0 → twal.entryBuf = []

theorem threadWalRotate_new {disk : WalDisk} {twal : ThreadWal}
    (h : disk.names.lookup (nextWalPath disk twal) = none) :
    (threadWalRotate disk twal).1.inodes = disk.inodes ++ [[]] ∧
      (threadWalRotate disk twal).1.names =
        disk.names ++ [(nextWalPath disk twal, disk.inodes.length)] ∧
      (threadWalRotate disk twal).2.fd = disk.inodes.length := by
  simp only [threadWalRotate, WalDisk.openAppend]
  split
  · rename_i hlookup
    cases h.symm.trans hlookup
  · exact ⟨rfl, rfl, rfl⟩

theorem threadWalRotate_again {disk : WalDisk} {twal : ThreadWal} {inode : Nat}
    (h : disk.names.lookup (nextWalPath disk twal) = some inode) :
    (threadWalRotate disk twal).1.inodes = disk.inodes ∧
      (threadWalRotate disk twal).1.names = disk.names ∧
      (threadWalRotate disk twal).2.fd = inode := by
  simp only [threadWalRotate, WalDisk.openAppend]
  split
  · rename_i hlookup
    exact ⟨rfl, rfl, some.inj (hlookup.symm.trans h)⟩
  · rename_i hlookup
    cases h.symm.trans hlookup

section Steps

variable {disk : WalDisk} {twal : ThreadWal} {files : List Nat} {thread : Nat}
  {manager : WalManager} {result : WalDisk × ThreadWal}

theorem contents_append {earlier : List Nat} {inode : Nat} (hnot : inode ∉ earlier)
    (hlt : inode < disk.inodes.length) (data : Bytes) :
    contents (disk.append inode data) (earlier ++ [inode]) =
      contents disk (earlier ++ [inode]) ++ data := by
  have hearlier : contents (disk.append inode data) earlier = contents disk earlier :=
    flatMap_congr fun i hi => by simp [WalDisk.append, (ne_of_mem_of_not_mem hi hnot).symm]
  have hself : (disk.append inode data).inodes.getD inode [] =
      disk.inodes.getD inode [] ++ data := by
    rw [getD_eq_getElem?_getD, getD_eq_getElem?_getD, getElem?_eq_getElem hlt,
      append_content (getElem?_eq_getElem hlt)]
    rfl
  rw [contents] at hearlier
  simp only [contents, flatMap_append, flatMap_singleton, hself, hearlier, append_assoc]

theorem QueueOk.of_moves {more : Bytes} (h : QueueOk disk twal files)
    (hmoves : Moves disk twal more result) (haccepted : result.2.accepted.flatMap encodeWalRecord =
      twal.accepted.flatMap encodeWalRecord ++ more) : QueueOk result.1 result.2 files := by
  obtain ⟨data, hdisk, hbytes, -⟩ := hmoves.bytes
  obtain ⟨earlier, rfl, hnot⟩ := h.last
  have hlt := h.bound twal.fd (mem_append_right _ (mem_singleton_self _))
  refine ⟨?_, ⟨earlier, by rw [hmoves.fd], by rwa [hmoves.fd]⟩, ?_, ?_, hmoves.room,
    hmoves.buffered⟩
  · rw [hmoves.filePath, hmoves.fd, hdisk]
    exact h.named
  · rw [hdisk, WalDisk.append, length_modify]
    exact h.bound
  · rw [hdisk, contents_append hnot hlt, append_assoc, hbytes, ← append_assoc, h.bytes, haccepted]

theorem QueueOk.flush (h : QueueOk disk twal files) :
    QueueOk (flushBuffer disk twal).1 (flushBuffer disk twal).2 files := by
  refine h.of_moves (flushBuffer_moves disk h.buffered).1 ?_
  rw [flushBuffer_accepted, append_nil]

theorem QueueOk.append (h : QueueOk disk twal (noteFile files twal.fd)) (record : WalRecord) :
    QueueOk (appendRecord disk twal record).1 (appendRecord disk twal record).2
      (noteFile files (appendRecord disk twal record).2.fd) := by
  have hmoves := appendRecord_moves disk h.buffered record
  rw [hmoves.fd]
  refine h.of_moves hmoves ?_
  rw [appendRecord_accepted, flatMap_append, flatMap_singleton]

theorem opensInOrder_flush (disk : WalDisk) (twal : ThreadWal) :
    opensInOrder (flushBuffer disk twal).1 (flushBuffer disk twal).2 = opensInOrder disk twal := by
  unfold flushBuffer
  split <;> rfl

theorem QueueOk.rotate (h : QueueOk disk twal files) (horder : opensInOrder disk twal) :
    QueueOk (threadWalRotate disk twal).1 (threadWalRotate disk twal).2
      (noteFile files (threadWalRotate disk twal).2.fd) := by
  rw [opensInOrder, Bool.or_eq_true, isNone_iff_eq_none, beq_iff_eq] at horder
  cases hlookup : disk.names.lookup (nextWalPath disk twal) with
  | some inode =>
    have hpath := horder.resolve_left (by rw [hlookup]; nofun)
    obtain ⟨hinodes, hnames, hfd⟩ := threadWalRotate_again hlookup
    obtain rfl : inode = twal.fd := by
      rw [hpath, h.named] at hlookup
      exact (some.inj hlookup).symm
    have hmem : twal.fd ∈ files := by
      obtain ⟨earlier, rfl, -⟩ := h.last
      exact mem_append_right _ (mem_singleton_self _)
    rw [hfd, noteFile, if_pos hmem]
    refine ⟨?_, hfd ▸ h.last, ?_, ?_, h.room, h.buffered⟩
    · rw [hnames, hfd]
      exact hlookup
    · rw [hinodes]
      exact h.bound
    · rw [contents, hinodes]
      exact h.bytes
  | none =>
    obtain ⟨hinodes, hnames, hfd⟩ := threadWalRotate_new hlookup
    have hnew : disk.inodes.length ∉ files := fun hin => (h.bound _ hin).false
    rw [hfd, noteFile, if_neg hnew]
    refine ⟨?_, ⟨files, by rw [hfd], hfd ▸ hnew⟩, ?_, ?_, h.room, h.buffered⟩
    · change lookup (nextWalPath disk twal) _ = _
      rw [hnames, hfd, lookup_append, hlookup]
      simp
    · rw [hinodes, length_append, length_singleton]
      refine forall_mem_append.mpr ⟨fun i hi => ?_, ?_⟩
      · exact Nat.lt_succ_of_lt (h.bound i hi)
      · exact forall_mem_singleton.mpr (Nat.lt_succ_self _)
    · have hfiles : contents (threadWalRotate disk twal).1 files = contents disk files := by
        refine flatMap_congr fun i hi => ?_
        rw [hinodes, getD_eq_getElem?_getD, getElem?_append_left (h.bound i hi),
          ← getD_eq_getElem?_getD]
      have hlast : contents (threadWalRotate disk twal).1 [disk.inodes.length] = [] := by
        rw [contents, hinodes]
        simp
      rw [contents, flatMap_append, ← contents, ← contents, hfiles, hlast, append_nil]
      exact h.bytes

theorem QueueOk.noteFile_eq (h : QueueOk disk twal files) : noteFile files twal.fd = files := by
  obtain ⟨earlier, rfl, -⟩ := h.last
  exact if_pos (mem_append_right _ (mem_singleton_self _))

def QueueInv (thread : Nat) (s : ThreadQueue) : Prop :=
  ∃ twal, s.manager.threads[thread]? = some twal ∧ QueueOk s.manager.disk twal s.files

theorem QueueInv.update (isOpen : Bool) (hlt : thread < manager.threads.length)
    (h : QueueOk result.1 result.2 files) :
    QueueInv thread ⟨manager.update thread result, isOpen, files⟩ :=
  ⟨result.2, getElem?_set_self hlt, h⟩

theorem threadWalWrite_update {record : WalRecord} (clock : UInt64)
    (h : QueueOk manager.disk twal files) (hallowed : (!needsRotation twal record ||
      !manager.sealedLimitReached && opensInOrder manager.disk twal)) :
    ∃ (base : WalManager) (result : WalDisk × ThreadWal),
      threadWalWrite manager thread twal record clock = base.update thread result ∧
        base.threads.length = manager.threads.length ∧
        QueueOk result.1 result.2 (noteFile files result.2.fd) := by
  unfold threadWalWrite
  cases hfull : needsRotation twal record with
  | false =>
    exact ⟨manager, _, if_neg Bool.false_ne_true, rfl, (h.noteFile_eq.symm ▸ h).append record⟩
  | true =>
    rw [hfull, Bool.not_true, Bool.false_or, Bool.and_eq_true, Bool.not_eq_true'] at hallowed
    have hrotated := h.flush.rotate ((opensInOrder_flush _ _).trans hallowed.2)
    have hlimit : ¬ (manager.update thread (flushBuffer manager.disk twal)).sealedLimitReached :=
      ne_true_of_eq_false hallowed.1
    refine ⟨_, _, (if_pos rfl).trans (if_neg hlimit), ?_, ?_⟩
    · exact length_set
    · exact hrotated.append record

theorem QueueInv.step {s s' : ThreadQueue} {a : QueueAction} (h : QueueInv thread s)
    (hallowed : rotatesInOrder thread s a) (hs : queueStep thread s a = some s') :
    QueueInv thread s' := by
  obtain ⟨twal, hthread, hok⟩ := h
  have hlt : thread < s.manager.threads.length := (List.getElem?_eq_some_iff.mp hthread).1
  cases a with
  | write record clock =>
    rw [queueStep, hthread, bind_some, ite_none_right_eq_some] at hs
    rw [rotatesInOrder, hthread, all_some] at hallowed
    obtain ⟨base, result, hwrite, hlength, hresult⟩ := threadWalWrite_update clock hok hallowed
    have htwal : (base.update thread result).threads[thread]? = some result.2 :=
      getElem?_set_self (hlength.symm ▸ hlt)
    rw [hwrite, htwal, map_some] at hs
    obtain rfl := some.inj hs.2
    exact ⟨_, htwal, hresult⟩
  | flush =>
    rw [queueStep, hthread, bind_some, ite_none_right_eq_some] at hs
    obtain rfl := some.inj hs.2
    exact .update _ hlt hok.flush
  | sealFile =>
    rw [queueStep, hthread, bind_some, ite_none_right_eq_some] at hs
    obtain rfl := some.inj hs.2
    have hflushed := hok.flush
    exact .update false hlt ⟨hflushed.named, hflushed.last, hflushed.bound, hflushed.bytes,
      hflushed.room, hflushed.buffered⟩

end Steps

/-- As long as every rotation opens a new file, or the current one again, the files of a thread and
its buffer hold its records in the order of the calls. -/
theorem wal_queue_faithful (manager : WalManager) (thread : Nat) (twal : ThreadWal)
    (hthread : manager.threads[thread]? = some twal)
    (hnamed : manager.disk.names.lookup twal.filePath = some twal.fd)
    (hfile : manager.disk.inodes[twal.fd]? = some []) (hbuffer : twal.entryBuf = [])
    (haccepted : twal.accepted = []) (s : ThreadQueue)
    (hs : Reaches (queueStep thread) (rotatesInOrder thread) ⟨manager, true, [twal.fd]⟩ s) :
    s.Faithful thread := by
  have hstart : QueueInv thread ⟨manager, true, [twal.fd]⟩ := by
    refine ⟨twal, hthread, hnamed, ⟨[], rfl, nofun⟩, ?_, ?_, ?_, fun _ => hbuffer⟩
    · exact forall_mem_singleton.mpr (List.getElem?_eq_some_iff.mp hfile).1
    · simp [contents, hfile, hbuffer, haccepted]
    · simp [hbuffer]
  obtain ⟨twal', hthread', hok⟩ : QueueInv thread s :=
    hs.invariant _ hstart fun _ _ _ h hallowed hstep => h.step hallowed hstep
  intro twal'' hthread''
  obtain rfl := some.inj (hthread'.symm.trans hthread'')
  exact ⟨hok.bytes, hok.room⟩

def secondRecord (second : UInt64) (b : UInt8) : WalRecord := ⟨walPut, ⟨second, 0, 0⟩, [b]⟩

def oneRecordManager : WalManager := openThread (walManagerCreate ⟨60, 0, false⟩ emptyDisk) 1

/-- One record to a file, in three seconds. -/
theorem queue_of_three_files :
    ∃ s, Reaches (queueStep 0) (rotatesInOrder 0) ⟨oneRecordManager, true, [0]⟩ s ∧
      s.files = [0, 1, 2] ∧ s.Faithful 0 := by
  exact exists_reaches_and [.write (secondRecord 5 1) 0, .write (secondRecord 6 2) 0, .flush,
    .sealFile, .write (secondRecord 7 3) 0] (by decide +kernel)
    (wal_queue_faithful oneRecordManager 0 _ rfl (by decide) (by decide) rfl rfl)

/-- The name of a rotated file comes back with the second: records of the seconds 5, 6, 5 and 7 end
in the order 5, 6, 7, 5. -/
theorem rotation_reopens_older_file :
    ∃ s, Reaches (queueStep 0) always ⟨oneRecordManager, true, [0]⟩ s ∧ ¬ s.Faithful 0 := by
  obtain ⟨s, hs, hmixed⟩ : ∃ s : ThreadQueue,
      Reaches (queueStep 0) always ⟨oneRecordManager, true, [0]⟩ s ∧
      ((s.manager.threads[0]?).any fun twal : ThreadWal =>
        decide (contents s.manager.disk s.files ++ twal.entryBuf ≠
          twal.accepted.flatMap encodeWalRecord)) = true :=
    exists_reaches [.write (secondRecord 5 1) 0, .write (secondRecord 6 2) 0,
      .write (secondRecord 5 3) 0, .write (secondRecord 7 4) 0, .flush] (by decide +kernel)
  refine ⟨s, hs, fun hfaithful => ?_⟩
  obtain ⟨twal, htwal, hne⟩ := (any_eq_true _ _).mp hmixed
  exact of_decide_eq_true hne (hfaithful twal htwal).1

end WaveDB.Database
