import WaveDB.Database.WalManager

/-!
Encryption at rest (`database_create_encrypted` in `Database/database.c`, `thread_wal_write`,
`read_wal_file` and `compact_wal_files` in `Database/wal_manager.c`, `page_file_write_node` in
`Storage/page_file.c`).

`database_create_encrypted` lets `database_create_with_config` open the page file and recover the
log, both without an encryption context, and then gives its context to the WAL manager alone.
`encryptedStep` is one step of such a database between its creation, crashes, closings and
reopenings with the same key. The cipher is any function that decryption inverts.
-/

namespace WaveDB.Database

open WaveDB.Basis Workers HBTrie List Option

/-! ### Sealed records -/

/-- `encryption_t`: `encryption_encrypt` and `encryption_decrypt` under one key. -/
structure Cipher where
  encrypt : Bytes → Bytes
  decrypt : Bytes → Option Bytes
  decrypt_encrypt : ∀ plain, decrypt (encrypt plain) = some plain

variable (encryption : Option Cipher) (disk : WalDisk)

/-- The record that `thread_wal_write` puts into a file. -/
def sealRecord (record : WalRecord) : WalRecord :=
  match encryption with
  | none => record
  | some cipher =>
    ⟨walEncryptedMagic, record.txnId, cipher.encrypt (record.type :: record.data)⟩

/-- The second half of a turn of `read_wal_file`: an encrypted payload is opened; `none` when the
loop breaks. -/
def unsealRecord (record : WalRecord) : Option WalRecord :=
  if record.type = walEncryptedMagic then
    match encryption.bind fun cipher => cipher.decrypt record.data with
    | some (type :: data) => some ⟨type, record.txnId, data⟩
    | _ => none
  else some record

def unsealRecords (encryption : Option Cipher) : List WalRecord → List WalRecord
  | [] => []
  | record :: rest =>
    match unsealRecord encryption record with
    | some opened => opened :: unsealRecords encryption rest
    | none => []

def storedRecords (content : Bytes) : List WalRecord :=
  readWhile readStoredRecord content.length content

def readWalFileWith (content : Bytes) : List WalRecord :=
  unsealRecords encryption (storedRecords content)

def WalDirectory.content (dir : WalDirectory) (path : Bytes) : Bytes :=
  (dir.files.lookup path).getD []

/-- The records that `wal_manager_recover` replays with a context. -/
def recoveredRecords (manifest : Bytes) (dir : WalDirectory) : List WalRecord :=
  (filesRead manifest dir).flatMap fun path => readWalFileWith encryption (dir.content path)

/-! ### The log -/

/-- A manager with its context. `written` records for each record that went to a file what it was
and what was written; no step reads it. -/
structure EncryptedWal where
  manager : WalManager
  encryption : Option Cipher
  written : List (WalRecord × WalRecord)

variable (wal : EncryptedWal)

def EncryptedWal.sealedRecords : List WalRecord :=
  ((sealedEntries wal.manager.disk.manifest).flatMap fun entry =>
    readWalFileWith wal.encryption
      (wal.manager.disk.directory.content entry.filePath)).insertionSort
      fun a b => a.txnId ≤ b.txnId

def EncryptedWal.compacts : Bool :=
  decide (wal.manager.disk.manifest.length ≤ manifestMaxEntries) &&
    !(sealedEntries wal.manager.disk.manifest).isEmpty

def EncryptedWal.compact (clock : UInt64) : EncryptedWal :=
  if wal.compacts then
    { wal with
      manager := { wal.manager with
        disk := compactTo wal.manager.disk (sealedEntries wal.manager.disk.manifest)
          wal.sealedRecords clock
        sealedCount := wal.manager.sealedCount - (sealedEntries wal.manager.disk.manifest).length }
      written := wal.written ++ wal.sealedRecords.map fun record => (record, record) }
  else wal

def EncryptedWal.put (record : WalRecord) (manager : WalManager) : EncryptedWal :=
  { wal with
    manager
    written := wal.written ++ [(record, sealRecord wal.encryption record)] }

def EncryptedWal.flushThread (thread : Nat) (twal : ThreadWal) : EncryptedWal :=
  { wal with manager := wal.manager.update thread (flushBuffer wal.manager.disk twal) }

def EncryptedWal.makeRoom (clock : UInt64) : EncryptedWal :=
  if wal.manager.sealedLimitReached then wal.compact clock else wal

/-- `thread_wal_write` where the record does not fit into the file: nothing is written when the
limit of sealed files is still reached. -/
def EncryptedWal.rotate (thread : Nat) (twal : ThreadWal) (record : WalRecord) : EncryptedWal :=
  if wal.manager.sealedLimitReached then wal
  else wal.put record (rotateAndAppend wal.manager thread twal (sealRecord wal.encryption record))

def EncryptedWal.write (thread : Nat) (twal : ThreadWal) (record : WalRecord) (clock : UInt64) :
    EncryptedWal :=
  if needsRotation twal (sealRecord wal.encryption record) then
    ((wal.flushThread thread twal).makeRoom clock).rotate thread
      (flushBuffer wal.manager.disk twal).2 record
  else wal.put record (wal.manager.update thread
    (appendRecord wal.manager.disk twal (sealRecord wal.encryption record)))

def sealThreads (threads : List ThreadWal) : WalDisk :=
  threads.foldl (fun disk twal =>
    (flushBuffer disk twal).1.writeManifestEntry twal.threadId twal.filePath .sealed
      twal.newestTxnId) disk

/-- `compact_wal_files(manager, 1)`: the sealed files are dropped. -/
def dropSealed : WalDisk :=
  if disk.manifest.length ≤ manifestMaxEntries then
    ((sealedEntries disk.manifest).foldl (fun disk entry =>
      disk.writeManifestEntry entry.threadId entry.filePath .compacted entry.newestTxnId)
        disk).unlink ((sealedEntries disk.manifest).map ManifestEntry.filePath)
  else disk

/-! ### The life of a database -/

inductive EncryptedPhase where
  | closed
  | created
  | attached
deriving DecidableEq

/-- What an opening replayed, and what the key opens. -/
structure ReplayEvent where
  replayed : List WalRecord
  intact : List WalRecord

/-- A database with its three contexts: that of the page file, that of the WAL manager and
`db->encryption`. `nodes` records each payload given to `page_file_write_node` with what went to
the file, `replays` what the openings replayed; no step reads them. -/
structure EncryptedDb where
  phase : EncryptedPhase
  encryption : Option Cipher
  pageEncryption : Option Cipher
  wal : EncryptedWal
  nodes : List (Bytes × Bytes)
  replays : List ReplayEvent

inductive EncryptedAction where
  | createWithConfig
  | attach
  | createThread (threadId : UInt64)
  | write (thread : Nat) (record : WalRecord) (clock : UInt64)
  | flushThread (thread : Nat)
  | compact (clock : UInt64)
  | writeNode (payload : Bytes)
  | close
  | crash (kept : Nat → Nat)

def sealNode (payload : Bytes) : Bytes :=
  match encryption with
  | none => payload
  | some cipher => cipher.encrypt payload

/-- `database_create_with_config` under `database_create_encrypted`: the fields of the new
database are cleared, so the page file, the WAL manager and recovery get no context. -/
def EncryptedDb.create (key : Cipher) (s : EncryptedDb) : EncryptedDb :=
  let disk := s.wal.manager.disk
  { s with
    phase := .created
    encryption := none
    pageEncryption := none
    wal := { s.wal with
      manager := walManagerCreate s.wal.manager.config disk
      encryption := none }
    replays := s.replays ++
      [⟨recoveredRecords none (manifestFile disk.manifest) disk.directory,
        recoveredRecords (some key) (manifestFile disk.manifest) disk.directory⟩] }

def EncryptedDb.onManager (s : EncryptedDb) (f : WalManager → WalManager) : EncryptedDb :=
  { s with wal := { s.wal with manager := f s.wal.manager } }

/-- One step; `none` when it cannot be taken. Writing, rotating and compacting need an open
database, opening a closed one. A crash keeps some part of each file. -/
def encryptedStep (key : Cipher) (s : EncryptedDb) : EncryptedAction → Option EncryptedDb
  | .createWithConfig => if s.phase = .closed then some (s.create key) else none
  | .attach =>
    if s.phase = .created then
      some { s with
        phase := .attached
        encryption := some key
        wal := { s.wal with encryption := some key } }
    else none
  | .createThread threadId =>
    if s.phase = .attached then
      some (s.onManager fun manager =>
        { manager with
          disk := (createThreadWal manager.config manager.disk threadId).1
          threads := manager.threads ++
            [(createThreadWal manager.config manager.disk threadId).2] })
    else none
  | .write thread record clock =>
    if s.phase = .attached then
      (s.wal.manager.threads[thread]?).map fun twal =>
        { s with wal := s.wal.write thread twal record clock }
    else none
  | .flushThread thread =>
    if s.phase = .attached then
      (s.wal.manager.threads[thread]?).map fun twal =>
        { s with wal := s.wal.flushThread thread twal }
    else none
  | .compact clock =>
    if s.phase = .attached then some { s with wal := s.wal.compact clock } else none
  | .writeNode payload =>
    if s.phase = .attached then
      some { s with nodes := s.nodes ++ [(payload, sealNode s.pageEncryption payload)] }
    else none
  | .close =>
    if s.phase = .attached then
      some ({ s with phase := .closed }.onManager fun manager =>
        walManagerCreate manager.config (dropSealed (sealThreads manager.disk manager.threads)))
    else none
  | .crash kept =>
    some ({ s with phase := .closed }.onManager fun manager =>
      walManagerCreate manager.config { manager.disk with
        inodes := manager.disk.inodes.mapIdx fun i (content : Bytes) => content.take (kept i) })

def newLocation (config : WalConfig) (disk : WalDisk) : EncryptedDb :=
  { phase := .closed, encryption := none, pageEncryption := none
    wal := { manager := walManagerCreate config disk, encryption := none, written := [] }
    nodes := [], replays := [] }

/-- Every payload has passed through the cipher, and every opening has replayed what is intact. -/
structure EncryptedDb.Protected (key : Cipher) (s : EncryptedDb) : Prop where
  nodes : ∀ node ∈ s.nodes, node.2 = key.encrypt node.1
  records : ∀ record ∈ s.wal.written, record.2 = sealRecord (some key) record.1
  replays : ∀ replay ∈ s.replays, replay.replayed = replay.intact

def noEncryptedRecord : Bool :=
  (filesRead (manifestFile disk.manifest) disk.directory).all fun path =>
    (storedRecords (disk.directory.content path)).all fun record =>
      decide (record.type ≠ walEncryptedMagic)

def EncryptedWal.nothingToCompact : Bool :=
  !wal.compacts || wal.sealedRecords.isEmpty

/-- No node is written, no compaction copies a record, and no opening finds an encrypted record. -/
def bypassesNothing (s : EncryptedDb) : EncryptedAction → Bool
  | .createWithConfig => noEncryptedRecord s.wal.manager.disk
  | .write thread record _ =>
    (s.wal.manager.threads[thread]?).all fun twal =>
      !needsRotation twal (sealRecord s.wal.encryption record) ||
        !s.wal.manager.sealedLimitReached || (s.wal.flushThread thread twal).nothingToCompact
  | .compact _ => s.wal.nothingToCompact
  | .writeNode _ => false
  | _ => true

/-! ### Reading with and without the context -/

/-- Without a context the loop is that of `readWalFile`. -/
theorem readWalFileWith_none (content : Bytes) :
    readWalFileWith none content = readWalFile content := by
  rw [readWalFileWith, storedRecords, readWalFile]
  generalize content.length = fuel
  induction fuel generalizing content with
  | zero => rfl
  | succ fuel ih =>
    rw [readWhile, readWhile, readWalRecord_eq]
    cases hread : readStoredRecord content with
    | none => rfl
    | some result =>
      rw [bind_some]
      rw [unsealRecords, unsealRecord]
      by_cases htype : result.1.type = walEncryptedMagic
      · rw [if_pos htype, if_pos htype]
        rfl
      · rw [if_neg htype, if_neg htype, ih]

/-- Where no record is encrypted the context makes no difference. -/
theorem unsealRecords_eq_self {encryption : Option Cipher} {records : List WalRecord}
    (h : ∀ record ∈ records, record.type ≠ walEncryptedMagic) :
    unsealRecords encryption records = records := by
  induction records with
  | nil => rfl
  | cons record rest ih =>
    rw [unsealRecords, unsealRecord, if_neg (h record mem_cons_self)]
    exact congrArg _ (ih fun r hr => h r (mem_cons_of_mem _ hr))

theorem recoveredRecords_eq {disk : WalDisk} (h : noEncryptedRecord disk)
    (first second : Option Cipher) :
    recoveredRecords first (manifestFile disk.manifest) disk.directory =
      recoveredRecords second (manifestFile disk.manifest) disk.directory := by
  refine flatMap_congr fun path hpath => ?_
  have hall := all_eq_true.mp (all_eq_true.mp h path hpath)
  have hplain : ∀ record ∈ storedRecords (disk.directory.content path),
      record.type ≠ walEncryptedMagic := fun record hr => of_decide_eq_true (hall record hr)
  rw [readWalFileWith, readWalFileWith, unsealRecords_eq_self hplain, unsealRecords_eq_self hplain]

/-! ### Runs -/

/-- The WAL manager of an open database has the key, and everything so far was protected. -/
structure EncryptedInv (key : Cipher) (s : EncryptedDb) : Prop where
  safe : s.Protected key
  attached : s.phase = .attached → s.wal.encryption = some key

section Runs

variable {key : Cipher} {s s' : EncryptedDb} {wal : EncryptedWal}

theorem EncryptedWal.compact_written (h : wal.nothingToCompact) (clock : UInt64) :
    (wal.compact clock).written = wal.written := by
  rw [compact]
  split
  · rename_i hcompacts
    rw [nothingToCompact, hcompacts, Bool.not_true, Bool.false_or, List.isEmpty_iff] at h
    rw [h, map_nil, append_nil]
  · rfl

theorem EncryptedWal.compact_encryption (wal : EncryptedWal) (clock : UInt64) :
    (wal.compact clock).encryption = wal.encryption := by
  rw [compact]
  split
  · rfl
  · rfl

theorem EncryptedWal.write_written {thread : Nat} {twal : ThreadWal} {record : WalRecord}
    (clock : UInt64) (h : (!needsRotation twal (sealRecord wal.encryption record) ||
      !wal.manager.sealedLimitReached || (wal.flushThread thread twal).nothingToCompact)) :
    (wal.write thread twal record clock).encryption = wal.encryption ∧
      ∀ written ∈ (wal.write thread twal record clock).written, written ∈ wal.written ∨
        written = (record, sealRecord wal.encryption record) := by
  -- what `put` adds
  have hput : ∀ (before : EncryptedWal) (manager : WalManager),
      before.encryption = wal.encryption → before.written = wal.written →
        (before.put record manager).encryption = wal.encryption ∧
          ∀ written ∈ (before.put record manager).written, written ∈ wal.written ∨
            written = (record, sealRecord wal.encryption record) := by
    intro before manager hencryption hwritten
    refine ⟨hencryption, ?_⟩
    intro written hmem
    rw [put, hwritten, hencryption] at hmem
    exact (mem_append.mp hmem).imp_right mem_singleton.mp
  rw [write]
  split
  · rename_i hrotation
    rw [hrotation, Bool.not_true, Bool.false_or] at h
    have hroom : ((wal.flushThread thread twal).makeRoom clock).encryption = wal.encryption ∧
        ((wal.flushThread thread twal).makeRoom clock).written = wal.written := by
      rw [makeRoom]
      split
      · rename_i hlimit
        have hlimit' : wal.manager.sealedLimitReached = true := hlimit
        rw [hlimit', Bool.not_true, Bool.false_or] at h
        exact ⟨compact_encryption _ clock, compact_written h clock⟩
      · exact ⟨rfl, rfl⟩
    rw [rotate]
    split
    · refine ⟨hroom.1, ?_⟩
      intro written hmem
      rw [hroom.2] at hmem
      exact .inl hmem
    · exact hput _ _ hroom.1 hroom.2
  · exact hput wal _ rfl rfl

/-- Nothing is written when only the files and threads of the manager change. -/
theorem EncryptedDb.Protected.onManager (h : s.Protected key) (phase : EncryptedPhase)
    (f : WalManager → WalManager) : ({ s with phase }.onManager f).Protected key :=
  ⟨h.nodes, h.records, h.replays⟩

theorem EncryptedInv.step {a : EncryptedAction} (h : EncryptedInv key s)
    (hallowed : bypassesNothing s a) (hs : encryptedStep key s a = some s') :
    EncryptedInv key s' := by
  cases a with
  | createWithConfig =>
    obtain ⟨-, ⟨⟩⟩ := ite_none_right_eq_some.mp hs
    refine ⟨⟨h.safe.nodes, h.safe.records, ?_⟩, nofun⟩
    intro replay hreplay
    rcases mem_append.mp hreplay with hreplay | hreplay
    · exact h.safe.replays replay hreplay
    · rw [bypassesNothing] at hallowed
      have hsame := recoveredRecords_eq hallowed none (some key)
      rw [mem_singleton.mp hreplay]
      rw [hsame]
  | attach =>
    obtain ⟨-, ⟨⟩⟩ := ite_none_right_eq_some.mp hs
    exact ⟨⟨h.safe.nodes, h.safe.records, h.safe.replays⟩, fun _ => rfl⟩
  | createThread threadId =>
    obtain ⟨-, ⟨⟩⟩ := ite_none_right_eq_some.mp hs
    exact ⟨h.safe.onManager s.phase _, h.attached⟩
  | write thread record clock =>
    obtain ⟨hphase, hs⟩ := ite_none_right_eq_some.mp hs
    obtain ⟨twal, htwal, rfl⟩ := map_eq_some_iff.mp hs
    rw [bypassesNothing, htwal, all_some] at hallowed
    obtain ⟨hencryption, hwritten⟩ := EncryptedWal.write_written clock hallowed
    have hkey := h.attached hphase
    refine ⟨⟨h.safe.nodes, ?_, h.safe.replays⟩, fun _ => hencryption.trans hkey⟩
    intro written hmem
    rcases hwritten written hmem with hmem | rfl
    · exact h.safe.records written hmem
    · rw [hkey]
  | flushThread thread =>
    obtain ⟨-, hs⟩ := ite_none_right_eq_some.mp hs
    obtain ⟨twal, -, rfl⟩ := map_eq_some_iff.mp hs
    exact ⟨⟨h.safe.nodes, h.safe.records, h.safe.replays⟩, h.attached⟩
  | compact clock =>
    obtain ⟨hphase, ⟨⟩⟩ := ite_none_right_eq_some.mp hs
    have hwritten := EncryptedWal.compact_written hallowed clock
    refine ⟨⟨h.safe.nodes, ?_, h.safe.replays⟩, ?_⟩
    · intro written hmem
      exact h.safe.records written (hwritten ▸ hmem)
    · intro _
      exact (EncryptedWal.compact_encryption _ clock).trans (h.attached hphase)
  | writeNode payload => cases hallowed
  | close =>
    obtain ⟨-, ⟨⟩⟩ := ite_none_right_eq_some.mp hs
    exact ⟨h.safe.onManager .closed _, nofun⟩
  | crash kept =>
    obtain rfl := some.inj hs
    exact ⟨h.safe.onManager .closed _, nofun⟩

end Runs

/-- Over the whole life of a database, from any directory, everything written is encrypted and
every opening replays what is intact, as long as no node is written, no compaction has a record to
copy and no opening finds an encrypted record. -/
theorem encrypted_at_rest (key : Cipher) (config : WalConfig) (disk : WalDisk) (s : EncryptedDb)
    (h : Reaches (encryptedStep key) bypassesNothing (newLocation config disk) s) :
    s.Protected key := by
  have hstart : EncryptedInv key (newLocation config disk) := by
    refine ⟨⟨?_, ?_, ?_⟩, nofun⟩
    · exact nofun
    · exact nofun
    · exact nofun
  have hinv : EncryptedInv key s := h.invariant _ hstart fun _ _ _ => EncryptedInv.step
  exact hinv.safe

def flipCipher : Cipher where
  encrypt plain := plain.map fun byte => byte ^^^ 255
  decrypt sealed := some (sealed.map fun byte => byte ^^^ 255)
  decrypt_encrypt := by
    intro plain
    rw [List.map_map, Option.some.injEq]
    refine (List.map_congr_left fun byte _ => ?_).trans plain.map_id
    change (byte ^^^ 255) ^^^ 255 = byte
    rw [UInt8.xor_assoc, UInt8.xor_self, UInt8.xor_zero]

def tinyLogFiles : WalConfig := ⟨60, 0, true⟩

def samplePut : WalRecord := ⟨walPut, ⟨1, 0, 0⟩, [7]⟩

def sampleDelete : WalRecord := ⟨walDelete, ⟨2, 0, 0⟩, [8]⟩

def writesTwoFiles : List EncryptedAction :=
  [.createWithConfig, .attach, .createThread 1, .write 0 samplePut 5, .write 0 sampleDelete 5]

theorem encrypted_at_rest_two_files :
    ∃ s, Reaches (encryptedStep flipCipher) bypassesNothing (newLocation tinyLogFiles emptyDisk) s ∧
      s.wal.written = [(samplePut, ⟨0xE1, ⟨1, 0, 0⟩, [143, 248]⟩),
        (sampleDelete, ⟨0xE1, ⟨2, 0, 0⟩, [155, 247]⟩)] ∧ s.Protected flipCipher := by
  exact exists_reaches_and writesTwoFiles (by decide +kernel)
    (encrypted_at_rest flipCipher tinyLogFiles emptyDisk)

/-- A node goes to the page file as it is; a compaction writes the put as it is; and after a crash
that loses nothing the next opening replays none of the records. The put is found twice because
recovery reads a sealed file once for each of its two manifest records. -/
theorem encryption_bypassed :
    (∃ s, Reaches (encryptedStep flipCipher) always (newLocation tinyLogFiles emptyDisk) s ∧
      s.nodes = [([1, 2], [1, 2])]) ∧
    (∃ s, Reaches (encryptedStep flipCipher) always (newLocation tinyLogFiles emptyDisk) s ∧
      s.wal.written.getLast? = some (samplePut, samplePut)) ∧
    ∃ s, Reaches (encryptedStep flipCipher) always (newLocation tinyLogFiles emptyDisk) s ∧
      s.replays.map ReplayEvent.replayed = [[], []] ∧
        s.replays.map ReplayEvent.intact = [[], [samplePut, samplePut, sampleDelete]] := by
  refine ⟨?_, ?_, ?_⟩
  · exact exists_reaches [.createWithConfig, .attach, .writeNode [1, 2]] (by decide +kernel)
  · exact exists_reaches (writesTwoFiles ++ [.compact 5]) (by decide +kernel)
  · exact exists_reaches (writesTwoFiles ++ [.crash fun _ => 1000, .createWithConfig])
      (by decide +kernel)

end WaveDB.Database
