import WaveDB.Database.Encryption

/-!
Appending to a torn WAL file (`create_thread_wal`, `thread_wal_write` and `read_wal_file` in
`Database/wal_manager.c`).

A crash during an append leaves whole records and a part of one more. `create_thread_wal` opens
the file for appending without looking at its end, so the next record starts behind the torn one,
while `read_wal_file` takes the torn header for a record's and never gets to that place.
-/

namespace WaveDB.Database

open WaveDB.Basis Workers HBTrie List Prod

/-! ### Entries with their places -/

/-- `recovery_entry_t` with the record as it is stored. -/
structure WalEntry where
  offset : Nat
  stored : WalRecord
  opened : WalRecord
deriving DecidableEq

/-- The loop of `read_wal_file` along the stored records, with its cursor. -/
def walEntries (encryption : Option Cipher) : Nat → List WalRecord → List WalEntry
  | _, [] => []
  | cursor, stored :: rest =>
    match unsealRecord encryption stored with
    | some opened =>
      ⟨cursor, stored, opened⟩ :: walEntries encryption (cursor + (33 + stored.data.length)) rest
    | none => []

variable (encryption : Option Cipher)

def readWalEntries (content : Bytes) : List WalEntry :=
  walEntries encryption 0 (storedRecords content)

/-- Where `thread_wal_write` puts the records, from an offset on. -/
def writtenEntries (encryption : Option Cipher) : Nat → List WalRecord → List WalEntry
  | _, [] => []
  | offset, record :: rest =>
    ⟨offset, sealRecord encryption record, record⟩ ::
      writtenEntries encryption (offset + (33 + (sealRecord encryption record).data.length)) rest

def walBytes (records : List WalRecord) : Bytes :=
  (records.map (sealRecord encryption)).flatMap encodeWalRecord

/-- The record can be stored, as every record can that `thread_wal_write` accepts: its payload has
a length of 32 bits, and without a context it is not taken for an encrypted one. -/
def Storable (record : WalRecord) : Prop :=
  (sealRecord encryption record).data.length < 2 ^ 32 ∧
    (encryption = none → record.type ≠ walEncryptedMagic)

/-! ### Reading -/

variable {rest : Bytes} {record : WalRecord} {records : List WalRecord} {cursor : Nat}
  {manager : WalManager}

section Reading

variable {encryption : Option Cipher} {kept n offset : Nat} {bytes more : Bytes} {entry : WalEntry}
  {next : WalRecord}

theorem length_of_readBytes {out : Bytes} (h : readBytes n bytes = some (out, rest)) :
    bytes.length = n + rest.length := by
  simp only [readBytes, Option.ite_none_right_eq_some] at h
  obtain ⟨hle, -, rfl⟩ := h
  rw [length_drop]
  omega

theorem length_of_readUint {width : Nat} (h : readUint width bytes = some (n, rest)) :
    bytes.length = width + rest.length := by
  obtain ⟨out, hread, -⟩ := map_eq_some_reader.mp h
  exact length_of_readBytes hread

section Whole

variable (h : readStoredRecord bytes = some (record, rest))

include h

/-- A turn of the loop takes the header and the payload. -/
theorem length_of_readStoredRecord : bytes.length = 33 + record.data.length + rest.length := by
  obtain ⟨type, b1, htype, h⟩ := bind_eq_some_reader.mp h
  obtain ⟨txnId, b2, htxn, h⟩ := bind_eq_some_reader.mp h
  obtain ⟨crc, b3, hcrc, h⟩ := bind_eq_some_reader.mp h
  obtain ⟨dataLen, b4, hlen, h⟩ := bind_eq_some_reader.mp h
  obtain ⟨data, b5, hdata, h⟩ := bind_eq_some_reader.mp h
  obtain ⟨time, c1, htime, htxn⟩ := bind_eq_some_reader.mp htxn
  obtain ⟨nanos, c2, hnanos, htxn⟩ := bind_eq_some_reader.mp htxn
  obtain ⟨count, c3, hcount, htxn⟩ := bind_eq_some_reader.mp htxn
  have hl1 := length_of_readUint htype
  have hl2 := length_of_readUint htime
  have hl3 := length_of_readUint hnanos
  have hl4 := length_of_readUint hcount
  have hl5 := length_of_readUint hcrc
  have hl6 := length_of_readUint hlen
  have hl7 := length_of_readBytes hdata
  have hl8 := readBytes_length hdata
  cases htxn
  split at h
  · cases h
    simp only at *
    omega
  · cases h

theorem readStoredRecord_shorter : rest.length < bytes.length := by
  have hlen := length_of_readStoredRecord h
  omega

theorem storedRecords_of_read : storedRecords bytes = record :: storedRecords rest := by
  have hlt := readStoredRecord_shorter h
  obtain ⟨fuel, hfuel⟩ : ∃ k, bytes.length = k + 1 := Nat.exists_eq_add_one.mpr (by omega)
  rw [storedRecords, hfuel, readWhile, h]
  exact congrArg (record :: ·) (readWhile_fuel (fun _ _ _ hread => readStoredRecord_shorter hread)
    (by omega) le_rfl)

end Whole

theorem storedRecords_of_none (h : readStoredRecord bytes = none) : storedRecords bytes = [] := by
  rw [storedRecords]
  cases bytes.length <;> simp [readWhile, h]

theorem unsealRecord_sealRecord_iff :
    unsealRecord encryption (sealRecord encryption record) = some record ↔
      (encryption = none → record.type ≠ walEncryptedMagic) := by
  cases encryption with
  | some cipher => simp [sealRecord, unsealRecord, cipher.decrypt_encrypt]
  | none =>
    rw [sealRecord, unsealRecord]
    by_cases htype : record.type = walEncryptedMagic
    · simp
    · simp

theorem walBytes_cons (record : WalRecord) (records : List WalRecord) :
    walBytes encryption (record :: records) =
      encodeWalRecord (sealRecord encryption record) ++ walBytes encryption records := by
  rfl

/-- Whole records are read, and then what follows them. -/
theorem walEntries_walBytes_append (h : ∀ record ∈ records, Storable encryption record)
    (cursor : Nat) (tail : Bytes) :
    walEntries encryption cursor (storedRecords (walBytes encryption records ++ tail)) =
      writtenEntries encryption cursor records ++
        walEntries encryption (cursor + (walBytes encryption records).length)
          (storedRecords tail) := by
  induction records generalizing cursor with
  | nil => rfl
  | cons record records ih =>
    have hfirst := h record mem_cons_self
    have hread := reads_storedRecord hfirst.1 (walBytes encryption records ++ tail)
    have hopen := unsealRecord_sealRecord_iff.mpr hfirst.2
    have hrest := ih (fun r hr => h r (mem_cons_of_mem _ hr))
    rw [walBytes_cons, append_assoc, storedRecords_of_read hread, walEntries, hopen]
    simp only [hrest, writtenEntries, cons_append, length_append,
      encodeWalRecord_length, Nat.add_assoc]

/-- The entries behind the first one have later offsets. -/
theorem le_offset_of_mem_walEntries (h : entry ∈ walEntries encryption cursor records) :
    cursor ≤ entry.offset := by
  induction records generalizing cursor with
  | nil => cases h
  | cons stored rest ih =>
    rw [walEntries] at h
    split at h
    · rcases mem_cons.mp h with rfl | hrest
      · exact le_rfl
      · exact (Nat.le_add_right _ _).trans (ih hrest)
    · cases h

theorem le_offset_of_mem_writtenEntries (h : entry ∈ writtenEntries encryption offset records) :
    offset ≤ entry.offset := by
  induction records generalizing offset with
  | nil => cases h
  | cons record rest ih =>
    rcases mem_cons.mp h with rfl | hrest
    · exact le_rfl
    · exact (Nat.le_add_right _ _).trans (ih hrest)

theorem offset_lt_of_mem_writtenEntries (h : entry ∈ writtenEntries encryption offset records) :
    entry.offset < offset + (walBytes encryption records).length := by
  induction records generalizing offset with
  | nil => cases h
  | cons record rest ih =>
    rw [walBytes_cons, length_append, encodeWalRecord_length]
    rcases mem_cons.mp h with rfl | hrest
    · simp only
      omega
    · have hlt := ih hrest
      omega

theorem mem_walEntries_cons {stored : WalRecord} {rest : List WalRecord}
    (h : entry ∈ walEntries encryption cursor (stored :: rest)) :
    (∃ opened, unsealRecord encryption stored = some opened ∧ entry = ⟨cursor, stored, opened⟩) ∨
      entry ∈ walEntries encryption (cursor + (33 + stored.data.length)) rest := by
  rw [walEntries] at h
  split at h
  · rename_i opened hopen
    rcases mem_cons.mp h with rfl | hrest
    · exact .inl ⟨opened, hopen, rfl⟩
    · exact .inr hrest
  · cases h

/-- A record that is read where a torn one begins reaches beyond the torn part. -/
theorem lt_of_readStoredRecord_torn {found : WalRecord} (hnext : next.data.length < 2 ^ 32)
    (hkept : kept < (encodeWalRecord next).length)
    (h : readStoredRecord ((encodeWalRecord next).take kept ++ more) = some (found, rest)) :
    kept < 33 + found.data.length := by
  rw [encodeWalRecord_length] at hkept
  by_cases hheader : kept < 33
  · omega
  · obtain ⟨k, rfl⟩ := Nat.exists_eq_add_of_le (Nat.not_lt.mp hheader)
    have htake : (encodeWalRecord next).take (33 + k) ++ more =
        walHeader next ++ (next.data.take k ++ more) := by
      rw [encodeWalRecord_eq, ← walHeader_length next, take_length_add_append, append_assoc]
    rw [htake] at h
    have hlen := readStoredRecord_header h
    omega

theorem offset_ne_of_torn (hnext : next.data.length < 2 ^ 32)
    (hkept : kept < (encodeWalRecord next).length) (htorn : kept ≠ 0)
    (h : entry ∈ walEntries encryption cursor (storedRecords ((encodeWalRecord next).take kept ++
      more))) : entry.offset ≠ cursor + kept := by
  cases hread : readStoredRecord ((encodeWalRecord next).take kept ++ more) with
  | none =>
    rw [storedRecords_of_none hread] at h
    cases h
  | some result =>
    have hbeyond := lt_of_readStoredRecord_torn hnext hkept hread
    rw [storedRecords_of_read hread] at h
    rcases mem_walEntries_cons h with ⟨opened, -, rfl⟩ | hrest
    · intro heq
      simp only at heq
      omega
    · have hle := le_offset_of_mem_walEntries hrest
      omega

theorem storable_of_read (h : ∀ entry ∈ writtenEntries encryption cursor records,
      entry ∈ walEntries encryption cursor (storedRecords (walBytes encryption records))) :
    ∀ record ∈ records, Storable encryption record := by
  induction records generalizing cursor with
  | nil =>
    intro record hrecord
    cases hrecord
  | cons record records ih =>
    have hown := h _ (mem_cons_self)
    rw [walBytes_cons] at hown h
    cases hread : readStoredRecord
        (encodeWalRecord (sealRecord encryption record) ++ walBytes encryption records) with
    | none =>
      rw [storedRecords_of_none hread] at hown
      cases hown
    | some result =>
      obtain ⟨found, rest⟩ := result
      rw [storedRecords_of_read hread] at hown h
      -- the record's own entry is the first one
      have hfirst : found = sealRecord encryption record ∧
          unsealRecord encryption found = some record := by
        rcases mem_walEntries_cons hown with ⟨opened, hopen, heq⟩ | hlater
        · cases heq
          exact ⟨rfl, hopen⟩
        · have hle := le_offset_of_mem_walEntries hlater
          simp only at hle
          omega
      obtain ⟨rfl, hopen⟩ := hfirst
      have hlen : (sealRecord encryption record).data.length < 2 ^ 32 := by
        have hmod : (sealRecord encryption record).data.length =
            (sealRecord encryption record).data.length % 256 ^ 4 := by
          refine @readStoredRecord_header _ _
            ((sealRecord encryption record).data ++ walBytes encryption records) rest ?_
          rw [encodeWalRecord] at hread
          simp only [append_assoc] at hread
          exact hread
        omega
      have hrest : rest = walBytes encryption records := by
        have hwhole := reads_storedRecord hlen (walBytes encryption records)
        rw [hread] at hwhole
        exact congrArg snd (Option.some.inj hwhole)
      have hstorable : Storable encryption record := ⟨hlen, unsealRecord_sealRecord_iff.mp hopen⟩
      intro r hr
      rcases mem_cons.mp hr with rfl | hr
      · exact hstorable
      · refine @ih (cursor + (33 + (sealRecord encryption record).data.length)) ?_ r hr
        intro entry hentry
        have hoffset := le_offset_of_mem_writtenEntries hentry
        rcases mem_walEntries_cons (h entry (mem_cons_of_mem _ hentry)) with
          ⟨opened, -, rfl⟩ | hlater
        · simp only at hoffset
          omega
        · rwa [hrest] at hlater

/-- A file that was torn while `next` was appended. -/
def tornFile (encryption : Option Cipher) (before : List WalRecord) (next : WalRecord)
    (kept : Nat) : Bytes :=
  walBytes encryption before ++ (encodeWalRecord (sealRecord encryption next)).take kept

/-- `read_wal_file` returns all records, each from where it was written: the complete ones before
the crash and the later ones behind the torn part. -/
def ReturnsAll (encryption : Option Cipher) (before after : List WalRecord) (kept : Nat)
    (content : Bytes) : Prop :=
  (∀ entry ∈ writtenEntries encryption 0 before, entry ∈ readWalEntries encryption content) ∧
    ∀ entry ∈ writtenEntries encryption ((walBytes encryption before).length + kept) after,
      entry ∈ readWalEntries encryption content

theorem returnsAll_iff {before after : List WalRecord}
    (hbefore : ∀ record ∈ before, Storable encryption record) (hnext : Storable encryption next)
    (hkept : kept < (encodeWalRecord (sealRecord encryption next)).length) :
    ReturnsAll encryption before after kept
        (tornFile encryption before next kept ++ walBytes encryption after) ↔
      (kept = 0 ∨ after = []) ∧ ∀ record ∈ after, Storable encryption record := by
  have hread : readWalEntries encryption
      (tornFile encryption before next kept ++ walBytes encryption after) =
        writtenEntries encryption 0 before ++
          walEntries encryption (walBytes encryption before).length (storedRecords
            ((encodeWalRecord (sealRecord encryption next)).take kept ++
              walBytes encryption after)) := by
    rw [readWalEntries, tornFile, append_assoc, walEntries_walBytes_append hbefore, Nat.zero_add]
  rw [ReturnsAll, hread]
  -- a later record can only be found behind the records before the crash
  have hlater : ∀ entry ∈ writtenEntries encryption ((walBytes encryption before).length + kept)
      after, entry ∉ writtenEntries encryption 0 before := by
    intro entry hentry hearly
    have hle := le_offset_of_mem_writtenEntries hentry
    have hlt := offset_lt_of_mem_writtenEntries hearly
    omega
  constructor
  · rintro ⟨-, hafter⟩
    have hbehind := fun entry hentry =>
      (mem_append.mp (hafter entry hentry)).resolve_left (hlater entry hentry)
    by_cases htorn : kept = 0
    · subst htorn
      exact ⟨.inl rfl, storable_of_read hbehind⟩
    · cases after with
      | nil =>
        refine ⟨.inr rfl, ?_⟩
        intro record hrecord
        cases hrecord
      | cons record after =>
        have hown := hbehind _ mem_cons_self
        exact absurd rfl (offset_ne_of_torn hnext.1 hkept htorn hown)
  · rintro ⟨hcase, hstorable⟩
    refine ⟨fun entry hentry => mem_append_left _ hentry, fun entry hentry => ?_⟩
    rcases hcase with rfl | rfl
    · have hwhole := walEntries_walBytes_append hstorable (walBytes encryption before).length []
      rw [append_nil] at hwhole
      rw [take_zero, nil_append, hwhole]
      exact mem_append_right _ (mem_append_left _ hentry)
    · cases hentry

end Reading

/-! ### Writing -/

section Writing

variable {encryption : Option Cipher} {content path : Bytes} {thread : Nat}
  {records : List (WalRecord × UInt64)} {threadId : UInt64}

/-- `create_thread_wal` for a thread; its WAL is the last of the manager. -/
def openThread (manager : WalManager) (threadId : UInt64) : WalManager :=
  { manager with
    disk := (createThreadWal manager.config manager.disk threadId).1
    threads := manager.threads ++ [(createThreadWal manager.config manager.disk threadId).2] }

/-- `thread_wal_write` of one record after the other, each with the second of the clock. -/
def writeRecords (encryption : Option Cipher) (thread : Nat) :
    WalManager → List (WalRecord × UInt64) → WalManager
  | manager, [] => manager
  | manager, (record, clock) :: rest =>
    match manager.threads[thread]? with
    | some twal =>
      writeRecords encryption thread
        (threadWalWrite manager thread twal (sealRecord encryption record) clock) rest
    | none => manager

def flushThread (manager : WalManager) (thread : Nat) : WalManager :=
  match manager.threads[thread]? with
  | some twal => manager.update thread (flushBuffer manager.disk twal)
  | none => manager

/-- The thread appends to the file: behind `old`, the file and the buffer hold `done`. -/
structure Appending (names : List (Bytes × Nat)) (inode limit : Nat) (old done : Bytes)
    (disk : WalDisk) (twal : ThreadWal) : Prop where
  names : disk.names = names
  fd : twal.fd = inode
  maxSize : twal.maxSize = limit
  content : ∃ content, disk.inodes[inode]? = some content ∧ content ++ twal.entryBuf = old ++ done
  size : twal.currentSize + twal.entryBuf.length = done.length
  buffered : twal.batchCount = 0 → twal.entryBuf = []

variable {names : List (Bytes × Nat)} {inode limit : Nat} {old done : Bytes} {disk : WalDisk}
  {twal : ThreadWal}

theorem append_content (h : disk.inodes[inode]? = some content) (data : Bytes) :
    (disk.append inode data).inodes[inode]? = some (content ++ data) := by
  rw [WalDisk.append, getElem?_modify_eq, h]
  rfl

section Appended

variable (h : Appending names inode limit old done disk twal)

include h

theorem Appending.of_moves {more : Bytes} {result : WalDisk × ThreadWal}
    (hmoves : Moves disk twal more result) :
    Appending names inode limit old (done ++ more) result.1 result.2 := by
  obtain ⟨data, hdisk, hbytes, hsize⟩ := hmoves.bytes
  obtain ⟨content, hcontent, hold⟩ := h.content
  refine ⟨hdisk ▸ h.names, hmoves.fd.trans h.fd, hmoves.maxSize.trans h.maxSize,
    ⟨content ++ data, ?_, ?_⟩, ?_, hmoves.buffered⟩
  · rw [hdisk, h.fd]
    exact append_content hcontent data
  · rw [append_assoc, hbytes, ← append_assoc, hold, append_assoc]
  · have hlength := congrArg length hbytes
    have hdone := h.size
    simp only [length_append] at hlength ⊢
    omega

theorem Appending.append (record : WalRecord) :
    Appending names inode limit old (done ++ encodeWalRecord record)
      (appendRecord disk twal record).1 (appendRecord disk twal record).2 :=
  h.of_moves (appendRecord_moves disk h.buffered record)

end Appended

/-- While the file has room, every record goes to it. -/
theorem Appending.writeRecords (h : Appending names inode limit old done manager.disk twal)
    (hthread : manager.threads[thread]? = some twal)
    (hroom : done.length + (walBytes encryption (records.map fst)).length < limit) :
    ∃ twal', (writeRecords encryption thread manager records).threads[thread]? = some twal' ∧
      Appending names inode limit old (done ++ walBytes encryption (records.map fst))
        (writeRecords encryption thread manager records).disk twal' := by
  induction records generalizing manager twal done with
  | nil =>
    refine ⟨twal, hthread, ?_⟩
    rw [show walBytes encryption (([] : List (WalRecord × UInt64)).map fst) = [] from rfl,
      append_nil]
    exact h
  | cons entry rest ih =>
    obtain ⟨record, clock⟩ := entry
    rw [map_cons, walBytes_cons, length_append] at hroom
    simp only at hroom
    have hfits : needsRotation twal (sealRecord encryption record) = false := by
      have hsize := h.size
      rw [needsRotation, h.maxSize, decide_eq_false_iff_not]
      omega
    have hwrite : threadWalWrite manager thread twal (sealRecord encryption record) clock =
        manager.update thread
          (appendRecord manager.disk twal (sealRecord encryption record)) := by
      rw [threadWalWrite, hfits]
      rfl
    have hplace : thread < manager.threads.length := (List.getElem?_eq_some_iff.mp hthread).1
    have hnext := h.append (sealRecord encryption record)
    obtain ⟨twal', hthread', happending⟩ := @ih
      (manager.update thread (appendRecord manager.disk twal (sealRecord encryption record))) _ _
      hnext (by rw [WalManager.update, getElem?_set_self hplace])
      (by rw [length_append]; omega)
    rw [Database.writeRecords, hthread]
    simp only [hwrite]
    rw [append_assoc] at happending
    exact ⟨twal', hthread', happending⟩

theorem appending_openThread
    (hname : manager.disk.names.lookup (threadWalPath manager.disk.location threadId) = some inode)
    (hfile : manager.disk.inodes[inode]? = some old) :
    ∃ twal, (openThread manager threadId).threads[manager.threads.length]? = some twal ∧
      Appending manager.disk.names inode manager.config.maxFileSize old []
        (openThread manager threadId).disk twal := by
  have hopen : manager.disk.openAppend (threadWalPath manager.disk.location threadId) =
      (manager.disk, inode) := by
    rw [WalDisk.openAppend]
    split
    · rename_i found hlookup
      rw [hname] at hlookup
      cases hlookup
      rfl
    · rename_i hlookup
      rw [hname] at hlookup
      cases hlookup
  refine ⟨_, getElem?_concat_length, ?_⟩
  constructor
  · rw [openThread, createThreadWal, hopen]
    rfl
  · rw [createThreadWal, hopen]
  · rfl
  · refine ⟨old, ?_, rfl⟩
    rw [openThread, createThreadWal, hopen]
    exact hfile
  · rfl
  · intro _
    rfl

theorem content_of_lookup (hname : disk.names.lookup path = some inode)
    (hfile : disk.inodes[inode]? = some content) : disk.directory.content path = content := by
  have hlookup (names : List (Bytes × Nat)) :
      (names.map fun name => (name.1, disk.inodes.getD name.2 [])).lookup path =
        (names.lookup path).map fun inode => disk.inodes.getD inode [] := by
    induction names with
    | nil => rfl
    | cons name rest ih =>
      rw [map_cons, lookup_cons, lookup_cons, ih]
      split <;> rfl
  rw [WalDirectory.content, WalDisk.directory, hlookup, hname, Option.map_some, Option.getD_some,
    getD_eq_getElem?_getD, hfile]
  rfl

/-- What the file holds when further records were written and flushed. -/
theorem Appending.flushedContent (h : Appending names inode limit old done manager.disk twal)
    (hthread : manager.threads[thread]? = some twal)
    (hname : manager.disk.names.lookup path = some inode)
    (hroom : done.length + (walBytes encryption (records.map fst)).length < limit) :
    (flushThread (Database.writeRecords encryption thread manager records)
      thread).disk.directory.content path =
      old ++ (done ++ walBytes encryption (records.map fst)) := by
  obtain ⟨twal', hthread', happending⟩ := h.writeRecords hthread hroom
  obtain ⟨hmoves, hempty⟩ := flushBuffer_moves _ happending.buffered
  have hflushed := happending.of_moves hmoves
  rw [append_nil] at hflushed
  obtain ⟨content, hcontent, hbytes⟩ := hflushed.content
  rw [hempty, append_nil] at hbytes
  have hlookup := (hflushed.names.trans h.names.symm) ▸ hname
  rw [flushThread, hthread']
  exact (content_of_lookup hlookup hcontent).trans hbytes

theorem content_writeRecords
    (hname : manager.disk.names.lookup (threadWalPath manager.disk.location threadId) = some inode)
    (hfile : manager.disk.inodes[inode]? = some old)
    (hroom : (walBytes encryption (records.map fst)).length < manager.config.maxFileSize) :
    (flushThread (writeRecords encryption manager.threads.length (openThread manager threadId)
      records) manager.threads.length).disk.directory.content
        (threadWalPath manager.disk.location threadId) =
      old ++ walBytes encryption (records.map fst) := by
  obtain ⟨twal, hthread, happending⟩ := appending_openThread hname hfile
  exact happending.flushedContent hthread (happending.names ▸ hname)
    (show ([] : Bytes).length + _ < _ by rwa [length_nil, Nat.zero_add])

end Writing

/-- A torn file is opened again and further records go to it: every record is read back from where
it was written exactly if nothing was torn or nothing follows, and the later records can be
stored. -/
theorem torn_tail_iff (encryption : Option Cipher) (manager : WalManager) (threadId : UInt64)
    (inode : Nat) (before : List WalRecord) (next : WalRecord) (kept : Nat)
    (records : List (WalRecord × UInt64))
    (hname : manager.disk.names.lookup (threadWalPath manager.disk.location threadId) = some inode)
    (hfile : manager.disk.inodes[inode]? = some (tornFile encryption before next kept))
    (hbefore : ∀ record ∈ before, Storable encryption record) (hnext : Storable encryption next)
    (hkept : kept < (encodeWalRecord (sealRecord encryption next)).length)
    (hroom : (walBytes encryption (records.map fst)).length < manager.config.maxFileSize) :
    ReturnsAll encryption before (records.map fst) kept
        ((flushThread (writeRecords encryption manager.threads.length
          (openThread manager threadId) records) manager.threads.length).disk.directory.content
            (threadWalPath manager.disk.location threadId)) ↔
      (kept = 0 ∨ records = []) ∧
        ∀ record ∈ records.map fst, Storable encryption record := by
  rw [content_writeRecords hname hfile hroom, returnsAll_iff hbefore hnext hkept, map_eq_nil_iff]

section Examples

def byteRecord (b : UInt8) : WalRecord := ⟨walPut, ⟨b.toUInt64, 0, 0⟩, [b]⟩

def managerWithFile (content : Bytes) : WalManager :=
  walManagerCreate ⟨131072, 0, true⟩
    { emptyDisk with
      inodes := [content]
      names := [(threadWalPath (ascii ['d']) 1, 0)]
      distinct := List.nodup_singleton _ }

theorem storable_byteRecord (b : UInt8) : Storable none (byteRecord b) :=
  ⟨Nat.one_lt_two_pow (by decide), fun _ => show walPut ≠ walEncryptedMagic by decide⟩

/-- Nothing was torn: both records are read back. -/
theorem untorn_tail_returns_all : ReturnsAll none [byteRecord 1] [byteRecord 2] 0
      ((flushThread (writeRecords none 0
        (openThread (managerWithFile (tornFile none [byteRecord 1] (byteRecord 1) 0)) 1)
        [(byteRecord 2, 0)]) 0).disk.directory.content (threadWalPath (ascii ['d']) 1)) := by
  refine (torn_tail_iff none (managerWithFile (tornFile none [byteRecord 1] (byteRecord 1) 0)) 1 0
    [byteRecord 1] (byteRecord 1) 0 [(byteRecord 2, 0)] (by decide) rfl ?_ (storable_byteRecord 1)
    (by decide) (by decide)).mpr ⟨.inl rfl, ?_⟩
  · exact forall_mem_singleton.mpr (storable_byteRecord 1)
  · exact forall_mem_singleton.mpr (storable_byteRecord 2)

/-- Five bytes of a torn record hide the record that is written after them. -/
theorem torn_tail_hides_record : readWalFileWith none ((flushThread (writeRecords none 0
      (openThread (managerWithFile (tornFile none [] (byteRecord 1) 5)) 1)
      [(byteRecord 2, 0)]) 0).disk.directory.content (threadWalPath (ascii ['d']) 1)) = [] := by
  decide

end Examples

end WaveDB.Database
