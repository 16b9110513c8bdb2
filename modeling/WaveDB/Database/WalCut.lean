import WaveDB.Database.TornTail

/-!
WAL files that end inside a record (`read_wal_file` and `thread_wal_flush_buffer_locked` in
`Database/wal_manager.c`).
-/

namespace WaveDB.Database

open WaveDB.Basis Workers HBTrie List Option

/-- The records whose bytes lie wholly within the first `n` bytes of their file. -/
def wholeWithin : Nat → List WalRecord → List WalRecord
  | _, [] => []
  | n, record :: rest =>
    if (encodeWalRecord record).length ≤ n then
      record :: wholeWithin (n - (encodeWalRecord record).length) rest
    else []

section Cut

variable {records : List WalRecord} {n : Nat}

theorem wholeWithin_all (h : (records.flatMap encodeWalRecord).length ≤ n) :
    wholeWithin n records = records := by
  induction records generalizing n with
  | nil => rfl
  | cons record rest ih =>
    rw [flatMap_cons, length_append] at h
    rw [wholeWithin, if_pos (by omega), ih (by omega)]

/-- A cut before the end falls into the record behind the whole ones. -/
theorem wholeWithin_split (h : n < (records.flatMap encodeWalRecord).length) :
    ∃ next rest kept, records = wholeWithin n records ++ next :: rest ∧
      n = ((wholeWithin n records).flatMap encodeWalRecord).length + kept ∧
      kept < (encodeWalRecord next).length := by
  induction records generalizing n with
  | nil => cases h
  | cons record rest ih =>
    rw [wholeWithin]
    split
    · rename_i hle
      rw [flatMap_cons, length_append] at h
      obtain ⟨next, later, kept, hrest, hn, hkept⟩ :=
        @ih (n - (encodeWalRecord record).length) (by omega)
      refine ⟨next, later, kept, ?_, ?_, hkept⟩
      · rw [cons_append, ← hrest]
      · rw [flatMap_cons, length_append]
        omega
    · next hlt => exact ⟨record, rest, n, rfl, (Nat.zero_add n).symm, Nat.not_le.mp hlt⟩

theorem readStoredRecord_take {next : WalRecord} {kept : Nat} (hnext : next.data.length < 2 ^ 32)
    (hkept : kept < (encodeWalRecord next).length) :
    readStoredRecord ((encodeWalRecord next).take kept) = none := by
  rw [eq_none_iff_forall_ne_some]
  rintro ⟨found, left⟩ hread
  have hlen := length_of_readStoredRecord hread
  rw [length_take, Nat.min_eq_left hkept.le] at hlen
  rw [← append_nil ((encodeWalRecord next).take kept)] at hread
  have hbeyond := lt_of_readStoredRecord_torn hnext hkept hread
  omega

theorem readWalFile_whole_append {whole : List WalRecord} {tail : Bytes}
    (hwhole : ∀ record ∈ whole, record.Fits) (htail : readStoredRecord tail = none) :
    readWalFile (whole.flatMap encodeWalRecord ++ tail) = whole := by
  have hlen := length_le_flatMap_encode whole
  obtain ⟨extra, hextra⟩ : ∃ extra,
      (whole.flatMap encodeWalRecord ++ tail).length = whole.length + extra :=
    Nat.exists_eq_add_of_le (by rw [length_append]; omega)
  have hnone : readWalRecord tail = none := by rw [readWalRecord_eq, htail, bind_none]
  rw [readWalFile, hextra, readWhile_append fun record hr => reads_walRecord (hwhole record hr)]
  cases extra <;> simp [readWhile, hnone]

theorem readWalRecord_shorter {bytes left : Bytes} {record : WalRecord}
    (h : readWalRecord bytes = some (record, left)) : left.length < bytes.length := by
  rw [readWalRecord_eq] at h
  obtain ⟨result, hread, h⟩ := bind_eq_some_iff.mp h
  obtain rfl := some.inj (ite_none_left_eq_some.mp h).2
  exact readStoredRecord_shorter hread

end Cut

/-- What `thread_wal_write` accepts: a type of `wal_type_e`, and a payload that a single write
transfers, so that its length is below 2^32. -/
def WalRecord.Accepted (record : WalRecord) : Prop :=
  record.type ∈ [walPut, walDelete, walBatch] ∧ record.data.length < 2 ^ 32

theorem WalRecord.Accepted.fits {record : WalRecord} (h : record.Accepted) : record.Fits := by
  refine ⟨h.2, fun heq => ?_⟩
  have hmem := h.1
  rw [heq] at hmem
  exact absurd hmem (by decide)

/-- Cut anywhere, a file of accepted records is read up to the cut, whatever the number of turns
that is allowed. -/
theorem readWalFile_cut (records : List WalRecord) (haccepted : ∀ record ∈ records, record.Accepted)
    (n : Nat) (hn : n ≤ (records.flatMap encodeWalRecord).length) (fuel : Nat) (hfuel : n ≤ fuel) :
    readWhile readWalRecord fuel ((records.flatMap encodeWalRecord).take n) =
      wholeWithin n records := by
  have hfits : ∀ record ∈ records, record.Fits := fun record hr => (haccepted record hr).fits
  rw [readWhile_fuel (fun _ _ _ => readWalRecord_shorter)
    ((length_take_le _ _).trans hfuel) le_rfl]
  change readWalFile _ = _
  by_cases hcut : n < (records.flatMap encodeWalRecord).length
  · obtain ⟨next, rest, kept, hrecords, hlen, hkept⟩ := wholeWithin_split hcut
    generalize wholeWithin n records = whole at hrecords hlen ⊢
    subst hrecords hlen
    have hnext := hfits next (mem_append_right _ mem_cons_self)
    rw [flatMap_append, take_length_add_append, flatMap_cons, take_append_of_le_length hkept.le]
    exact readWalFile_whole_append (fun record hr => hfits record (mem_append_left _ hr))
      (readStoredRecord_take hnext.1 hkept)
  · obtain rfl : n = _ := Nat.le_antisymm hn (Nat.not_lt.mp hcut)
    rw [take_length, wholeWithin_all le_rfl]
    exact readWalFile_encode hfits

/-- Two records of 34 bytes, cut in the payload length of the second. -/
theorem readWalFile_cut_two :
    readWhile readWalRecord 64 (([byteRecord 1, byteRecord 2].flatMap encodeWalRecord).take 64) =
      [byteRecord 1] := by
  have haccepted (b : UInt8) : (byteRecord b).Accepted :=
    ⟨mem_cons_self, Nat.one_lt_two_pow (by decide)⟩
  refine (readWalFile_cut [byteRecord 1, byteRecord 2] ?_ 64 (by decide) 64 le_rfl).trans
    (by decide +kernel)
  exact forall_mem_cons.mpr ⟨haccepted 1, forall_mem_singleton.mpr (haccepted 2)⟩

/-! ### Short writes -/

/-- `thread_wal_flush_buffer_locked` when `write` accepts only the first `k` bytes: they are in
the file, and it returns -1 before anything of the thread's WAL changes. -/
def flushShort (manager : WalManager) (twal : ThreadWal) (k : Nat) : WalManager :=
  { manager with disk := manager.disk.append twal.fd (twal.entryBuf.take k) }

/-- The first `k` bytes of the buffer end with a record. -/
def EndsWithRecord (encryption : Option Cipher) (buffered : List WalRecord) (k : Nat) : Prop :=
  ((wholeWithin k (buffered.map (sealRecord encryption))).flatMap encodeWalRecord).length = k

section ShortWrite

variable {encryption : Option Cipher} {flushed buffered after : List WalRecord} {k : Nat}

theorem walBytes_append (records later : List WalRecord) : walBytes encryption (records ++ later) =
      walBytes encryption records ++ walBytes encryption later := by
  rw [walBytes, map_append, flatMap_append]
  rfl

/-- Whole records at the front of a file are returned. -/
theorem mem_readWalEntries_front {records : List WalRecord}
    (h : ∀ record ∈ records, Storable encryption record) (tail : Bytes) :
    ∀ entry ∈ writtenEntries encryption 0 records,
      entry ∈ readWalEntries encryption (walBytes encryption records ++ tail) := by
  intro entry hentry
  rw [readWalEntries, walEntries_walBytes_append h]
  exact mem_append_left _ hentry

theorem returnsAll_short_iff (hflushed : ∀ record ∈ flushed, Storable encryption record)
    (hbuffered : ∀ record ∈ buffered, Storable encryption record)
    (hk : k < (walBytes encryption buffered).length) :
    ReturnsAll encryption flushed (buffered ++ after) k
        (walBytes encryption flushed ++ ((walBytes encryption buffered).take k ++
          walBytes encryption (buffered ++ after))) ↔
      EndsWithRecord encryption buffered k ∧ ∀ record ∈ after, Storable encryption record := by
  obtain ⟨sealed, rest, kept, hrecords, hlen, hkept⟩ := wholeWithin_split hk
  rw [EndsWithRecord]
  generalize wholeWithin k (buffered.map (sealRecord encryption)) = stored at hrecords hlen ⊢
  obtain ⟨whole, others, rfl, rfl, hothers⟩ := map_eq_append_iff.mp hrecords
  obtain ⟨next, later, rfl, rfl, -⟩ := map_eq_cons_iff.mp hothers
  change k = (walBytes encryption whole).length + kept at hlen
  change _ ↔ (walBytes encryption whole).length = k ∧ _
  subst hlen
  have hbefore : ∀ record ∈ flushed ++ whole, Storable encryption record := by
    intro record hrecord
    rcases mem_append.mp hrecord with hr | hr
    · exact hflushed record hr
    · exact hbuffered record (mem_append_left _ hr)
  -- the part that was written is whole records and the beginning of `next`
  have hfile : walBytes encryption flushed ++ ((walBytes encryption (whole ++ next :: later)).take
        ((walBytes encryption whole).length + kept) ++
          walBytes encryption (whole ++ next :: later ++ after)) =
      tornFile encryption (flushed ++ whole) next kept ++
        walBytes encryption (whole ++ next :: later ++ after) := by
    have htake : (walBytes encryption (whole ++ next :: later)).take
        ((walBytes encryption whole).length + kept) =
          walBytes encryption whole ++
            (encodeWalRecord (sealRecord encryption next)).take kept := by
      rw [walBytes_append, take_length_add_append, walBytes_cons, take_append_of_le_length hkept.le]
    rw [htake, tornFile, walBytes_append flushed]
    simp only [append_assoc]
  have htorn := @returnsAll_iff encryption kept next (flushed ++ whole)
    (whole ++ next :: later ++ after) hbefore
    (hbuffered next (mem_append_right _ mem_cons_self)) hkept
  have hfront := mem_readWalEntries_front hflushed
    ((walBytes encryption (whole ++ next :: later)).take
      ((walBytes encryption whole).length + kept) ++
        walBytes encryption (whole ++ next :: later ++ after))
  have hfront' := mem_readWalEntries_front hbefore
    ((encodeWalRecord (sealRecord encryption next)).take kept ++
      walBytes encryption (whole ++ next :: later ++ after))
  rw [← append_assoc, ← tornFile] at hfront'
  rw [ReturnsAll, and_iff_right hfront', walBytes_append flushed, length_append,
    Nat.add_assoc] at htorn
  rw [ReturnsAll, and_iff_right hfront, hfile, htorn, forall_mem_append, and_iff_right hbuffered]
  refine and_congr_left fun _ => ?_
  simp

theorem appending_flushShort {manager : WalManager} {twal : ThreadWal}
    (hfile : manager.disk.inodes[twal.fd]? = some (walBytes encryption flushed))
    (hcount : twal.batchCount ≠ 0)
    (hsize : twal.currentSize ≤ (walBytes encryption flushed).length) : ∃ old done, old ++ done =
        walBytes encryption flushed ++ (twal.entryBuf.take k ++ twal.entryBuf) ∧
      done.length = twal.currentSize + twal.entryBuf.length ∧
      Appending manager.disk.names twal.fd twal.maxSize old done
        (flushShort manager twal k).disk twal := by
  -- what `current_size` counts is the end of the file
  generalize hcontent : walBytes encryption flushed ++ twal.entryBuf.take k = content
  have hle : twal.currentSize ≤ content.length := by
    rw [← hcontent, length_append]
    omega
  have hbytes : content.take (content.length - twal.currentSize) ++
      (content.drop (content.length - twal.currentSize) ++ twal.entryBuf) =
        content ++ twal.entryBuf := by
    rw [← append_assoc, take_append_drop]
  have hlen : (content.drop (content.length - twal.currentSize) ++ twal.entryBuf).length =
      twal.currentSize + twal.entryBuf.length := by
    rw [length_append, length_drop]
    omega
  refine ⟨_, _, ?_, hlen, ⟨rfl, rfl, rfl, ⟨content, ?_, hbytes.symm⟩, hlen.symm, ?_⟩⟩
  · rw [hbytes, ← hcontent, append_assoc]
  · rw [← hcontent]
    exact append_content hfile _
  · intro h
    exact absurd h hcount

end ShortWrite

/-- A flush writes only `k` bytes of the buffer, and later records are written and flushed: every
record is read back, those of the buffer from where they were written again, exactly if the `k`
bytes end with a record and the later records can be stored. -/
theorem short_write_iff (encryption : Option Cipher) (manager : WalManager) (thread : Nat)
    (twal : ThreadWal) (flushed buffered : List WalRecord) (k : Nat)
    (records : List (WalRecord × UInt64)) (hthread : manager.threads[thread]? = some twal)
    (hname : manager.disk.names.lookup twal.filePath = some twal.fd)
    (hfile : manager.disk.inodes[twal.fd]? = some (walBytes encryption flushed))
    (hbuf : twal.entryBuf = walBytes encryption buffered) (hcount : twal.batchCount ≠ 0)
    (hk : k < twal.entryBuf.length)
    (hsize : twal.currentSize ≤ (walBytes encryption flushed).length)
    (hroom : twal.currentSize + twal.entryBuf.length +
      (walBytes encryption (records.map Prod.fst)).length < twal.maxSize)
    (hflushed : ∀ record ∈ flushed, Storable encryption record)
    (hbuffered : ∀ record ∈ buffered, Storable encryption record) :
    ReturnsAll encryption flushed (buffered ++ records.map Prod.fst) k
        ((flushThread (writeRecords encryption thread (flushShort manager twal k) records)
          thread).disk.directory.content twal.filePath) ↔
      EndsWithRecord encryption buffered k ∧
        ∀ record ∈ records.map Prod.fst, Storable encryption record := by
  obtain ⟨old, done, hbytes, hlen, happending⟩ :=
    @appending_flushShort encryption flushed k manager twal hfile hcount hsize
  have hcontent := happending.flushedContent hthread hname (hlen ▸ hroom)
  rw [← append_assoc, hbytes, hbuf, append_assoc, append_assoc, ← walBytes_append] at hcontent
  rw [hcontent]
  exact returnsAll_short_iff hflushed hbuffered (hbuf ▸ hk)

def bufferedManager : WalManager :=
  writeRecords none 0 (openThread (walManagerCreate ⟨131072, 0, false⟩ emptyDisk) 1)
    [(byteRecord 1, 0), (byteRecord 2, 0)]

def bufferedWal : ThreadWal := bufferedManager.threads.head (by decide +kernel)

/-- The 34 bytes of the first record were written: everything is read back. -/
theorem short_write_of_record_returns_all :
    ReturnsAll none [] ([byteRecord 1, byteRecord 2] ++ [byteRecord 3]) 34
      ((flushThread (writeRecords none 0 (flushShort bufferedManager bufferedWal 34)
        [(byteRecord 3, 0)]) 0).disk.directory.content bufferedWal.filePath) := by
  refine (short_write_iff none bufferedManager 0 bufferedWal [] [byteRecord 1, byteRecord 2] 34
    [(byteRecord 3, 0)] (by decide +kernel) (by decide +kernel) (by decide +kernel)
    (by decide +kernel) (by decide +kernel) (by decide +kernel) (by decide +kernel)
    (by decide +kernel) (forall_mem_nil _) ?_).mpr ⟨?_, ?_⟩
  · exact forall_mem_cons.mpr ⟨storable_byteRecord 1,
      forall_mem_singleton.mpr (storable_byteRecord 2)⟩
  · rw [EndsWithRecord]
    decide +kernel
  · exact forall_mem_singleton.mpr (storable_byteRecord 3)

/-- Five bytes were written: nothing is read back, although every later write succeeds. -/
theorem short_write_hides_records : readWalFileWith none ((flushThread (writeRecords none 0
      (flushShort bufferedManager bufferedWal 5) [(byteRecord 3, 0)]) 0).disk.directory.content
        bufferedWal.filePath) = [] := by
  decide +kernel

end WaveDB.Database
