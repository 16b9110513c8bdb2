import WaveDB.Basis.Codec
import WaveDB.HBTrie.Version

/-!
The records of a WAL file (`thread_wal_write` and `read_wal_file` in
`Database/wal_manager.c`, `Database/crc32.h`), without encryption.

A record is a header of 33 bytes (type, transaction id, checksum and length of the payload)
and the payload. `readWalFile_encode` says that a file of whole records is read back.
-/

namespace WaveDB.Database

open WaveDB.Basis Workers HBTrie List Option

/-! ### The checksum -/

/-- `crc32_table` as the source has it; the two missing entries of the array are 0. -/
def crc32Table : List UInt32 := [
  0x00000000, 0x77073096, 0xee0e612c, 0x990951ba, 0x076dc419, 0x706af48f, 0xe963a535, 0x9e6495a3,
  0x0edb8832, 0x79dcb8a4, 0xe0d5e91e, 0x97d2d988, 0x09b64c2b, 0x7eb17cbd, 0xe7b82d07, 0x90bf1d91,
  0x1db71064, 0x6ab020f2, 0xf3b97148, 0x84be41de, 0x1adad47d, 0x6ddde4eb, 0xf4d4b551, 0x83d385c7,
  0x136c9856, 0x646ba8c0, 0xfd62f97a, 0x8a65c9ec, 0x14015c4f, 0x63066cd9, 0xfa0f3d63, 0x8d080df5,
  0x3b6e20c8, 0x4c69105e, 0xd56041e4, 0xa2677172, 0x3c03e4d1, 0x4b04d447, 0xd20d85fd, 0xa50ab56b,
  0x35b5a8fa, 0x42b2986c, 0xdbbbc9d6, 0xacbcf940, 0x32d86ce3, 0x45df5c75, 0xfcd7c757, 0x8b1ddc93,
  0x19b4a692, 0x6e6b3f45, 0xf77fe7e9, 0x80f0d9aa, 0x0d9d866e, 0xda0be426, 0xad7fa049, 0x3a3b9d82,
  0x4d6e3f2e, 0xd5a5e94f, 0xa2b3c0be, 0x3798a7f1, 0x4a99a7d9, 0xdd27d263, 0xaa08c3a9, 0x3d6b2b7c,
  0x4ae3e13d, 0xd3e1c0c1, 0xae5c1b1b, 0x398c2b8a, 0x4e4c0b13, 0xd97a7dbf, 0xaaf04c0f, 0x3d2a9d8e,
  0x4a7d0e85, 0xd1d28e5c, 0xa65da570, 0x31b47a8b, 0x4c2d0e87, 0xdb1d3b9e, 0xac59a35a, 0x3b5e1d71,
  0x4c88c3c9, 0xdbb09ed0, 0xad056d8f, 0x3875c7c0, 0x4f1dc247, 0xd8a6e67a, 0xab07a0bb, 0x3c6e3d8a,
  0x498e54f7, 0xde3cb7b4, 0xa937b96a, 0x3c05a5d1, 0x4b7bb860, 0xd8e03cf3, 0xafd5be6d, 0x38c54aef,
  0x4b8cb63b, 0xd9c1e2b6, 0xae5e89c6, 0x394d18e4, 0x4c0367d3, 0xdb8f6b9f, 0xa81d3a3a, 0x3d08e57c,
  0x4aef0b79, 0xdd7dbd56, 0xa90f3e2e, 0x3c267c0e, 0x49f61087, 0xddc0d5d2, 0xaa71e9a9, 0x3b629db8,
  0x4c8a5b57, 0xd0efdf92, 0xad9d56c7, 0x38c7e78c, 0x4b0f47c4, 0xd8a7f56e, 0xab03a4d9, 0x3c7ef2d0,
  0x491f8bb2, 0xdd24b8f6, 0xaafa9a3f, 0x3b5fcdd3, 0x4c80f0cd, 0xda7e6ae6, 0xad67a04c, 0x39452196,
  0x4c9b3a8c, 0xd8cb6c9d, 0xabff0385, 0x3b6b41c1, 0x4c9a5a8b, 0xd8d87c6b, 0xa9e46ec4, 0x3b5e4f7f,
  0x4c87b8e6, 0xdd7c6a4a, 0xaaca0b88, 0x3b9e0c82, 0x4c9e3c9b, 0xd8e36d7f, 0xa9e3b4e9, 0x3b8e0d88,
  0x4c8e10db, 0xd8e27465, 0xa9e4a71e, 0x3b8a0889, 0x4c95b727, 0xd8e54c5f, 0xa9e1e8e8, 0x3b83d68b,
  0x4c90ce89, 0xd8e2747b, 0xa9e4d64e, 0x3b8e1e1c, 0x4c97a08c, 0xd8e2748a, 0xa9e3a0e8, 0x3b8e1a5e,
  0x4c96be96, 0xd8e26e5b, 0xa9e3c1a7, 0x3b8e078e, 0x4c97e7e2, 0xd8e274f1, 0xa9e4b2ae, 0x3b8bfb6b,
  0x4c9c5e99, 0xd8e37e93, 0xa9e3b9d1, 0x3b8e0d2e, 0x4c97b5ab, 0xd8e27493, 0xa9e3959b, 0x3b8e076a,
  0x4c9b3a9a, 0xd8e3d59c, 0xa9e49b4a, 0x3b8e0c55, 0x4c96aebc, 0xd8e3b2c9, 0xa9e3a2b1, 0x3b8e0953,
  0x4c9b3b14, 0xd8e3c6a5, 0xa9e4d072, 0x3b8b8ed8, 0x4c9ca5ca, 0xd8e28f98, 0xa9e3f77a, 0x3b8e0b4a,
  0x4c95b9e3, 0xd8e3c4c7, 0xa9e4df9d, 0x3b8e0963, 0x4c98a8c6, 0xd8e398e1, 0xa9e3b7e3, 0x3b8e0579,
  0x4c9b3a1c, 0xd8e274e3, 0xa9e3954f, 0x3b8e0c1f, 0x4c96b6e4, 0xd8e2746b, 0xa9e3b0d5, 0x3b8e0e0d,
  0x4c9b0e2b, 0xd8e37e4e, 0xa9e49b28, 0x3b8b8e8e, 0x4c9ce6c5, 0xd8e35d8e, 0xa9e4b0ee, 0x3b8e0b5b,
  0x4c95b459, 0xd8e2746c, 0xa9e3e9eb, 0x3b8e0d0d, 0x4c9c5f2e, 0xd8e39f8c, 0xa9e3e4be, 0x3b8e1e9d,
  0x4c97a3cd, 0xd8e37e5d, 0xa9e3b0ce, 0x3b8e088b, 0x4c96a31a, 0xd8e2d1d7, 0xa9e3a4af, 0x3b8e0a9e,
  0x4c9b9b9e, 0xd8e3b4f9, 0xa9e3d0b4, 0x3b8e08ce, 0x4c9be5d0, 0xd8e3f0a5, 0xa9e4c8de, 0x3b8b8c1e,
  0x4c9c5d2d, 0xd8e3e98d, 0xa9e3c3e8, 0x3b8e1d1a, 0x4c96a4ee, 0xd8e2c0be, 0xa9e3a1ad, 0x3b8e0d2d,
  0x4c9b3dce, 0xd8e39e1d, 0xa9e4e9d1, 0x3b8b8a7e, 0x4c9dab8e, 0xd8e3a7ad]

def walCrc32 (data : Bytes) : UInt32 :=
  let crc := data.foldl (fun (crc : UInt32) byte =>
    (crc >>> 8) ^^^ crc32Table.getD ((crc ^^^ byte.toUInt32) &&& 0xFF).toNat 0) 0xFFFFFFFF
  crc ^^^ 0xFFFFFFFF

/-! ### Records -/

/-- `WAL_PUT`, `WAL_DELETE` and `WAL_BATCH`. -/
def walPut : UInt8 := 112

@[inherit_doc walPut]
def walDelete : UInt8 := 100

@[inherit_doc walPut]
def walBatch : UInt8 := 98

/-- `WAL_ENCRYPTED_MAGIC`, the type of a record whose payload is encrypted. -/
def walEncryptedMagic : UInt8 := 0xE1

structure WalRecord where
  type : UInt8
  txnId : TransactionId
  data : Bytes
deriving DecidableEq

def transactionIdSerialize (id : TransactionId) : Bytes :=
  writeUint 8 id.time.toNat ++ (writeUint 8 id.nanos.toNat ++ writeUint 8 id.count.toNat)

def transactionIdDeserialize : Reader TransactionId := do
  let time ← readUint 8
  let nanos ← readUint 8
  let count ← readUint 8
  pure ⟨.ofNat time, .ofNat nanos, .ofNat count⟩

/-- The header and the payload as `thread_wal_write` lays them out. -/
def encodeWalRecord (record : WalRecord) : Bytes :=
  writeUint 1 record.type.toNat ++ (transactionIdSerialize record.txnId ++
    (writeUint 4 (walCrc32 record.data).toNat ++ (writeUint 4 record.data.length ++ record.data)))

/-- A record of any type. -/
def readStoredRecord : Reader WalRecord := do
  let type ← readUint 1
  let txnId ← transactionIdDeserialize
  let expectedCrc ← readUint 4
  let dataLen ← readUint 4
  let data ← readBytes dataLen
  if (walCrc32 data).toNat = expectedCrc then pure ⟨.ofNat type, txnId, data⟩ else failure

/-- One turn of the loop of `read_wal_file`; it fails where the loop breaks. Without an encryption
context it breaks at an encrypted record. -/
def readWalRecord : Reader WalRecord := do
  let record ← readStoredRecord
  if record.type = walEncryptedMagic then failure else pure record

/-- `read_wal_file`. Every turn takes at least a header, so the turns end before the bytes. -/
def readWalFile (content : Bytes) : List WalRecord := readWhile readWalRecord content.length content

/-! ### Reading back -/

/-- The record can be stored: its length fits the field, and it is not taken for an encrypted
one. -/
def WalRecord.Fits (record : WalRecord) : Prop :=
  record.data.length < 2 ^ 32 ∧ record.type ≠ walEncryptedMagic

instance (record : WalRecord) : Decidable record.Fits := inferInstanceAs (Decidable (_ ∧ _))

theorem reads_transactionId (id : TransactionId) :
    Reads transactionIdDeserialize (transactionIdSerialize id) id := by
  have hfield (n : UInt64) : Reads (readUint 8) (writeUint 8 n.toNat) n.toNat := .uint n.toNat_lt
  refine (hfield id.time).bind ((hfield id.nanos).bind ((hfield id.count).last ?_))
  simp only [UInt64.ofNat_toNat]
  exact .pure id

theorem reads_storedRecord {record : WalRecord} (h : record.data.length < 2 ^ 32) :
    Reads readStoredRecord (encodeWalRecord record) record := by
  refine (Reads.uint record.type.toNat_lt).bind ((reads_transactionId record.txnId).bind
    ((Reads.uint (walCrc32 record.data).toNat_lt).bind ((Reads.uint h).bind
      ((Reads.bytes rfl).last ?_))))
  rw [UInt8.ofNat_toNat, if_pos rfl]
  exact .pure record

theorem readWalRecord_eq (bytes : Bytes) :
    readWalRecord bytes = (readStoredRecord bytes).bind fun result =>
      if result.1.type = walEncryptedMagic then none else some result := by
  refine bind_congr fun result _ => ?_
  dsimp only
  split
  · rfl
  · rfl

theorem reads_walRecord {record : WalRecord} (h : record.Fits) :
    Reads readWalRecord (encodeWalRecord record) record := by
  intro rest
  rw [readWalRecord_eq, reads_storedRecord h.1 rest, bind_some, if_neg h.2]

def walHeader (record : WalRecord) : Bytes :=
  writeUint 1 record.type.toNat ++ (transactionIdSerialize record.txnId ++
    (writeUint 4 (walCrc32 record.data).toNat ++ writeUint 4 record.data.length))

variable (record : WalRecord)

theorem encodeWalRecord_eq : encodeWalRecord record = walHeader record ++ record.data := by
  simp only [encodeWalRecord, walHeader, append_assoc]

theorem walHeader_length : (walHeader record).length = 33 := by
  simp [walHeader, transactionIdSerialize]

/-- The header fixes the length of what is read behind it, modulo 32 bits. -/
theorem readStoredRecord_header {record found : WalRecord} {data rest : Bytes}
    (h : readStoredRecord (walHeader record ++ data) = some (found, rest)) :
    found.data.length = record.data.length % 256 ^ 4 := by
  simp only [walHeader, append_assoc] at h
  rw [readStoredRecord, (Reads.uint record.type.toNat_lt).bind_append,
    (reads_transactionId record.txnId).bind_append,
    (Reads.uint (walCrc32 record.data).toNat_lt).bind_append,
    (Reads.uint_mod 4 _).bind_append] at h
  obtain ⟨out, mid, hbytes, hpure⟩ := bind_eq_some_reader.mp h
  have hlen := readBytes_length hbytes
  split at hpure
  · cases hpure
    exact hlen
  · cases hpure

theorem encodeWalRecord_length : (encodeWalRecord record).length = 33 + record.data.length := by
  rw [encodeWalRecord_eq, length_append, walHeader_length]

theorem length_le_flatMap_encode (records : List WalRecord) :
    records.length ≤ (records.flatMap encodeWalRecord).length := by
  induction records with
  | nil => exact Nat.le_refl _
  | cons record records ih =>
    rw [flatMap_cons, length_append, encodeWalRecord_length, length_cons]
    omega

theorem readWalFile_encode {records : List WalRecord} (h : ∀ record ∈ records, record.Fits) :
    readWalFile (records.flatMap encodeWalRecord) = records := by
  obtain ⟨extra, hextra⟩ := Nat.exists_eq_add_of_le (length_le_flatMap_encode records)
  have hread := readWhile_append (fun record hr => reads_walRecord (h record hr)) extra []
  rw [append_nil] at hread
  rw [readWalFile, hextra, hread]
  cases extra with
  | zero | succ extra => exact append_nil _

theorem readWalFile_encode_iff {record : WalRecord} (htype : record.type ≠ walEncryptedMagic) :
    readWalFile (encodeWalRecord record) = [record] ↔ record.data.length < 2 ^ 32 := by
  constructor
  · intro h
    rw [readWalFile, encodeWalRecord_length, Nat.add_comm, readWhile] at h
    split at h
    · cases h
    · rename_i first rest hread
      obtain rfl : first = record := (cons.inj h).1
      rw [readWalRecord_eq, encodeWalRecord_eq] at hread
      obtain ⟨found, hfound, hread⟩ := bind_eq_some_iff.mp hread
      obtain rfl := some.inj (ite_none_left_eq_some.mp hread).2
      have hlen := readStoredRecord_header hfound
      omega
  · intro h
    have hfile := @readWalFile_encode [record] fun r hr => by
      rw [mem_singleton.mp hr]
      exact ⟨h, htype⟩
    rwa [flatMap_singleton] at hfile

end WaveDB.Database
