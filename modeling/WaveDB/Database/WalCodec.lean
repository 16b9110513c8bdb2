import Mathlib.Algebra.Group.Action.Defs
import Mathlib.Algebra.Order.BigOperators.Group.List
import WaveDB.Basis.Codec
import WaveDB.HBTrie.Identifier

/-!
The payload of a WAL record (`encode_put_entry_binary` and its relatives in
`Database/database.c`, the decoders in `Database/wal_manager.c`).

The number of components and the length of each are 16-bit fields, and a value of length 0
is read as no value. `decodePutEntryBinary_encode_iff` says which paths and values come
back: those that fit, with a value that is not empty.
-/

namespace WaveDB.Database

open WaveDB.Basis HBTrie List

/-! ### Identifiers -/

/-- `identifier_to_buffer`: all chunks but the padding of the last. -/
def identifierToBuffer (id : Identifier) : Bytes := (id.chunks.flatMap Chunk.data).take id.length

variable (cs : ChunkSize)

theorem identifierToBuffer_create (data : Bytes) :
    identifierToBuffer (identifierCreate data cs) = data := by
  rw [identifierToBuffer, identifierCreate_bytes]
  exact take_left

theorem identifierToBuffer_createOver (behind data : Bytes) :
    identifierToBuffer (identifierCreateOver behind data cs) = data := by
  unfold identifierCreateOver
  split
  · next hnil => exact hnil ▸ rfl
  · exact identifierToBuffer_create cs data

/-! ### Encoding -/

def walBinaryMagic : Nat := 0xB1

/-- The length of an identifier as `uint16_t`, then all its bytes. -/
def encodeIdentifier (id : Identifier) : Bytes := writeUint 2 id.length ++ identifierToBuffer id

def encodePathBinary (path : Path) : Bytes :=
  writeUint 1 walBinaryMagic ++ (writeUint 2 path.length ++
    (writeUint 4 (path.map Identifier.length).sum ++ path.flatMap encodeIdentifier))

def encodePutEntryBinary (path : Path) (value : Bytes) : Bytes :=
  encodePathBinary path ++ (writeUint 4 value.length ++ value)

def encodeDeleteEntryBinary (path : Path) : Bytes := encodePathBinary path

/-! ### Decoding -/

section Decoding

variable (behind : Bytes)

def readIdentifier : Reader Identifier := do
  let length ← readUint 2
  (identifierCreateOver behind · cs) <$> readBytes length

/-- The shared part of the decoders; `path_len` has to be the sum of the lengths read. -/
def readPathBinary : Reader Path := do
  let magic ← readUint 1
  if magic = walBinaryMagic then
    let pathCount ← readUint 2
    let pathLen ← readUint 4
    let path ← readMany (readIdentifier cs behind) pathCount
    if (path.map Identifier.length).sum = pathLen then pure path else failure
  else failure

def readPutValue : Reader (Option Bytes) := do
  let length ← readUint 4
  if length = 0 then pure none else some <$> readBytes length

def readPutEntry : Reader (Path × Option Bytes) := do
  let path ← readPathBinary cs behind
  let value ← readPutValue
  pure (path, value)

/-- `decode_put_entry_binary`: the path and the value; what follows them is not looked at. The
components are copied into buffers, which `behind` follows in memory. -/
def decodePutEntryOver (data : Bytes) : Option (Path × Option Bytes) :=
  ((readPutEntry cs behind).run data).map Prod.fst

def decodeDeleteEntryOver (data : Bytes) : Option Path :=
  ((readPathBinary cs behind).run data).map Prod.fst

end Decoding

def decodePutEntryBinary (data : Bytes) : Option (Path × Option Bytes) :=
  decodePutEntryOver cs [] data

def decodeDeleteEntryBinary (data : Bytes) : Option Path := decodeDeleteEntryOver cs [] data

/-! ### Paths that fit -/

/-- The 16-bit fields hold the number of components and the length of each. -/
def PathFitsWal (components : List Bytes) : Prop :=
  components.length < 256 ^ 2 ∧ ∀ data ∈ components, data.length < 256 ^ 2

variable {cs : ChunkSize} {components : List Bytes} {behind : Bytes}

theorem map_length_pathOver : (pathOver cs behind components).map Identifier.length =
    (pathOf cs components).map Identifier.length := by
  rw [pathOver, pathOf, map_map, map_map]
  exact map_congr_left fun data _ => identifierCreateOver_length cs behind data

theorem sum_length_lt (h : PathFitsWal components) :
    ((pathOf cs components).map Identifier.length).sum < 256 ^ 4 := by
  have hle : ∀ n ∈ (pathOf cs components).map Identifier.length, n ≤ 256 ^ 2 - 1 := by
    intro n hn
    simp only [pathOf, map_map, mem_map] at hn
    obtain ⟨data, hdata, rfl⟩ := hn
    exact Nat.le_sub_one_of_lt (h.2 data hdata)
  have hlength : ((pathOf cs components).map Identifier.length).length = components.length := by
    simp only [pathOf, length_map]
  calc ((pathOf cs components).map Identifier.length).sum
      ≤ components.length * (256 ^ 2 - 1) := by
        rw [← hlength, ← smul_eq_mul]
        exact sum_le_card_nsmul _ _ hle
    _ ≤ (256 ^ 2 - 1) * (256 ^ 2 - 1) := Nat.mul_le_mul_right _ (Nat.le_sub_one_of_lt h.1)
    _ < 256 ^ 4 := by decide

theorem reads_identifier {data : Bytes} (h : data.length < 256 ^ 2) :
    Reads (readIdentifier cs behind) (encodeIdentifier (identifierCreate data cs))
      (identifierCreateOver behind data cs) := by
  refine (Reads.uint h).bind ?_
  rw [identifierToBuffer_create]
  exact (Reads.bytes rfl).map _

theorem reads_path (h : PathFitsWal components) :
    Reads (readPathBinary cs behind) (encodePathBinary (pathOf cs components))
      (pathOver cs behind components) := by
  have hmagic : Reads (readUint 1) (writeUint 1 walBinaryMagic) walBinaryMagic := .uint (by decide)
  have hcount : (pathOf cs components).length < 256 ^ 2 := by simpa [pathOf] using h.1
  have hmany : Reads (readMany (readIdentifier cs behind) (pathOf cs components).length)
      ((pathOf cs components).flatMap encodeIdentifier) (pathOver cs behind components) := by
    rw [pathOf, length_map, flatMap_map]
    exact Reads.many fun data hdata => reads_identifier (h.2 data hdata)
  refine hmagic.bind ?_
  refine (Reads.uint hcount).bind ((Reads.uint (sum_length_lt h)).bind (hmany.last ?_))
  rw [if_pos (congrArg sum map_length_pathOver)]
  exact .pure _

variable {value rest : Bytes}

theorem reads_putValue (hpos : 0 < value.length) (hlt : value.length < 256 ^ 4) :
    Reads readPutValue (writeUint 4 value.length ++ value) (some value) := by
  refine (Reads.uint hlt).bind ?_
  rw [if_neg hpos.ne']
  exact (Reads.bytes rfl).map some

/-! ### Paths that come back -/

theorem components_fit_of_readMany {rest' : Bytes}
    (h : readMany (readIdentifier cs behind) components.length
      ((pathOf cs components).flatMap encodeIdentifier ++ rest) =
        some (pathOver cs behind components, rest')) :
    ∀ data ∈ components, data.length < 256 ^ 2 := by
  induction components with
  | nil => exact nofun
  | cons data components ih =>
    rw [length_cons, pathOf, map_cons, flatMap_cons, append_assoc, pathOver, map_cons,
      readMany_cons_eq_some] at h
    obtain ⟨mid, hid, hmany⟩ := h
    have hfit : data.length < 256 ^ 2 := by
      rw [encodeIdentifier, append_assoc, readIdentifier, (Reads.uint_mod 2 _).bind_append] at hid
      obtain ⟨bytes, hbytes, heq⟩ := map_eq_some_reader.mp hid
      have hmod : data.length = data.length % 256 ^ 2 := by
        have hlength := congrArg Identifier.length heq
        rw [identifierCreateOver_length, identifierCreateOver_length] at hlength
        exact hlength.symm.trans (readBytes_length hbytes)
      omega
    rw [reads_identifier hfit] at hid
    cases hid
    intro data' hmem
    rcases mem_cons.mp hmem with rfl | hmem
    · exact hfit
    · exact ih hmany data' hmem

theorem fits_of_readPath {rest' : Bytes}
    (h : readPathBinary cs behind (encodePathBinary (pathOf cs components) ++ rest) =
      some (pathOver cs behind components, rest')) : PathFitsWal components := by
  have hmagic : Reads (readUint 1) (writeUint 1 walBinaryMagic) walBinaryMagic := .uint (by decide)
  rw [encodePathBinary, readPathBinary, append_assoc, hmagic.bind_append, if_pos rfl, append_assoc,
    (Reads.uint_mod 2 _).bind_append, append_assoc, (Reads.uint_mod 4 _).bind_append] at h
  obtain ⟨path, mid, hmany, hsum⟩ := bind_eq_some_reader.mp h
  split at hsum
  case isFalse => cases hsum
  cases hsum
  have hlength := readMany_length hmany
  simp only [pathOver, pathOf, length_map] at hlength hmany
  rw [← hlength] at hmany
  exact ⟨by omega, components_fit_of_readMany hmany⟩

/-! ### The round trip -/

theorem decodePut_of_fits (hfit : PathFitsWal components) (hpos : 0 < value.length)
    (hlt : value.length < 256 ^ 4) :
    decodePutEntryOver cs behind (encodePutEntryBinary (pathOf cs components) value) =
      some (pathOver cs behind components, some value) := by
  have hreads : Reads (readPutEntry cs behind) (encodePutEntryBinary (pathOf cs components) value)
      (pathOver cs behind components, some value) :=
    (reads_path hfit).bind ((reads_putValue hpos hlt).last (.pure _))
  rw [decodePutEntryOver, hreads.run_eq]
  rfl

theorem decodeDelete_of_fits (hfit : PathFitsWal components) :
    decodeDeleteEntryOver cs behind (encodeDeleteEntryBinary (pathOf cs components)) =
      some (pathOver cs behind components) := by
  rw [decodeDeleteEntryOver, encodeDeleteEntryBinary, (reads_path hfit).run_eq]
  rfl

theorem fits_of_decodePut
    (h : decodePutEntryOver cs behind (encodePutEntryBinary (pathOf cs components) value) =
      some (pathOver cs behind components, some value)) :
    PathFitsWal components ∧ 0 < value.length ∧ value.length < 256 ^ 4 := by
  obtain ⟨⟨_, rest⟩, hread, rfl⟩ := Option.map_eq_some_iff.mp h
  obtain ⟨path, mid, hpath, hread⟩ := bind_eq_some_reader.mp hread
  obtain ⟨value', rest', hvalue, hpure⟩ := bind_eq_some_reader.mp hread
  cases hpure
  have hfit := fits_of_readPath hpath
  rw [encodePutEntryBinary, reads_path hfit] at hpath
  cases hpath
  rw [readPutValue, (Reads.uint_mod 4 _).bind_append] at hvalue
  split at hvalue
  · cases hvalue
  · rename_i hne
    obtain ⟨bytes, hbytes, heq⟩ := map_eq_some_reader.mp hvalue
    cases heq
    have hlength := readBytes_length hbytes
    exact ⟨hfit, by omega⟩

/-- Whatever is decoded, its identifiers are made with the given chunk size. -/
theorem exists_components_of_readPath {bytes : Bytes} {path : Path}
    (h : readPathBinary cs behind bytes = some (path, rest)) :
    ∃ components, path = pathOver cs behind components := by
  have hmany : ∀ (n : Nat) (bytes rest : Bytes) (path : Path),
      readMany (readIdentifier cs behind) n bytes = some (path, rest) →
        ∃ components, path = pathOver cs behind components := by
    intro n
    induction n with
    | zero =>
      intro bytes rest path h
      cases h
      exact ⟨[], rfl⟩
    | succ n ih =>
      intro bytes rest path h
      obtain ⟨id, path, rfl⟩ := exists_cons_of_length_eq_add_one (readMany_length h)
      obtain ⟨mid, hid, hrest⟩ := readMany_cons_eq_some.mp h
      obtain ⟨length, mid', -, hid⟩ := bind_eq_some_reader.mp hid
      obtain ⟨data, -, rfl⟩ := map_eq_some_reader.mp hid
      obtain ⟨components, rfl⟩ := ih mid rest path hrest
      exact ⟨data :: components, rfl⟩
  obtain ⟨magic, mid, -, h⟩ := bind_eq_some_reader.mp h
  split at h
  case isFalse => cases h
  obtain ⟨pathCount, mid', -, h⟩ := bind_eq_some_reader.mp h
  obtain ⟨pathLen, mid'', -, h⟩ := bind_eq_some_reader.mp h
  obtain ⟨path', mid3, hread, h⟩ := bind_eq_some_reader.mp h
  split at h
  case isFalse => cases h
  cases h
  exact hmany _ _ _ _ hread

/-- A put and a delete come back from their records exactly when every count and length fits its
field and the value is not empty. -/
theorem decodePutEntryBinary_encode_iff (cs : ChunkSize) (components : List Bytes) (value : Bytes) :
    (decodePutEntryBinary cs (encodePutEntryBinary (pathOf cs components) value) =
        some (pathOf cs components, some value) ∧
      decodeDeleteEntryBinary cs (encodeDeleteEntryBinary (pathOf cs components)) =
        some (pathOf cs components)) ↔
    (components.length < 2 ^ 16 ∧ ∀ data ∈ components, data.length < 2 ^ 16) ∧
      0 < value.length ∧ value.length < 2 ^ 32 := by
  have hpath := pathOver_nil cs components
  constructor
  · rintro ⟨hput, -⟩
    have hover : decodePutEntryOver cs [] (encodePutEntryBinary (pathOf cs components) value) =
        some (pathOver cs [] components, some value) := by
      rw [hpath]
      exact hput
    exact fits_of_decodePut hover
  · rintro ⟨hfit, hpos, hlt⟩
    rw [decodePutEntryBinary, decodeDeleteEntryBinary, decodePut_of_fits hfit hpos hlt,
      decodeDelete_of_fits hfit, hpath]
    exact ⟨rfl, rfl⟩

/-- A put of an empty value comes back without one. -/
theorem decodePutEntryBinary_empty_value : decodePutEntryBinary defaultChunkSize
        (encodePutEntryBinary (pathOf defaultChunkSize [[97]]) []) =
      some (pathOf defaultChunkSize [[97]], none) := by
  decide

end WaveDB.Database
