import WaveDB.HBTrie.Version
import WaveDB.HBTrie.Chunk

/-!
Identifiers and paths (`HBTrie/identifier.c`, `HBTrie/path.c`).

An identifier is a byte string cut into chunks of one size, the last one padded
with zeroes; a path is a list of identifiers. The trie only sees the chunks:
`pathChunks_eq_iff` says when two paths show it the same sequence.
-/

namespace WaveDB.HBTrie

open List

structure Identifier where
  chunks : List Chunk
  length : Nat
deriving DecidableEq

abbrev Path := List Identifier

def identifierCalcNchunk (length : Nat) (cs : ChunkSize) : Nat :=
  if length = 0 then 1 else (length - 1) / cs.size + 1

variable (cs : ChunkSize) (data : Bytes)

/-- The first `cs` bytes, padded with zeroes: `chunk_create_empty` and `memcpy`. -/
def paddedChunk (data : Bytes) : Chunk where
  data := data.take cs.size ++ List.replicate (cs.size - data.length) 0
  size_pos := by
    have := cs.pos
    simp only [List.length_append, List.length_take, List.length_replicate]
    omega
  size_lt := by
    have := cs.lt
    simp only [List.length_append, List.length_take, List.length_replicate]
    omega

/-- `identifier_create` and, on non-empty data, `identifier_create_from_raw`. For empty data this
is the identifier of a NULL buffer; see `identifierCreateOver` for a buffer of length 0. -/
def identifierCreate (data : Bytes) (cs : ChunkSize) : Identifier where
  chunks := (List.range (identifierCalcNchunk data.length cs)).map fun i =>
    paddedChunk cs (data.drop (i * cs.size))
  length := data.length

/-- `identifier_create` of a buffer that `behind` follows in memory. For a buffer of length 0
`identifier_calc_last_chunk_size` is a whole chunk, which is copied from behind the buffer. -/
def identifierCreateOver (behind data : Bytes) (cs : ChunkSize) : Identifier :=
  if data = [] then ⟨[paddedChunk cs behind], 0⟩ else identifierCreate data cs

variable (components : List Bytes)

def pathOf : Path :=
  components.map fun data => identifierCreate data cs

/-- The path of buffers that `behind` follows in memory. -/
def pathOver (behind : Bytes) (components : List Bytes) : Path :=
  components.map fun data => identifierCreateOver behind data cs

def pathChunks (path : Path) : List Chunk := path.flatMap Identifier.chunks

def defaultChunkSize : ChunkSize := ⟨4, by decide, by decide⟩

def parentPath : Path := pathOf defaultChunkSize [[97, 98, 99, 100]]

def childPath : Path := pathOf defaultChunkSize [[97, 98, 99, 100], [101, 102, 103, 104]]

/-! ### The bytes behind the chunks -/

def zeroPadded (data : Bytes) : Bytes :=
  data ++ List.replicate (identifierCalcNchunk data.length cs * cs.size - data.length) 0

def paddedBytes : Bytes :=
  components.flatMap (zeroPadded cs)

theorem filter_paddedBytes :
    (paddedBytes cs components).filter (· != 0) = components.flatten.filter (· != 0) := by
  have hpad : ∀ data, (zeroPadded cs data).filter (· != 0) = data.filter (· != 0) := by
    intro data
    rw [zeroPadded, filter_append, filter_replicate_of_neg (by decide), append_nil]
  rw [paddedBytes, ← flatMap_id, filter_flatMap, filter_flatMap]
  exact flatMap_congr fun data _ => hpad data

theorem paddedChunk_size : (paddedChunk cs data).size = cs.size := by
  simp only [Chunk.size, paddedChunk, length_append, length_take, length_replicate]
  omega

theorem identifierCreate_nil : identifierCreate [] cs = ⟨[paddedChunk cs []], 0⟩ := by
  simp [identifierCreate, identifierCalcNchunk]

@[simp] theorem identifierCreateOver_length (behind data : Bytes) :
    (identifierCreateOver behind data cs).length = data.length := by
  unfold identifierCreateOver
  split
  · next hnil => rw [hnil]; rfl
  · rfl

/-- With zeroes behind it, a buffer of length 0 is as good as none. -/
theorem identifierCreateOver_nil (data : Bytes) :
    identifierCreateOver [] data cs = identifierCreate data cs := by
  unfold identifierCreateOver
  split
  · next hnil => rw [hnil, identifierCreate_nil]
  · rfl

theorem pathOver_nil : pathOver cs [] components = pathOf cs components :=
  map_congr_left fun data _ => identifierCreateOver_nil cs data

/-- What follows the buffers matters exactly if one of them is empty. -/
theorem pathOver_eq_iff : (∀ behind, pathOver cs behind components = pathOf cs components) ↔
      ∀ data ∈ components, data ≠ [] := by
  constructor
  · rintro h data hdata rfl
    have hsame : (⟨[paddedChunk cs [1]], 0⟩ : Identifier) = _ := map_inj_left.mp (h [1]) [] hdata
    rw [identifierCreate_nil] at hsame
    have hchunk := (cons.inj (congrArg Identifier.chunks hsame)).1
    have hbytes := congrArg (fun c : Chunk => c.data.head?) hchunk
    obtain ⟨size, hsize⟩ := Nat.exists_eq_add_one.mpr cs.pos
    simp [paddedChunk, hsize, replicate_succ] at hbytes
  · intro h behind
    exact map_congr_left fun data hdata => if_neg (h data hdata)

theorem pathOver_of_nonempty {components : List Bytes} (h : ∀ data ∈ components, data ≠ [])
    (behind : Bytes) : pathOver cs behind components = pathOf cs components :=
  (pathOver_eq_iff cs components).mpr h behind

theorem flatMap_paddedChunk (n : Nat) (data : Bytes) (hlen : data.length ≤ n * cs.size) :
    ((range n).flatMap fun i => (paddedChunk cs (data.drop (i * cs.size))).data) =
      data ++ replicate (n * cs.size - data.length) 0 := by
  induction n generalizing data with
  | zero =>
    have : data = [] := eq_nil_of_length_eq_zero (by simpa using hlen)
    simp [this]
  | succ n ih =>
    have hdrop : (data.drop cs.size).length ≤ n * cs.size := by
      rw [length_drop, Nat.succ_mul] at *
      omega
    have hrest := ih (data.drop cs.size) hdrop
    simp only [drop_drop] at hrest
    rw [range_succ_eq_map, flatMap_cons, flatMap_map]
    simp only [Nat.succ_mul, Nat.zero_mul, drop_zero]
    simp only [Nat.add_comm (_ * cs.size) cs.size, hrest]
    simp only [paddedChunk, length_drop]
    by_cases hfull : cs.size ≤ data.length
    · have hzero : cs.size - data.length = 0 := by omega
      have hcount : n * cs.size - (data.length - cs.size) =
          cs.size + n * cs.size - data.length := by omega
      rw [hzero, hcount, replicate_zero, append_nil, ← append_assoc, take_append_drop]
    · have htake : data.take cs.size = data := take_of_length_le (by omega)
      have hnil : data.drop cs.size = [] := drop_eq_nil_of_le (by omega)
      rw [htake, hnil, nil_append, append_assoc, replicate_append_replicate]
      congr 2
      omega

theorem length_le_nchunk (length : Nat) : length ≤ identifierCalcNchunk length cs * cs.size := by
  unfold identifierCalcNchunk
  split
  · omega
  · have hlt := Nat.lt_mul_div_succ (length - 1) cs.pos
    rw [Nat.mul_comm] at hlt
    omega

/-- The chunks are the bytes with their zero padding. -/
theorem identifierCreate_bytes :
    (identifierCreate data cs).chunks.flatMap Chunk.data = zeroPadded cs data := by
  simp only [identifierCreate, flatMap_map]
  exact flatMap_paddedChunk cs _ data (length_le_nchunk cs data.length)

theorem identifierCreate_chunk_size :
    ∀ c ∈ (identifierCreate data cs).chunks, c.size = cs.size := by
  intro c hc
  obtain ⟨i, -, rfl⟩ := mem_map.mp hc
  exact paddedChunk_size cs _

theorem identifierCreate_chunks_ne_nil : (identifierCreate data cs).chunks ≠ [] := by
  have hpos : 0 < identifierCalcNchunk data.length cs := by
    unfold identifierCalcNchunk
    split
    · exact Nat.one_pos
    · exact Nat.succ_pos _
  intro hnil
  have := congrArg length hnil
  simp only [identifierCreate, length_map, length_range, length_nil] at this
  omega

theorem identifierCreateOver_chunks_ne_nil (behind data : Bytes) :
    (identifierCreateOver behind data cs).chunks ≠ [] := by
  unfold identifierCreateOver
  split
  · exact cons_ne_nil _ _
  · exact identifierCreate_chunks_ne_nil cs data

theorem chunks_eq_of_bytes_eq {xs ys : List Chunk} (hx : ∀ c ∈ xs, c.size = cs.size)
    (hy : ∀ c ∈ ys, c.size = cs.size) (h : xs.flatMap Chunk.data = ys.flatMap Chunk.data) :
    xs = ys := by
  induction xs generalizing ys with
  | nil =>
    cases ys with
    | nil => rfl
    | cons y ys =>
      exact absurd (append_eq_nil_iff.mp h.symm).1 (ne_nil_of_length_pos y.size_pos)
  | cons x xs ih =>
    cases ys with
    | nil =>
      exact absurd (append_eq_nil_iff.mp h).1 (ne_nil_of_length_pos x.size_pos)
    | cons y ys =>
      have hlen : x.data.length = y.data.length := (hx x (by simp)).trans (hy y (by simp)).symm
      obtain ⟨hhead, htail⟩ := append_inj h hlen
      rw [Chunk.ext_data hhead, ih (fun c hc => hx c (by simp [hc]))
        (fun c hc => hy c (by simp [hc])) htail]

/-- Two paths are the same key of the trie exactly when their padded components
concatenate to the same bytes. -/
theorem pathChunks_eq_iff (p q : List Bytes) :
    pathChunks (pathOf cs p) = pathChunks (pathOf cs q) ↔ paddedBytes cs p = paddedBytes cs q := by
  have hbytes : ∀ components : List Bytes,
      (pathChunks (pathOf cs components)).flatMap Chunk.data = paddedBytes cs components := by
    intro components
    simp only [pathChunks, pathOf, paddedBytes, flatMap_map, flatMap_assoc, identifierCreate_bytes]
  have hsize : ∀ components : List Bytes,
      ∀ c ∈ pathChunks (pathOf cs components), c.size = cs.size := by
    intro components c hc
    obtain ⟨id, hid, hc⟩ := mem_flatMap.mp hc
    obtain ⟨data, -, rfl⟩ := mem_map.mp hid
    exact identifierCreate_chunk_size cs data c hc
  rw [← hbytes p, ← hbytes q]
  constructor
  · intro h
    rw [h]
  · exact chunks_eq_of_bytes_eq cs (hsize p) (hsize q)

end WaveDB.HBTrie
