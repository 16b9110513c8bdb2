import WaveDB.Graph.Layer

/-!
What the range scans of a graph layer return.

`Scans.keys`: a layer's scan returns the visible keys of its range as the database's scan comes
to them, each without the components of the subtree.
-/

namespace WaveDB.Graph

open WaveDB.Basis HBTrie Database List Option

/-! ### Layers and their keys -/

def layerPrefix : Option DatabaseSubtree → List Bytes
  | none => []
  | some st => rawSegments slash [] st.prefixKey

/-- The subtree is cut at slashes, and its prefix has no empty segments. -/
def CleanSubtree (subtree : Option DatabaseSubtree) : Prop :=
  ∀ st ∈ subtree, st.delimiter = slash ∧
    subtreePrefixComponentCount st = (rawSegments slash [] st.prefixKey).length

variable (cs : ChunkSize)

def layerPath (subtree : Option DatabaseSubtree) (key : Bytes) : Path :=
  pathOf cs (layerPrefix subtree ++ rawSegments slash [] key)

/-- The scan of the layer's range returns this key of the database. -/
def LayerScans (db : Db) (subtree : Option DatabaseSubtree) (startKey endKey : Bytes)
    (p : List Bytes) : Prop :=
  db.ScansRange (some (layerPath db.chunkSize subtree startKey))
    (some (layerPath db.chunkSize subtree endKey)) p

def layerKey (subtree : Option DatabaseSubtree) (p : List Bytes) : Bytes :=
  [slash].intercalate ((p.map (reportedComponent cs)).drop (layerPrefix subtree).length)

section Scan

variable {db : Db} {depth : Nat} {subtree : Option DatabaseSubtree} {scan : LayerScan}
  {startKey endKey key : Bytes}

theorem layerScanRange_none (startKey endKey : Bytes) (fuel : Nat) :
    layerScanRange db none startKey endKey fuel =
      (scanAll db fuel (databaseScanStart db (boundPath db.chunkSize startKey slash)
        (boundPath db.chunkSize endKey slash))).map
          (map fun r => pathToKeyString r.path slash) := by
  rw [layerScanRange, databaseScanRangeSyncRaw, Option.map_map]
  congr 1
  funext results
  exact map_map

theorem layerScanRange_some (st : DatabaseSubtree) (startKey endKey : Bytes) (fuel : Nat) :
    layerScanRange db (some st) startKey endKey fuel =
      (scanAll db fuel (databaseScanStart db (subtreeBoundPath db.chunkSize st startKey slash)
        (subtreeBoundPath db.chunkSize st endKey slash))).map
          fun results => (results.filterMap (rawResult st)).map RawResult.key := by
  rw [layerScanRange, databaseSubtreeScanRangeSyncRaw, Option.map_map]
  rfl

theorem layerScanRange_eq_map (db : Db) (subtree : Option DatabaseSubtree)
    (startKey endKey : Bytes) : ∃ start finish keysOf, ∀ fuel,
      layerScanRange db subtree startKey endKey fuel =
        (scanAll db fuel (databaseScanStart db start finish)).map keysOf := by
  cases subtree with
  | none => exact ⟨_, _, _, layerScanRange_none startKey endKey⟩
  | some st => exact ⟨_, _, _, layerScanRange_some st startKey endKey⟩

theorem exists_scans (hdb : db.Ok depth) (subtree : Option DatabaseSubtree) :
    ∃ scan, Scans db subtree scan := by
  have hall : ∀ startKey endKey, ∃ keys n, ∀ fuel, n ≤ fuel →
      layerScanRange db subtree startKey endKey fuel = some keys := by
    intro startKey endKey
    obtain ⟨start, finish, keysOf, heq⟩ := layerScanRange_eq_map db subtree startKey endKey
    obtain ⟨results, n, hn, -⟩ := scanAll_results hdb start finish
    refine ⟨keysOf results, n, fun fuel hfuel => ?_⟩
    rw [heq, hn fuel hfuel, map_some]
  choose keys n hn using hall
  exact ⟨fun startKey endKey => .ok (keys startKey endKey),
    fun startKey endKey => ⟨_, n startKey endKey, rfl, hn startKey endKey⟩⟩

theorem boundPath_eq (cs : ChunkSize) (hne : key ≠ []) :
    boundPath cs key slash = some (layerPath cs none key) := if_neg hne

theorem subtreeBoundPath_eq (cs : ChunkSize) {st : DatabaseSubtree} (hslash : st.delimiter = slash)
    (hne : key ≠ []) : subtreeBoundPath cs st key slash = some (layerPath cs (some st) key) := by
  rw [subtreeBoundPath, if_neg hne, pathCreateFromRaw, databaseSubtreePrependKey, hslash,
    rawSegments_append]
  rfl

section Keys

variable (hdb : db.Ok depth) (hclean : CleanSubtree subtree) (hstart : startKey ≠ [])
  (hend : endKey ≠ []) (hlonger : ∀ p value, db.Shows p value →
    LayerScans db subtree startKey endKey p → (layerPrefix subtree).length < p.length)

include hdb hclean hstart hend hlonger

theorem layerScanRange_keys :
    ∃ keys n, (∀ fuel, n ≤ fuel → layerScanRange db subtree startKey endKey fuel = some keys) ∧
      ∀ key, key ∈ keys ↔ ∃ p value, db.Shows p value ∧
        LayerScans db subtree startKey endKey p ∧ key = layerKey db.chunkSize subtree p := by
  obtain ⟨results, n, hn, -, hmem⟩ := scanAll_results hdb
    (some (layerPath db.chunkSize subtree startKey)) (some (layerPath db.chunkSize subtree endKey))
  cases subtree with
  | none =>
    refine ⟨results.map fun r => pathToKeyString r.path slash, n, fun fuel hfuel => ?_,
      fun key => ?_⟩
    · rw [layerScanRange_none, boundPath_eq _ hstart, boundPath_eq _ hend, hn fuel hfuel, map_some]
    · rw [mem_map_results _ hmem]
      simp only [pathToKeyString_pathOf]
      rfl
  | some st =>
    obtain ⟨hslash, hcount⟩ := hclean st rfl
    have hkey : ∀ p value, db.Shows p value → LayerScans db (some st) startKey endKey p →
        rawResult st ⟨db.chunksOf p,
          pathOf db.chunkSize (p.map (reportedComponent db.chunkSize)), value⟩ =
        some ⟨db.chunksOf p, layerKey db.chunkSize (some st) p, value⟩ := by
      intro p value hshows hscans
      have hlt := hlonger p value hshows hscans
      rw [rawResult_eq, if_pos (by rw [hcount]; exact hlt), rawKeyOf, hcount, hslash]
      rfl
    refine ⟨(results.filterMap (rawResult st)).map RawResult.key, n, fun fuel hfuel => ?_,
      fun key => ?_⟩
    · rw [layerScanRange_some, subtreeBoundPath_eq _ hslash hstart,
        subtreeBoundPath_eq _ hslash hend, hn fuel hfuel, map_some]
    · simp only [List.mem_map, mem_filterMap]
      constructor
      · rintro ⟨raw, ⟨r, hr, hraw⟩, rfl⟩
        obtain ⟨p, value, hshows, hscans, rfl⟩ := (hmem r).mp hr
        rw [hkey p value hshows hscans] at hraw
        obtain rfl := some.inj hraw
        exact ⟨p, value, hshows, hscans, rfl⟩
      · rintro ⟨p, value, hshows, hscans, rfl⟩
        exact ⟨_, ⟨_, (hmem _).mpr ⟨p, value, hshows, hscans, rfl⟩,
          hkey p value hshows hscans⟩, rfl⟩

theorem Scans.keys (hscan : Scans db subtree scan) : ∃ keys, scan startKey endKey = .ok keys ∧
      ∀ key, key ∈ keys ↔ ∃ p value, db.Shows p value ∧
        LayerScans db subtree startKey endKey p ∧ key = layerKey db.chunkSize subtree p := by
  obtain ⟨keys, n, hok, hn⟩ := hscan startKey endKey
  obtain ⟨keys', m, hm, hmem⟩ := layerScanRange_keys hdb hclean hstart hend hlonger
  obtain rfl := enough_unique hn hm
  exact ⟨keys, hok, hmem⟩

end Keys

/-- A run of the scan that comes to its end returns what the layer's scan returns. -/
theorem Scans.eq_ok (hscan : Scans db subtree scan) {keys : List Bytes} (fuel : Nat)
    (h : layerScanRange db subtree startKey endKey fuel = some keys) :
    scan startKey endKey = .ok keys := by
  obtain ⟨keys', n, hok, hn⟩ := hscan startKey endKey
  obtain ⟨start, finish, keysOf, heq⟩ := layerScanRange_eq_map db subtree startKey endKey
  have hall := hn (max n fuel) (le_max_left _ _)
  rw [heq] at h hall
  obtain ⟨results, hresults, rfl⟩ := map_eq_some_iff.mp h
  obtain ⟨results', hresults', rfl⟩ := map_eq_some_iff.mp hall
  rw [hok, (visits_of_collect hresults).unique (visits_of_collect hresults')]

end Scan

/-! ### Ranges -/

/-- The components are from the first list on and before the second one. -/
def Between (lo hi components : List Bytes) : Prop :=
  lo.map byteOrder ≤ components.map byteOrder ∧ components.map byteOrder < hi.map byteOrder

instance (lo hi components : List Bytes) : Decidable (Between lo hi components) :=
  inferInstanceAs (Decidable (_ ∧ _))

/-- The components begin with these, as far as chunks can tell. -/
def BeginsWith (front components : List Bytes) : Prop :=
  ∃ rest, componentChunks (pathOf cs components) = componentChunks (pathOf cs front) ++ rest

section Ranges

variable {cs : ChunkSize} {front lo hi p : List Bytes} {name : Bytes}

theorem componentChunks_append (a b : List Bytes) : componentChunks (pathOf cs (a ++ b)) =
      componentChunks (pathOf cs a) ++ componentChunks (pathOf cs b) := by
  rw [componentChunks, pathOf, map_append, map_append]
  rfl

theorem inRange_some_iff {a b path : Path} : InRange (some a) (some b) path ↔
      componentChunks a ≤ componentChunks path ∧ componentChunks path < componentChunks b := by
  simp only [InRange, mem_some_iff, forall_eq', pathCompare_nonneg, pathCompare_lt]

theorem inRange_layer_iff (hlo : ∀ c ∈ lo, NulFree c) (hhi : ∀ c ∈ hi, NulFree c)
    (hp : ∀ c ∈ p, NulFree c) :
    InRange (some (pathOf cs (front ++ lo))) (some (pathOf cs (front ++ hi)))
      (pathOf cs (front ++ p)) ↔ Between lo hi p := by
  rw [inRange_some_iff, componentChunks_append, componentChunks_append, componentChunks_append,
    append_le_append_left, append_lt_append_left, ← not_lt, componentChunks_lt_iff hp hlo,
    componentChunks_lt_iff hp hhi, not_lt]
  rfl

theorem BeginsWith.length_le (h : BeginsWith cs front p) : front.length ≤ p.length := by
  obtain ⟨rest, heq⟩ := h
  have hlength := congrArg length heq
  simp only [length_append, componentChunks, pathOf, length_map] at hlength
  omega

theorem nulFree_of_mem_rawSegments {delimiter : UInt8} {x c : Bytes} (hx : NulFree x)
    (h : c ∈ rawSegments delimiter [] x) : NulFree c :=
  fun h0 => hx ((sublist_of_mem_rawSegments h).subset h0)

end Ranges

end WaveDB.Graph
