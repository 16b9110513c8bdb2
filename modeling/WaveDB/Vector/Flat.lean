import WaveDB.Database.PrefixDelete

/-!
Search in a flat vector index (`Layers/vector/vector_flat.c`, with the keys of
`vector_internal.c`).

A vector is stored under `vec/{index}/vector/{id}`, its floats followed by the metadata. The search
scans from this prefix to the prefix with the byte `0x7f`, takes what stands behind the last
delimiter of a key for the id, sorts by distance and cuts. The layer has no subtree.
-/

namespace WaveDB.Vector

open WaveDB.Basis HBTrie Database Workers List Option

/-! ### The search -/

def vlKeyVector (idx : Bytes) (d : UInt8) (id : Bytes) : Bytes :=
  ((ascii "vec".toList ++ d :: idx) ++ d :: ascii "vector".toList) ++ d :: id

/-- What the search reads of a `vector_layer_t` without a subtree. -/
structure VectorLayer where
  indexName : Bytes
  delimiter : UInt8
  dim : Nat

variable (vl : VectorLayer)

def VectorLayer.vecBytes : Nat := vl.dim * 4

/-- The `id` of the search: what stands behind the last delimiter. -/
def idOfKey (d : UInt8) (key : Bytes) : Bytes := if d ∈ key then key.rtakeWhile (· ≠ d) else []

/-- `vl_flat_hit_t`; `source` is that of the scanned leaf. -/
structure VlFlatHit (δ : Type) where
  source : List Chunk
  dist : δ
  id : Bytes
  value : Bytes

structure VlResult (δ : Type) where
  source : List Chunk
  id : Bytes
  distance : δ
  metadata : Bytes

/-- `qsort` with `vl_hit_cmp`, whatever it does with equal distances. -/
structure HitSort (δ : Type) [LinearOrder δ] where
  sort : List (VlFlatHit δ) → List (VlFlatHit δ)
  perm : ∀ hits, (sort hits).Perm hits
  sorted : ∀ hits, (sort hits).Pairwise fun a b => a.dist ≤ b.dist

section Search

variable {δ : Type} (db : Db) (vl : VectorLayer) (distance : Bytes → δ)

/-- One scanned key; `vl_distance` to the query is a function of the floats. -/
def VectorLayer.hit (r : RawResult) : Option (VlFlatHit δ) :=
  if r.value.length < vl.vecBytes then none
  else some ⟨r.source, distance (r.value.take vl.vecBytes), idOfKey vl.delimiter r.key, r.value⟩

/-- The copy of a hit; `strdup` ends at a NUL. -/
def VectorLayer.result (h : VlFlatHit δ) : VlResult δ :=
  ⟨h.source, h.id.takeWhile (· ≠ 0), h.dist, h.value.drop vl.vecBytes⟩

def VectorLayer.scanVectors (fuel : Nat) : Option (List RawResult) :=
  databaseScanRangeSyncRaw db (vlKeyVector vl.indexName vl.delimiter [])
    (vlKeyVector vl.indexName vl.delimiter [0x7f]) vl.delimiter fuel

def vectorFlatSearchSync [LinearOrder δ] (qsort : HitSort δ) (k fuel : Nat) :
    Option (List (VlResult δ)) :=
  (vl.scanVectors db fuel).map fun results =>
    ((qsort.sort (results.filterMap (vl.hit distance))).take k).map vl.result

end Search

/-! ### Exactness -/

structure VectorLayer.IsId (vl : VectorLayer) (id : Bytes) : Prop where
  nonempty : id ≠ []
  nulFree : 0 ∉ id
  delimiterFree : vl.delimiter ∉ id

def VectorLayer.vectorPath (id : Bytes) : List Bytes :=
  rawSegments vl.delimiter [] (vlKeyVector vl.indexName vl.delimiter id)

/-- The ids and values of the stored vectors. -/
structure VectorLayer.Holds (vl : VectorLayer) (db : Db) (stored : List (Bytes × Bytes)) :
    Prop where
  nodup : (stored.map Prod.fst).Nodup
  mem_iff : ∀ id value, (id, value) ∈ stored ↔
    vl.IsId id ∧ db.Shows (vl.vectorPath id) value ∧ vl.vecBytes ≤ value.length

/-- The results are the vectors that are closest, in their order. -/
structure Exact {δ : Type} [LinearOrder δ] (db : Db) (vl : VectorLayer)
    (stored : List (Bytes × Bytes)) (distance : Bytes → δ) (k : Nat) (results : List (VlResult δ)) :
    Prop where
  length : results.length = min k stored.length
  distinct : (results.map VlResult.id).Nodup
  ordered : results.Pairwise fun a b => a.distance ≤ b.distance
  own : ∀ r ∈ results, ∃ v ∈ stored, r = ⟨db.chunksOf (vl.vectorPath v.1), v.1,
    distance (v.2.take vl.vecBytes), v.2.drop vl.vecBytes⟩
  closest : ∀ v ∈ stored, v.1 ∉ results.map VlResult.id →
    ∀ r ∈ results, r.distance ≤ distance (v.2.take vl.vecBytes)

/-- For every distance and number of results the search ends and is exact. -/
def SearchIsExact (db : Db) (vl : VectorLayer) (stored : List (Bytes × Bytes)) : Prop :=
  ∀ (δ : Type) [LinearOrder δ] (qsort : HitSort δ) (distance : Bytes → δ) (k : Nat), 1 ≤ k →
    ∃ n, ∀ fuel, n ≤ fuel → ∃ results,
      vectorFlatSearchSync db vl distance qsort k fuel = some results ∧
        Exact db vl stored distance k results

def VectorLayer.Scans (db : Db) (p : List Bytes) : Prop :=
  db.ScansRange
    (boundPath db.chunkSize (vlKeyVector vl.indexName vl.delimiter []) vl.delimiter)
    (boundPath db.chunkSize (vlKeyVector vl.indexName vl.delimiter [0x7f]) vl.delimiter) p

section Proofs

variable {δ : Type} {db : Db} {vl : VectorLayer} {stored : List (Bytes × Bytes)} {id : Bytes}
  {depth : Nat} {distance : Bytes → δ} {hits : List (VlFlatHit δ)}

theorem idOfKey_append {d : UInt8} (text : Bytes) (h : d ∉ id) :
    idOfKey d (text ++ d :: id) = id := by
  have hpos : ∀ b ∈ id.reverse, decide (b ≠ d) = true := by
    intro b hb
    rw [decide_eq_true_eq]
    rintro rfl
    exact h (mem_reverse.mp hb)
  rw [idOfKey, if_pos (mem_append_right _ mem_cons_self), rtakeWhile,
    reverse_append, reverse_cons, append_assoc, takeWhile_append_of_pos hpos]
  simp

theorem VectorLayer.IsId.vectorPath (h : vl.IsId id) :
    vl.vectorPath id = vl.vectorPath [] ++ [id] := by
  have hstem : ∀ id, vl.vectorPath id = rawSegments vl.delimiter [] ((ascii "vec".toList ++
      vl.delimiter :: vl.indexName) ++ vl.delimiter :: ascii "vector".toList) ++
        rawSegments vl.delimiter [] id := rawSegments_append _ _
  have hnil : rawSegments vl.delimiter [] [] = [] := rfl
  rw [hstem, hstem, rawSegments_eq_self h.nonempty h.delimiterFree, hnil, append_nil]

/-- `vec` has two different bytes, so that one is no delimiter. -/
theorem vectorPath_nil_ne_nil (vl : VectorLayer) : vl.vectorPath [] ≠ [] := by
  intro hnil
  have hbytes := @flatten_rawSegments vl.delimiter [] (vlKeyVector vl.indexName vl.delimiter [])
  rw [← VectorLayer.vectorPath, hnil] at hbytes
  have hall := filter_eq_nil_iff.mp (append_eq_nil_iff.mp hbytes.symm).2
  have hv := hall 118 (by simp [vlKeyVector, ascii])
  have he := hall 101 (by simp [vlKeyVector, ascii])
  simp only [bne_iff_ne, not_not] at hv he
  exact absurd (hv.trans he.symm) (by decide)

theorem VectorLayer.IsId.read (h : vl.IsId id) (cs : ChunkSize) : idOfKey vl.delimiter
      ([vl.delimiter].intercalate ((vl.vectorPath id).map (reportedComponent cs))) = id := by
  obtain ⟨first, rest, hstem⟩ := exists_cons_of_ne_nil (vectorPath_nil_ne_nil vl)
  rw [h.vectorPath, hstem, map_append, map_singleton, reportedComponent, if_neg h.nonempty,
    map_cons, cons_append, intercalate_concat, idOfKey_append _ h.delimiterFree]

def VectorLayer.storedHit (vl : VectorLayer) (db : Db) (distance : Bytes → δ) (v : Bytes × Bytes) :
    VlFlatHit δ :=
  ⟨db.chunksOf (vl.vectorPath v.1), distance (v.2.take vl.vecBytes), v.1, v.2⟩

theorem VectorLayer.IsId.result (h : vl.IsId id) (value : Bytes) (distance : Bytes → δ) :
    vl.result (vl.storedHit db distance (id, value)) = ⟨db.chunksOf (vl.vectorPath id), id,
      distance (value.take vl.vecBytes), value.drop vl.vecBytes⟩ := by
  have hwhole : id.takeWhile (· ≠ 0) = id := by
    refine takeWhile_eq_self_iff.mpr fun b hb => decide_eq_true ?_
    rintro rfl
    exact h.nulFree hb
  rw [VectorLayer.result, storedHit, hwhole]

/-- A key that the scan returns, and what the loop over the results makes of it. -/
def VectorLayer.IsHit (vl : VectorLayer) (db : Db) (distance : Bytes → δ) (h : VlFlatHit δ) :
    Prop :=
  ∃ p value, db.Shows p value ∧ vl.vecBytes ≤ value.length ∧ vl.Scans db p ∧
    h = ⟨db.chunksOf p, distance (value.take vl.vecBytes), idOfKey vl.delimiter
      ([vl.delimiter].intercalate (p.map (reportedComponent db.chunkSize))), value⟩

theorem scanned_hits (hdb : db.Ok depth) (distance : Bytes → δ) : ∃ hits n, (∀ fuel, n ≤ fuel →
        (vl.scanVectors db fuel).map (filterMap (vl.hit distance)) = some hits) ∧
      (hits.map VlFlatHit.source).Nodup ∧ ∀ h, h ∈ hits ↔ vl.IsHit db distance h := by
  obtain ⟨results, n, hn, hsorted, hmem⟩ := rawScan_results hdb
    (vlKeyVector vl.indexName vl.delimiter []) (vlKeyVector vl.indexName vl.delimiter [0x7f])
    vl.delimiter
  have hsource : ∀ r h, vl.hit distance r = some h → h.source = r.source := by
    intro r h hhit
    rw [VectorLayer.hit] at hhit
    split at hhit
    · cases hhit
    · exact congrArg VlFlatHit.source (some.inj hhit).symm
  refine ⟨results.filterMap (vl.hit distance), n, fun fuel hfuel => ?_, ?_, fun h => ?_⟩
  · rw [VectorLayer.scanVectors, hn fuel hfuel, map_some]
  · refine pairwise_map.mpr (pairwise_filterMap.mpr (hsorted.imp ?_))
    intro a b hlt h hh h' hh' heq
    rw [hsource a h hh, hsource b h' hh'] at heq
    exact hlt.ne heq
  · rw [mem_filterMap]
    constructor
    · rintro ⟨r, hr, hhit⟩
      obtain ⟨p, value, hshows, hscans, rfl⟩ := (hmem r).mp hr
      rw [VectorLayer.hit] at hhit
      split at hhit
      · cases hhit
      · next hlong => exact ⟨p, value, hshows, not_lt.mp hlong, hscans, (some.inj hhit).symm⟩
    · rintro ⟨p, value, hshows, hlong, hscans, rfl⟩
      exact ⟨_, (hmem _).mpr ⟨p, value, hshows, hscans, rfl⟩, if_neg (not_lt.mpr hlong)⟩

/-- The scan returns the vectors and no other key that is long enough. -/
def VectorLayer.ScansVectors (vl : VectorLayer) (db : Db) : Prop :=
  ∀ p value, db.Shows p value → vl.vecBytes ≤ value.length →
    (vl.Scans db p ↔ ∃ id, vl.IsId id ∧ p = vl.vectorPath id)

theorem VectorLayer.Holds.nodup_hits (h : vl.Holds db stored) :
    ((stored.map (vl.storedHit db distance)).map VlFlatHit.id).Nodup := by
  rw [List.map_map]
  exact h.nodup

theorem perm_storedHits (hstored : vl.Holds db stored) (hscans : vl.ScansVectors db)
    (hnodup : (hits.map VlFlatHit.source).Nodup) (hmem : ∀ h, h ∈ hits ↔ vl.IsHit db distance h) :
    hits.Perm (stored.map (vl.storedHit db distance)) := by
  refine (perm_ext_iff_of_nodup hnodup.of_map hstored.nodup_hits.of_map).mpr fun h => ?_
  rw [hmem, List.mem_map]
  constructor
  · rintro ⟨p, value, hshows, hlong, hscanned, rfl⟩
    obtain ⟨id, hid, rfl⟩ := (hscans p value hshows hlong).mp hscanned
    refine ⟨(id, value), (hstored.mem_iff id value).mpr ⟨hid, hshows, hlong⟩, ?_⟩
    rw [hid.read, VectorLayer.storedHit]
  · rintro ⟨⟨id, value⟩, hv, rfl⟩
    obtain ⟨hid, hshows, hlong⟩ := (hstored.mem_iff id value).mp hv
    refine ⟨_, value, hshows, hlong, (hscans _ _ hshows hlong).mpr ⟨id, hid, rfl⟩, ?_⟩
    rw [hid.read, VectorLayer.storedHit]

theorem exact_take [LinearOrder δ] (hstored : vl.Holds db stored)
    (hperm : hits.Perm (stored.map (vl.storedHit db distance)))
    (hsorted : hits.Pairwise fun a b => a.dist ≤ b.dist) (k : Nat) :
    Exact db vl stored distance k ((hits.take k).map vl.result) := by
  have hhit : ∀ h ∈ hits, ∃ v ∈ stored, h = vl.storedHit db distance v ∧
      vl.result h = ⟨db.chunksOf (vl.vectorPath v.1), v.1, distance (v.2.take vl.vecBytes),
        v.2.drop vl.vecBytes⟩ := by
    intro h hh
    obtain ⟨⟨id, value⟩, hv, rfl⟩ := mem_map.mp (hperm.mem_iff.mp hh)
    exact ⟨_, hv, rfl, ((hstored.mem_iff id value).mp hv).1.result value distance⟩
  have hids : ((hits.take k).map vl.result).map VlResult.id = (hits.take k).map VlFlatHit.id := by
    rw [List.map_map]
    refine map_congr_left fun h hh => ?_
    obtain ⟨v, -, heq, hresult⟩ := hhit h (mem_of_mem_take hh)
    rw [Function.comp_apply, hresult, heq]
    rfl
  constructor
  · rw [length_map, length_take, hperm.length_eq, length_map]
  · rw [hids]
    have hall : (hits.map VlFlatHit.id).Nodup := (hperm.map _).nodup_iff.mpr hstored.nodup_hits
    exact hall.sublist ((take_sublist k hits).map _)
  · exact pairwise_map.mpr (hsorted.sublist (take_sublist k hits))
  · intro r hr
    obtain ⟨h, hh, rfl⟩ := mem_map.mp hr
    obtain ⟨v, hv, -, hresult⟩ := hhit h (mem_of_mem_take hh)
    exact ⟨v, hv, hresult⟩
  · intro v hv hout r hr
    obtain ⟨h, hh, rfl⟩ := mem_map.mp hr
    have hmem : vl.storedHit db distance v ∈ hits.take k ++ hits.drop k := by
      rw [take_append_drop]
      exact hperm.mem_iff.mpr (mem_map_of_mem hv)
    rw [← take_append_drop k hits, pairwise_append] at hsorted
    rcases mem_append.mp hmem with hin | hrest
    · rw [hids] at hout
      exact absurd (mem_map_of_mem hin) hout
    · exact hsorted.2.2 h hh _ hrest

def unitSort : HitSort Unit where
  sort hits := hits
  perm _ := .refl _
  sorted _ := List.pairwise_of_forall fun _ _ => le_rfl

/-- A search that asks for everything shows which keys the scan returns. -/
theorem scansVectors_of_exact (hdb : db.Ok depth) (hstored : vl.Holds db stored)
    (h : SearchIsExact db vl stored) : vl.ScansVectors db := by
  obtain ⟨hits, m, hm, -, hmem⟩ := @scanned_hits Unit db vl depth hdb fun _ => ()
  obtain ⟨n, hn⟩ := h Unit unitSort (fun _ => ()) (hits.length + stored.length + 1) (by omega)
  obtain ⟨results, hsearch, hexact⟩ := hn (max n m) (le_max_left _ _)
  obtain ⟨scanned, hscan, hhits⟩ := map_eq_some_iff.mp (hm (max n m) (le_max_right _ _))
  have hresults : results = hits.map vl.result := by
    rw [vectorFlatSearchSync, hscan, map_some, hhits] at hsearch
    rw [← some.inj hsearch]
    exact congrArg (map _) (take_of_length_le (by show hits.length ≤ _; omega))
  have hpath : ∀ p value, db.Shows p value → ∀ v ∈ stored,
      db.chunksOf p = db.chunksOf (vl.vectorPath v.1) → p = vl.vectorPath v.1 := by
    intro p value hp v hv heq
    exact hp.unique ((hstored.mem_iff v.1 v.2).mp hv).2.1 heq
  intro p value hshows hlong
  constructor
  · intro hscans
    have hr := mem_map_of_mem (f := vl.result) ((hmem _).mpr ⟨p, value, hshows, hlong, hscans, rfl⟩)
    obtain ⟨v, hv, heq⟩ := hexact.own _ (hresults ▸ hr)
    refine ⟨v.1, ((hstored.mem_iff v.1 v.2).mp hv).1, hpath p value hshows v hv ?_⟩
    exact congrArg VlResult.source heq
  · rintro ⟨id, hid, rfl⟩
    -- as many distinct ids as there are vectors, so that none is missing
    have hsubset : results.map VlResult.id ⊆ stored.map Prod.fst := by
      intro x hx
      obtain ⟨r, hr, rfl⟩ := List.mem_map.mp hx
      obtain ⟨v, hv, rfl⟩ := hexact.own r hr
      exact List.mem_map_of_mem hv
    have hlength : (stored.map Prod.fst).length ≤ (results.map VlResult.id).length := by
      rw [length_map, length_map, hexact.length]
      omega
    have hperm := (subperm_of_subset hexact.distinct hsubset).perm_of_length_le hlength
    have hv := (hstored.mem_iff id value).mpr ⟨hid, hshows, hlong⟩
    obtain ⟨r, hr, hrid⟩ := List.mem_map.mp (hperm.mem_iff.mpr (mem_map_of_mem hv))
    obtain ⟨v, hv', rfl⟩ := hexact.own r hr
    obtain ⟨hit, hhit, heq⟩ := mem_map.mp (hresults ▸ hr)
    obtain ⟨q, value', hq, -, hscans, rfl⟩ := (hmem hit).mp hhit
    have hsame := hpath q value' hq v hv' (congrArg VlResult.source heq)
    rw [show id = v.1 from hrid.symm, ← hsame]
    exact hscans

end Proofs

/-- The search in a flat index is exact, for every distance and number of results, exactly if its
scan returns the vectors and no other key with a value that is long enough. -/
theorem flat_search_exact_iff (db : Db) (depth : Nat) (hdb : db.Ok depth) (vl : VectorLayer)
    (stored : List (Bytes × Bytes)) (hstored : vl.Holds db stored) :
    SearchIsExact db vl stored ↔
      ∀ p value, db.Shows p value → vl.vecBytes ≤ value.length →
        (vl.Scans db p ↔ ∃ id, vl.IsId id ∧ p = vl.vectorPath id) := by
  constructor
  · exact scansVectors_of_exact hdb hstored
  · intro hscans δ _ qsort distance k _
    obtain ⟨hits, n, hn, hnodup, hmem⟩ := @scanned_hits δ db vl depth hdb distance
    refine ⟨n, fun fuel hfuel => ⟨((qsort.sort hits).take k).map vl.result, ?_, ?_⟩⟩
    · obtain ⟨scanned, hscan, rfl⟩ := map_eq_some_iff.mp (hn fuel hfuel)
      rw [vectorFlatSearchSync, hscan, map_some]
    · have hperm := (qsort.perm hits).trans (perm_storedHits hstored hscans hnodup hmem)
      exact exact_take hstored hperm (qsort.sorted hits) k

/-! ### Examples -/

/-- The index `x` of numbers. -/
def numbers : VectorLayer := ⟨[120], 47, 1⟩

def floatOne : Bytes := [0, 0, 128, 63]

def vectorDb (id : Bytes) : Db :=
  memoryDb [.insert (pathOf defaultChunkSize (numbers.vectorPath id)) floatOne ⟨0, 0, 1⟩] ⟨0, 0, 1⟩

section VectorDb

variable {id : Bytes} (hsafe : SafeRun defaultConfig noLoader
  [.insert (pathOf defaultChunkSize (numbers.vectorPath id)) floatOne ⟨0, 0, 1⟩])

include hsafe

theorem trieFrom_vectorDb :
    TrieFrom defaultChunkSize noLoader {numbers.vectorPath id} (vectorDb id).root := by
  refine trieFrom_runOps hsafe fun op hop => ?_
  rw [mem_singleton.mp hop]
  exact ⟨_, rfl, rfl⟩

theorem vectorDb_ok : ∃ depth, (vectorDb id).Ok depth :=
  ok_of_trieFrom (trieFrom_vectorDb hsafe) rfl

theorem vectorDb_stores {p : List Bytes} {content : Content}
    (hp : (vectorDb id).Stores p content) : p = numbers.vectorPath id :=
  Set.mem_singleton_iff.mp (mem_of_stores (trieFrom_vectorDb hsafe) hp)

theorem vectorDb_holds (hid : numbers.IsId id)
    (hitem : itemAt noLoader (vectorDb id).root ((vectorDb id).chunksOf (numbers.vectorPath id)) =
      some (.legacy floatOne ⟨0, 0, 1⟩,
        pathMetadata (pathOf defaultChunkSize (numbers.vectorPath id)))) :
    numbers.Holds (vectorDb id) [(id, floatOne)] := by
  have hstores : (vectorDb id).Stores (numbers.vectorPath id) (.legacy floatOne ⟨0, 0, 1⟩) :=
    ⟨_, hitem, rfl, .inl rfl⟩
  refine ⟨nodup_singleton _, fun other value => ?_⟩
  rw [mem_singleton]
  constructor
  · rintro ⟨⟩
    exact ⟨hid, ⟨_, hstores, rfl⟩, by decide⟩
  · rintro ⟨hother, ⟨content, hp, hshown⟩, -⟩
    have hpath := vectorDb_stores hsafe hp
    obtain ⟨-, rfl⟩ := hp.unique hstores (congrArg _ hpath)
    rw [hother.vectorPath, hid.vectorPath] at hpath
    obtain ⟨⟩ := append_cancel_left hpath
    obtain ⟨⟩ := hshown
    rfl

end VectorDb

theorem vector_a_safe : SafeRun defaultConfig noLoader
    [.insert (pathOf defaultChunkSize (numbers.vectorPath [97])) floatOne ⟨0, 0, 1⟩] :=
  ⟨by decide +kernel, by decide +kernel⟩

/-- The vector `a` is found. -/
theorem flat_search_exact_a : (∃ depth, (vectorDb [97]).Ok depth) ∧
      numbers.Holds (vectorDb [97]) [([97], floatOne)] ∧
      SearchIsExact (vectorDb [97]) numbers [([97], floatOne)] := by
  have hid : numbers.IsId [97] := ⟨by decide, by decide, by decide⟩
  obtain ⟨depth, hdb⟩ := vectorDb_ok vector_a_safe
  have hholds := vectorDb_holds vector_a_safe hid (by decide +kernel)
  refine ⟨⟨depth, hdb⟩, hholds, (flat_search_exact_iff _ depth hdb numbers _ hholds).mpr ?_⟩
  rintro p value ⟨content, hp, -⟩ -
  obtain rfl := vectorDb_stores vector_a_safe hp
  refine ⟨fun _ => ⟨[97], hid, rfl⟩, fun _ =>
    ⟨by decide +kernel, by decide +kernel, fun q content hq _ hlt => ?_⟩⟩
  · rw [vectorDb_stores vector_a_safe hq] at hlt
    exact absurd hlt (lt_irrefl _)

theorem vector_accent_safe : SafeRun defaultConfig noLoader
    [.insert (pathOf defaultChunkSize (numbers.vectorPath [0xc3, 0xa9])) floatOne ⟨0, 0, 1⟩] :=
  ⟨by decide +kernel, by decide +kernel⟩

/-- The vector `é`, which begins with the byte `0xc3`, is not scanned. -/
theorem flat_search_misses_id : (∃ depth, (vectorDb [0xc3, 0xa9]).Ok depth) ∧
      numbers.Holds (vectorDb [0xc3, 0xa9]) [([0xc3, 0xa9], floatOne)] ∧
      numbers.scanVectors (vectorDb [0xc3, 0xa9]) 30 = some [] ∧
      ¬ SearchIsExact (vectorDb [0xc3, 0xa9]) numbers [([0xc3, 0xa9], floatOne)] := by
  have hid : numbers.IsId [0xc3, 0xa9] := ⟨by decide, by decide, by decide⟩
  obtain ⟨depth, hdb⟩ := vectorDb_ok vector_accent_safe
  have hholds := vectorDb_holds vector_accent_safe hid (by decide +kernel)
  refine ⟨⟨depth, hdb⟩, hholds, by decide +kernel, fun h => ?_⟩
  obtain ⟨-, hshows, hlong⟩ := (hholds.mem_iff _ _).mp (mem_singleton_self _)
  obtain ⟨⟨-, hend⟩, -⟩ := (scansVectors_of_exact hdb hholds h _ _ hshows hlong).mpr ⟨_, hid, rfl⟩
  exact absurd (hend _ rfl) (by decide +kernel)

end WaveDB.Vector
