import WaveDB.Database.Scan

/-!
Scans without bounds.

`buildPath_recorded` gives the path that is reported for a value whose metadata are those of its
path. `unbounded_scans_complete`: over a trie in memory a scan without bounds reports every
visible key once with its own components, in the order of the chunk sequences, and a reverse scan
reports the same list backwards.
-/

namespace WaveDB.Database

open WaveDB.Basis HBTrie Workers List

/-! ### Reported paths -/

/-- The component that is reported for one of the stored path: a byte length of 0 counts as
missing. -/
def reportedComponent (cs : ChunkSize) (data : Bytes) : Bytes :=
  if data = [] then List.replicate cs.size 0 else data

section Paths

variable {cs : ChunkSize}

theorem buildIdentifierFromChunks_create (data : Bytes) :
    buildIdentifierFromChunks cs (identifierCreate data cs).chunks data.length =
      identifierCreate (reportedComponent cs data) cs := by
  have hcount : (identifierCreate data cs).chunks.length * cs.size =
      identifierCalcNchunk data.length cs * cs.size := by simp [identifierCreate]
  rw [buildIdentifierFromChunks, if_neg (identifierCreate_chunks_ne_nil cs data), hcount,
    identifierCreate_bytes, zeroPadded, reportedComponent]
  by_cases hdata : data = []
  · subst hdata
    simp [identifierCalcNchunk]
  · have hpos : 0 < data.length := length_pos_iff.mpr hdata
    simp only [hpos, length_le_nchunk, and_self, if_true, hdata, if_false, take_left]

variable (p : List Bytes)

theorem buildIdentifiers_recorded :
    buildIdentifiers cs (pathChunks (pathOf cs p)) (pathMetadata (pathOf cs p)) =
      pathOf cs (p.map (reportedComponent cs)) := by
  induction p with
  | nil => rfl
  | cons data p ih =>
    change buildIdentifierFromChunks cs
        (((identifierCreate data cs).chunks ++ pathChunks (pathOf cs p)).take _) data.length ::
      buildIdentifiers cs (((identifierCreate data cs).chunks ++
        pathChunks (pathOf cs p)).drop _) (pathMetadata (pathOf cs p)) = _
    rw [take_left, drop_left, ih, buildIdentifierFromChunks_create]
    rfl

theorem length_pathChunks_take (k : Nat) :
    (((pathMetadata (pathOf cs p)).take k).map PathSubscriptMeta.chunkCount).sum =
      (pathChunks (pathOf cs (p.take k))).length := by
  rw [pathMetadata, pathOf, pathOf, pathChunks, length_flatMap, map_take, map_take, map_take]
  simp [Function.comp_def]

theorem pathChunks_drop (k : Nat) :
    (pathChunks (pathOf cs p)).drop (pathChunks (pathOf cs (p.take k))).length =
      pathChunks (pathOf cs (p.drop k)) := by
  have hsplit : pathChunks (pathOf cs p) =
      pathChunks (pathOf cs (p.take k)) ++ pathChunks (pathOf cs (p.drop k)) := by
    rw [pathChunks, pathChunks, pathChunks, ← flatMap_append, pathOf, pathOf, pathOf,
      ← map_append, take_append_drop]
  rw [hsplit, drop_left]

theorem buildPath_recorded {item : StoredItem} {p : List Bytes} (hp : p ≠ [])
    (hchunks : pathChunks (pathOf cs p) = item.chunks)
    (hmeta : pathMetadata (pathOf cs p) = item.pathMeta) (k : Nat) :
    buildPath cs k item = pathOf cs ((p.drop k).map (reportedComponent cs)) := by
  have hlength : item.pathMeta.length = p.length := by simp [← hmeta, pathMetadata, pathOf]
  have hne : item.pathMeta ≠ [] := by
    rw [← length_pos_iff, hlength]
    exact length_pos_iff.mpr hp
  have hdrop : p.drop (min k p.length) = p.drop k := by
    rcases Nat.le_total k p.length with h | h
    · rw [Nat.min_eq_left h]
    · rw [Nat.min_eq_right h, drop_length, drop_eq_nil_of_le h]
  have hrest : (pathMetadata (pathOf cs p)).drop (min k p.length) =
      pathMetadata (pathOf cs (p.drop k)) := by
    rw [← hdrop, pathMetadata, pathMetadata, pathOf, pathOf, map_drop, map_drop]
  rw [buildPath, if_neg hne, hlength, ← hmeta, ← hchunks]
  simp only
  rw [length_pathChunks_take, pathChunks_drop, hdrop, hrest, buildIdentifiers_recorded]

theorem map_reportedComponent {p : List Bytes} (h : ∀ data ∈ p, data ≠ []) :
    p.map (reportedComponent cs) = p := by
  refine (map_congr_left fun data hdata => ?_).trans (map_id p)
  rw [reportedComponent, if_neg (h data hdata)]
  rfl

end Paths

/-! ### Scans without bounds -/

def shownAt (load : Loader) (root : HbtrieNode) (readTxnId : TransactionId) (chunks : List Chunk) :
    Option Bytes :=
  (itemAt load root chunks).bind fun item => shownValue readTxnId item.1

def reportOf (cs : ChunkSize) (readTxnId : TransactionId) (i : StoredItem) : Option ScanResult :=
  (shownValue readTxnId i.content).map fun value => ⟨i.chunks, buildPath cs 0 i, value⟩

section Unbounded

variable {db : Db} {depth : Nat}

theorem sift_unbounded (cs : ChunkSize) (readTxnId : TransactionId) (position : ReversePosition)
    (is : List StoredItem) :
    sift (judgeNext cs ⟨none, none, readTxnId, 0, position⟩) (is.map leafOf) =
        is.filterMap (reportOf cs readTxnId) ∧
      sift (judgePrev cs ⟨none, none, readTxnId, 0, position⟩) (is.map leafOf) =
        is.filterMap (reportOf cs readTxnId) := by
  induction is with
  | nil => exact ⟨rfl, rfl⟩
  | cons i is ih =>
    rw [map_cons, sift, sift, filterMap_cons, ih.1, ih.2, reportOf]
    cases hshown : shownValue readTxnId i.content with
    | none | some value =>
      simp [judgeNext, judgePrev, leafOf, hshown, withinBounds, withinBoundsReverse]

/-- Over any trie of bounded depth, a scan without bounds reports on every item in order. -/
theorem scanAll_unbounded (h : Within db.load depth db.root.btree) : ∃ n, ∀ fuel, n ≤ fuel →
      scanAll db fuel (databaseScanStart db none none) =
          some ((items db.load depth [] db.root.btree).filterMap
            (reportOf db.chunkSize (scanReadTxnId db))) ∧
        scanAllReverse db fuel (databaseScanStartReverse db none none) =
          some ((items db.load depth [] db.root.btree).filterMap
            (reportOf db.chunkSize (scanReadTxnId db))).reverse := by
  have hnext : Visits (databaseScanNextMove db.chunkSize db.load) (databaseScanStart db none none)
      _ := visits_scanNext rfl (visits_all h)
  have hprev : Visits (databaseScanPrevMove db.chunkSize db.load)
      (databaseScanStartReverse db none none) _ := visits_scanPrev (visits_all_reverse h)
  rw [databaseScanStart, (sift_unbounded _ _ _ _).1] at hnext
  rw [databaseScanStartReverse, ← map_reverse, (sift_unbounded _ _ _ _).2, filterMap_reverse]
    at hprev
  obtain ⟨n, hn⟩ := hnext.collect
  obtain ⟨m, hm⟩ := hprev.collect
  exact ⟨max n m, fun fuel hfuel =>
    ⟨hn fuel (le_trans (le_max_left _ _) hfuel), hm fuel (le_trans (le_max_right _ _) hfuel)⟩⟩

end Unbounded

/-- Over a trie in memory both scans terminate and report exactly the visible keys, each once and
with its own components: the forward scan in the order of the chunk sequences, the reverse scan
backwards. -/
theorem unbounded_scans_complete (db : Db) (paths : Set (List Bytes)) (hmemory : db.load = noLoader)
    (htrie : TrieFrom db.chunkSize db.load paths db.root)
    (hdistinct : ∀ p ∈ paths, ∀ q ∈ paths,
      pathChunks (pathOf db.chunkSize p) = pathChunks (pathOf db.chunkSize q) → p = q)
    (hnonempty : ∀ p ∈ paths, ∀ data ∈ p, data ≠ []) :
    ∃ results n,
      (∀ fuel, n ≤ fuel →
        scanAll db fuel (databaseScanStart db none none) = some results ∧
          scanAllReverse db fuel (databaseScanStartReverse db none none) = some results.reverse) ∧
      results.Pairwise (fun a b => pathChunks a.path < pathChunks b.path) ∧
      ∀ r : ScanResult, r ∈ results ↔ ∃ p ∈ paths,
        r.source = pathChunks (pathOf db.chunkSize p) ∧ r.path = pathOf db.chunkSize p ∧
          shownAt db.load db.root (scanReadTxnId db) (pathChunks (pathOf db.chunkSize p)) =
            some r.value := by
  obtain ⟨depth, hwithin⟩ := within_noLoader db.root.btree
  rw [← hmemory] at hwithin
  have hwalk : Walkable db.load depth db.root := ⟨htrie.trie, htrie.plain, hwithin⟩
  obtain ⟨n, hn⟩ := scanAll_unbounded hwithin
  -- The report on an item is its own path.
  have hreport : ∀ i ∈ items db.load depth [] db.root.btree, ∀ r,
      reportOf db.chunkSize (scanReadTxnId db) i = some r →
      ∃ p ∈ paths, pathChunks (pathOf db.chunkSize p) = i.chunks ∧
        r.source = i.chunks ∧ r.path = pathOf db.chunkSize p ∧
        itemAt db.load db.root i.chunks = some (i.content, i.pathMeta) ∧
        shownValue (scanReadTxnId db) i.content = some r.value := by
    intro i hi r hr
    obtain ⟨value, hshown, rfl⟩ := Option.map_eq_some_iff.mp hr
    obtain ⟨chunks, hchunks, hitem⟩ := (mem_items hwalk).mp hi
    subst hchunks
    obtain ⟨p, hp, hflat, hmeta⟩ := htrie.recorded _ _ _ hitem
    have hne : p ≠ [] := by
      rintro rfl
      rw [← hflat] at hitem
      cases hitem
    refine ⟨p, hp, hflat, rfl, ?_, hitem, hshown⟩
    rw [buildPath_recorded hne hflat hmeta, drop_zero, map_reportedComponent (hnonempty p hp)]
  refine ⟨_, n, hn, ?_, fun r => ?_⟩
  · rw [pairwise_filterMap]
    refine (items_ascending hwalk []).imp_of_mem ?_
    intro i j hi hj hlt a ha b hb
    obtain ⟨p, -, hp, -, hpath, -⟩ := hreport i hi a ha
    obtain ⟨q, -, hq, -, hpath', -⟩ := hreport j hj b hb
    rwa [hpath, hpath', hp, hq]
  · rw [mem_filterMap]
    constructor
    · rintro ⟨i, hi, hr⟩
      obtain ⟨p, hp, hflat, hsource, hpath, hitem, hshown⟩ := hreport i hi r hr
      refine ⟨p, hp, hsource.trans hflat.symm, hpath, ?_⟩
      rw [shownAt, hflat, hitem]
      exact hshown
    · rintro ⟨p, hp, hsource, hpath, hshown⟩
      obtain ⟨⟨content, pathMeta⟩, hitem, hshown⟩ := Option.bind_eq_some_iff.mp hshown
      have hi : (⟨pathChunks (pathOf db.chunkSize p), content, pathMeta⟩ : StoredItem) ∈
          items db.load depth [] db.root.btree := (mem_items hwalk).mpr ⟨_, rfl, hitem⟩
      refine ⟨_, hi, ?_⟩
      rw [reportOf, hshown, Option.map_some]
      obtain ⟨q, hq, hflat, -, hpath', -⟩ := hreport _ hi ⟨_, _, r.value⟩
        (by rw [reportOf, hshown, Option.map_some])
      rw [hdistinct q hq p hp hflat] at hpath'
      obtain ⟨source, path, value⟩ := r
      simp only at hsource hpath hpath'
      rw [hsource, hpath, hpath']

/-! ### An example -/

def memoryDb (ops : List TrieOp) (lastCommitted : TransactionId) : Db where
  chunkSize := defaultChunkSize
  load := noLoader
  root := runOps defaultConfig noLoader ops
  syncOnly := false
  lastCommitted := lastCommitted

def familyPaths : Set (List Bytes) :=
  {p | p = [[97, 98, 99, 100]] ∨ p = [[97, 98, 99, 100], [101, 102, 103, 104]]}

theorem trieFrom_familyWrites : TrieFrom defaultChunkSize noLoader familyPaths
    (runOps defaultConfig noLoader familyWrites) := by
  refine trieFrom_runOps ⟨by decide, by decide⟩ ?_
  intro op hop
  simp only [familyWrites, mem_cons, not_mem_nil, or_false] at hop
  rcases hop with rfl | rfl | rfl
  · exact ⟨_, .inl rfl, rfl⟩
  · exact ⟨_, .inr rfl, rfl⟩
  · exact ⟨_, .inl rfl, rfl⟩

/-- The value below the tombstone is reported. -/
theorem unbounded_scans_complete_family : ∃ results n,
      (∀ fuel, n ≤ fuel →
        scanAll (memoryDb familyWrites ⟨0, 0, 3⟩) fuel
            (databaseScanStart (memoryDb familyWrites ⟨0, 0, 3⟩) none none) = some results ∧
          scanAllReverse (memoryDb familyWrites ⟨0, 0, 3⟩) fuel
            (databaseScanStartReverse (memoryDb familyWrites ⟨0, 0, 3⟩) none none) =
              some results.reverse) ∧
      ⟨pathChunks childPath, childPath, [2]⟩ ∈ results := by
  obtain ⟨results, n, hn, -, hmem⟩ := unbounded_scans_complete
    (memoryDb familyWrites ⟨0, 0, 3⟩) familyPaths rfl trieFrom_familyWrites
    (by rintro p (rfl | rfl) q (rfl | rfl) h <;> first | rfl | exact absurd h (by decide))
    (by rintro p (rfl | rfl) <;> decide)
  refine ⟨results, n, hn, (hmem _).mpr ⟨_, .inr rfl, rfl, rfl, ?_⟩⟩
  decide +kernel

end WaveDB.Database
