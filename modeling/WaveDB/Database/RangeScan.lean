import WaveDB.Database.StartSeek

/-!
Bounded forward scans.

The walk goes by the concatenated chunks of a path and the bounds are compared component by
component. `range_scan_exact_iff` says when a bounded scan returns exactly its range: for every
key in it the seek must not pass the key, no stored key on the way may be at or behind the end
path, and no component may be empty.
-/

namespace WaveDB.Database

open WaveDB.Basis HBTrie Workers List

/-- A database whose trie has bounded depth, search trees for its B+trees, and a key for every
value: no split has put the halves of a leaf in the wrong order. -/
structure Db.Ok (db : Db) (depth : Nat) : Prop where
  walk : Walkable db.load depth db.root
  keyed : Keyed db.chunkSize db.load db.root

variable (db : Db)

def Db.chunksOf (p : List Bytes) : List Chunk := pathChunks (pathOf db.chunkSize p)

def Db.Stores (p : List Bytes) (content : Content) : Prop :=
  ∃ pathMeta, itemAt db.load db.root (db.chunksOf p) = some (content, pathMeta) ∧
    IsKeyOf db.chunkSize (db.chunksOf p) pathMeta p

def Db.Shows (p : List Bytes) (value : Bytes) : Prop :=
  ∃ content, db.Stores p content ∧ shownValue (scanReadTxnId db) content = some value

/-- `start <= path < end` under `path_compare`. -/
def InRange (startPath endPath : Option Path) (path : Path) : Prop :=
  (∀ bound ∈ startPath, 0 ≤ pathCompare path bound) ∧ ∀ bound ∈ endPath, pathCompare path bound < 0

instance (startPath endPath : Option Path) (path : Path) :
    Decidable (InRange startPath endPath path) :=
  inferInstanceAs (Decidable (_ ∧ _))

/-- With enough fuel the scan returns the expected keys with their values, each once. -/
def ReturnsExactly (scan : Nat → Option (List ScanResult)) (expected : List Bytes → Bytes → Prop) :
    Prop :=
  ∃ results n, (∀ fuel, n ≤ fuel → scan fuel = some results) ∧ results.Nodup ∧
    ∀ r, r ∈ results ↔ ∃ p value, expected p value ∧
      r = ⟨db.chunksOf p, pathOf db.chunkSize p, value⟩

/-! ### Reported keys -/

section Keys

variable {cs : ChunkSize} {i : StoredItem} {p : List Bytes}

theorem length_flatMap_chunks {chunks : List Chunk} (h : ∀ c ∈ chunks, c.size = cs.size) :
    (chunks.flatMap Chunk.data).length = chunks.length * cs.size := by
  have hsizes : chunks.map (fun c => c.data.length) = chunks.map fun _ => cs.size :=
    map_congr_left h
  rw [length_flatMap, hsizes, map_const', sum_replicate_nat]

theorem buildPath_key (hne : i.chunks ≠ []) (h : IsKeyOf cs i.chunks i.pathMeta p) :
    buildPath cs 0 i = pathOf cs (p.map (reportedComponent cs)) := by
  obtain ⟨hchunks, hmeta | ⟨hnil, hp⟩⟩ := h
  · have hp : p ≠ [] := by
      rintro rfl
      exact hne hchunks.symm
    rw [buildPath_recorded hp hchunks hmeta, drop_zero]
  · have hsize : ∀ c ∈ i.chunks, c.size = cs.size := by
      intro c hc
      rw [← hchunks, hp, pathOf, map_singleton, pathChunks, flatMap_singleton] at hc
      exact identifierCreate_chunk_size cs _ c hc
    have hlength := length_flatMap_chunks hsize
    have hbytes : i.chunks.flatMap Chunk.data ≠ [] := by
      rw [← length_pos_iff, hlength]
      exact Nat.mul_pos (length_pos_iff.mpr hne) cs.pos
    rw [buildPath, if_pos hnil, buildIdentifierFromChunks, if_neg hne, hp, map_singleton,
      reportedComponent, if_neg hbytes]
    simp only [Nat.lt_irrefl, false_and, if_false, ← hlength, take_length]
    rfl

theorem identifierCreate_reported (data : Bytes) :
    (identifierCreate (reportedComponent cs data) cs).chunks =
      (identifierCreate data cs).chunks := by
  by_cases hdata : data = []
  · subst hdata
    refine chunks_eq_of_bytes_eq cs (identifierCreate_chunk_size cs _)
      (identifierCreate_chunk_size cs _) ?_
    have hpos := cs.pos
    have hone : identifierCalcNchunk cs.size cs = 1 := by
      unfold identifierCalcNchunk
      rw [if_neg (by omega), Nat.div_eq_of_lt (by omega)]
    have hzero : identifierCalcNchunk 0 cs = 1 := rfl
    simp [identifierCreate_bytes, zeroPadded, reportedComponent, hone, hzero]
  · rw [reportedComponent, if_neg hdata]

theorem componentChunks_reported (p : List Bytes) :
    componentChunks (pathOf cs (p.map (reportedComponent cs))) = componentChunks (pathOf cs p) := by
  rw [componentChunks, componentChunks, pathOf, pathOf, map_map, map_map, map_map]
  exact map_congr_left fun data _ => identifierCreate_reported data

end Keys

/-! ### What a bounded scan reports -/

section Bounds

variable {startPath endPath : Option Path} {path : Path}

theorem boundsCheck_stop (first second : Bool) :
    (if first then BoundsCheck.stop else if second then .skip else .inside) = .stop ↔
      first = true := by
  cases first <;> cases second <;> decide

theorem boundsCheck_inside (first second : Bool) :
    (if first then BoundsCheck.stop else if second then .skip else .inside) = .inside ↔
      first = false ∧ second = false := by
  cases first <;> cases second <;> decide

theorem notBehind : (endPath.any fun bound => decide (0 ≤ pathCompare path bound)) = false ↔
    ∀ bound ∈ endPath, pathCompare path bound < 0 := by simp [Option.any_eq_false]

theorem notBefore : (startPath.any fun bound => decide (pathCompare path bound < 0)) = false ↔
    ∀ bound ∈ startPath, 0 ≤ pathCompare path bound := by simp [Option.any_eq_false]

theorem withinBounds_stop :
    withinBounds startPath endPath path = .stop ↔ ∃ bound ∈ endPath, 0 ≤ pathCompare path bound :=
  (boundsCheck_stop _ _).trans (by simp [Option.any_eq_true])

theorem withinBounds_inside :
    withinBounds startPath endPath path = .inside ↔ InRange startPath endPath path :=
  (boundsCheck_inside _ _).trans ((and_congr notBehind notBefore).trans and_comm)

end Bounds

section Judge

variable {cs : ChunkSize} {iter : DatabaseIterator} {leaf : ScanLeaf} {r : ScanResult}

theorem judgeNext_stop : judgeNext cs iter leaf = .stop ↔
      ∃ bound ∈ iter.endPath, 0 ≤ pathCompare (buildPath cs iter.prefixSkip leaf.collected)
        bound := by
  rw [← @withinBounds_stop iter.startPath, judgeNext]
  cases shownValue iter.readTxnId leaf.collected.content <;>
    cases withinBounds iter.startPath iter.endPath
      (buildPath cs iter.prefixSkip leaf.collected) <;> simp

theorem judgeNext_report : judgeNext cs iter leaf = .report r ↔
      ∃ value, shownValue iter.readTxnId leaf.collected.content = some value ∧
        InRange iter.startPath iter.endPath (buildPath cs iter.prefixSkip leaf.collected) ∧
        r = ⟨leaf.source, buildPath cs iter.prefixSkip leaf.collected, value⟩ := by
  rw [← withinBounds_inside, judgeNext]
  cases shownValue iter.readTxnId leaf.collected.content <;>
    cases withinBounds iter.startPath iter.endPath
      (buildPath cs iter.prefixSkip leaf.collected) <;> simp [eq_comm]

end Judge

/-! ### Leaves and keys -/

/-- The leaves of a walk that comes to the keys of `keep` and reads their chunks by `read`. -/
def Db.leaves (depth : Nat) (keep : List Chunk → Bool) (read : List Chunk → List Chunk) :
    List ScanLeaf :=
  ((items db.load depth [] db.root.btree).filter fun i => keep i.chunks).map fun i =>
    ⟨i.chunks, { i with chunks := read i.chunks }⟩

def Db.pathFrom (skip : Nat) (read : List Chunk → List Chunk) (p : List Bytes) : Path :=
  match itemAt db.load db.root (db.chunksOf p) with
  | none => []
  | some (content, pathMeta) =>
    buildPath db.chunkSize skip ⟨read (db.chunksOf p), content, pathMeta⟩

section Leaves

variable {db : Db} {depth skip : Nat} {keep : List Chunk → Bool} {read : List Chunk → List Chunk}
  {leaf : ScanLeaf} {p : List Bytes} {i : StoredItem} {content : Content}

/-- Two keys with the same chunks are stored in one place, so they are one. -/
theorem Db.Stores.unique {q : List Bytes} {content' : Content} (hp : db.Stores p content)
    (hq : db.Stores q content') (h : db.chunksOf p = db.chunksOf q) :
    p = q ∧ content = content' := by
  obtain ⟨pathMeta, hitem, hkey⟩ := hp
  obtain ⟨pathMeta', hitem', hkey'⟩ := hq
  rw [← h] at hitem' hkey'
  obtain ⟨rfl, rfl⟩ := Prod.mk.inj (Option.some.inj (hitem.symm.trans hitem'))
  refine ⟨hkey.unique (fun hnil => ?_) hkey', rfl⟩
  rw [hnil] at hitem
  cases hitem

theorem Db.Shows.unique {q : List Bytes} {value value' : Bytes} (hp : db.Shows p value)
    (hq : db.Shows q value') (h : db.chunksOf p = db.chunksOf q) : p = q := by
  obtain ⟨content, hp, -⟩ := hp
  obtain ⟨content', hq, -⟩ := hq
  exact (hp.unique hq h).1

theorem mem_map_results {ρ κ : Type} {results : List ρ} {emits : List Bytes → Prop}
    {result : List Bytes → Bytes → ρ} (f : ρ → κ)
    (hmem : ∀ r, r ∈ results ↔ ∃ p value, db.Shows p value ∧ emits p ∧ r = result p value)
    (k : κ) : k ∈ results.map f ↔
      ∃ p value, db.Shows p value ∧ emits p ∧ k = f (result p value) := by
  rw [mem_map]
  constructor
  · rintro ⟨r, hr, rfl⟩
    obtain ⟨p, value, hshows, hemits, rfl⟩ := (hmem r).mp hr
    exact ⟨p, value, hshows, hemits, rfl⟩
  · rintro ⟨p, value, hshows, hemits, rfl⟩
    exact ⟨_, (hmem _).mpr ⟨p, value, hshows, hemits, rfl⟩, rfl⟩

theorem Db.Stores.chunksOf_ne_nil (h : db.Stores p content) : db.chunksOf p ≠ [] := by
  obtain ⟨pathMeta, hitem, -⟩ := h
  intro hnil
  rw [hnil] at hitem
  cases hitem

section Filed

variable (hdb : db.Ok depth)

include hdb

theorem Db.Ok.leaves_ascending :
    (db.leaves depth keep read).Pairwise fun a b => a.source < b.source :=
  pairwise_map.mpr ((items_ascending hdb.walk []).sublist filter_sublist)

theorem Db.Ok.of_mem_leaves (h : leaf ∈ db.leaves depth keep read) (skip : Nat) :
    ∃ p, db.Stores p leaf.collected.content ∧ keep (db.chunksOf p) ∧ leaf.source = db.chunksOf p ∧
      buildPath db.chunkSize skip leaf.collected = db.pathFrom skip read p := by
  obtain ⟨i, hi, rfl⟩ := mem_map.mp h
  obtain ⟨hi, hkeep⟩ := mem_filter.mp hi
  obtain ⟨chunks, hchunks, hitem⟩ := (HBTrie.mem_items hdb.walk).mp hi
  subst hchunks
  obtain ⟨p, hp⟩ := hdb.keyed _ _ _ hitem
  have hflat : db.chunksOf p = i.chunks := hp.1
  refine ⟨p, ⟨i.pathMeta, by rwa [hflat], by rwa [hflat]⟩, by rwa [hflat], hflat.symm, ?_⟩
  rw [pathFrom, hflat, hitem]

theorem Db.Ok.exists_leaf (h : db.Stores p content) (hkeep : keep (db.chunksOf p)) (skip : Nat) :
    ∃ leaf ∈ db.leaves depth keep read, leaf.source = db.chunksOf p ∧
      leaf.collected.content = content ∧
      buildPath db.chunkSize skip leaf.collected = db.pathFrom skip read p := by
  obtain ⟨pathMeta, hitem, -⟩ := h
  refine ⟨⟨db.chunksOf p, ⟨read (db.chunksOf p), content, pathMeta⟩⟩,
    mem_map.mpr ⟨⟨db.chunksOf p, content, pathMeta⟩, mem_filter.mpr ⟨?_, hkeep⟩, rfl⟩,
    rfl, rfl, ?_⟩
  · exact (HBTrie.mem_items hdb.walk).mpr ⟨_, rfl, hitem⟩
  · rw [pathFrom, hitem]

/-- What a judged walk reports: the kept keys that show a value and whose path is inside, unless
a key on the way stops the walk. -/
theorem Db.Ok.mem_sift (skip : Nat) (inside : Path → Prop) (stops : Content → Path → Prop)
    (before : List Chunk → List Chunk → Prop) {judge : ScanLeaf → Verdict ScanResult}
    (hreport : ∀ leaf r, judge leaf = .report r ↔ ∃ value,
      shownValue (scanReadTxnId db) leaf.collected.content = some value ∧
        inside (buildPath db.chunkSize skip leaf.collected) ∧
        r = ⟨leaf.source, buildPath db.chunkSize skip leaf.collected, value⟩)
    (hstop : ∀ leaf, judge leaf = .stop ↔
      stops leaf.collected.content (buildPath db.chunkSize skip leaf.collected))
    (hasymm : ∀ a b, before a b → ¬ before b a) {visited : List ScanLeaf}
    (hvisited : ∀ leaf, leaf ∈ visited ↔ leaf ∈ db.leaves depth keep read)
    (hsorted : visited.Pairwise fun a b => before a.source b.source) {r : ScanResult} :
    r ∈ sift judge visited ↔ ∃ p value, db.Shows p value ∧ keep (db.chunksOf p) ∧
        inside (db.pathFrom skip read p) ∧
        (∀ q content, db.Stores q content → keep (db.chunksOf q) →
          before (db.chunksOf q) (db.chunksOf p) → ¬ stops content (db.pathFrom skip read q)) ∧
        r = ⟨db.chunksOf p, db.pathFrom skip read p, value⟩ := by
  rw [mem_sift_of_pairwise (fun _ _ => hasymm _ _) hsorted]
  constructor
  · rintro ⟨leaf, hleaf, hjudge, hstops⟩
    obtain ⟨p, hstores, hkeep, hsource, hpath⟩ := hdb.of_mem_leaves ((hvisited leaf).mp hleaf) skip
    obtain ⟨value, hshown, hinside, rfl⟩ := (hreport leaf r).mp hjudge
    rw [hpath] at hinside
    refine ⟨p, value, ⟨_, hstores, hshown⟩, hkeep, hinside, ?_, by rw [hsource, hpath]⟩
    intro q content hq hqkeep hbefore hqstops
    obtain ⟨other, hother, hosource, rfl, hopath⟩ := hdb.exists_leaf hq hqkeep skip
    refine hstops other ((hvisited other).mpr hother) ?_ ((hstop other).mpr ?_)
    · rwa [hosource, hsource]
    · rwa [hopath]
  · rintro ⟨p, value, ⟨content, hstores, hshown⟩, hkeep, hinside, hunstopped, rfl⟩
    obtain ⟨leaf, hleaf, hsource, rfl, hpath⟩ := hdb.exists_leaf hstores hkeep skip
    refine ⟨leaf, (hvisited leaf).mpr hleaf, (hreport leaf _).mpr ⟨value, hshown, ?_, ?_⟩, ?_⟩
    · rwa [hpath]
    · rw [hsource, hpath]
    · intro other hother hbefore hjudge
      obtain ⟨q, hq, hqkeep, hosource, hopath⟩ :=
        hdb.of_mem_leaves ((hvisited other).mp hother) skip
      refine hunstopped q _ hq hqkeep ?_ ?_
      · rwa [← hosource, ← hsource]
      · rw [← hopath]
        exact (hstop other).mp hjudge

end Filed

variable (hp : db.Stores p content) (hread : read (db.chunksOf p) = db.chunksOf p)

include hp hread

/-- The path of a key that is read as it is and not cut, apart from empty components. -/
theorem Db.Stores.pathFrom_zero :
    db.pathFrom 0 read p = pathOf db.chunkSize (p.map (reportedComponent db.chunkSize)) := by
  have hne := hp.chunksOf_ne_nil
  obtain ⟨pathMeta, hitem, hkey⟩ := hp
  rw [pathFrom, hitem, hread]
  exact buildPath_key hne hkey

theorem Db.Stores.pathCompare_pathFrom (bound : Path) :
    pathCompare (db.pathFrom 0 read p) bound = pathCompare (pathOf db.chunkSize p) bound := by
  rw [hp.pathFrom_zero hread, pathCompare_eq_compareLists, componentChunks_reported,
    ← pathCompare_eq_compareLists]

theorem Db.Stores.inRange_pathFrom {startPath endPath : Option Path} :
    InRange startPath endPath (db.pathFrom 0 read p) ↔
      InRange startPath endPath (pathOf db.chunkSize p) := by
  simp only [InRange, hp.pathCompare_pathFrom hread]

end Leaves

section Range

variable {db : Db} {depth : Nat} {startPath endPath : Option Path} {p : List Bytes}
  {r : ScanResult}

def forwardLeaves (db : Db) (depth : Nat) (startPath : Option Path) : List ScanLeaf :=
  db.leaves depth (startReaches db.load db.root startPath) id

/-- A forward scan with these bounds emits the key: the seek does not pass it, its path without
the skipped components is within the bounds, and no stored key on the way is at or behind the end
after its components are skipped. -/
structure Db.ForwardEmits (db : Db) (skip : Nat) (startPath endPath : Option Path)
    (p : List Bytes) : Prop where
  seek : startReaches db.load db.root startPath (db.chunksOf p) = true
  inside : InRange startPath endPath (db.pathFrom skip id p)
  unstopped : ∀ q content, db.Stores q content →
    startReaches db.load db.root startPath (db.chunksOf q) = true →
    db.chunksOf q < db.chunksOf p →
    ¬ ∃ bound ∈ endPath, 0 ≤ pathCompare (db.pathFrom skip id q) bound

section Reported

variable (hdb : db.Ok depth)

include hdb

/-- What a forward scan reports, with any number of components cut off. -/
theorem mem_forward_results (skip : Nat) : r ∈ sift (judgeNext db.chunkSize
          { databaseScanStart db startPath endPath with prefixSkip := skip })
        (forwardLeaves db depth startPath) ↔
      ∃ p value, db.Shows p value ∧ db.ForwardEmits skip startPath endPath p ∧
        r = ⟨db.chunksOf p, db.pathFrom skip id p, value⟩ := by
  refine (hdb.mem_sift skip (InRange startPath endPath)
    (fun _ path => ∃ bound ∈ endPath, 0 ≤ pathCompare path bound) (· < ·) (fun leaf r => ?_)
    (fun leaf => ?_) (fun _ _ => lt_asymm) (fun _ => Iff.rfl) hdb.leaves_ascending).trans
    (exists_congr fun p => exists_congr fun value => ?_)
  · exact judgeNext_report
  · exact judgeNext_stop
  · exact ⟨fun ⟨hshows, hseek, hinside, hunstopped, hr⟩ =>
        ⟨hshows, ⟨hseek, hinside, hunstopped⟩, hr⟩,
      fun ⟨hshows, ⟨hseek, hinside, hunstopped⟩, hr⟩ =>
        ⟨hshows, hseek, hinside, hunstopped, hr⟩⟩

/-- A bounded scan comes to the key: the seek does not pass it, and no key stored on the way is
at or behind the end path. -/
structure Db.ScanReaches (db : Db) (startPath endPath : Option Path) (p : List Bytes) : Prop where
  seek : startReaches db.load db.root startPath (db.chunksOf p) = true
  unstopped : ∀ q content, db.Stores q content →
    startReaches db.load db.root startPath (db.chunksOf q) = true →
    db.chunksOf q < db.chunksOf p → ∀ bound ∈ endPath, pathCompare (pathOf db.chunkSize q) bound < 0

/-- The key is in the range of a scan, and the scan comes to it. -/
structure Db.ScansRange (db : Db) (startPath endPath : Option Path) (p : List Bytes) : Prop where
  inside : InRange startPath endPath (pathOf db.chunkSize p)
  reached : db.ScanReaches startPath endPath p

theorem mem_range_results :
    r ∈ sift (judgeNext db.chunkSize (databaseScanStart db startPath endPath))
        (forwardLeaves db depth startPath) ↔
      ∃ p value, db.Shows p value ∧ db.ScansRange startPath endPath p ∧
        r = ⟨db.chunksOf p, pathOf db.chunkSize (p.map (reportedComponent db.chunkSize)),
          value⟩ := by
  refine (mem_forward_results hdb 0).trans (exists_congr fun p => exists_congr fun value => ?_)
  constructor
  · rintro ⟨⟨content, hp, hshown⟩, ⟨hseek, hrange, hunstopped⟩, rfl⟩
    refine ⟨⟨content, hp, hshown⟩, ⟨(hp.inRange_pathFrom rfl).mp hrange, hseek, ?_⟩,
      by rw [hp.pathFrom_zero rfl]⟩
    intro q content' hq hqseek hlt bound hbound
    have hnot := hunstopped q content' hq hqseek hlt
    push Not at hnot
    have hread : id (db.chunksOf q) = db.chunksOf q := rfl
    rw [← hq.pathCompare_pathFrom hread]
    exact hnot bound hbound
  · rintro ⟨⟨content, hp, hshown⟩, ⟨hrange, hreaches⟩, rfl⟩
    refine ⟨⟨content, hp, hshown⟩,
      ⟨hreaches.seek, (hp.inRange_pathFrom rfl).mpr hrange, ?_⟩, by rw [hp.pathFrom_zero rfl]⟩
    rintro q content' hq hqseek hlt ⟨bound, hbound, hle⟩
    rw [hq.pathCompare_pathFrom rfl] at hle
    exact absurd hle (not_le.mpr (hreaches.unstopped q content' hq hqseek hlt bound hbound))

/-- The reports are in the order of the chunk sequences. -/
theorem forward_results_ascending (skip : Nat) : (sift (judgeNext db.chunkSize
        { databaseScanStart db startPath endPath with prefixSkip := skip })
      (forwardLeaves db depth startPath)).Pairwise fun a b => a.source < b.source := by
  refine pairwise_sift (fun a b r s hlt hr hs => ?_) hdb.leaves_ascending
  obtain ⟨value, -, -, rfl⟩ := judgeNext_report.mp hr
  obtain ⟨value', -, -, rfl⟩ := judgeNext_report.mp hs
  exact hlt

theorem scanAll_results (startPath endPath : Option Path) : ∃ results n, (∀ fuel, n ≤ fuel →
        scanAll db fuel (databaseScanStart db startPath endPath) = some results) ∧
      results.Pairwise (fun a b => a.source < b.source) ∧
      ∀ r, r ∈ results ↔ ∃ p value, db.Shows p value ∧ db.ScansRange startPath endPath p ∧
        r = ⟨db.chunksOf p, pathOf db.chunkSize (p.map (reportedComponent db.chunkSize)),
          value⟩ := by
  obtain ⟨n, hn⟩ :=
    (visits_scanNext rfl (visits_databaseScanStart hdb.walk startPath endPath)).collect
  exact ⟨_, n, hn, forward_results_ascending hdb 0, fun r => mem_range_results hdb⟩

end Reported

theorem nonempty_of_reported {cs : ChunkSize}
    (h : pathOf cs p = pathOf cs (p.map (reportedComponent cs))) : ∀ data ∈ p, data ≠ [] := by
  have hself : p.map id = p.map (reportedComponent cs) := by
    rw [map_id]
    exact components_of_recorded (congrArg pathChunks h) (congrArg pathMetadata h)
  rintro data hdata rfl
  have hlength := congrArg length (map_inj_left.mp hself [] hdata)
  have hpos := cs.pos
  simp only [reportedComponent, if_true, length_replicate, id, length_nil] at hlength
  omega

/-- A bounded scan returns exactly the keys of its range when, for each of them, no component is
empty and the scan comes to it. -/
theorem range_scan_exact_iff (db : Db) (depth : Nat) (hdb : db.Ok depth)
    (startPath endPath : Option Path) :
    ReturnsExactly db (fun fuel => scanAll db fuel (databaseScanStart db startPath endPath))
        (fun p value => db.Shows p value ∧ InRange startPath endPath (pathOf db.chunkSize p)) ↔
      ∀ p value, db.Shows p value → InRange startPath endPath (pathOf db.chunkSize p) →
        (∀ data ∈ p, data ≠ []) ∧ db.ScanReaches startPath endPath p := by
  obtain ⟨results, m, hm, hsorted, hresults⟩ := scanAll_results hdb startPath endPath
  constructor
  · rintro ⟨results', n, hn, -, hmem⟩ p value hshows hrange
    have hreported := (hmem _).mpr ⟨p, value, ⟨hshows, hrange⟩, rfl⟩
    rw [enough_unique hn hm, hresults] at hreported
    obtain ⟨q, value', hq, ⟨-, hreaches⟩, heq⟩ := hreported
    obtain ⟨hflat, hpath, -⟩ := ScanResult.mk.inj heq
    obtain rfl := hshows.unique hq hflat
    exact ⟨nonempty_of_reported hpath, hreaches⟩
  · intro hall
    refine ⟨results, m, hm, hsorted.imp fun {a b} hlt heq => ?_, fun r => ?_⟩
    · rw [heq] at hlt
      exact lt_irrefl _ hlt
    · rw [hresults]
      constructor
      · rintro ⟨p, value, hshows, ⟨hrange, -⟩, rfl⟩
        refine ⟨p, value, ⟨hshows, hrange⟩, ?_⟩
        rw [map_reportedComponent (hall p value hshows hrange).1]
      · rintro ⟨p, value, ⟨hshows, hrange⟩, rfl⟩
        obtain ⟨hne, hreaches⟩ := hall p value hshows hrange
        refine ⟨p, value, hshows, ⟨hrange, hreaches⟩, ?_⟩
        rw [map_reportedComponent hne]

end Range

/-! ### Examples -/

section Memory

variable {db : Db} {paths : Set (List Bytes)} (h : TrieFrom db.chunkSize db.load paths db.root)

include h

/-- A database in memory whose trie comes from written paths. -/
theorem ok_of_trieFrom (hmemory : db.load = noLoader) : ∃ depth, db.Ok depth := by
  obtain ⟨depth, hwithin⟩ := within_noLoader db.root.btree
  rw [← hmemory] at hwithin
  refine ⟨depth, ⟨h.trie, h.plain, hwithin⟩, ?_⟩
  intro chunks content pathMeta hitem
  obtain ⟨p, -, hchunks, hmeta⟩ := h.recorded chunks content pathMeta hitem
  exact ⟨p, hchunks, .inl hmeta⟩

theorem mem_of_stores {p : List Bytes} {content : Content} (hp : db.Stores p content) :
    p ∈ paths := by
  have hne := hp.chunksOf_ne_nil
  obtain ⟨pathMeta, hitem, hkey⟩ := hp
  obtain ⟨q, hq, hchunks, hmeta⟩ := h.recorded _ _ _ hitem
  rwa [hkey.unique hne ⟨hchunks, .inl hmeta⟩]

end Memory

/-- From `abcd/efgh` on: the value there is returned. -/
theorem range_scan_exact_family : ReturnsExactly (memoryDb familyWrites ⟨0, 0, 3⟩) (fun fuel =>
        scanAll (memoryDb familyWrites ⟨0, 0, 3⟩) fuel
          (databaseScanStart (memoryDb familyWrites ⟨0, 0, 3⟩) (some childPath) none))
      (fun p value => (memoryDb familyWrites ⟨0, 0, 3⟩).Shows p value ∧
        InRange (some childPath) none (pathOf defaultChunkSize p)) := by
  obtain ⟨depth, hdb⟩ :=
    @ok_of_trieFrom (memoryDb familyWrites ⟨0, 0, 3⟩) _ trieFrom_familyWrites rfl
  refine (range_scan_exact_iff _ depth hdb (some childPath) none).mpr ?_
  rintro p value ⟨content, hstores, -⟩ hrange
  have hmem : p ∈ familyPaths := mem_of_stores trieFrom_familyWrites hstores
  rcases hmem with rfl | rfl
  · exact absurd (hrange.1 childPath rfl) (by decide +kernel)
  · exact ⟨by decide, by decide +kernel, nofun⟩

/-- `abcde`. -/
def splitEnd : Path := pathOf defaultChunkSize [[97, 98, 99, 100, 101]]

/-- `abcd/x`. -/
def splitKey : List Bytes := [[97, 98, 99, 100], [120]]

def splitWrites : List TrieOp :=
  [.insert splitEnd [1] ⟨0, 0, 1⟩, .insert (pathOf defaultChunkSize splitKey) [2] ⟨0, 0, 2⟩]

def splitDb : Db := memoryDb splitWrites ⟨0, 0, 2⟩

/-- The walk comes to `abcde` first, where the scan up to `abcde` stops; `abcd/x` is smaller. -/
theorem range_scan_drops_key : (∃ depth, splitDb.Ok depth) ∧
      ¬ ReturnsExactly splitDb
        (fun fuel => scanAll splitDb fuel (databaseScanStart splitDb none (some splitEnd)))
        (fun p value => splitDb.Shows p value ∧
          InRange none (some splitEnd) (pathOf defaultChunkSize p)) := by
  have htrie : TrieFrom defaultChunkSize noLoader Set.univ splitDb.root := by
    refine trieFrom_runOps ⟨by decide, by decide⟩ fun op hop => ?_
    simp only [splitWrites, mem_cons, not_mem_nil, or_false] at hop
    rcases hop with rfl | rfl
    · exact ⟨_, trivial, rfl⟩
    · exact ⟨_, trivial, rfl⟩
  refine ⟨ok_of_trieFrom htrie rfl, ?_⟩
  · rintro ⟨results, n, hn, -, hmem⟩
    have hrun : scanAll splitDb 20 (databaseScanStart splitDb none (some splitEnd)) = some [] := by
      decide +kernel
    obtain rfl : [] = results := collect_unique hrun hn
    have hitem : itemAt splitDb.load splitDb.root (splitDb.chunksOf splitKey) =
        some (.legacy [2] ⟨0, 0, 2⟩, [⟨1, 4⟩, ⟨1, 1⟩]) := by decide +kernel
    have hshows : splitDb.Shows splitKey [2] :=
      ⟨_, ⟨_, hitem, rfl, .inl (by decide +kernel)⟩, rfl⟩
    have hrange : InRange none (some splitEnd) (pathOf defaultChunkSize splitKey) := by
      decide +kernel
    exact absurd ((hmem _).mpr ⟨_, _, ⟨hshows, hrange⟩, rfl⟩) not_mem_nil

end WaveDB.Database
