import WaveDB.Database.ReverseScan

/-!
Scans of a subtree (`Database/database_subtree.c`).

A subtree is a view of the keys under a prefix. Its scans put the prefix before their bounds and
scan the database; the iterator cuts off the first `prefix_skip` components of every path it
builds before it compares it with the bounds. The prefix is parsed without its empty segments
(`path_create_from_raw`), but `prefix_skip` counts delimiters.

`subtree_scans_exact_iff` says in terms of the prefix, the bounds and the keys when the scans return
exactly the keys under the prefix. The database has search trees for its B+trees, and every value
has the metadata of its path.
-/

namespace WaveDB.Database

open WaveDB.Basis HBTrie Workers List ScanResult

/-! ### The scans -/

/-- `database_subtree_t`; its chunk size is that of the database. -/
structure DatabaseSubtree where
  prefixKey : Bytes
  delimiter : UInt8

/-- The segments of a raw key that `path_create_from_raw` keeps. The first argument is the segment
read so far. -/
def rawSegments (delimiter : UInt8) : Bytes → Bytes → List Bytes
  | segment, [] => if segment = [] then [] else [segment]
  | segment, b :: key =>
    if b = delimiter then
      if segment = [] then rawSegments delimiter [] key
      else segment :: rawSegments delimiter [] key
    else rawSegments delimiter (segment ++ [b]) key

def pathCreateFromRaw (cs : ChunkSize) (key : Bytes) (delimiter : UInt8) : Path :=
  pathOf cs (rawSegments delimiter [] key)

variable (st : DatabaseSubtree) (db : Db)

def databaseSubtreePrependPath (st : DatabaseSubtree) (path : Path) : Path :=
  pathCreateFromRaw db.chunkSize st.prefixKey st.delimiter ++ path

def subtreePrefixComponentCount : Nat :=
  if st.prefixKey = [] then 0 else 1 + st.prefixKey.count st.delimiter

def databaseSubtreeScanStart (st : DatabaseSubtree) (startPath endPath : Option Path) :
    DatabaseIterator :=
  { databaseScanStart db (startPath.map (databaseSubtreePrependPath db st))
      (endPath.map (databaseSubtreePrependPath db st)) with
    prefixSkip := subtreePrefixComponentCount st }

def databaseSubtreeScanStartReverse (st : DatabaseSubtree) (startPath endPath : Option Path) :
    DatabaseIterator :=
  { databaseScanStartReverse db (startPath.map (databaseSubtreePrependPath db st))
      (endPath.map (databaseSubtreePrependPath db st)) with
    prefixSkip := subtreePrefixComponentCount st }

def identifierGetDataCopy (identifier : Identifier) : Bytes :=
  (identifier.chunks.flatMap Chunk.data).take identifier.length

def pathToKeyString (path : Path) (delimiter : UInt8) : Bytes :=
  [delimiter].intercalate (path.map identifierGetDataCopy)

def subtreePathToStrippedKey (path : Path) : Option Bytes :=
  if path.length < subtreePrefixComponentCount st then none
  else some (pathToKeyString (path.drop (subtreePrefixComponentCount st)) st.delimiter)

/-- `raw_result_t`; `source` is that of the leaf. -/
structure RawResult where
  source : List Chunk
  key : Bytes
  value : Bytes
deriving DecidableEq

def rawStartPath (st : DatabaseSubtree) (rawKey : Bytes) (delimiter : UInt8) : Path :=
  if rawKey = [] then pathCreateFromRaw db.chunkSize st.prefixKey delimiter
  else pathCreateFromRaw db.chunkSize (st.prefixKey ++ delimiter :: rawKey) delimiter

/-- What `database_subtree_scan_sync_raw` makes of a result: an empty key is dropped. -/
def rawResult (r : ScanResult) : Option RawResult :=
  ((subtreePathToStrippedKey st r.path).filter fun key => !key.isEmpty).map fun key =>
    ⟨r.source, key, r.value⟩

/-- `database_subtree_scan_sync_raw`: the results, if the fuel suffices. -/
def databaseSubtreeScanSyncRaw (st : DatabaseSubtree) (rawKey : Bytes) (delimiter : UInt8)
    (fuel : Nat) : Option (List RawResult) :=
  (scanAll db fuel (databaseScanStart db (some (rawStartPath db st rawKey delimiter)) none)).map
    (List.filterMap (rawResult st))

/-! ### Isolation -/

def DatabaseSubtree.components : List Bytes :=
  rawSegments st.delimiter [] st.prefixKey

/-- With enough fuel the scan returns the keys under the prefix whose remainder is in the range,
each once and as its remainder. -/
def ReturnsRemainders {κ ρ : Type} (db : Db) (st : DatabaseSubtree)
    (result : List Chunk → κ → Bytes → ρ) (shown : List Bytes → κ) (startPath endPath : Option Path)
    (scan : Nat → Option (List ρ)) : Prop :=
  ∃ results n, (∀ fuel, n ≤ fuel → scan fuel = some results) ∧ results.Nodup ∧
    ∀ r, r ∈ results ↔ ∃ remainder value, remainder ≠ [] ∧
      db.Shows (st.components ++ remainder) value ∧
      InRange startPath endPath (pathOf db.chunkSize remainder) ∧
      r = result (db.chunksOf (st.components ++ remainder)) (shown remainder) value

/-- A raw scan from this path emits the key: the seek does not pass it, it is not before the path,
and it has more components than are skipped. -/
structure Db.RawEmits (db : Db) (skip : Nat) (startPath : Path) (p : List Bytes) : Prop where
  seek : startReaches db.load db.root (some startPath) (db.chunksOf p) = true
  inside : 0 ≤ pathCompare (pathOf db.chunkSize p) startPath
  longer : skip < p.length

/-- The key string that a raw scan makes of a key: a component that is empty has become zeroes. -/
def rawKeyOf (cs : ChunkSize) (st : DatabaseSubtree) (p : List Bytes) : Bytes :=
  [st.delimiter].intercalate ((p.map (reportedComponent cs)).drop (subtreePrefixComponentCount st))

/-- The segments of the prefix, with the empty ones that `path_create_from_raw` drops. -/
def DatabaseSubtree.segments : List Bytes :=
  if st.prefixKey = [] then [] else st.prefixKey.splitOn st.delimiter

/-- The key has this remainder behind the prefix, and it is within the bounds. -/
structure DatabaseSubtree.Holds (cs : ChunkSize) (startPath endPath : Option Path)
    (p remainder : List Bytes) : Prop where
  key : p = st.components ++ remainder
  longer : remainder ≠ []
  inside : InRange startPath endPath (pathOf cs remainder)

def DatabaseSubtree.bound (cs : ChunkSize) (path : Option Path) : Option Path :=
  path.map (pathOf cs st.components ++ ·)

/-- A scan comes to the key: the seek does not pass it, and no key stored on the way is at or behind
the end path without its first `k` components. -/
structure Db.CutReaches (db : Db) (k : Nat) (startPath endPath : Option Path) (p : List Bytes) :
    Prop where
  seek : startReaches db.load db.root startPath (db.chunksOf p) = true
  unstopped : ∀ q content, db.Stores q content →
    startReaches db.load db.root startPath (db.chunksOf q) = true →
    db.chunksOf q < db.chunksOf p →
    ∀ bound ∈ endPath, pathCompare (pathOf db.chunkSize (q.drop k)) bound < 0

/-- Each visible key among these is one of the subtree. Each one of the subtree is among these, and
`plain` with its remainder. -/
structure SubtreeKeys (db : Db) (st : DatabaseSubtree) (startPath endPath : Option Path)
    (these : List Bytes → Prop) (plain : List Bytes → List Bytes → Prop) : Prop where
  outside : ∀ p value, db.Shows p value → these p →
    ∃ r, st.Holds db.chunkSize startPath endPath p r
  inside : ∀ p r value, db.Shows p value → st.Holds db.chunkSize startPath endPath p r →
    these p ∧ plain p r

/-- The keys that are within the bounds behind the prefix when as many components are cut off as the
prefix has segments. No segment of the prefix and no component of a remainder is empty. -/
def DatabaseSubtree.ForwardExact (startPath endPath : Option Path) : Prop :=
  SubtreeKeys db st startPath endPath
    (fun p => InRange (st.bound db.chunkSize startPath) (st.bound db.chunkSize endPath)
        (pathOf db.chunkSize (p.drop st.segments.length)) ∧
      db.CutReaches st.segments.length (st.bound db.chunkSize startPath)
        (st.bound db.chunkSize endPath) p)
    fun _ r => [] ∉ st.segments ∧ [] ∉ r

/-- The same for the keys that the reverse walk visits, as it reads them. -/
def DatabaseSubtree.ReverseExact (startPath endPath : Option Path) : Prop :=
  SubtreeKeys db st startPath endPath
    (db.ReverseEmits st.segments.length (st.bound db.chunkSize startPath)
      (st.bound db.chunkSize endPath))
    fun p r => db.pathFrom st.segments.length
      (endReads db.load db.root (st.bound db.chunkSize endPath)) p = pathOf db.chunkSize r

/-- The keys from the prefix and the bound on, both cut at the given delimiter, that have more
components than the prefix has segments. Behind as many components they read as their remainder. -/
def DatabaseSubtree.RawExact (rawKey : Bytes) (delimiter : UInt8) : Prop :=
  SubtreeKeys db st (some (pathOf db.chunkSize (rawSegments delimiter [] rawKey))) none
    (db.RawEmits st.segments.length (pathOf db.chunkSize
      (rawSegments delimiter [] st.prefixKey ++ rawSegments delimiter [] rawKey)))
    fun p r => [st.delimiter].intercalate
      ((p.map (reportedComponent db.chunkSize)).drop st.segments.length) =
        [st.delimiter].intercalate r

section Emits

variable {κ ρ : Type} {db : Db} {depth : Nat} {st : DatabaseSubtree}
  {startPath endPath : Option Path} {emits : List Bytes → Prop} {reported shown : List Bytes → κ}
  {result : List Chunk → κ → Bytes → ρ} {results : List ρ}

theorem subtreeKeys_congr {these these' : List Bytes → Prop}
    {plain plain' : List Bytes → List Bytes → Prop}
    (hthese : ∀ p value, db.Shows p value → (these p ↔ these' p))
    (hplain : ∀ p r value, db.Shows p value → st.Holds db.chunkSize startPath endPath p r →
      (plain p r ↔ plain' p r)) :
    SubtreeKeys db st startPath endPath these plain ↔
      SubtreeKeys db st startPath endPath these' plain' := by
  constructor
  · rintro ⟨hout, hin⟩
    exact ⟨fun p value h ht => hout p value h ((hthese p value h).mpr ht), fun p r value h hr =>
      (hin p r value h hr).imp (hthese p value h).mp (hplain p r value h hr).mp⟩
  · rintro ⟨hout, hin⟩
    exact ⟨fun p value h ht => hout p value h ((hthese p value h).mp ht), fun p r value h hr =>
      (hin p r value h hr).imp (hthese p value h).mpr (hplain p r value h hr).mpr⟩

/-- Results that are the emitted keys are the keys of the subtree exactly when the scan keeps to
the subtree. -/
theorem returnsRemainders_iff (hinj : ∀ source source' key key' value value',
      result source key value = result source' key' value' → source = source' ∧ key = key')
    {scan : Nat → Option (List ρ)} {m : Nat}
    (hscan : ∀ fuel, m ≤ fuel → scan fuel = some results) (hnodup : results.Nodup)
    (hresults : ∀ r, r ∈ results ↔ ∃ p value, db.Shows p value ∧ emits p ∧ r = result
      (db.chunksOf p) (reported p) value) :
    ReturnsRemainders db st result shown startPath endPath scan ↔
      SubtreeKeys db st startPath endPath emits fun p r => reported p = shown r := by
  constructor
  · rintro ⟨results', n, hn, -, hmem⟩
    obtain rfl := enough_unique hn hscan
    constructor
    · intro p value hshows hemits
      obtain ⟨r, value', hne, hq, hrange, heq⟩ :=
        (hmem _).mp ((hresults _).mpr ⟨p, value, hshows, hemits, rfl⟩)
      obtain rfl := hshows.unique hq (hinj _ _ _ _ _ _ heq).1
      exact ⟨r, rfl, hne, hrange⟩
    · -- a key of the subtree is among the results, and so emitted
      rintro p r value hshows ⟨rfl, hne, hrange⟩
      obtain ⟨q, value', hq, hemits, heq⟩ :=
        (hresults _).mp ((hmem _).mpr ⟨r, value, hne, hshows, hrange, rfl⟩)
      obtain ⟨hsource, hkey⟩ := hinj _ _ _ _ _ _ heq
      obtain rfl := hshows.unique hq hsource
      exact ⟨hemits, hkey.symm⟩
  · intro hiso
    refine ⟨results, m, hscan, hnodup, fun r => ?_⟩
    rw [hresults]
    constructor
    · rintro ⟨p, value, hshows, hemits, rfl⟩
      obtain ⟨remainder, hholds⟩ := hiso.outside p value hshows hemits
      rw [(hiso.inside p remainder value hshows hholds).2]
      obtain ⟨rfl, hne, hrange⟩ := hholds
      exact ⟨remainder, value, hne, hshows, hrange, rfl⟩
    · rintro ⟨remainder, value, hne, hshows, hrange, rfl⟩
      obtain ⟨hemits, hplain⟩ := hiso.inside _ remainder value hshows ⟨rfl, hne, hrange⟩
      exact ⟨_, value, hshows, hemits, by rw [hplain]⟩

end Emits

/-! ### Segments -/

section Segments

variable {delimiter : UInt8} {segment x : Bytes}

theorem rawSegments_append (segment x y : Bytes) :
    rawSegments delimiter segment (x ++ delimiter :: y) =
      rawSegments delimiter segment x ++ rawSegments delimiter [] y := by
  induction x generalizing segment with
  | nil =>
    rw [nil_append, rawSegments, rawSegments, if_pos rfl]
    split
    · rfl
    · rfl
  | cons b x ih =>
    rw [cons_append, rawSegments, rawSegments, ih, ih]
    split
    · split
      · rfl
      · rfl
    · rfl

theorem rawSegments_of_notMem (h : delimiter ∉ x) :
    rawSegments delimiter segment x = if segment ++ x = [] then [] else [segment ++ x] := by
  induction x generalizing segment with
  | nil => rw [rawSegments, append_nil]
  | cons b x ih =>
    have hb : b ≠ delimiter := fun heq => h (heq ▸ mem_cons_self)
    rw [rawSegments, if_neg hb, ih fun hmem => h (mem_cons_of_mem _ hmem),
      append_assoc, singleton_append]

theorem rawSegments_eq_self (hne : x ≠ []) (h : delimiter ∉ x) :
    rawSegments delimiter [] x = [x] := by
  rw [rawSegments_of_notMem h, nil_append, if_neg hne]

theorem of_mem_rawSegments {c : Bytes} (hsegment : delimiter ∉ segment)
    (h : c ∈ rawSegments delimiter segment x) : c ≠ [] ∧ delimiter ∉ c := by
  induction x generalizing segment with
  | nil =>
    rw [rawSegments] at h
    split at h
    · cases h
    · rename_i hne
      rw [mem_singleton.mp h]
      exact ⟨hne, hsegment⟩
  | cons b x ih =>
    rw [rawSegments] at h
    split at h
    · split at h
      · exact ih not_mem_nil h
      · rename_i hne
        rcases mem_cons.mp h with rfl | h
        · exact ⟨hne, hsegment⟩
        · exact ih not_mem_nil h
    · rename_i hb
      refine ih (fun hmem => ?_) h
      rcases mem_append.mp hmem with hmem | hmem
      · exact hsegment hmem
      · exact hb (mem_singleton.mp hmem).symm

theorem sublist_of_mem_rawSegments {c : Bytes} (h : c ∈ rawSegments delimiter segment x) :
    c <+ segment ++ x := by
  induction x generalizing segment with
  | nil =>
    rw [rawSegments] at h
    split at h
    · cases h
    · rw [mem_singleton.mp h, append_nil]
  | cons b x ih =>
    have hlater (hc : c ∈ rawSegments delimiter [] x) : c <+ segment ++ b :: x :=
      ((ih hc).trans (sublist_cons_self b x)).trans (sublist_append_right segment _)
    rw [rawSegments] at h
    split at h
    · split at h
      · exact hlater h
      · rcases mem_cons.mp h with rfl | h
        · exact sublist_append_left _ _
        · exact hlater h
    · have hrest := ih h
      rwa [append_assoc] at hrest

/-- A byte behind the key joins its last segment. -/
theorem rawSegments_concat {b : UInt8} (hb : b ≠ delimiter) (hne : segment ++ x ≠ [])
    (hlast : x.getLast? ≠ some delimiter) : ∃ front last,
      rawSegments delimiter segment x = front ++ [last] ∧
        rawSegments delimiter segment (x ++ [b]) = front ++ [last ++ [b]] := by
  induction x generalizing segment with
  | nil =>
    rw [append_nil] at hne
    refine ⟨[], segment, if_neg hne, ?_⟩
    rw [nil_append, rawSegments, if_neg hb, rawSegments, if_neg (by simp)]
    rfl
  | cons a x ih =>
    have hrest : x.getLast? ≠ some delimiter := by
      intro heq
      rw [getLast?_cons, heq] at hlast
      exact hlast rfl
    rw [cons_append, rawSegments, rawSegments]
    by_cases ha : a = delimiter
    · have hx : [] ++ x ≠ [] := by
        rintro rfl
        exact hlast (congrArg some ha)
      obtain ⟨front, last, hfront, hend⟩ := ih hx hrest
      rw [if_pos ha, if_pos ha, hfront, hend]
      split
      · exact ⟨front, last, rfl, rfl⟩
      · exact ⟨segment :: front, last, rfl, rfl⟩
    · rw [if_neg ha, if_neg ha]
      exact ih (by simp) hrest

theorem rawSegments_intercalate {components : List Bytes}
    (h : ∀ c ∈ components, c ≠ [] ∧ delimiter ∉ c) :
    rawSegments delimiter [] ([delimiter].intercalate components) = components := by
  induction components with
  | nil => rfl
  | cons a rest ih =>
    have ha := rawSegments_eq_self (h a mem_cons_self).1 (h a mem_cons_self).2
    cases rest with
    | nil => rwa [intercalate_singleton]
    | cons b rest =>
      rw [intercalate_cons_cons, append_assoc, singleton_append, rawSegments_append, ha,
        ih fun c hc => h c (mem_cons_of_mem _ hc)]
      rfl

theorem flatten_rawSegments (segment text : Bytes) :
    (rawSegments delimiter segment text).flatten = segment ++ text.filter (· != delimiter) := by
  induction text generalizing segment with
  | nil =>
    rw [rawSegments]
    split
    · next hnil => simp [hnil]
    · simp
  | cons b text ih =>
    rw [rawSegments]
    by_cases hb : b = delimiter
    · rw [if_pos hb]
      split
      · next hnil => simp [hnil, ih, hb]
      · simp [ih, hb]
    · rw [if_neg hb, ih]
      simp [hb]

theorem intercalate_concat (a : Bytes) (rest : List Bytes) (z : Bytes) :
    [delimiter].intercalate (a :: (rest ++ [z])) =
      [delimiter].intercalate (a :: rest) ++ delimiter :: z := by
  induction rest generalizing a with
  | nil => simp
  | cons b rest ih =>
    rw [cons_append, intercalate_cons_cons, intercalate_cons_cons, ih, ← append_assoc]

theorem rawSegments_eq_filter (segment text : Bytes) : rawSegments delimiter segment text =
      ((text.splitOn delimiter).modifyHead (segment ++ ·)).filter (· ≠ []) := by
  induction text generalizing segment with
  | nil =>
    rw [rawSegments, splitOn_nil]
    by_cases hnil : segment = [] <;> simp [hnil]
  | cons b text ih =>
    rw [rawSegments, splitOn, splitOnP_cons_eq_if_modifyHead]
    by_cases hb : b = delimiter
    · have hself : (text.splitOn delimiter).modifyHead ([] ++ ·) = text.splitOn delimiter := by
        cases text.splitOn delimiter <;> rfl
      rw [if_pos hb, if_pos (beq_iff_eq.mpr hb), ih, hself]
      by_cases hnil : segment = [] <;> simp [hnil, splitOn]
    · rw [if_neg hb, if_neg (by simpa using hb), ih, modifyHead_modifyHead, splitOn]
      simp [Function.comp_def]

theorem length_splitOn (text : Bytes) :
    (text.splitOn delimiter).length = 1 + text.count delimiter := by
  induction text with
  | nil => rfl
  | cons b text ih =>
    rw [splitOn, splitOnP_cons_eq_if_modifyHead]
    by_cases hb : b = delimiter
    · rw [if_pos (beq_iff_eq.mpr hb), length_cons, ← splitOn, ih, hb, count_cons_self]
      omega
    · rw [if_neg (by simpa using hb), length_modifyHead, ← splitOn, ih, count_cons_of_ne hb]

end Segments

section Prefix

variable {st : DatabaseSubtree}

theorem DatabaseSubtree.length_segments : st.segments.length = subtreePrefixComponentCount st := by
  rw [segments, subtreePrefixComponentCount]
  split
  · rfl
  · exact length_splitOn _

theorem DatabaseSubtree.components_eq : st.components = st.segments.filter (· ≠ []) := by
  rw [components, segments]
  split
  · next hnil => rw [hnil]; rfl
  · rw [rawSegments_eq_filter]
    cases st.prefixKey.splitOn st.delimiter <;> rfl

/-- As many components are cut off as the prefix has exactly if it has no empty segment. -/
theorem DatabaseSubtree.length_components :
    st.components.length = st.segments.length ↔ [] ∉ st.segments := by
  rw [components_eq, length_filter_eq_length_iff]
  constructor
  · intro hall hmem
    simpa using hall [] hmem
  · intro hnot segment hmem
    refine decide_eq_true ?_
    rintro rfl
    exact hnot hmem

end Prefix

/-! ### What the scans return -/

section Raw

variable {cs : ChunkSize} {st : DatabaseSubtree}

theorem identifierGetDataCopy_create (data : Bytes) :
    identifierGetDataCopy (identifierCreate data cs) = data := by
  rw [identifierGetDataCopy, identifierCreate_bytes]
  exact take_left

theorem pathToKeyString_pathOf (components : List Bytes) (delimiter : UInt8) :
    pathToKeyString (pathOf cs components) delimiter = [delimiter].intercalate components := by
  rw [pathToKeyString, pathOf, map_map]
  congr 1
  exact (map_congr_left fun data _ => identifierGetDataCopy_create data).trans (map_id _)

theorem reportedComponent_ne_nil (data : Bytes) : reportedComponent cs data ≠ [] := by
  unfold reportedComponent
  split
  · have hpos := cs.pos
    intro hnil
    have hlength := congrArg length hnil
    rw [length_replicate, length_nil] at hlength
    omega
  · next h => exact h

theorem rawKeyOf_eq_nil (p : List Bytes) :
    rawKeyOf cs st p = [] ↔ p.length ≤ subtreePrefixComponentCount st := by
  rw [rawKeyOf]
  constructor
  · intro hnil
    by_contra hlt
    obtain ⟨data, rest, hdrop⟩ := exists_cons_of_ne_nil
      (show (p.map (reportedComponent cs)).drop (subtreePrefixComponentCount st) ≠ [] by
        rw [Ne, drop_eq_nil_iff, length_map]
        exact hlt)
    have hmem : data ∈ p.map (reportedComponent cs) :=
      mem_of_mem_drop (by rw [hdrop]; exact mem_cons_self)
    obtain ⟨component, -, rfl⟩ := mem_map.mp hmem
    rw [hdrop] at hnil
    cases rest with
    | nil =>
      rw [intercalate_singleton] at hnil
      exact reportedComponent_ne_nil component hnil
    | cons next rest =>
      simp at hnil
  · intro hle
    rw [drop_eq_nil_of_le (by rwa [length_map])]
    rfl

theorem rawResult_eq (source : List Chunk) (p : List Bytes) (value : Bytes) :
    rawResult st ⟨source, pathOf cs (p.map (reportedComponent cs)), value⟩ =
      if subtreePrefixComponentCount st < p.length then some ⟨source, rawKeyOf cs st p, value⟩
      else none := by
  have hlength : (pathOf cs (p.map (reportedComponent cs))).length = p.length := by
    rw [pathOf, length_map, length_map]
  have hdrop : (pathOf cs (p.map (reportedComponent cs))).drop (subtreePrefixComponentCount st) =
      pathOf cs ((p.map (reportedComponent cs)).drop (subtreePrefixComponentCount st)) := by
    rw [pathOf, pathOf, map_drop]
  rw [rawResult, subtreePathToStrippedKey, hlength, hdrop, pathToKeyString_pathOf]
  change Option.map _ (Option.filter _ (if p.length < subtreePrefixComponentCount st then none
    else some (rawKeyOf cs st p))) = _
  by_cases hlt : subtreePrefixComponentCount st < p.length
  · have hne : rawKeyOf cs st p ≠ [] := fun hnil => by
      have hle := (rawKeyOf_eq_nil p).mp hnil
      omega
    rw [if_neg (by omega), if_pos hlt]
    simp [Option.filter, hne]
  · rw [if_neg hlt]
    by_cases hshort : p.length < subtreePrefixComponentCount st
    · rw [if_pos hshort]
      rfl
    · have hnil : rawKeyOf cs st p = [] := (rawKeyOf_eq_nil p).mpr (by omega)
      rw [if_neg hshort, hnil]
      rfl

theorem rawResult_source {scanned : ScanResult} {r : RawResult}
    (h : rawResult st scanned = some r) : r.source = scanned.source := by
  obtain ⟨key, -, rfl⟩ := Option.map_eq_some_iff.mp h
  rfl

end Raw

section Scans

variable {db : Db} {depth : Nat} {st : DatabaseSubtree} {startPath endPath : Option Path}

/-- The same for a cursor over the results, no two of them with one source. -/
theorem scan_remainders_iff {emits : List Bytes → Prop} {reported shown : List Bytes → Path}
    {step : DatabaseIterator → Move DatabaseIterator ScanResult} {iter : DatabaseIterator}
    {results : List ScanResult} (hvisits : Visits step iter results)
    (hsources : results.Pairwise fun a b => a.source ≠ b.source)
    (hresults : ∀ r, r ∈ results ↔ ∃ p value, db.Shows p value ∧ emits p ∧
      r = ⟨db.chunksOf p, reported p, value⟩) : ReturnsRemainders db st mk shown startPath endPath
        (fun fuel => collect step fuel iter) ↔
      SubtreeKeys db st startPath endPath emits fun p r => reported p = shown r := by
  obtain ⟨m, hm⟩ := hvisits.collect
  refine returnsRemainders_iff (fun _ _ _ _ _ _ heq => ?_) hm
    (hsources.imp fun hne => ne_of_apply_ne _ hne) hresults
  obtain ⟨hsource, hpath, -⟩ := mk.inj heq
  exact ⟨hsource, hpath⟩

theorem raw_remainders_iff (hdb : db.Ok depth) (rawKey : Bytes) (delimiter : UInt8) :
    ReturnsRemainders db st RawResult.mk ([st.delimiter].intercalate)
        (some (pathOf db.chunkSize (rawSegments delimiter [] rawKey))) none
        (databaseSubtreeScanSyncRaw db st rawKey delimiter) ↔ st.RawExact db rawKey delimiter := by
  have hstartPath : rawStartPath db st rawKey delimiter = pathOf db.chunkSize
      (rawSegments delimiter [] st.prefixKey ++ rawSegments delimiter [] rawKey) := by
    rw [rawStartPath, pathCreateFromRaw, pathCreateFromRaw]
    split
    · next hnil => rw [hnil, rawSegments, if_pos rfl, append_nil]
    · rw [rawSegments_append]
  rw [DatabaseSubtree.RawExact, ← hstartPath, st.length_segments]
  set start := rawStartPath db st rawKey delimiter with hstart
  obtain ⟨results, m, hm, hsorted, hmem⟩ := scanAll_results hdb (some start) none
  have hscan : ∀ fuel, m ≤ fuel → databaseSubtreeScanSyncRaw db st rawKey delimiter fuel =
      some (results.filterMap (rawResult st)) := by
    intro fuel hfuel
    rw [databaseSubtreeScanSyncRaw, hm fuel hfuel]
    rfl
  refine returnsRemainders_iff (fun _ _ _ _ _ _ heq => ?_) hscan ?_ fun r => ?_
  · obtain ⟨hsource, hkey, -⟩ := RawResult.mk.inj heq
    exact ⟨hsource, hkey⟩
  · have hsorted := hsorted.filterMap (S := fun a b => a.source < b.source) (rawResult st)
      fun a b hlt r hr s hs => by rwa [rawResult_source hr, rawResult_source hs]
    exact hsorted.imp fun hlt => ne_of_apply_ne RawResult.source hlt.ne
  · rw [mem_filterMap]
    constructor
    · rintro ⟨scanned, hscanned, hraw⟩
      obtain ⟨p, value, hshows, ⟨hrange, hreaches⟩, rfl⟩ := (hmem scanned).mp hscanned
      rw [rawResult_eq] at hraw
      split at hraw
      · rename_i hlt
        exact ⟨p, value, hshows, ⟨hreaches.seek, hrange.1 start rfl, hlt⟩,
          (Option.some.inj hraw).symm⟩
      · cases hraw
    · rintro ⟨p, value, hshows, ⟨hseek, hinside, hlt⟩, rfl⟩
      refine ⟨_, (hmem _).mpr ⟨p, value, hshows, ⟨⟨?_, nofun⟩, ⟨hseek, ?_⟩⟩, rfl⟩, ?_⟩
      · rintro bound ⟨⟩
        exact hinside
      · exact fun q content hq hqseek hqlt => nofun
      · rw [rawResult_eq, if_pos hlt]
        rfl

/-- Every value has metadata. -/
def Db.Recorded (db : Db) : Prop :=
  ∀ chunks content pathMeta, itemAt db.load db.root chunks = some (content, pathMeta) →
    pathMeta ≠ []

theorem Db.Stores.pathFrom_id {p : List Bytes} {content : Content} (hmeta : db.Recorded)
    (hp : db.Stores p content) (k : Nat) :
    db.pathFrom k id p = pathOf db.chunkSize ((p.drop k).map (reportedComponent db.chunkSize)) := by
  have hne := hp.chunksOf_ne_nil
  obtain ⟨pathMeta, hitem, -, hrecorded | ⟨hnil, -⟩⟩ := hp
  · rw [pathFrom, hitem]
    refine buildPath_recorded ?_ rfl hrecorded k
    rintro rfl
    exact hne rfl
  · exact absurd hnil (hmeta _ _ _ hitem)

theorem pathCompare_reported (p : List Bytes) (bound : Path) :
    pathCompare (pathOf db.chunkSize (p.map (reportedComponent db.chunkSize))) bound =
      pathCompare (pathOf db.chunkSize p) bound := by
  rw [pathCompare_eq_compareLists, componentChunks_reported, ← pathCompare_eq_compareLists]

theorem forwardEmits_iff (hmeta : db.Recorded) {p : List Bytes} {content : Content}
    (hp : db.Stores p content) (k : Nat) : db.ForwardEmits k startPath endPath p ↔
      InRange startPath endPath (pathOf db.chunkSize (p.drop k)) ∧
        db.CutReaches k startPath endPath p := by
  have hrange : InRange startPath endPath (db.pathFrom k id p) ↔
      InRange startPath endPath (pathOf db.chunkSize (p.drop k)) := by
    simp only [InRange, hp.pathFrom_id hmeta, pathCompare_reported]
  constructor
  · rintro ⟨hseek, hinside, hunstopped⟩
    refine ⟨hrange.mp hinside, hseek, fun q content hq hqseek hlt bound hbound => ?_⟩
    by_contra hle
    refine hunstopped q content hq hqseek hlt ⟨bound, hbound, ?_⟩
    rw [hq.pathFrom_id hmeta, pathCompare_reported]
    exact not_lt.mp hle
  · rintro ⟨hinside, hseek, hunstopped⟩
    refine ⟨hseek, hrange.mpr hinside, ?_⟩
    rintro q content hq hqseek hlt ⟨bound, hbound, hle⟩
    rw [hq.pathFrom_id hmeta, pathCompare_reported] at hle
    exact absurd (hunstopped q content hq hqseek hlt bound hbound) (not_lt.mpr hle)

/-- A key is reported as its remainder exactly if nothing is empty. -/
theorem cut_eq_remainder_iff {r : List Bytes} (hr : r ≠ []) (cs : ChunkSize) :
    pathOf cs (((st.components ++ r).drop st.segments.length).map (reportedComponent cs)) =
        pathOf cs r ↔ [] ∉ st.segments ∧ [] ∉ r := by
  rw [← st.length_components]
  constructor
  · intro heq
    have hlength := congrArg length heq
    simp only [pathOf, length_map, length_drop, length_append] at hlength
    have hle : st.components.length ≤ st.segments.length := by
      rw [st.components_eq]
      exact length_filter_le _ _
    have hpos := length_pos_iff.mpr hr
    have hcut : st.components.length = st.segments.length := by omega
    rw [← hcut, drop_left] at heq
    exact ⟨hcut, fun hmem => nonempty_of_reported heq.symm [] hmem rfl⟩
  · rintro ⟨hcut, hempty⟩
    rw [← hcut, drop_left, map_reportedComponent]
    rintro data hdata rfl
    exact hempty hdata

/-- The scans of a subtree return exactly the keys under its prefix whose remainder is in the
range, each as its remainder, when the cut keys and the bounds behind the prefix fit together. -/
theorem subtree_scans_exact_iff (db : Db) (depth : Nat) (hdb : db.Ok depth) (hmeta : db.Recorded)
    (st : DatabaseSubtree) (startPath endPath : Option Path) (rawKey : Bytes) (delimiter : UInt8) :
    (ReturnsRemainders db st mk (pathOf db.chunkSize) startPath endPath
        (fun fuel => scanAll db fuel (databaseSubtreeScanStart db st startPath endPath)) ↔
      st.ForwardExact db startPath endPath) ∧
    (ReturnsRemainders db st mk (pathOf db.chunkSize) startPath endPath
        (fun fuel =>
          scanAllReverse db fuel (databaseSubtreeScanStartReverse db st startPath endPath)) ↔
      st.ReverseExact db startPath endPath) ∧
    (ReturnsRemainders db st RawResult.mk ([st.delimiter].intercalate)
        (some (pathOf db.chunkSize (rawSegments delimiter [] rawKey))) none
        (databaseSubtreeScanSyncRaw db st rawKey delimiter) ↔
      st.RawExact db rawKey delimiter) := by
  refine ⟨?_, ?_, raw_remainders_iff hdb rawKey delimiter⟩
  · have hvisits := visits_databaseScanStart hdb.walk (st.bound db.chunkSize startPath)
      (st.bound db.chunkSize endPath)
    refine Iff.trans (scan_remainders_iff (visits_scanNext rfl hvisits)
      ((forward_results_ascending hdb (subtreePrefixComponentCount st)).imp ne_of_lt)
      fun _ => mem_forward_results hdb _) (subtreeKeys_congr ?_ ?_)
    · rintro p value ⟨content, hp, -⟩
      rw [st.length_segments]
      exact forwardEmits_iff hmeta hp _
    · rintro p r value ⟨content, hp, -⟩ hholds
      rw [hp.pathFrom_id hmeta, ← cut_eq_remainder_iff hholds.longer, hholds.key,
        st.length_segments]
  · have hvisits := visits_databaseScanStartReverse hdb.walk (st.bound db.chunkSize startPath)
      (st.bound db.chunkSize endPath)
    rw [DatabaseSubtree.ReverseExact, st.length_segments]
    exact scan_remainders_iff (visits_scanPrev hvisits)
      ((reverse_results_descending hdb _).imp ne_of_gt) fun _ => mem_reverse_results hdb _

end Scans

/-! ### Examples -/

/-- `users/bob`. -/
def insiderKey : List Bytes := [[117, 115, 101, 114, 115], [98, 111, 98]]

/-- `zebra/x`. -/
def outsiderKey : List Bytes := [[122, 101, 98, 114, 97], [120]]

/-- The subtree `users`, with `/` as its delimiter. -/
def usersSubtree : DatabaseSubtree := ⟨[117, 115, 101, 114, 115], 47⟩

def singleWrite (key : List Bytes) : List TrieOp :=
  [.insert (pathOf defaultChunkSize key) [1] ⟨0, 0, 1⟩]

def singleDb (key : List Bytes) : Db := memoryDb (singleWrite key) ⟨0, 0, 1⟩

section Single

variable {key : List Bytes} (hsafe : SafeRun defaultConfig noLoader (singleWrite key))

include hsafe

theorem trieFrom_singleDb : TrieFrom defaultChunkSize noLoader {key} (singleDb key).root := by
  refine trieFrom_runOps hsafe fun op hop => ?_
  rw [mem_singleton.mp hop]
  exact ⟨key, rfl, rfl⟩

theorem singleDb_ok : ∃ depth, (singleDb key).Ok depth :=
  ok_of_trieFrom (trieFrom_singleDb hsafe) rfl

theorem recorded_singleDb (hne : key ≠ []) : (singleDb key).Recorded := by
  rintro chunks content pathMeta hitem rfl
  obtain ⟨p, hp, -, hmeta⟩ := (trieFrom_singleDb hsafe).recorded chunks content [] hitem
  rw [Set.mem_singleton_iff.mp hp] at hmeta
  exact hne (by simpa [pathMetadata, pathOf] using hmeta)

end Single

def insiderDb : Db := singleDb insiderKey

theorem insiderKey_safe : SafeRun defaultConfig noLoader (singleWrite insiderKey) :=
  ⟨by decide, by decide⟩

/-- A condition that the one key meets. -/
theorem subtreeKeys_insider {startPath endPath : Option Path} {these : List Bytes → Prop}
    {plain : List Bytes → List Bytes → Prop}
    (hrange : InRange startPath endPath (pathOf defaultChunkSize [[98, 111, 98]]))
    (hthese : these insiderKey) (hplain : plain insiderKey [[98, 111, 98]]) :
    SubtreeKeys insiderDb usersSubtree startPath endPath these plain := by
  have hkey : insiderKey = usersSubtree.components ++ [[98, 111, 98]] := by decide
  have honly : ∀ p value, insiderDb.Shows p value → p = insiderKey := by
    rintro p value ⟨content, hstores, -⟩
    exact Set.mem_singleton_iff.mp (mem_of_stores (trieFrom_singleDb insiderKey_safe) hstores)
  constructor
  · intro p value hshows _
    obtain rfl := honly p value hshows
    exact ⟨_, hkey, cons_ne_nil _ _, hrange⟩
  · intro p r value hshows hholds
    obtain rfl := honly p value hshows
    obtain rfl := append_cancel_left (hholds.key.symm.trans hkey)
    exact ⟨hthese, hplain⟩

/-- A database with nothing outside the subtree. -/
theorem subtree_scans_exact_insider :
    ReturnsRemainders insiderDb usersSubtree mk (pathOf defaultChunkSize)
        none none (fun fuel => scanAll insiderDb fuel
          (databaseSubtreeScanStart insiderDb usersSubtree none none)) ∧
      ReturnsRemainders insiderDb usersSubtree mk (pathOf defaultChunkSize)
        none none (fun fuel => scanAllReverse insiderDb fuel
          (databaseSubtreeScanStartReverse insiderDb usersSubtree none none)) ∧
      ReturnsRemainders insiderDb usersSubtree RawResult.mk ([47].intercalate)
        (some (pathOf defaultChunkSize [])) none
        (databaseSubtreeScanSyncRaw insiderDb usersSubtree [] 47) := by
  obtain ⟨depth, hdb⟩ := singleDb_ok insiderKey_safe
  obtain ⟨hforward, hreverse, hraw⟩ := subtree_scans_exact_iff insiderDb depth hdb
    (recorded_singleDb insiderKey_safe (by decide)) usersSubtree none none [] 47
  have hnone : ∀ path, InRange none none path := fun _ => ⟨nofun, nofun⟩
  refine ⟨hforward.mpr (subtreeKeys_insider (hnone _) ⟨hnone _, rfl, fun _ _ _ _ _ => nofun⟩ ?_),
    hreverse.mpr (subtreeKeys_insider (hnone _) ⟨rfl, hnone _, ?_⟩ ?_),
    hraw.mpr (subtreeKeys_insider ⟨?_, nofun⟩ ⟨?_, ?_, ?_⟩ ?_)⟩
  · decide +kernel
  · rintro q content - - - ⟨bound, ⟨⟩, -⟩
  · decide +kernel
  · rintro bound ⟨⟩
    decide +kernel
  · decide +kernel
  · decide +kernel
  · decide +kernel
  · decide +kernel

def outsiderDb : Db := singleDb outsiderKey

theorem outsiderKey_safe : SafeRun defaultConfig noLoader (singleWrite outsiderKey) :=
  ⟨by decide, by decide⟩

theorem not_returnsRemainders_outsider {κ ρ : Type} {result : List Chunk → κ → Bytes → ρ}
    {shown : List Bytes → κ} {startPath endPath : Option Path} {scan : Nat → Option (List ρ)}
    (leaked : ρ) (hscan : ∀ fuel results, scan fuel = some results → leaked ∈ results) :
    ¬ ReturnsRemainders outsiderDb usersSubtree result shown startPath endPath scan := by
  rintro ⟨results, n, hn, -, hmem⟩
  obtain ⟨remainder, value, -, hshows, -⟩ := (hmem leaked).mp (hscan n results (hn n (le_refl n)))
  obtain ⟨content, hstores, -⟩ := hshows
  have hkey := Set.mem_singleton_iff.mp (mem_of_stores (trieFrom_singleDb outsiderKey_safe) hstores)
  exact absurd (congrArg head? hkey) (by simp [usersSubtree, DatabaseSubtree.components,
    rawSegments, outsiderKey])

/-- The subtree `users` of a database with the key `zebra/x`: all scans return `x`. -/
theorem subtree_scans_leak : (∃ depth, outsiderDb.Ok depth) ∧
      ¬ ReturnsRemainders outsiderDb usersSubtree mk (pathOf defaultChunkSize) none none
        (fun fuel => scanAll outsiderDb fuel
          (databaseSubtreeScanStart outsiderDb usersSubtree none none)) ∧
      ¬ ReturnsRemainders outsiderDb usersSubtree mk (pathOf defaultChunkSize) none none
        (fun fuel => scanAllReverse outsiderDb fuel
          (databaseSubtreeScanStartReverse outsiderDb usersSubtree none none)) ∧
      ¬ ReturnsRemainders outsiderDb usersSubtree RawResult.mk ([47].intercalate)
        (some (pathOf defaultChunkSize [])) none
        (databaseSubtreeScanSyncRaw outsiderDb usersSubtree [] 47) := by
  set leaked : ScanResult := ⟨outsiderDb.chunksOf outsiderKey, pathOf defaultChunkSize [[120]], [1]⟩
  have hforward : scanAll outsiderDb 20
      (databaseSubtreeScanStart outsiderDb usersSubtree none none) = some [leaked] := by
    decide +kernel
  have hreverse : scanAllReverse outsiderDb 20
      (databaseSubtreeScanStartReverse outsiderDb usersSubtree none none) =
        some [leaked] := by
    decide +kernel
  have hraw : scanAll outsiderDb 20 (databaseScanStart outsiderDb
      (some (rawStartPath outsiderDb usersSubtree [] 47)) none) =
        some [⟨leaked.source, pathOf defaultChunkSize outsiderKey, [1]⟩] := by
    decide +kernel
  refine ⟨singleDb_ok outsiderKey_safe, ?_, ?_, ?_⟩
  · refine not_returnsRemainders_outsider leaked fun fuel results hscan => ?_
    rw [(visits_of_collect hscan).unique (visits_of_collect hforward)]
    exact mem_singleton_self leaked
  · refine not_returnsRemainders_outsider leaked fun fuel results hscan => ?_
    rw [(visits_of_collect hscan).unique (visits_of_collect hreverse)]
    exact mem_singleton_self leaked
  · refine not_returnsRemainders_outsider ⟨leaked.source, [120], [1]⟩ fun fuel results hscan => ?_
    obtain ⟨scanned, hscanned, rfl⟩ := Option.map_eq_some_iff.mp hscan
    rw [(visits_of_collect hscanned).unique (visits_of_collect hraw)]
    decide +kernel

end WaveDB.Database
