import WaveDB.Graph.TripleKeys
import WaveDB.HBTrie.FewKeys

/-!
What an inserted triple looks like.

The strings of a triple are joined with `/` and cut again, empty segments are dropped, and the
bounds of a scan are made in the same way.
-/

namespace WaveDB.Graph

open WaveDB.Basis HBTrie Database Workers List GraphIndex Triple VertexSet

/-! ### The insert -/

/-- The only keys under the indexes are those of one triple, and it has all of them or none. -/
structure HoldsKeysOf (db : Db) (subtree : Option DatabaseSubtree) (t : Triple) : Prop where
  ok : ∃ depth, db.Ok depth
  only : ∀ p content index w, db.Stores p content → db.chunksOf p =
    pathChunks (pathOf db.chunkSize (layerPrefix subtree ++ [index.name])) ++ w →
      p = tripleKey subtree t index
  together : ∀ i j value, db.Shows (tripleKey subtree t i) value →
    ∃ value, db.Shows (tripleKey subtree t j) value

section Insert

variable {cfg : Config} {subtree : Option DatabaseSubtree} {layer : GraphLayer} {env : CallEnv}
  {t : Triple} {value : Int}

def tripleInserts (cs : ChunkSize) (subtree : Option DatabaseSubtree) (txnId : TransactionId)
    (t : Triple) : List TrieOp :=
  allIndexes.map fun index => .insert (pathOf cs (tripleKey subtree t index)) [] txnId

/-- `__meta/layer`, which `graph_layer_create` stores in a database of the layer's own. -/
def layerMark : List Bytes := [ascii "__meta".toList, ascii "layer".toList]

def markLayer (cs : ChunkSize) (txnId : TransactionId) : TrieOp :=
  .insert (pathOf cs layerMark) (ascii "graph".toList) txnId

/-- The writes to a store before its first triple: none, or the mark of a database of its own. In
the latter the keys of the triple have to split the nodes safely. -/
structure BeforeTriples (cfg : Config) (subtree : Option DatabaseSubtree) (inserts : List TrieOp)
    (trie : HbtrieNode) (before : List TrieOp) : Prop where
  trie : trie = runOps cfg noLoader before
  mark : ∀ op ∈ before, subtree = none ∧ ∃ txnId, op = markLayer cfg.chunkSize txnId
  splits : before = [] ∨ SafeRun cfg noLoader (before ++ inserts)

theorem tripleInserts_safe (cfg : Config) (subtree : Option DatabaseSubtree)
    (txnId : TransactionId) (t : Triple) :
    SafeRun cfg noLoader (tripleInserts cfg.chunkSize subtree txnId t) := by
  refine safeRun_of_length_le_four cfg le_rfl (fun op hop => ?_) fun op hop => ?_
  · obtain ⟨index, -, rfl⟩ := mem_map.mp hop
    rfl
  · obtain ⟨index, -, rfl⟩ := mem_map.mp hop
    exact tripleKey_valid cfg.chunkSize t index

theorem history_tripleInserts (txnId : TransactionId) (i : GraphIndex) :
    history (pathAccepted cfg) (tripleInserts cfg.chunkSize subtree txnId t)
        (pathChunks (pathOf cfg.chunkSize (tripleKey subtree t i))) =
      if pathAccepted cfg (pathOf cfg.chunkSize (tripleKey subtree t i))
      then [⟨txnId, some []⟩] else [] := by
  have hwrite : (TrieOp.writeTo (pathAccepted cfg)
      (pathChunks (pathOf cfg.chunkSize (tripleKey subtree t i))) ∘ fun index =>
        TrieOp.insert (pathOf cfg.chunkSize (tripleKey subtree t index)) [] txnId) =
      fun j => if j = i ∧ pathAccepted cfg (pathOf cfg.chunkSize (tripleKey subtree t i))
        then some ⟨txnId, some []⟩ else none := by
    funext j
    refine if_congr ?_ rfl rfl
    constructor
    · rintro ⟨hchunks, haccepted⟩
      obtain rfl := tripleKey_chunks_inj hchunks
      exact ⟨rfl, haccepted⟩
    · rintro ⟨rfl, haccepted⟩
      exact ⟨rfl, haccepted⟩
  rw [history, tripleInserts, filterMap_map, hwrite]
  by_cases haccepted : pathAccepted cfg (pathOf cfg.chunkSize (tripleKey subtree t i))
  · cases i <;> simp [allIndexes, haccepted]
  · simp [haccepted]

def insertedDb [Libcbor] (cfg : Config) (subtree : Option DatabaseSubtree) (layer : GraphLayer)
    (env : CallEnv) (t : Triple) : Db :=
  (graphInsertSync cfg noLoader subtree layer env t).1.db.scanned cfg noLoader

variable {before : List TrieOp} (hclean : CleanSubtree subtree) (hschema : layer.schema = none)
  (hbefore : BeforeTriples cfg subtree
    (tripleInserts cfg.chunkSize subtree (layer.db.nextId env) t) layer.db.trie before)

include hbefore

theorem BeforeTriples.safe : SafeRun cfg noLoader
      (before ++ tripleInserts cfg.chunkSize subtree (layer.db.nextId env) t) := by
  rcases hbefore.splits with rfl | hsafe
  · exact tripleInserts_safe cfg subtree _ t
  · exact hsafe

variable [Libcbor] (hok : (graphInsertSync cfg noLoader subtree layer env t).2 = .ok value)

include hclean hschema hok

theorem graphInsertSync_trie : (graphInsertSync cfg noLoader subtree layer env t).1.db.trie =
      runOps cfg noLoader
        (before ++ tripleInserts cfg.chunkSize subtree (layer.db.nextId env) t) := by
  have hne : insertOps none t ≠ [] := cons_ne_nil _ _
  rw [graphInsertSync, tripleBatch, hschema, if_neg hne] at hok ⊢
  refine (databaseBatchSyncRaw_ok (Prod.ext rfl hok)).trie.trans ?_
  rw [hbefore.trie, rawCalls, batchOps_insertOps hclean, map_map, runOps, runOps, foldl_append]
  rfl

theorem trieFrom_insertedDb : TrieFrom (insertedDb cfg subtree layer env t).chunkSize
      (insertedDb cfg subtree layer env t).load
      {p | (subtree = none ∧ p = layerMark) ∨ ∃ index, p = tripleKey subtree t index}
      (insertedDb cfg subtree layer env t).root := by
  rw [insertedDb, SyncDb.scanned, graphInsertSync_trie hclean hschema hbefore hok]
  refine trieFrom_runOps hbefore.safe fun op hop => ?_
  rcases mem_append.mp hop with hop | hop
  · obtain ⟨hnone, txnId, rfl⟩ := hbefore.mark op hop
    exact ⟨_, .inl ⟨hnone, rfl⟩, rfl⟩
  · obtain ⟨index, -, rfl⟩ := mem_map.mp hop
    exact ⟨_, .inr ⟨index, rfl⟩, rfl⟩

theorem insertedDb_shows (i : GraphIndex) :
    (∃ value, (insertedDb cfg subtree layer env t).Shows (tripleKey subtree t i) value) ↔
      pathAccepted cfg (pathOf cfg.chunkSize (tripleKey subtree t i)) = true := by
  have htrie := graphInsertSync_trie hclean hschema hbefore hok
  have hmark : ∀ op ∈ before, op.writeTo (pathAccepted cfg)
      (pathChunks (pathOf cfg.chunkSize (tripleKey subtree t i))) = none := by
    intro op hop
    obtain ⟨rfl, txnId, rfl⟩ := hbefore.mark op hop
    exact if_neg fun hand => underscore_ne _ _ _ i _ (hand.1.trans (pathChunks_append ..))
  have hcontent := (contentAt_runOps hbefore.safe).2
    (pathChunks (pathOf cfg.chunkSize (tripleKey subtree t i)))
  rw [history, filterMap_append, filterMap_eq_nil_iff.mpr hmark, nil_append, ← history,
    history_tripleInserts, contentAt_eq_itemAt, ← htrie] at hcontent
  constructor
  · rintro ⟨value, content, ⟨pathMeta, hitem, -⟩, -⟩
    have hitem' : itemAt noLoader (graphInsertSync cfg noLoader subtree layer env t).1.db.trie
        (pathChunks (pathOf cfg.chunkSize (tripleKey subtree t i))) =
          some (content, pathMeta) := hitem
    rw [hitem'] at hcontent
    by_contra hrefused
    rw [if_neg hrefused] at hcontent
    cases hcontent
  · intro haccepted
    rw [if_pos haccepted] at hcontent
    obtain ⟨⟨content, pathMeta⟩, hitem, hlegacy⟩ := Option.map_eq_some_iff.mp hcontent
    obtain rfl : content = .legacy [] (layer.db.nextId env) := hlegacy
    obtain ⟨_, ⟨rfl, rfl⟩ | ⟨j, rfl⟩, hchunks, hmeta⟩ :=
      (trieFrom_insertedDb hclean hschema hbefore hok).recorded _ _ _ hitem
    · exact absurd (hchunks.trans (pathChunks_append ..)) (underscore_ne _ _ _ i _)
    · obtain rfl := tripleKey_chunks_inj hchunks
      exact ⟨[], _, ⟨pathMeta, hitem, rfl, .inl hmeta⟩, rfl⟩

theorem insertedDb_holds : HoldsKeysOf (insertedDb cfg subtree layer env t) subtree t := by
  have hfrom := trieFrom_insertedDb hclean hschema hbefore hok
  constructor
  · exact ok_of_trieFrom hfrom rfl
  · intro p content index w hstores hchunks
    obtain ⟨rfl, rfl⟩ | ⟨j, rfl⟩ := mem_of_stores hfrom hstores
    · exact absurd hchunks (underscore_ne _ _ _ index w)
    · rw [index_eq_of_chunks hchunks]
  · intro i j value hshows
    rw [insertedDb_shows hclean hschema hbefore hok, pathAccepted_tripleKey]
    exact (pathAccepted_tripleKey i).mp
      ((insertedDb_shows hclean hschema hbefore hok i).mp ⟨value, hshows⟩)

end Insert

/-! ### What the scans find -/

structure Triple.NulFree (t : Triple) : Prop where
  subject : HBTrie.NulFree t.subject
  predicate : HBTrie.NulFree t.predicate
  object : HBTrie.NulFree t.object

/-- A scan of the index between two keys finds the triple. -/
structure Sees (db : Db) (subtree : Option DatabaseSubtree) (t : Triple) (index : GraphIndex)
    (lo hi : Bytes) : Prop where
  shown : ∃ value, db.Shows (tripleKey subtree t index) value
  between : Between (rawSegments slash [] lo) (rawSegments slash [] hi) (index.strings t)
  seek : pathChunks (layerPath db.chunkSize subtree (index.keyOf lo)) ≤
    db.chunksOf (tripleKey subtree t index)

section Scans

variable {db : Db} {subtree : Option DatabaseSubtree} {t : Triple} {scan : LayerScan}
  {index : GraphIndex} {lo hi c : Bytes}

theorem Triple.NulFree.of_mem_strings (h : t.NulFree) (hc : c ∈ index.strings t) :
    HBTrie.NulFree c := by
  rcases mem_strings.mp hc with hc | hc | hc
  · exact nulFree_of_mem_rawSegments h.subject hc
  · exact nulFree_of_mem_rawSegments h.predicate hc
  · exact nulFree_of_mem_rawSegments h.object hc

theorem of_mem_strings (hc : c ∈ index.strings t) : c ≠ [] ∧ slash ∉ c := by
  rcases mem_strings.mp hc with hc | hc | hc
  · exact of_mem_rawSegments not_mem_nil hc
  · exact of_mem_rawSegments not_mem_nil hc
  · exact of_mem_rawSegments not_mem_nil hc

theorem layerKey_tripleKey (cs : ChunkSize) : layerKey cs subtree (tripleKey subtree t index) =
      [slash].intercalate (index.name :: index.strings t) := by
  rw [layerKey, map_reportedComponent, tripleKey, append_assoc, drop_left]
  · rfl
  · intro c hc
    rw [tripleKey, mem_append, mem_append, mem_singleton] at hc
    rcases hc with (hc | rfl) | hc
    · exact layerPrefix_nonempty hc
    · exact index.name_proper.nonempty
    · exact (of_mem_strings hc).1

/-- A scan that does not pass the key comes to it: other indexes are not on the way. -/
theorem HoldsKeysOf.reaches_iff (h : HoldsKeysOf db subtree t) :
    db.ScanReaches (some (layerPath db.chunkSize subtree (index.keyOf lo)))
        (some (layerPath db.chunkSize subtree (index.keyOf hi))) (tripleKey subtree t index) ↔
      pathChunks (layerPath db.chunkSize subtree (index.keyOf lo)) ≤
        db.chunksOf (tripleKey subtree t index) := by
  have hvalid : ValidPath (layerPath db.chunkSize subtree (index.keyOf lo)) := by
    rw [layerPath_keyOf]
    exact pathOf_valid _ (by simp)
  constructor
  · intro hreaches
    exact (startReaches_iff hvalid _).mp hreaches.seek
  · intro hseek
    refine ⟨(startReaches_iff hvalid _).mpr hseek, fun q content hq hqseek hlt => ?_⟩
    -- a key between two keys of the index is of the index
    have hle := (startReaches_iff hvalid _).mp hqseek
    rw [layerPath_keyOf, pathChunks_append] at hle
    obtain ⟨w, hw⟩ := prefix_of_between hle (hlt.trans_eq (pathChunks_append ..))
    obtain rfl := h.only q content index w hq hw
    exact absurd hlt (lt_irrefl _)

theorem HoldsKeysOf.scan_keys (h : HoldsKeysOf db subtree t) (hclean : CleanSubtree subtree)
    (hscan : Scans db subtree scan) (ht : t.NulFree) (hlo : HBTrie.NulFree lo)
    (hhi : HBTrie.NulFree hi) : ∃ keys, scan (index.keyOf lo) (index.keyOf hi) = .ok keys ∧
      ∀ key, key ∈ keys ↔ Sees db subtree t index lo hi ∧
        key = [slash].intercalate (index.name :: index.strings t) := by
  obtain ⟨depth, hdb⟩ := h.ok
  have hbetween : InRange (some (layerPath db.chunkSize subtree (index.keyOf lo)))
      (some (layerPath db.chunkSize subtree (index.keyOf hi)))
      (pathOf db.chunkSize (tripleKey subtree t index)) ↔
      Between (rawSegments slash [] lo) (rawSegments slash [] hi) (index.strings t) := by
    rw [layerPath_keyOf, layerPath_keyOf, tripleKey]
    exact inRange_layer_iff (fun c => nulFree_of_mem_rawSegments hlo)
      (fun c => nulFree_of_mem_rawSegments hhi) fun c => ht.of_mem_strings
  obtain ⟨keys, hok, hmem⟩ := hscan.keys hdb hclean (cons_ne_nil _ _)
    (cons_ne_nil _ _) fun _ _ _ hscans => hscans.longer
  refine ⟨keys, hok, fun key => ?_⟩
  rw [hmem]
  constructor
  · rintro ⟨p, value, hshows, hscans, rfl⟩
    obtain ⟨content, hstores, -⟩ := id hshows
    obtain ⟨rest, hrest⟩ := hscans.beginsWith
    obtain rfl := h.only p content index rest.flatten hstores
      ((congrArg flatten hrest).trans flatten_append)
    exact ⟨⟨⟨value, hshows⟩, hbetween.mp hscans.inside, h.reaches_iff.mp hscans.reached⟩,
      layerKey_tripleKey _⟩
  · rintro ⟨⟨⟨value, hshows⟩, hinside, hseek⟩, rfl⟩
    exact ⟨_, value, hshows, ⟨hbetween.mpr hinside, h.reaches_iff.mpr hseek⟩,
      (layerKey_tripleKey _).symm⟩

def lastString (strings : List Bytes) : Option Bytes :=
  strings.getLast?.map (List.take (bufferSize - 1))

theorem keyLastComponent_strings (ht : t.NulFree) :
    keyLastComponent ([slash].intercalate (index.name :: index.strings t)) =
      lastString (index.strings t) := by
  have hslash := fun c (hc : c ∈ index.strings t) => (of_mem_strings hc).2
  have hnul := fun c (hc : c ∈ index.strings t) => ht.of_mem_strings hc
  generalize index.strings t = strings at hslash hnul ⊢
  rcases eq_nil_or_concat' strings with rfl | ⟨front, z, rfl⟩
  · rw [intercalate_singleton, keyLastComponent, if_neg index.name_proper.slashFree]
    rfl
  · have hz : z ∈ front ++ [z] := mem_append_right _ (mem_singleton_self z)
    rw [intercalate_concat, keyLastComponent_append _ (hslash z hz) (hnul z hz), lastString,
      getLast?_concat, Option.map_some]

theorem HoldsKeysOf.mem_scan (h : HoldsKeysOf db subtree t) (hclean : CleanSubtree subtree)
    (hscan : Scans db subtree scan) (ht : t.NulFree) {a b : Bytes} (ha : HBTrie.NulFree a)
    (hb : HBTrie.NulFree b) (v : Bytes) :
    (∃ keys, scan (buildPrefixVec index.name a b) (appendSuccessor
        (buildPrefixVec index.name a b)) = .ok keys ∧ ∃ key ∈ keys, keyLastComponent key = some v) ↔
      Sees db subtree t index (edgeStart a b) (edgeEnd a b) ∧
        lastString (index.strings t) = some v := by
  obtain ⟨keys, hok, hmem⟩ := @HoldsKeysOf.scan_keys db subtree t scan index _ _ h hclean hscan ht
    (nulFree_edge ha hb).1 (nulFree_edge ha hb).2
  rw [appendSuccessor_buildPrefixVec, buildPrefixVec_eq, hok]
  constructor
  · rintro ⟨_, ⟨⟩, key, hkey, hlast⟩
    obtain ⟨hsees, rfl⟩ := (hmem key).mp hkey
    rw [keyLastComponent_strings ht] at hlast
    exact ⟨hsees, hlast⟩
  · rintro ⟨hsees, hlast⟩
    refine ⟨keys, rfl, _, (hmem _).mpr ⟨hsees, rfl⟩, ?_⟩
    rw [keyLastComponent_strings ht, hlast]

end Scans

/-! ### Observed triples -/

/-- The prefix of a scan fits the buffer for the end bound. -/
def PrefixFits (index : GraphIndex) (a b : Bytes) : Prop :=
  (buildPrefixVec index.name a b).length + 2 ≤ bufferSize

/-- The scan of an index for two strings finds the triple `t` and gives the vertex. -/
structure Gives (db : Db) (subtree : Option DatabaseSubtree) (t : Triple) (index : GraphIndex)
    (a b v : Bytes) : Prop where
  fits : PrefixFits index a b
  sees : Sees db subtree t index (edgeStart a b) (edgeEnd a b)
  last : lastString (index.strings t) = some v

def Observed (scan : LayerScan) (t : Triple) : Prop :=
  t.object ∈ (graphExecuteOut scan (.single t.subject) t.predicate).1 ∨
    t.subject ∈ (graphExecuteIn scan (.single t.object) t.predicate).1 ∨
    t.subject ∈ (graphExecuteHas scan (some (.single t.subject)) t.predicate t.object .eq).1

/-- `Out` finds the triple, and no other triple of a kind is observed. -/
def OnlyObserved (scan : LayerScan) (t : Triple) (kind : Triple → Prop) : Prop :=
  Yields (graphExecuteOut scan (.single t.subject) t.predicate) (· = t.object) ∧
    ∀ t', kind t' → t' ≠ t → ¬ Observed scan t'

section Observed

variable {db : Db} {subtree : Option DatabaseSubtree} {t t' : Triple} {scan : LayerScan}
  (h : HoldsKeysOf db subtree t) (hclean : CleanSubtree subtree) (hscan : Scans db subtree scan)
  (ht : t.NulFree) {p o : Bytes}

include h hclean hscan ht

theorem HoldsKeysOf.mem_scanOne {index : GraphIndex} {a b u : Bytes} {prefixFor : Bytes → Bytes}
    (ha : NulFree a) (hb : NulFree b) (hstring : prefixFor u = buildPrefixVec index.name a b)
    (v : Bytes) : v ∈ (scanEach scan prefixFor [u] .init).1 ↔ Gives db subtree t index a b v := by
  simp only [mem_scanEach, or_iff_right not_mem_init, mem_singleton, exists_eq_left,
    hstring, h.mem_scan hclean hscan ht ha hb v]
  exact ⟨fun ⟨hfits, hsees, hlast⟩ => ⟨hfits, hsees, hlast⟩,
    fun ⟨hfits, hsees, hlast⟩ => ⟨hfits, hsees, hlast⟩⟩

theorem HoldsKeysOf.mem_out {s : Bytes} (hs : NulFree s) (hp : NulFree p) (v : Bytes) :
    v ∈ (graphExecuteOut scan (.single s) p).1 ↔ Gives db subtree t .spo s p v :=
  h.mem_scanOne hclean hscan ht hs hp rfl v

theorem HoldsKeysOf.mem_in (ho : NulFree o) (hp : NulFree p) (v : Bytes) :
    v ∈ (graphExecuteIn scan (.single o) p).1 ↔ Gives db subtree t .pos p o v :=
  h.mem_scanOne hclean hscan ht hp ho rfl v

theorem HoldsKeysOf.mem_has (ho : NulFree o) (hp : NulFree p) (v : Bytes) :
    v ∈ (graphExecuteHas scan (some (.single v)) p o .eq).1 ↔ Gives db subtree t .pos p o v := by
  have hone := @HoldsKeysOf.mem_scan db subtree t scan .pos h hclean hscan ht _ _ hp ho v
  obtain ⟨keys, hok, -⟩ := @HoldsKeysOf.scan_keys db subtree t scan .pos _ _ h hclean hscan ht
    (nulFree_edge hp ho).1 (nulFree_edge hp ho).2
  rw [← appendSuccessor_buildPrefixVec, ← buildPrefixVec_eq] at hok
  rw [graphExecuteHas, hasStart, hasEnd, hok]
  by_cases hlong : bufferSize < hasLength p o .eq
  · rw [if_pos hlong]
    refine iff_of_false not_mem_init fun hgives => ?_
    exact absurd hgives.fits (not_le.mpr hlong)
  · rw [if_neg hlong]
    have hmem : v ∈ init.addAll ((keys.filterMap (hasSubject o .eq)).filter
        fun subject => (some (single v)).all fun set => set.contains subject) ↔
        ∃ keys', (Except.ok keys : Except Int (List Bytes)) = .ok keys' ∧
          ∃ key ∈ keys', keyLastComponent key = some v := by
      simp [hasSubject]
    rw [hok] at hone
    rw [hmem, hone]
    constructor
    · rintro ⟨hsees, hlast⟩
      exact ⟨not_lt.mp hlong, hsees, hlast⟩
    · rintro ⟨-, hsees, hlast⟩
      exact ⟨hsees, hlast⟩

theorem HoldsKeysOf.observed_iff (ht' : t'.NulFree) :
    Observed scan t' ↔ Gives db subtree t .spo t'.subject t'.predicate t'.object ∨
      Gives db subtree t .pos t'.predicate t'.object t'.subject := by
  rw [Observed, h.mem_out hclean hscan ht ht'.subject ht'.predicate, h.mem_in hclean hscan ht
    ht'.object ht'.predicate, h.mem_has hclean hscan ht ht'.object ht'.predicate, or_self]

end Observed

/-! ### Other triples -/

section Others

variable {db : Db} {subtree : Option DatabaseSubtree} {t : Triple} {index : GraphIndex}
  {a b v : Bytes}

theorem pathChunks_le_of_continues {cs : ChunkSize} (front : List Bytes) {y : Bytes}
    (h : y = b ∨ Continues b y) (rest : List Bytes) :
    pathChunks (pathOf cs (front ++ [b])) ≤ pathChunks (pathOf cs (front ++ y :: rest)) := by
  rcases h with rfl | ⟨c, r, rfl, -⟩
  · have hle := @pathChunks_continues_le cs front y [] rest
    rwa [append_nil] at hle
  · exact pathChunks_continues_le front b (c :: r) rest

/-- A triple is found through the first of its strings alone. -/
theorem gives_head {rest : List Bytes}
    (hshown : ∃ value, db.Shows (tripleKey subtree t index) value)
    (hstrings : index.strings t = b :: rest) (hfits : PrefixFits index [] b)
    (hlast : lastString (index.strings t) = some v) : Gives db subtree t index [] b v := by
  obtain ⟨hne, hslash⟩ : b ≠ [] ∧ slash ∉ b := @of_mem_strings t index b (hstrings ▸ mem_cons_self)
  obtain ⟨hstart, hend⟩ := rawSegments_edge [] b
  rw [rawSegments_eq_self hne hslash] at hstart
  rw [rawSegments_successor hslash] at hend
  refine ⟨hfits, ⟨hshown, ?_, ?_⟩, hlast⟩
  · rw [hstart, hend, hstrings]
    exact between_one (.inl rfl) rest
  · rw [layerPath_keyOf, hstart, Db.chunksOf, tripleKey, hstrings]
    exact pathChunks_le_of_continues _ (.inl rfl) rest

theorem gives_edge_iff (ha : ProperString a) (hb : ProperString b) :
    Gives db subtree t index a b v ↔
      PrefixFits index a b ∧ (∃ value, db.Shows (tripleKey subtree t index) value) ∧
        (∃ y rest, index.strings t = a :: y :: rest ∧ (y = b ∨ Continues b y)) ∧
          lastString (index.strings t) = some v := by
  constructor
  · rintro ⟨hfits, ⟨hshown, hbetween, -⟩, hlast⟩
    exact ⟨hfits, hshown, (between_edge_iff ha hb _).mp hbetween, hlast⟩
  · rintro ⟨hfits, hshown, hstrings, hlast⟩
    refine ⟨hfits, ⟨hshown, (between_edge_iff ha hb _).mpr hstrings, ?_⟩, hlast⟩
    obtain ⟨y, rest, hstrings, hy⟩ := hstrings
    have hfront : ∀ x : List Bytes, layerPrefix subtree ++ [index.name] ++ a :: x =
        layerPrefix subtree ++ [index.name] ++ [a] ++ x := by
      intro x
      rw [append_assoc _ [a]]
      rfl
    rw [layerPath_keyOf, (rawSegments_edge a b).1, rawSegments_eq_self ha.nonempty ha.slashFree,
      rawSegments_eq_self hb.nonempty hb.slashFree, singleton_append, Db.chunksOf, tripleKey,
      hstrings, hfront [b], hfront (y :: rest)]
    exact pathChunks_le_of_continues _ hy rest

/-- An object that comes back as itself is a component. -/
theorem object_of_lastString (h : lastString (index.strings t) = some v) :
    v ≠ [] ∧ slash ∉ v ∧ v.length < bufferSize := by
  obtain ⟨z, hz, rfl⟩ := Option.map_eq_some_iff.mp h
  obtain ⟨hne, hslash⟩ := of_mem_strings (mem_of_getLast? hz)
  refine ⟨?_, fun hmem => hslash (mem_of_mem_take hmem), ?_⟩
  · rw [ne_eq, take_eq_nil_iff, not_or]
    exact ⟨by decide, hne⟩
  · have hle := length_take_le (bufferSize - 1) z
    have hpos : 0 < bufferSize := by decide
    omega

theorem gives_slashes (ha : rawSegments slash [] a = []) (hb : rawSegments slash [] b = [])
    (h : Gives db subtree t index a b v) {s : Bytes} (hs : rawSegments slash [] s = [])
    (hlength : s.length ≤ 1) : Gives db subtree t index s [] v := by
  have hstart : rawSegments slash [] (edgeStart s []) = rawSegments slash [] (edgeStart a b) := by
    rw [(rawSegments_edge _ _).1, (rawSegments_edge _ _).1, hs, ha, hb]
    rfl
  have hend : rawSegments slash [] (edgeEnd s []) = rawSegments slash [] (edgeEnd a b) := by
    rw [(rawSegments_edge _ _).2, (rawSegments_edge _ _).2, hs, ha, rawSegments_append_of_eq_nil hb]
    rfl
  refine ⟨?_, ⟨h.sees.shown, ?_, ?_⟩, h.last⟩
  · simp only [PrefixFits, buildPrefixVec, length_append, length_cons, length_name, length_nil]
    have hsize : bufferSize = 4096 := rfl
    omega
  · rw [hstart, hend]
    exact h.sees.between
  · rw [layerPath_keyOf, hstart, ← layerPath_keyOf]
    exact h.sees.seek

theorem prefixFits_iff : PrefixFits index a b ↔ a.length + b.length + 9 ≤ bufferSize := by
  simp only [PrefixFits, buildPrefixVec, length_append, length_cons, length_name, length_nil]
  omega

/-- A triple that `Out` finds is also found as another one. -/
theorem exists_other (htogether : ∀ i j value, db.Shows (tripleKey subtree t i) value →
      ∃ value, db.Shows (tripleKey subtree t j) value) (ht : t.NulFree)
    (h : Gives db subtree t .spo t.subject t.predicate t.object) :
    ∃ t', t'.NulFree ∧ t' ≠ t ∧ (Gives db subtree t .spo t'.subject t'.predicate t'.object ∨
      Gives db subtree t .pos t'.predicate t'.object t'.subject) := by
  obtain ⟨hne, hslash, hshort⟩ := object_of_lastString h.last
  have hobject := rawSegments_eq_self hne hslash
  have hnil : NulFree [] := not_mem_nil
  have hfits := prefixFits_iff.mp h.fits
  cases hfront : rawSegments slash [] t.subject ++ rawSegments slash [] t.predicate with
  | nil =>
    -- without segments before the object, all strings of slashes are alike
    obtain ⟨hsubject, hpredicate⟩ := append_eq_nil_iff.mp hfront
    have hgives : ∀ s, rawSegments slash [] s = [] → s.length ≤ 1 →
        Gives db subtree t .spo s [] t.object :=
      fun _ => gives_slashes hsubject hpredicate h
    by_cases hempty : t.subject = []
    · have hslashes : NulFree [slash] := by decide
      refine ⟨⟨[slash], [], t.object⟩, ⟨hslashes, hnil, ht.object⟩, fun heq => ?_,
        .inl (hgives [slash] rfl le_rfl)⟩
      rw [← congrArg subject heq] at hempty
      cases hempty
    · refine ⟨⟨[], [], t.object⟩, ⟨hnil, hnil, ht.object⟩, fun heq => ?_,
        .inl (hgives [] rfl (Nat.zero_le 1))⟩
      exact hempty (congrArg subject heq).symm
  | cons b rest =>
    have hstrings : spo.strings t = b :: (rest ++ [t.object]) := by
      have hall : spo.strings t = rawSegments slash [] t.subject ++
        rawSegments slash [] t.predicate ++ rawSegments slash [] t.object := rfl
      rw [hall, hfront, hobject, cons_append]
    have hb : b ∈ spo.strings t := hstrings ▸ mem_cons_self
    have hlength : b.length ≤ t.subject.length + t.predicate.length := by
      have hmem : b ∈ rawSegments slash [] t.subject ++ rawSegments slash [] t.predicate :=
        hfront ▸ mem_cons_self
      rcases mem_append.mp hmem with hmem | hmem
      · exact (sublist_of_mem_rawSegments hmem).length_le.trans (Nat.le_add_right _ _)
      · exact (sublist_of_mem_rawSegments hmem).length_le.trans (Nat.le_add_left _ _)
    have hfits' : ∀ i : GraphIndex, PrefixFits i [] b := by
      intro i
      rw [prefixFits_iff, length_nil]
      omega
    by_cases hself : (⟨[], b, t.object⟩ : Triple) = t
    · -- the same triple: the other index shows it with its strings moved
      have hsubject : t.subject = [] := (congrArg subject hself).symm
      have hpredicate : t.predicate = b := (congrArg predicate hself).symm
      have hpos : pos.strings t = [b, t.object] := by
        have hall : pos.strings t = rawSegments slash [] t.predicate ++
          rawSegments slash [] t.object ++ rawSegments slash [] t.subject := rfl
        have hmem := of_mem_strings hb
        rw [hall, hsubject, hpredicate, hobject, rawSegments_eq_self hmem.1 hmem.2]
        rfl
      obtain ⟨value, hshows⟩ := h.sees.shown
      refine ⟨⟨t.object, [], b⟩, ⟨ht.object, hnil, ht.of_mem_strings hb⟩, fun heq => ?_,
        .inr (gives_head (htogether _ _ _ hshows) hpos (hfits' _) ?_)⟩
      · exact hne ((congrArg subject heq).trans hsubject)
      · have hlast : lastString [b, t.object] = some (t.object.take (bufferSize - 1)) := rfl
        rw [hpos, hlast, take_of_length_le (by omega)]
    · exact ⟨⟨[], b, t.object⟩, ⟨hnil, ht.of_mem_strings hb, ht.object⟩, hself,
        .inl (gives_head h.sees.shown hstrings (hfits' _) h.last)⟩

end Others

/-! ### Aliases -/

structure Triple.ProperStrings (t : Triple) : Prop where
  subject : ProperString t.subject
  predicate : ProperString t.predicate
  object : ProperString t.object

/-- The strings of the triple fit the buffers, and its predicate and object have no byte below
`0` behind their first one. -/
structure PlainTriple (cfg : Config) (subtree : Option DatabaseSubtree) (t : Triple) : Prop where
  prefixAccepted : pathAccepted cfg (pathOf cfg.chunkSize (layerPrefix subtree)) = true
  fits : t.subject.length + t.predicate.length + 9 ≤ bufferSize
  objectFits : t.object.length < bufferSize
  predicatePlain : ∀ a, a ≠ [] → ¬ Continues a t.predicate
  objectPlain : ∀ a, a ≠ [] → t.predicate.length + a.length + 9 ≤ bufferSize →
    ¬ Continues a t.object

section Aliases

variable {db : Db} {subtree : Option DatabaseSubtree} {t : Triple} {scan : LayerScan}
  {a data : Bytes}

theorem Triple.ProperStrings.nulFree (h : t.ProperStrings) : t.NulFree :=
  ⟨h.subject.nulFree, h.predicate.nulFree, h.object.nulFree⟩

theorem Triple.ProperStrings.strings (h : t.ProperStrings) (index : GraphIndex) :
    index.strings t = [index.first t, index.second t, index.third t] := by
  have hself : ∀ x, ProperString x → rawSegments slash [] x = [x] :=
    fun _ hx => rawSegments_eq_self hx.nonempty hx.slashFree
  cases index <;> simp only [GraphIndex.strings, GraphIndex.first, GraphIndex.second,
    GraphIndex.third, hself _ h.subject, hself _ h.predicate, hself _ h.object] <;> rfl

theorem ProperString.of_continues (h : ProperString data) (hne : a ≠ [])
    (hcontinues : Continues a data) : ProperString a := by
  obtain ⟨b, rest, rfl, -⟩ := hcontinues
  exact ⟨hne, fun hmem => h.slashFree (mem_append_left _ hmem),
    fun hmem => h.nulFree (mem_append_left _ hmem)⟩

theorem Continues.length_lt (h : Continues a data) : a.length < data.length := by
  obtain ⟨b, rest, rfl, -⟩ := h
  rw [length_append, length_cons]
  omega

theorem Triple.ProperStrings.gives_iff (h : t.ProperStrings) {index : GraphIndex} {b v : Bytes}
    (ha : ProperString a) (hb : ProperString b) : Gives db subtree t index a b v ↔
      a.length + b.length + 9 ≤ bufferSize ∧
        (∃ value, db.Shows (tripleKey subtree t index) value) ∧ index.first t = a ∧
        (index.second t = b ∨ Continues b (index.second t)) ∧
        (index.third t).take (bufferSize - 1) = v := by
  have hlast : lastString [index.first t, index.second t, index.third t] =
      some ((index.third t).take (bufferSize - 1)) := rfl
  rw [gives_edge_iff ha hb, prefixFits_iff, h.strings, hlast, Option.some.injEq]
  constructor
  · rintro ⟨hfits, hshown, ⟨y, rest, heq, hy⟩, hv⟩
    obtain ⟨hfirst, hsecond⟩ := cons.inj heq
    obtain ⟨rfl, -⟩ := cons.inj hsecond
    exact ⟨hfits, hshown, hfirst, hy, hv⟩
  · rintro ⟨hfits, hshown, rfl, hy, hv⟩
    exact ⟨hfits, hshown, ⟨_, _, rfl, hy⟩, hv⟩

variable (h : HoldsKeysOf db subtree t) (hclean : CleanSubtree subtree)
  (hscan : Scans db subtree scan)

include h hclean hscan

theorem HoldsKeysOf.out_yields_iff (ht : t.NulFree) :
    Yields (graphExecuteOut scan (.single t.subject) t.predicate) (· = t.object) ↔
      Gives db subtree t .spo t.subject t.predicate t.object := by
  have hmem := h.mem_out hclean hscan ht ht.subject ht.predicate
  constructor
  · rintro ⟨-, hall⟩
    exact (hmem _).mp ((hall _).mpr rfl)
  · intro hgives
    refine ⟨scanEach_succeeds fun vertex hvertex => ?_, fun v => ?_⟩
    · obtain rfl := mem_singleton.mp hvertex
      obtain ⟨keys, hok, -⟩ := @HoldsKeysOf.scan_keys db subtree t scan .spo _ _ h hclean hscan ht
        (nulFree_edge ht.subject ht.predicate).1 (nulFree_edge ht.subject ht.predicate).2
      rw [appendSuccessor_buildPrefixVec, buildPrefixVec_eq]
      exact ⟨keys, hok⟩
    · rw [hmem]
      constructor
      · intro hv
        exact Option.some.inj (hv.last.symm.trans hgives.last)
      · rintro rfl
        exact hgives

/-- Of the triples of proper strings, a triple is the only one that is observed exactly if it is
plain. -/
theorem HoldsKeysOf.onlyObserved_iff {cfg : Config} (ht : t.ProperStrings)
    (hshown : ∀ index, (∃ value, db.Shows (tripleKey subtree t index) value) ↔ pathAccepted cfg
      (pathOf cfg.chunkSize (tripleKey subtree t index))) :
    OnlyObserved scan t Triple.ProperStrings ↔ PlainTriple cfg subtree t := by
  rw [OnlyObserved, h.out_yields_iff hclean hscan ht.nulFree, ht.gives_iff ht.subject ht.predicate]
  constructor
  · rintro ⟨⟨hfits, hspo, -, -, htake⟩, honly⟩
    have hobject : t.object.length < bufferSize := by
      have hle := length_take_le (bufferSize - 1) t.object
      rw [show t.object.take (bufferSize - 1) = t.object from htake] at hle
      omega
    obtain ⟨value, hshows⟩ := id hspo
    refine ⟨(pathAccepted_pathOf ..).mpr fun c hc => ?_, hfits, hobject, fun a hne ha => ?_,
      fun a hne hlength ha => ?_⟩
    · exact (pathAccepted_pathOf ..).mp ((hshown _).mp hspo) c
        (mem_append_left _ (mem_append_left _ hc))
    · have hproper := ht.predicate.of_continues hne ha
      have hshorter := ha.length_lt
      have ht' : Triple.ProperStrings ⟨t.subject, a, t.object⟩ := ⟨ht.subject, hproper, ht.object⟩
      refine honly _ ht' (fun heq => ?_)
        ((h.observed_iff hclean hscan ht.nulFree ht'.nulFree).mpr (.inl ?_))
      · rw [← congrArg predicate heq] at hshorter
        exact lt_irrefl _ hshorter
      · exact (ht.gives_iff ht.subject hproper).mpr ⟨by omega, hspo, rfl, .inr ha, htake⟩
    · have hproper := ht.object.of_continues hne ha
      have hshorter := ha.length_lt
      have ht' : Triple.ProperStrings ⟨t.subject, t.predicate, a⟩ :=
        ⟨ht.subject, ht.predicate, hproper⟩
      refine honly _ ht' (fun heq => ?_)
        ((h.observed_iff hclean hscan ht.nulFree ht'.nulFree).mpr (.inr ?_))
      · rw [← congrArg object heq] at hshorter
        exact lt_irrefl _ hshorter
      · exact (ht.gives_iff ht.predicate hproper).mpr ⟨hlength, h.together _ _ _ hshows, rfl,
          .inr ha, take_of_length_le (show t.subject.length ≤ _ by omega)⟩
  · rintro ⟨hbefore, hfits, hobject, hpredicate, hplain⟩
    have hsize : bufferSize ≤ 0xFFFFFFFF := by decide
    have hspo := (hshown .spo).mpr (pathAccepted_of_short hbefore (by omega) (by omega) (by omega))
    have hwhole : (spo.third t).take (bufferSize - 1) = t.object :=
      take_of_length_le (show t.object.length ≤ _ by omega)
    have hwhole' : (pos.third t).take (bufferSize - 1) = t.subject :=
      take_of_length_le (show t.subject.length ≤ _ by omega)
    refine ⟨⟨hfits, hspo, rfl, .inl rfl, hwhole⟩, fun t' ht' hne hobserved => ?_⟩
    rcases (h.observed_iff hclean hscan ht.nulFree ht'.nulFree).mp hobserved with hgives | hgives
    · obtain ⟨-, -, hsubject, hsecond | hsecond, hthird⟩ :=
        (ht.gives_iff ht'.subject ht'.predicate).mp hgives
      · exact hne (Triple.ext hsubject.symm hsecond.symm (hthird.symm.trans hwhole))
      · exact hpredicate _ ht'.predicate.nonempty hsecond
    · obtain ⟨hlength, -, hfirst, hsecond | hsecond, hthird⟩ :=
        (ht.gives_iff ht'.predicate ht'.object).mp hgives
      · exact hne (Triple.ext (hthird.symm.trans hwhole') hfirst.symm hsecond.symm)
      · rw [← show t.predicate = t'.predicate from hfirst] at hlength
        exact hplain _ ht'.object.nonempty hlength hsecond

end Aliases

/-- A triple that was inserted into a store without triples is never the only one that the
traversals show. Of the triples of proper strings it is, exactly if it is plain. -/
theorem inserted_triple_aliases [Libcbor] (cfg : Config) (subtree : Option DatabaseSubtree)
    (layer : GraphLayer) (env : CallEnv) (t : Triple) (value : Int) (scan : LayerScan)
    (hclean : CleanSubtree subtree) (hschema : layer.schema = none) (before : List TrieOp)
    (hbefore : BeforeTriples cfg subtree
      (tripleInserts cfg.chunkSize subtree (layer.db.nextId env) t) layer.db.trie before)
    (hok : (graphInsertSync cfg noLoader subtree layer env t).2 = .ok value)
    (hscan : Scans (insertedDb cfg subtree layer env t) subtree scan) (ht : t.NulFree) :
    ¬ OnlyObserved scan t Triple.NulFree ∧
      (t.ProperStrings →
        (OnlyObserved scan t Triple.ProperStrings ↔ PlainTriple cfg subtree t)) := by
  have hholds := insertedDb_holds hclean hschema hbefore hok
  constructor
  · rintro ⟨hyields, honly⟩
    obtain ⟨t', ht', hne, hgives⟩ := exists_other hholds.together ht
      ((hholds.out_yields_iff hclean hscan ht).mp hyields)
    exact honly t' ht' hne ((hholds.observed_iff hclean hscan ht ht').mpr hgives)
  · intro hproper
    exact hholds.onlyObserved_iff hclean hscan hproper (insertedDb_shows hclean hschema hbefore hok)

/-! ### Examples -/

/-- `a b/c d`. -/
def pathTriple : Triple := ⟨[97], [98, 47, 99], [100]⟩

/-- A string without bytes below `0` behind its first one continues no other. -/
theorem not_continues {a data : Bytes} (hplain : ∀ b ∈ data.tail, successor ≤ b) (hne : a ≠ []) :
    ¬ Continues a data := by
  rintro ⟨b, rest, rfl, hb⟩
  obtain ⟨x, tail, rfl⟩ := exists_cons_of_ne_nil hne
  have hmem : b ∈ tail ++ b :: rest := mem_append_right _ mem_cons_self
  exact absurd hb (UInt8.not_lt.mpr (hplain b hmem))

section Examples

attribute [local instance] headCbor

theorem exists_scans_insertedDb {t : Triple}
    (hok : (graphInsertSync defaultConfig noLoader none freshLayer calmEnv t).2 = .ok 0) :
    ∃ scan, Scans (insertedDb defaultConfig none freshLayer calmEnv t) none scan := by
  obtain ⟨depth, hdb⟩ := (insertedDb_holds (nofun : CleanSubtree none) rfl
    ⟨rfl, forall_mem_nil _, .inl rfl⟩ hok).ok
  exact exists_scans hdb none

/-- The store of `a knows b`. -/
abbrev knowsDb : Db := insertedDb defaultConfig none freshLayer calmEnv knowsEdge

/-- `a knows b` is the only edge. -/
theorem inserted_knows_alone :
    ∃ scan, Scans knowsDb none scan ∧ OnlyObserved scan knowsEdge Triple.ProperStrings := by
  have hok : (graphInsertSync defaultConfig noLoader none freshLayer calmEnv knowsEdge).2 =
      .ok 0 := by decide +kernel
  obtain ⟨scan, hscan⟩ := exists_scans_insertedDb hok
  have hproper : knowsEdge.ProperStrings :=
    ⟨knowsEdge_proper.subject, knowsEdge_proper.predicate, knowsEdge_proper.object⟩
  refine ⟨scan, hscan, ((inserted_triple_aliases defaultConfig none freshLayer calmEnv knowsEdge 0
    scan nofun rfl [] ⟨rfl, forall_mem_nil _, .inl rfl⟩ hok hscan hproper.nulFree).2 hproper).mpr
      ⟨rfl, ?_, ?_, ?_, ?_⟩⟩
  · decide
  · decide
  · exact fun a hne => not_continues (by decide +kernel) hne
  · exact fun a hne _ => not_continues (by decide +kernel) hne

/-- `a b/c d` is observed as `a b d`. -/
theorem inserted_path_shows_shorter :
    (graphInsertSync defaultConfig noLoader none freshLayer calmEnv pathTriple).2 = .ok 0 ∧
      (∃ scan, Scans (insertedDb defaultConfig none freshLayer calmEnv pathTriple) none scan) ∧
      ∀ scan, Scans (insertedDb defaultConfig none freshLayer calmEnv pathTriple) none scan →
        Observed scan ⟨[97], [98], [100]⟩ ∧ ¬ OnlyObserved scan pathTriple Triple.NulFree := by
  have hok : (graphInsertSync defaultConfig noLoader none freshLayer calmEnv pathTriple).2 =
      .ok 0 := by decide +kernel
  refine ⟨hok, exists_scans_insertedDb hok, fun scan hscan => ?_⟩
  have hkeys : scan (buildPrefixVec spo.name [97] [98])
      (appendSuccessor (buildPrefixVec spo.name [97] [98])) =
        .ok [[slash].intercalate (spo.name :: spo.strings pathTriple)] :=
    hscan.eq_ok 60 (by decide +kernel)
  have hobserved : Observed scan ⟨[97], [98], [100]⟩ := by
    refine .inl ?_
    simp only [graphExecuteOut, single, scanEach, hkeys]
    decide +kernel
  refine ⟨hobserved, fun honly => honly.2 _ ⟨?_, ?_, ?_⟩ (by decide) hobserved⟩
  · decide
  · decide
  · decide

end Examples

end WaveDB.Graph
