import WaveDB.Database.BatchErrors
import WaveDB.Database.Subtree

/-!
The keys under a prefix (`database_subtree_delete_prefix` and `database_subtree_count` in
`Database/database_subtree.c`, with `database_scan_range_sync_raw` and `database_delete_sync_raw`
in `Database/database.c`).

Both functions scan from the prefix with a delimiter to the prefix with the byte after the
delimiter. The bounds are cut at the delimiters before they are compared, so that the scan starts
at the prefix itself and comes to siblings such as `bob.txt` and `bob-2` of `bob`.
-/

namespace WaveDB.Database

open WaveDB.Basis HBTrie Workers List Option RawResult SyncDb

/-! ### Raw scans and deletes -/

def boundPath (cs : ChunkSize) (key : Bytes) (delimiter : UInt8) : Option Path :=
  if key = [] then none else some (pathCreateFromRaw cs key delimiter)

variable (db : Db) (st : DatabaseSubtree)

/-- `database_scan_range_sync_raw`: the results, if the fuel suffices. -/
def databaseScanRangeSyncRaw (startKey endKey : Bytes) (delimiter : UInt8) (fuel : Nat) :
    Option (List RawResult) :=
  (scanAll db fuel (databaseScanStart db (boundPath db.chunkSize startKey delimiter)
    (boundPath db.chunkSize endKey delimiter))).map
      (List.map fun r => ⟨r.source, pathToKeyString r.path delimiter, r.value⟩)

def databaseScanSyncRaw (startKey : Bytes) (delimiter : UInt8) (fuel : Nat) :
    Option (List RawResult) :=
  databaseScanRangeSyncRaw db startKey [] delimiter fuel

/-- The scan of `database_subtree_delete_prefix` and `database_subtree_count`. -/
def scanUnder (key : Bytes) (delimiter : UInt8) (fuel : Nat) : Option (List RawResult) :=
  databaseScanRangeSyncRaw db (key ++ [delimiter]) (key ++ [delimiter + 1]) delimiter fuel

def databaseSubtreeCounted (fuel : Nat) : Option (List RawResult) :=
  if st.prefixKey = [] then databaseScanSyncRaw db [] st.delimiter fuel
  else scanUnder db st.prefixKey st.delimiter fuel

def databaseSubtreeCount (fuel : Nat) : Option Nat :=
  (databaseSubtreeCounted db st fuel).map List.length

section Delete

variable (cfg : Config) (load : Loader)

def databaseDeleteSyncRaw (s : SyncDb) (env : CallEnv) (key : Bytes) (delimiter : UInt8) :
    SyncDb × Except Int Int :=
  if key = [] then (s, .error (-1))
  else databaseDeleteSync cfg load s env (pathCreateFromRaw cfg.chunkSize key delimiter)

/-- The loop over the results, with the number of errors. What each call meets is given by the
number of calls after it. -/
def deleteEach (envs : Nat → CallEnv) (delimiter : UInt8) : SyncDb → List Bytes → SyncDb × Nat
  | s, [] => (s, 0)
  | s, key :: keys =>
    match databaseDeleteSyncRaw cfg load s (envs keys.length) key delimiter with
    | (s, .ok _) => deleteEach envs delimiter s keys
    | (s, .error _) =>
      ((deleteEach envs delimiter s keys).1, (deleteEach envs delimiter s keys).2 + 1)

def strippedPrefix (key : Bytes) (delimiter : UInt8) : Bytes :=
  if key.getLast? = some delimiter then key.dropLast else key

/-- `database_subtree_delete_prefix`: the database and the result, if the fuel suffices. -/
def databaseSubtreeDeletePrefix (s : SyncDb) (envs : Nat → CallEnv) (key : Bytes)
    (delimiter : UInt8) (fuel : Nat) : Option (SyncDb × Int) :=
  if strippedPrefix key delimiter = [] then some (s, 0)
  else (scanUnder (s.scanned cfg load) (strippedPrefix key delimiter) delimiter fuel).map
    fun results => (fun r => (r.1, if 0 < r.2 then -1 else 0))
      (deleteEach cfg load envs delimiter s (results.map RawResult.key))

end Delete

/-! ### Exactness -/

def Under (components p : List Bytes) : Prop := ∃ rest, rest ≠ [] ∧ p = components ++ rest

/-- The visible keys afterwards are those from before without the ones under the components. -/
def RemovesUnder (components : List Bytes) (before after : Db) : Prop :=
  ∀ p value, after.Shows p value ↔ before.Shows p value ∧ ¬ Under components p

/-- With enough fuel the count is the number of results of a scan, which are the visible keys under
the prefix, each once. -/
def CountsUnder : Prop :=
  ∃ results n, (∀ fuel, n ≤ fuel → databaseSubtreeCounted db st fuel = some results ∧
      databaseSubtreeCount db st fuel = some results.length) ∧
    (results.map source).Nodup ∧
    ∀ source, source ∈ results.map RawResult.source ↔
      ∃ p value, db.Shows p value ∧ Under st.components p ∧ source = db.chunksOf p

def reparsed (cs : ChunkSize) (delimiter : UInt8) (p : List Bytes) : List Bytes :=
  rawSegments delimiter [] ([delimiter].intercalate (p.map (reportedComponent cs)))

/-- The prefix with the byte after the delimiter behind its last component. Where the raw prefix
ends with `mark`, the byte is a component of its own. -/
def DatabaseSubtree.endBehind (mark : Bytes) : List Bytes :=
  if mark <:+ st.prefixKey then st.components ++ [[st.delimiter + 1]]
  else st.components.dropLast ++ [st.components.getLastD [] ++ [st.delimiter + 1]]

def DatabaseSubtree.countEnd : List Bytes := st.endBehind [st.delimiter]

/-- The deletion has cut off one delimiter. -/
def DatabaseSubtree.deleteEnd : List Bytes := st.endBehind [st.delimiter, st.delimiter]

def Db.Below (p bound : List Bytes) : Prop :=
  pathCompare (pathOf db.chunkSize p) (pathOf db.chunkSize bound) < 0

instance (p bound : List Bytes) : Decidable (db.Below p bound) :=
  inferInstanceAs (Decidable (_ < _))

/-- No key that is stored from `low` on and before the key, in the order of the chunks, is at or
behind `high`. -/
def Db.Unstopped (low high p : List Bytes) : Prop :=
  ∀ q content, db.Stores q content → db.chunksOf low ≤ db.chunksOf q →
    db.chunksOf q < db.chunksOf p → db.Below q high

/-- The key is between the two, and the walk from one to the other comes to it. -/
structure Db.Between (low high p : List Bytes) : Prop where
  notBelow : ¬ db.Below p low
  walked : db.chunksOf low ≤ db.chunksOf p
  below : db.Below p high
  unstopped : db.Unstopped low high p

/-- The visible keys under the prefix are apart from the others, and can be cut at the
delimiters. -/
structure Db.PrefixApart : Prop where
  outside : ∀ p value, db.Shows p value → db.Between st.components st.countEnd p →
    Under st.components p
  inside : ∀ p value, db.Shows p value → Under st.components p →
    db.Below p st.countEnd ∧ db.Unstopped st.components st.countEnd p
  /-- No component has the delimiter in it; an empty one is read as zeroes. -/
  uncut : ∀ p value, db.Shows p value → Under st.components p →
    ∀ c ∈ p, st.delimiter ∉ reportedComponent db.chunkSize c
  /-- Where the deletion goes on behind the count: what it comes to there and is not under the
  prefix leads to no key outside the prefix when it is cut. -/
  cut : ∀ q value, db.Shows q value → db.Between st.components st.deleteEnd q →
    ¬ Under st.components q → ∀ p value', db.Shows p value' →
      db.chunksOf (reparsed db.chunkSize st.delimiter q) = db.chunksOf p → Under st.components p

/-- The newest version of every value is visible: no other call is under way. -/
def Db.Quiet : Prop :=
  ∀ chunks newest older pathMeta,
    itemAt db.load db.root chunks = some (.versions (newest :: older), pathMeta) →
      newest.txnId ≤ scanReadTxnId db

/-! ### What the deletions leave -/

section Deletions

variable {cfg : Config} {load : Loader} {s s' before : SyncDb} {env : CallEnv}

theorem shownValue_newest {newest : VersionEntry} {older : List VersionEntry}
    {readTxnId : TransactionId} (h : newest.txnId ≤ readTxnId) :
    shownValue readTxnId (.versions (newest :: older)) =
      if newest.isDeleted then none else some (newest.value.getD []) := by
  have hle := (transactionIdCompare_le newest.txnId readTxnId).mpr h
  rw [shownValue, versionEntryFindVisible, if_pos hle]
  cases hdeleted : newest.isDeleted <;> simp [hdeleted]

/-- A raised read id shows the same where the newest version was visible before. -/
theorem Db.Quiet.shownValue_later {db : Db} (h : db.Quiet) {chunks : List Chunk} {content : Content}
    {pathMeta : List PathSubscriptMeta} {later : TransactionId}
    (hitem : itemAt db.load db.root chunks = some (content, pathMeta))
    (hle : scanReadTxnId db ≤ later) :
    shownValue later content = shownValue (scanReadTxnId db) content := by
  cases content with
  | legacy value txnId => rfl
  | versions chain =>
    cases chain with
    | nil => rfl
    | cons newest older =>
      have hnewest := h _ _ _ _ hitem
      rw [shownValue_newest hnewest, shownValue_newest (hnewest.trans hle)]

def SyncDb.readTxnId (s : SyncDb) : TransactionId :=
  if s.syncOnly then txnIdSentinel else s.manager.lastCommittedTxnId

theorem SyncDb.readTxnId_sync (h : s.syncOnly) : s.readTxnId = txnIdSentinel := if_pos h

theorem SyncDb.readTxnId_concurrent (h : s.syncOnly = false) :
    s.readTxnId = s.manager.lastCommittedTxnId :=
  if_neg (Bool.eq_false_iff.mp h)

/-- A reader gets the newest value if nothing newer is under way. -/
theorem visible_eq_newestAt {load : Loader} {s : SyncDb} {path : Path} (hvalid : ValidPath path)
    (h : HeadReadable s.readTxnId (contentAt load s.trie (pathChunks path))) :
    s.visible load path = newestAt load s.trie (pathChunks path) := by
  unfold SyncDb.visible
  split
  · exact hbtrieFindUnsafe_eq load _ hvalid
  · rename_i hsync
    rw [SyncDb.readTxnId_concurrent (Bool.eq_false_of_not_eq_true hsync)] at h
    exact hbtrieFind_eq_newestAt hvalid h

theorem SyncDb.commit_lastCommitted (s : SyncDb) (id : TransactionId) :
    (s.commit id).manager.lastCommittedTxnId =
      (s.manager.raiseLastCommitted id).lastCommittedTxnId := by
  unfold commit
  split <;> rfl

/-- A delete that succeeds is visible to scans, and they read no earlier than before. -/
theorem databaseDeleteSync_readTxnId {path : Path} {value : Int}
    (h : (databaseDeleteSync cfg load s env path).2 = .ok value) :
    s.readTxnId ≤ (databaseDeleteSync cfg load s env path).1.readTxnId ∧
      s.nextId env ≤ (databaseDeleteSync cfg load s env path).1.readTxnId := by
  unfold databaseDeleteSync writeEntrySync at h ⊢
  split at h
  · cases h
  · rename_i hvacuum
    rw [if_neg hvacuum]
    cases hsync : s.syncOnly with
    | true =>
      rw [if_pos rfl]
      have hafter : (((s.takeId env).logEntry env (deleteRecord path (s.nextId env))).apply cfg
          load [.delete path (s.nextId env)]).syncOnly = true :=
        (logEntry_frame _ _ _).2.2.trans hsync
      rw [readTxnId_sync hafter]
      exact ⟨le_txnIdSentinel _, le_txnIdSentinel _⟩
    | false =>
      rw [hsync, if_neg Bool.false_ne_true] at h
      rw [if_neg Bool.false_ne_true]
      split at h
      · rename_i hbegins
        rw [if_pos hbegins]
        have hafter : ((((s.begin env).logEntry env (deleteRecord path (s.nextId env))).apply
            cfg load [.delete path (s.nextId env)]).commit (s.nextId env)).syncOnly = false :=
          (logEntry_frame _ _ _).2.2.trans hsync
        rw [readTxnId_concurrent hsync, readTxnId_concurrent hafter,
          commit_lastCommitted, apply, (logEntry_frame _ _ _).2.1]
        exact le_raiseLastCommitted (s.begin env).manager (s.nextId env)
      · cases h

/-- After deletions of some keys: these show nothing, the others are as they were. -/
structure Erased (load : Loader) (before after : SyncDb) (keys : List (List Chunk)) : Prop where
  trie : TrieOk load after.trie
  plain : EntriesPlain load after.trie
  later : before.readTxnId ≤ after.readTxnId
  kept : ∀ key, key ∉ keys → itemAt load after.trie key = itemAt load before.trie key
  marked : ∀ key ∈ keys, ∀ content pathMeta, itemAt load after.trie key = some (content, pathMeta) →
    ∀ readTxnId, after.readTxnId ≤ readTxnId → shownValue readTxnId content = none

theorem Erased.refl (htrie : TrieOk load s.trie) (hplain : EntriesPlain load s.trie) :
    Erased load s s [] where
  trie := htrie
  plain := hplain
  later := le_rfl
  kept _ _ := rfl
  marked _ h := absurd h not_mem_nil

theorem Erased.delete {keys : List (List Chunk)} {components : List Bytes} {value : Int}
    (h : Erased load before s keys)
    (hok : (databaseDeleteSync cfg load s env (pathOf cfg.chunkSize components)).2 = .ok value) :
    Erased load before (databaseDeleteSync cfg load s env (pathOf cfg.chunkSize components)).1
      (keys ++ [pathChunks (pathOf cfg.chunkSize components)]) := by
  obtain ⟨hlater, hnext⟩ := databaseDeleteSync_readTxnId hok
  have htrie : (databaseDeleteSync cfg load s env (pathOf cfg.chunkSize components)).1.trie =
      (hbtrieDelete load s.trie (pathOf cfg.chunkSize components) (s.nextId env)).1 :=
    (writeEntrySync_ok (Prod.ext rfl hok)).2
  generalize (databaseDeleteSync cfg load s env (pathOf cfg.chunkSize components)).1 = after
    at hlater hnext htrie
  rw [hbtrieDelete] at htrie
  cases components with
  | nil =>
    -- an empty path leads nowhere
    have hsame : after.trie = s.trie := htrie
    refine ⟨hsame ▸ h.trie, hsame ▸ h.plain, h.later.trans hlater, fun key hkey => ?_,
      fun key hkey content pathMeta hitem readTxnId hread => ?_⟩
    · rw [hsame]
      exact h.kept key fun hmem => hkey (mem_append_left _ hmem)
    · rw [hsame] at hitem
      rcases mem_append.mp hkey with hkey | hkey
      · exact h.marked key hkey content pathMeta hitem readTxnId (hlater.trans hread)
      · rw [mem_singleton.mp hkey] at hitem
        cases hitem
  | cons first rest =>
    have hvalid := pathOf_valid cfg.chunkSize (cons_ne_nil first rest)
    have hend := hvalid.endsInChunk
    obtain ⟨hok', -⟩ := @hbtrieDeleteSteps_spec _ load (s.nextId env) _ h.trie hend
    obtain ⟨hplain, hitems⟩ := @itemAt_hbtrieDeleteSteps (s.nextId env) _ load _ h.trie h.plain hend
    rw [← htrie] at hok' hplain hitems
    rw [stepChunks_pathSteps] at hitems
    refine ⟨hok', hplain, h.later.trans hlater, fun key hkey => ?_,
      fun key hkey content pathMeta hitem readTxnId hread => ?_⟩
    · rw [mem_append, mem_singleton, not_or] at hkey
      rw [hitems, ← h.kept key hkey.1]
      cases itemAt load s.trie key with
      | none => rfl
      | some item => rw [map_some, if_neg hkey.2]
    · rw [hitems] at hitem
      obtain ⟨⟨old, oldMeta⟩, hold, heq⟩ := map_eq_some_iff.mp hitem
      obtain ⟨rfl, rfl⟩ := Prod.mk.inj heq
      by_cases hself : key = pathChunks (pathOf cfg.chunkSize (first :: rest))
      · rw [if_pos hself]
        exact @shownValue_newest ⟨_, none, true⟩ _ _ (hnext.trans hread)
      · rw [if_neg hself]
        have hmem : key ∈ keys := by
          rcases mem_append.mp hkey with hmem | hmem
          · exact hmem
          · exact absurd (mem_singleton.mp hmem) hself
        exact h.marked key hmem old oldMeta hold readTxnId (hlater.trans hread)

def rawChunks (cs : ChunkSize) (delimiter : UInt8) (key : Bytes) : List Chunk :=
  pathChunks (pathCreateFromRaw cs key delimiter)

theorem Erased.deleteEach {envs : Nat → CallEnv} {delimiter : UInt8} {keys : List Bytes}
    {done : List (List Chunk)} (h : Erased load before s done)
    (hrun : Database.deleteEach cfg load envs delimiter s keys = (s', 0)) :
    Erased load before s' (done ++ keys.map (rawChunks cfg.chunkSize delimiter)) := by
  induction keys generalizing s done with
  | nil =>
    obtain ⟨rfl, -⟩ := Prod.mk.inj hrun
    rw [map_nil, append_nil]
    exact h
  | cons key keys ih =>
    rw [Database.deleteEach, databaseDeleteSyncRaw] at hrun
    split at hrun
    · rename_i next value hdelete
      split at hdelete
      · cases hdelete
      · have hok : (databaseDeleteSync cfg load s (envs keys.length)
            (pathCreateFromRaw cfg.chunkSize key delimiter)).2 = .ok value := by rw [hdelete]
        have hstep := h.delete hok
        rw [← pathCreateFromRaw, hdelete] at hstep
        have hrest := ih hstep hrun
        rwa [append_assoc] at hrest
    · cases hrun

end Deletions

section Exact

variable {cfg : Config} {load : Loader} {s s' : SyncDb} {depth : Nat} {db : Db} {key : Bytes}
  {delimiter : UInt8} {st : DatabaseSubtree} {p : List Bytes}

theorem Erased.shows_iff {keys : List (List Chunk)} (h : Erased load s s' keys)
    (hquiet : (s.scanned cfg load).Quiet) (p : List Bytes) (value : Bytes) :
    (s'.scanned cfg load).Shows p value ↔
      (s.scanned cfg load).Shows p value ∧ (s.scanned cfg load).chunksOf p ∉ keys := by
  constructor
  · rintro ⟨content, ⟨pathMeta, hitem, hkey⟩, hshown⟩
    by_cases hmem : (s.scanned cfg load).chunksOf p ∈ keys
    · have hnone := h.marked _ hmem content pathMeta hitem _ le_rfl
      exact absurd (hnone.symm.trans hshown) nofun
    · have hbefore : itemAt load s.trie ((s.scanned cfg load).chunksOf p) =
          some (content, pathMeta) := (h.kept _ hmem).symm.trans hitem
      refine ⟨⟨content, ⟨pathMeta, hbefore, hkey⟩, ?_⟩, hmem⟩
      rw [← hquiet.shownValue_later hbefore h.later]
      exact hshown
  · rintro ⟨⟨content, ⟨pathMeta, hitem, hkey⟩, hshown⟩, hmem⟩
    refine ⟨content, ⟨pathMeta, (h.kept _ hmem).trans hitem, hkey⟩, ?_⟩
    rw [← hquiet.shownValue_later hitem h.later] at hshown
    exact hshown

theorem rawScan_results (hdb : db.Ok depth) (startKey endKey : Bytes) (delimiter : UInt8) :
    ∃ results n, (∀ fuel, n ≤ fuel →
        databaseScanRangeSyncRaw db startKey endKey delimiter fuel = some results) ∧
      results.Pairwise (fun a b => a.source < b.source) ∧
      ∀ r, r ∈ results ↔ ∃ p value, db.Shows p value ∧
        db.ScansRange (boundPath db.chunkSize startKey delimiter)
          (boundPath db.chunkSize endKey delimiter) p ∧ r = ⟨db.chunksOf p,
          [delimiter].intercalate (p.map (reportedComponent db.chunkSize)), value⟩ := by
  obtain ⟨results, n, hn, hsorted, hmem⟩ := scanAll_results hdb
    (boundPath db.chunkSize startKey delimiter) (boundPath db.chunkSize endKey delimiter)
  refine ⟨results.map fun r => ⟨r.source, pathToKeyString r.path delimiter, r.value⟩, n,
    fun fuel hfuel => ?_, pairwise_map.mpr hsorted, fun r => ?_⟩
  · rw [databaseScanRangeSyncRaw, hn fuel hfuel, map_some]
  · rw [mem_map_results _ hmem]
    simp only [pathToKeyString_pathOf]

/-! ### The bounds of the scans -/

theorem singleton_suffix_iff : [delimiter] <:+ key ↔ key.getLast? = some delimiter := by
  rw [getLast?_eq_some_iff]
  exact exists_congr fun front => eq_comm

theorem DatabaseSubtree.rawSegments_end (hne : st.components ≠ []) :
    rawSegments st.delimiter [] (st.prefixKey ++ [st.delimiter + 1]) = st.countEnd := by
  have hsucc : st.delimiter + 1 ≠ st.delimiter := by simp
  rw [countEnd, endBehind, components] at *
  split
  · rename_i hlast
    obtain ⟨front, hfront⟩ := hlast
    have hone : rawSegments st.delimiter [] [st.delimiter + 1] = [[st.delimiter + 1]] :=
      rawSegments_eq_self (cons_ne_nil _ _) fun h => hsucc (mem_singleton.mp h).symm
    rw [← hfront, append_assoc, singleton_append, rawSegments_append, rawSegments_append, hone,
      rawSegments, if_pos rfl, append_nil]
  · rename_i hlast
    have hkey : [] ++ st.prefixKey ≠ [] := by
      intro hnil
      rw [nil_append] at hnil
      rw [hnil] at hne
      exact hne rfl
    obtain ⟨front, last, hfront, hend⟩ :=
      rawSegments_concat hsucc hkey (singleton_suffix_iff.not.mp hlast)
    rw [hend, hfront, dropLast_concat, getLastD_concat]

/-- The scan under a prefix returns the keys between the prefix and its end. -/
theorem scanUnder_results (hdb : db.Ok depth) (hne : st.components ≠ []) :
    ∃ results n, (∀ fuel, n ≤ fuel →
        scanUnder db st.prefixKey st.delimiter fuel = some results) ∧
      results.Pairwise (fun a b => a.source < b.source) ∧
      ∀ r, r ∈ results ↔ ∃ p value, db.Shows p value ∧ db.Between st.components st.countEnd p ∧
        r = ⟨db.chunksOf p,
          [st.delimiter].intercalate (p.map (reportedComponent db.chunkSize)), value⟩ := by
  have hbound : ∀ b, boundPath db.chunkSize (st.prefixKey ++ [b]) st.delimiter =
      some (pathOf db.chunkSize (rawSegments st.delimiter [] (st.prefixKey ++ [b]))) :=
    fun b => if_neg (by simp)
  have hlow : rawSegments st.delimiter [] (st.prefixKey ++ [st.delimiter]) = st.components :=
    (rawSegments_append [] st.prefixKey []).trans (append_nil _)
  have hseek := @startReaches_iff db.load db.root _ (pathOf_valid db.chunkSize hne)
  have hscan := rawScan_results hdb (st.prefixKey ++ [st.delimiter])
    (st.prefixKey ++ [st.delimiter + 1]) st.delimiter
  rw [hbound, hbound, hlow, st.rawSegments_end hne] at hscan
  have hbetween : ∀ p, db.ScansRange (some (pathOf db.chunkSize st.components))
      (some (pathOf db.chunkSize st.countEnd)) p ↔ db.Between st.components st.countEnd p := by
    intro p
    constructor
    · rintro ⟨⟨hfrom, hto⟩, hreaches, hunstopped⟩
      exact ⟨not_lt.mpr (hfrom _ rfl), (hseek _).mp hreaches, hto _ rfl,
        fun q content hq hle hlt => hunstopped q content hq ((hseek _).mpr hle) hlt _ rfl⟩
    · rintro ⟨hfrom, hle, hto, hunstopped⟩
      exact ⟨⟨fun _ hb => mem_some_iff.mp hb ▸ not_lt.mp hfrom,
        fun _ hb => mem_some_iff.mp hb ▸ hto⟩, (hseek _).mpr hle,
        fun q content hq hreaches hlt _ hb =>
          mem_some_iff.mp hb ▸ hunstopped q content hq ((hseek _).mp hreaches) hlt⟩
  simp only [hbetween] at hscan
  exact hscan

/-- What the deletion makes of its prefix. -/
def DatabaseSubtree.stripped (st : DatabaseSubtree) : DatabaseSubtree :=
  ⟨strippedPrefix st.prefixKey st.delimiter, st.delimiter⟩

theorem DatabaseSubtree.stripped_components : st.stripped.components = st.components := by
  rw [components, components, stripped, strippedPrefix]
  split
  · rename_i hlast
    obtain ⟨front, hfront⟩ := getLast?_eq_some_iff.mp hlast
    rw [hfront, dropLast_concat, rawSegments_append]
    exact (append_nil _).symm
  · rfl

theorem suffix_strippedPrefix :
    [delimiter] <:+ strippedPrefix key delimiter ↔ [delimiter, delimiter] <:+ key := by
  unfold strippedPrefix
  split
  · rename_i hlast
    obtain ⟨front, rfl⟩ := getLast?_eq_some_iff.mp hlast
    rw [dropLast_concat]
    refine exists_congr fun rest => ?_
    rw [← append_left_inj [delimiter], append_assoc]
    rfl
  · rename_i hlast
    rw [← singleton_suffix_iff] at hlast
    exact iff_of_false hlast fun h => hlast ((suffix_cons delimiter [delimiter]).trans h)

theorem DatabaseSubtree.stripped_countEnd : st.stripped.countEnd = st.deleteEnd := by
  rw [countEnd, deleteEnd, endBehind, endBehind, stripped_components]
  simp only [stripped, suffix_strippedPrefix]

/-- The deletion does not end before the count. -/
theorem Db.Below.deleteEnd (h : db.Below p st.countEnd) (hne : st.components ≠ [])
    (hdelimiter : st.delimiter + 1 ≠ 0) : db.Below p st.deleteEnd := by
  unfold Below DatabaseSubtree.countEnd DatabaseSubtree.deleteEnd DatabaseSubtree.endBehind at *
  by_cases hone : [st.delimiter] <:+ st.prefixKey
  · by_cases htwo : [st.delimiter, st.delimiter] <:+ st.prefixKey
    · rw [if_pos hone] at h
      rwa [if_pos htwo]
    · obtain ⟨front, last, hfront⟩ := (eq_nil_or_concat' _).resolve_left hne
      rw [if_pos hone, hfront, append_assoc, pathCompare_lt] at h
      rw [if_neg htwo, hfront, dropLast_concat, getLastD_concat, pathCompare_lt]
      refine h.trans ?_
      simp only [componentChunks, pathOf, map_append, map_cons, append_lt_append_left]
      exact cons_lt_cons_iff.mpr (.inl (identifierCreate_lt_concat last hdelimiter))
  · rw [if_neg hone] at h
    rwa [if_neg fun htwo => hone ((suffix_cons _ _).trans htwo)]

theorem Under.between {low high : List Bytes} (h : Under low p) (hbelow : db.Below p high)
    (hunstopped : db.Unstopped low high p) : db.Between low high p := by
  obtain ⟨rest, -, rfl⟩ := h
  refine ⟨?_, ?_, hbelow, hunstopped⟩
  · rw [Db.Below, pathCompare_lt, not_lt]
    simp only [componentChunks, pathOf, map_append]
    exact self_le_append _ _
  · rw [Db.chunksOf, Db.chunksOf, pathChunks_append]
    exact self_le_append _ _

/-! ### Keys that are cut again -/

theorem chunksOf_reparsed (h : ∀ c ∈ p, delimiter ∉ reportedComponent db.chunkSize c) :
    db.chunksOf (reparsed db.chunkSize delimiter p) = db.chunksOf p := by
  have hself : reparsed db.chunkSize delimiter p = p.map (reportedComponent db.chunkSize) :=
    rawSegments_intercalate (forall_mem_map.mpr fun c hc => ⟨reportedComponent_ne_nil c, h c hc⟩)
  rw [Db.chunksOf, hself, pathChunks_eq_flatten, componentChunks_reported,
    ← pathChunks_eq_flatten, Db.chunksOf]

/-- What was cut has no delimiter in its chunks. -/
theorem notMem_of_reparsed {q : List Bytes} (hdelimiter : delimiter ≠ 0)
    (h : db.chunksOf (reparsed db.chunkSize delimiter q) = db.chunksOf p) :
    ∀ c ∈ p, delimiter ∉ reportedComponent db.chunkSize c := by
  intro c hc hmem
  have hbytes := congrArg (filter (· != 0)) ((pathChunks_eq_iff _ _ _).mp h)
  rw [filter_paddedBytes, filter_paddedBytes, reparsed, flatten_rawSegments, nil_append] at hbytes
  have hself : delimiter ∈ c := by
    unfold reportedComponent at hmem
    split at hmem
    · exact absurd (mem_replicate.mp hmem).2 hdelimiter
    · exact hmem
  have hleft : delimiter ∈ p.flatten.filter (· != 0) :=
    mem_filter.mpr ⟨mem_flatten.mpr ⟨c, hc, hself⟩, by simpa using hdelimiter⟩
  rw [← hbytes] at hleft
  simpa using (mem_filter.mp (mem_filter.mp hleft).1).2

theorem countsUnder_iff (hdb : db.Ok depth) (hne : st.components ≠ []) :
    CountsUnder db st ↔ ∀ p value, db.Shows p value →
      (db.Between st.components st.countEnd p ↔ Under st.components p) := by
  obtain ⟨results, m, hm, hsorted, hmem⟩ := scanUnder_results hdb hne
  have hkey : st.prefixKey ≠ [] := fun hnil => hne (by rw [DatabaseSubtree.components, hnil]; rfl)
  have hcounted : ∀ fuel, databaseSubtreeCounted db st fuel =
      scanUnder db st.prefixKey st.delimiter fuel := fun fuel => if_neg hkey
  have hsources := mem_map_results source hmem
  constructor
  · rintro ⟨results', n, hn, -, hunder⟩ p value hshows
    have hscan := (hn (max n m) (le_max_left _ _)).1
    rw [hcounted, hm _ (le_max_right _ _)] at hscan
    obtain rfl := some.inj hscan
    constructor
    · intro hscans
      obtain ⟨q, value', hq, hq', heq⟩ :=
        (hunder _).mp ((hsources _).mpr ⟨p, value, hshows, hscans, rfl⟩)
      obtain rfl := hshows.unique hq heq
      exact hq'
    · intro hp'
      obtain ⟨q, value', hq, hscans, heq⟩ :=
        (hsources _).mp ((hunder _).mpr ⟨p, value, hshows, hp', rfl⟩)
      obtain rfl := hshows.unique hq heq
      exact hscans
  · intro hall
    refine ⟨results, m, fun fuel hfuel => ?_, ?_, fun source => ?_⟩
    · rw [databaseSubtreeCount, hcounted, hm fuel hfuel]
      exact ⟨rfl, rfl⟩
    · refine pairwise_map.mpr (hsorted.imp fun {a b} hlt heq => ?_)
      rw [heq] at hlt
      exact lt_irrefl _ hlt
    · rw [hsources]
      refine exists_congr fun p => exists_congr fun value => and_congr_right fun hshows => ?_
      rw [hall p value hshows]

/-- A key with a component has something left when one delimiter is cut off. -/
theorem strippedPrefix_ne_nil (h : rawSegments delimiter [] key ≠ []) :
    strippedPrefix key delimiter ≠ [] := by
  unfold strippedPrefix
  split
  · rename_i hlast
    intro hnil
    obtain ⟨pre, rfl⟩ := getLast?_eq_some_iff.mp hlast
    rw [dropLast_concat] at hnil
    subst hnil
    simp [rawSegments] at h
  · rintro rfl
    exact h rfl

theorem mem_deleted_iff {results : List RawResult} {fuel : Nat} (hdb : db.Ok depth)
    (hne : st.components ≠ []) (hscan : scanUnder db (strippedPrefix st.prefixKey st.delimiter)
      st.delimiter fuel = some results) (chunks : List Chunk) :
    chunks ∈ (results.map RawResult.key).map (rawChunks db.chunkSize st.delimiter) ↔
      ∃ q value, db.Shows q value ∧ db.Between st.components st.deleteEnd q ∧
        db.chunksOf (reparsed db.chunkSize st.delimiter q) = chunks := by
  obtain ⟨results', n, hn, -, hmem⟩ :=
    @scanUnder_results _ _ st.stripped hdb (st.stripped_components.trans_ne hne)
  rw [st.stripped_components, st.stripped_countEnd] at hmem
  have hresults : results = results' := by
    obtain ⟨scanned, hscanned, rfl⟩ := map_eq_some_iff.mp hscan
    obtain ⟨scanned', hscanned', rfl⟩ := map_eq_some_iff.mp (hn n le_rfl)
    obtain rfl := (visits_of_collect hscanned).unique (visits_of_collect hscanned')
    rfl
  rw [hresults, List.map_map, mem_map_results _ hmem]
  simp only [eq_comm (a := chunks)]
  rfl

/-- The deletion removes exactly the visible keys under the prefix, and the count is their
number. -/
def ExactUnder (cfg : Config) (load : Loader) (s s' : SyncDb) (st : DatabaseSubtree) : Prop :=
  RemovesUnder st.components (s.scanned cfg load) (s'.scanned cfg load) ∧
    CountsUnder (s.scanned cfg load) st

theorem exactUnder_iff {envs : Nat → CallEnv} {fuel : Nat} (hdb : (s.scanned cfg load).Ok depth)
    (hquiet : (s.scanned cfg load).Quiet) (hne : st.components ≠ [])
    (hrun : databaseSubtreeDeletePrefix cfg load s envs st.prefixKey st.delimiter fuel =
      some (s', 0)) :
    ExactUnder cfg load s s' st ↔
      (∀ p value, (s.scanned cfg load).Shows p value →
        ((∃ q value', (s.scanned cfg load).Shows q value' ∧
            (s.scanned cfg load).Between st.components st.deleteEnd q ∧
            (s.scanned cfg load).chunksOf (reparsed cfg.chunkSize st.delimiter q) =
              (s.scanned cfg load).chunksOf p) ↔ Under st.components p)) ∧
      ∀ p value, (s.scanned cfg load).Shows p value →
        ((s.scanned cfg load).Between st.components st.countEnd p ↔ Under st.components p) := by
  rw [databaseSubtreeDeletePrefix, if_neg (strippedPrefix_ne_nil hne)] at hrun
  obtain ⟨results, hscan, hdeleted⟩ := map_eq_some_iff.mp hrun
  have hmem : ∀ p, (s.scanned cfg load).chunksOf p ∈ (results.map RawResult.key).map
      (rawChunks cfg.chunkSize st.delimiter) ↔ ∃ q value', (s.scanned cfg load).Shows q value' ∧
        (s.scanned cfg load).Between st.components st.deleteEnd q ∧
        (s.scanned cfg load).chunksOf (reparsed cfg.chunkSize st.delimiter q) =
          (s.scanned cfg load).chunksOf p := fun p => mem_deleted_iff hdb hne hscan _
  have herased : Erased load s s' ((results.map RawResult.key).map
      (rawChunks cfg.chunkSize st.delimiter)) := by
    obtain ⟨hstate, hcode⟩ := Prod.mk.inj hdeleted
    have hloop : deleteEach cfg load envs st.delimiter s (results.map RawResult.key) =
        (s', 0) := by
      refine Prod.ext hstate ?_
      split at hcode
      · cases hcode
      · next hpos => exact Nat.eq_zero_of_not_pos hpos
    exact (Erased.refl hdb.walk.trie hdb.walk.plain).deleteEach hloop
  refine and_congr ?_ (countsUnder_iff hdb hne)
  constructor
  · intro hremoves p value hshows
    have hafter := (hremoves p value).symm.trans (herased.shows_iff hquiet p value)
    rw [← hmem]
    tauto
  · intro hall p value
    rw [herased.shows_iff hquiet p value]
    refine and_congr_right fun hshows => not_congr ?_
    rw [hmem]
    exact hall p value hshows

/-- A deletion that returns 0 removes, and the count counts, exactly the keys under the prefix
when these are apart from the other keys, and only then if the delimiter is not the zero byte. -/
theorem prefix_delete_exact_iff (cfg : Config) (load : Loader) (s s' : SyncDb) (depth : Nat)
    (hdb : (s.scanned cfg load).Ok depth) (hquiet : (s.scanned cfg load).Quiet)
    (envs : Nat → CallEnv) (st : DatabaseSubtree) (fuel : Nat) (hdelimiter : st.delimiter < 255)
    (hne : st.components ≠ [])
    (hrun : databaseSubtreeDeletePrefix cfg load s envs st.prefixKey st.delimiter fuel =
      some (s', 0)) :
    ((s.scanned cfg load).PrefixApart st → ExactUnder cfg load s s' st) ∧
      (st.delimiter ≠ 0 → ExactUnder cfg load s s' st → (s.scanned cfg load).PrefixApart st) := by
  have hsucc : st.delimiter + 1 ≠ 0 := by
    intro hzero
    have hwrap := congrArg UInt8.toNat hzero
    rw [UInt8.lt_iff_toNat_lt] at hdelimiter
    simp at hwrap hdelimiter
    omega
  rw [exactUnder_iff hdb hquiet hne hrun]
  constructor
  · intro hapart
    refine ⟨fun p value hshows => ⟨?_, fun hunder => ?_⟩,
      fun p value hshows => ⟨hapart.outside p value hshows, fun hunder => ?_⟩⟩
    · rintro ⟨q, value', hq, hbetween, heq⟩
      by_cases hunder : Under st.components q
      · have hself := chunksOf_reparsed (hapart.uncut q value' hq hunder)
        rwa [hshows.unique hq (heq.symm.trans hself)]
      · exact hapart.cut q value' hq hbetween hunder p value hshows heq
    · obtain ⟨hbelow, hunstopped⟩ := hapart.inside p value hshows hunder
      exact ⟨p, value, hshows, hunder.between (hbelow.deleteEnd hne hsucc)
        fun q content hq hle hlt => (hunstopped q content hq hle hlt).deleteEnd hne hsucc,
        chunksOf_reparsed (hapart.uncut p value hshows hunder)⟩
    · obtain ⟨hbelow, hunstopped⟩ := hapart.inside p value hshows hunder
      exact hunder.between hbelow hunstopped
  · rintro hzero ⟨hremoved, hcounted⟩
    refine ⟨fun p value hshows => (hcounted p value hshows).mp, fun p value hshows hunder => ?_,
      fun p value hshows hunder => ?_, fun q value hq hbetween _ p value' hshows heq =>
        (hremoved p value' hshows).mp ⟨q, value, hq, hbetween, heq⟩⟩
    · have hbetween := (hcounted p value hshows).mpr hunder
      exact ⟨hbetween.below, hbetween.unstopped⟩
    · obtain ⟨q, -, -, -, heq⟩ := (hremoved p value hshows).mpr hunder
      exact notMem_of_reparsed hzero heq

end Exact

/-! ### Examples -/

/-- `users/bob/x`. -/
def underBob : List Bytes := [[117, 115, 101, 114, 115], [98, 111, 98], [120]]

/-- `users/carol`. -/
def carol : List Bytes := [[117, 115, 101, 114, 115], [99, 97, 114, 111, 108]]

/-- `users/bob`. -/
def bob : List Bytes := [[117, 115, 101, 114, 115], [98, 111, 98]]

/-- `users/bob.txt`. -/
def bobTxt : List Bytes := [[117, 115, 101, 114, 115], [98, 111, 98, 46, 116, 120, 116]]

/-- The subtree `users/bob`. -/
def bobSubtree : DatabaseSubtree := ⟨[117, 115, 101, 114, 115, 47, 98, 111, 98], 47⟩

def twoWrites (first second : List Bytes) : List TrieOp :=
  [.insert (pathOf defaultChunkSize first) [1] ⟨0, 0, 1⟩,
    .insert (pathOf defaultChunkSize second) [2] ⟨0, 0, 2⟩]

def twoKeys (first second : List Bytes) : SyncDb where
  syncOnly := false
  generator := (transactionIdGetNext (transactionIdGetNext firstId stoppedClock).2 stoppedClock).2
  manager := { txManagerCreate with lastCommittedTxnId := ⟨0, 0, 2⟩ }
  trie := runOps defaultConfig noLoader (twoWrites first second)
  wal := none

abbrev twoDb (first second : List Bytes) : Db :=
  (twoKeys first second).scanned defaultConfig noLoader

section TwoKeys

variable {first second : List Bytes}
  (hsafe : SafeRun defaultConfig noLoader (twoWrites first second))

include hsafe

theorem trieFrom_twoKeys : TrieFrom defaultChunkSize noLoader {p | p = first ∨ p = second}
      (twoKeys first second).trie := by
  refine trieFrom_runOps hsafe fun op hop => ?_
  rcases mem_cons.mp hop with rfl | hop
  · exact ⟨first, .inl rfl, rfl⟩
  · rw [mem_singleton.mp hop]
    exact ⟨second, .inr rfl, rfl⟩

theorem twoKeys_ok : ∃ depth, (twoDb first second).Ok depth :=
  ok_of_trieFrom (trieFrom_twoKeys hsafe) rfl

theorem twoKeys_quiet (hids : ∀ p ∈ [first, second], ((itemAt noLoader (twoKeys first second).trie
      (pathChunks (pathOf defaultChunkSize p))).all fun item => item.1.upgraded.all fun version =>
        decide (version.txnId ≤ ⟨0, 0, 2⟩))) :
    (twoDb first second).Quiet := by
  intro chunks newest older pathMeta hitem
  obtain ⟨p, hp, rfl, -⟩ := (trieFrom_twoKeys hsafe).recorded chunks _ pathMeta hitem
  have hall := hids p (by simpa using hp)
  have hitem' : itemAt noLoader (twoKeys first second).trie
      (pathChunks (pathOf defaultChunkSize p)) = some (.versions (newest :: older), pathMeta) :=
    hitem
  rw [hitem', all_some, List.all_eq_true] at hall
  exact of_decide_eq_true (hall newest mem_cons_self)

end TwoKeys

theorem underBob_carol_safe : SafeRun defaultConfig noLoader (twoWrites underBob carol) :=
  ⟨by decide, by decide⟩

theorem bob_bobTxt_safe : SafeRun defaultConfig noLoader (twoWrites bob bobTxt) :=
  ⟨by decide, by decide⟩

/-- `users/bob/x` is removed and `users/carol` stays. -/
theorem prefix_delete_exact_bob :
    ∃ s', databaseSubtreeDeletePrefix defaultConfig noLoader (twoKeys underBob carol)
        (fun _ => calmEnv) bobSubtree.prefixKey bobSubtree.delimiter 40 = some (s', 0) ∧
      ExactUnder defaultConfig noLoader (twoKeys underBob carol) s' bobSubtree := by
  obtain ⟨depth, hdb⟩ := twoKeys_ok underBob_carol_safe
  have hquiet := twoKeys_quiet underBob_carol_safe (by decide +kernel)
  have hreturns : ((databaseSubtreeDeletePrefix defaultConfig noLoader (twoKeys underBob carol)
      (fun _ => calmEnv) bobSubtree.prefixKey bobSubtree.delimiter 40).map Prod.snd) = some 0 := by
    decide +kernel
  obtain ⟨⟨s', code⟩, hrun, rfl⟩ := map_eq_some_iff.mp hreturns
  have hkeys : ∀ p content, (twoDb underBob carol).Stores p content → p = underBob ∨ p = carol :=
    fun p content hp =>
    mem_of_stores (trieFrom_twoKeys underBob_carol_safe) hp
  have hcarol : ∀ mark, ¬ (twoDb underBob carol).Below carol (bobSubtree.endBehind mark) := by
    intro mark
    rw [DatabaseSubtree.endBehind]
    split
    · decide +kernel
    · decide +kernel
  have hunder : Under bobSubtree.components underBob := ⟨[[120]], by decide, by decide⟩
  have hother : ¬ Under bobSubtree.components carol := by
    rintro ⟨rest, -, heq⟩
    have hbob : bobSubtree.components = bob := by decide
    rw [hbob] at heq
    exact absurd (congrArg (take 2) heq) (by simp [carol, bob])
  refine ⟨s', hrun, (prefix_delete_exact_iff defaultConfig noLoader (twoKeys underBob carol) s'
    depth hdb hquiet (fun _ => calmEnv) bobSubtree 40 (by decide) (by decide) hrun).1
    ⟨?_, ?_, ?_, ?_⟩⟩
  · rintro p value ⟨content, hp, -⟩ hbetween
    rcases hkeys p content hp with rfl | rfl
    · exact hunder
    · exact absurd hbetween.below (hcarol _)
  · rintro p value ⟨content, hp, -⟩ hp'
    rcases hkeys p content hp with rfl | rfl
    · refine ⟨by decide +kernel, fun q content' hq _ hlt => ?_⟩
      rcases hkeys q content' hq with rfl | rfl
      · exact absurd hlt (lt_irrefl _)
      · exact absurd hlt (by decide +kernel)
    · exact absurd hp' hother
  · rintro p value ⟨content, hp, -⟩ hp'
    rcases hkeys p content hp with rfl | rfl
    · decide
    · exact absurd hp' hother
  · rintro q value ⟨content, hq, -⟩ hbetween hq'
    rcases hkeys q content hq with rfl | rfl
    · exact absurd hunder hq'
    · exact absurd hbetween.below (hcarol _)

/-- Nothing is under `users/bob`, but the deletion takes `users/bob` and `users/bob.txt` and the
count is 2. -/
theorem prefix_delete_takes_siblings :
    (∃ depth, (twoDb bob bobTxt).Ok depth) ∧
    (twoDb bob bobTxt).Quiet ∧
    databaseSubtreeCount (twoDb bob bobTxt) bobSubtree 40 = some 2 ∧
    ∃ s', databaseSubtreeDeletePrefix defaultConfig noLoader (twoKeys bob bobTxt)
        (fun _ => calmEnv) bobSubtree.prefixKey 47 40 = some (s', 0) ∧
      ¬ RemovesUnder bob (twoDb bob bobTxt) (s'.scanned defaultConfig noLoader) := by
  refine ⟨twoKeys_ok bob_bobTxt_safe,
    twoKeys_quiet bob_bobTxt_safe (by decide +kernel), by decide +kernel, ?_⟩
  have hreturns : ((databaseSubtreeDeletePrefix defaultConfig noLoader (twoKeys bob bobTxt)
      (fun _ => calmEnv) bobSubtree.prefixKey 47 40).map fun r => (r.2, (itemAt noLoader r.1.trie
        (pathChunks (pathOf defaultChunkSize bobTxt))).all fun item =>
          (shownValue r.1.readTxnId item.1).isNone)) = some (0, true) := by decide +kernel
  obtain ⟨⟨s', code⟩, hrun, heq⟩ := map_eq_some_iff.mp hreturns
  obtain ⟨rfl, hgone⟩ := Prod.mk.inj heq
  refine ⟨s', hrun, fun hremoves => ?_⟩
  have hitem : itemAt noLoader (twoKeys bob bobTxt).trie
      (pathChunks (pathOf defaultChunkSize bobTxt)) =
        some (.legacy [2] ⟨0, 0, 2⟩, [⟨2, 5⟩, ⟨2, 7⟩]) := by decide +kernel
  have hbefore : (twoDb bob bobTxt).Shows bobTxt [2] :=
    ⟨_, ⟨_, hitem, rfl, .inl (by decide +kernel)⟩, rfl⟩
  have hnot : ¬ Under bob bobTxt := by
    rintro ⟨rest, -, heq⟩
    exact absurd (congrArg (take 2) heq) (by simp [bobTxt, bob])
  obtain ⟨content, ⟨pathMeta, hafter, -⟩, hshown⟩ := (hremoves bobTxt [2]).mpr ⟨hbefore, hnot⟩
  have hafter' : itemAt noLoader s'.trie (pathChunks (pathOf defaultChunkSize bobTxt)) =
      some (content, pathMeta) := hafter
  have hshown' : shownValue s'.readTxnId content = some [2] := hshown
  rw [hafter', all_some, hshown'] at hgone
  cases hgone

end WaveDB.Database
