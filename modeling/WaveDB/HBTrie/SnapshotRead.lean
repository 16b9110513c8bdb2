import WaveDB.HBTrie.BtreeRun
import WaveDB.HBTrie.TrieHistory

/-!
Reads of a history.

`hbtrieFind_last_write`: a read that is not below any write returns the last
accepted write to the same chunk sequence. `hbtrieFind_snapshot_iff`: a read at an
arbitrary id returns the write with the greatest id not above it, unless the key
holds a single value that is newer than the read id (`readsBeforeSingleValue`).
-/

namespace WaveDB.HBTrie

open WaveDB.Basis Workers List Content Write

/-! ### The latest read -/

def lastWrite (writes : List Write) : Option Bytes := writes.getLast?.bind value

variable {readTxnId : TransactionId}

theorem versionEntryFindVisible_cons {v : VersionEntry} {older : List VersionEntry}
    (h : v.txnId ≤ readTxnId) :
    versionEntryFindVisible (v :: older) readTxnId = if !v.isDeleted then some v else none := by
  rw [versionEntryFindVisible, if_pos ((transactionIdCompare_le ..).mpr h)]

theorem visible_eq_newest_of_head {content : Content}
    (h : ∀ v older, content = .versions (v :: older) → v.txnId ≤ readTxnId) :
    content.visible readTxnId = content.newest := by
  cases content with
  | legacy value txnId => rfl
  | versions chain =>
    cases chain with
    | nil => rfl
    | cons v older =>
      rw [visible, versionEntryFindVisible_cons (h v older rfl)]
      simp only [newest, head?_cons, Option.bind_some]
      split <;> rfl

/-- A reader gets the newest value if it is not above the read id. -/
theorem hbtrieFind_eq_newestAt {load : Loader} {trie : HbtrieNode} {path : Path}
    (hvalid : ValidPath path)
    (h : HeadReadable readTxnId (contentAt load trie (pathChunks path))) :
    hbtrieFind load trie path readTxnId = newestAt load trie (pathChunks path) := by
  rw [hbtrieFind_eq load _ hvalid]
  refine Option.bind_congr fun content hcontent => visible_eq_newest_of_head ?_
  rintro v older rfl
  exact h v older hcontent

theorem visible_write (content : Option Content) (value : Bytes) {txnId : TransactionId}
    (h : txnId ≤ readTxnId) : (write content value txnId).visible readTxnId = some value := by
  cases content with
  | none => rfl
  | some c =>
    simp only [write, visible, versionEntryAdd]
    rw [versionEntryFindVisible_cons h]
    rfl

theorem visible_delete (content : Content) {txnId : TransactionId} (h : txnId ≤ readTxnId) :
    (content.delete txnId).visible readTxnId = none := by
  simp only [delete, visible, versionEntryAdd]
  rw [versionEntryFindVisible_cons h]
  rfl

variable (writes : List Write) (cfg : Config)

theorem contentOf_visible (h : ∀ w ∈ writes, w.txnId ≤ readTxnId) :
    (contentOf writes).bind (visible readTxnId) = lastWrite writes := by
  rcases eq_nil_or_concat writes with rfl | ⟨pre, w, rfl⟩
  · rfl
  · rw [concat_eq_append] at h ⊢
    have hw := h w (by simp)
    simp only [contentOf, foldl_append, foldl_cons, lastWrite,
      getLast?_append, getLast?_singleton, Option.some_or, Option.bind_some, apply]
    cases w.value with
    | some value => exact visible_write _ value hw
    | none =>
      cases foldl apply none pre with
      | none => rfl
      | some content => exact visible_delete content hw

theorem TrieOp.writeTo_txnId {accept : Path → Bool} {key : List Chunk} {op : TrieOp} {w : Write}
    (h : op.writeTo accept key = some w) : op.txnId = w.txnId := by
  cases op with
  | insert path value txnId | delete path txnId =>
    simp only [writeTo] at h
    split at h
    · cases h; rfl
    · cases h

/-- The trie refines a finite map: a read that is not below any call returns what
the last accepted call on the same chunk sequence left there. -/
theorem hbtrieFind_last_write (cfg : Config) (load : Loader) (ops : List TrieOp)
    (hrun : SafeRun cfg load ops) (q : Path) (hq : ValidPath q) (readTxnId : TransactionId)
    (hread : ∀ op ∈ ops, op.txnId ≤ readTxnId) :
    hbtrieFind load (runOps cfg load ops) q readTxnId =
      lastWrite (history (pathAccepted cfg) ops (pathChunks q)) := by
  rw [hbtrieFind_eq load _ hq, (contentAt_runOps hrun).2]
  refine contentOf_visible _ fun w hw => ?_
  obtain ⟨op, hop, hwrite⟩ := mem_filterMap.mp hw
  exact TrieOp.writeTo_txnId hwrite ▸ hread op hop

/-- The key `b`, a single byte, in the default trie. -/
def bytePath (b : UInt8) : Path := pathOf defaultChunkSize [[b]]

def sampleRun : List TrieOp :=
  [.insert (bytePath 1) [10] ⟨0, 0, 1⟩, .insert (bytePath 2) [20] ⟨0, 0, 2⟩,
    .insert (bytePath 1) [11] ⟨0, 0, 3⟩, .delete (bytePath 2) ⟨0, 0, 4⟩]

theorem sampleRun_safe : SafeRun defaultConfig noLoader sampleRun := ⟨by decide, by decide⟩

theorem hbtrieFind_last_write_sample :
    hbtrieFind noLoader (runOps defaultConfig noLoader sampleRun) (bytePath 1) ⟨0, 0, 4⟩ =
      some [11] :=
  hbtrieFind_last_write defaultConfig noLoader sampleRun sampleRun_safe (bytePath 1) (by decide)
    ⟨0, 0, 4⟩ (by decide)

theorem pathOf_valid (cs : ChunkSize) {components : List Bytes} (h : components ≠ []) :
    ValidPath (pathOf cs components) := by
  refine ⟨by simpa [pathOf] using h, ?_⟩
  intro identifier hid
  obtain ⟨data, -, rfl⟩ := mem_map.mp hid
  exact identifierCreate_chunks_ne_nil cs data

theorem pathAccepted_pathOf (components : List Bytes) :
    pathAccepted cfg (pathOf cfg.chunkSize components) ↔
      ∀ c ∈ components, identifierRefused cfg (identifierCreate c cfg.chunkSize) = false := by
  simp [pathAccepted, pathOf]

theorem identifierRefused_create {data : Bytes} (h : data.length ≤ 0xFFFFFFFF) :
    identifierRefused cfg (identifierCreate data cfg.chunkSize) = false := by
  have hchunks : (identifierCreate data cfg.chunkSize).chunks.length =
      identifierCalcNchunk data.length cfg.chunkSize := by
    rw [identifierCreate, length_map, length_range]
  have hfew : identifierCalcNchunk data.length cfg.chunkSize ≤ 0xFFFFFFFF := by
    unfold identifierCalcNchunk
    split
    · decide
    · have hdiv := Nat.div_le_self (data.length - 1) cfg.chunkSize.size
      omega
  have hfits := length_le_nchunk cfg.chunkSize data.length
  have hlength : (identifierCreate data cfg.chunkSize).length = data.length := rfl
  rw [identifierRefused, hchunks, hlength, decide_eq_false (not_lt.mpr hfew),
    decide_eq_false (not_lt.mpr h), decide_eq_false (not_lt.mpr hfits)]
  rfl

/-- An insert that the guard refuses leaves nothing to read. -/
theorem hbtrieFind_refused (load : Loader) (data value : Bytes) (txnId : TransactionId)
    (hlong : 0xFFFFFFFF < data.length) :
    hbtrieFind load (runOps cfg load [.insert (pathOf cfg.chunkSize [data]) value txnId])
      (pathOf cfg.chunkSize [data]) txnId = none := by
  have hvalid : ValidPath (pathOf cfg.chunkSize [data]) := pathOf_valid _ (cons_ne_nil _ _)
  have hlength : (identifierCreate data cfg.chunkSize).length = data.length := rfl
  have hrefused : identifierRefused cfg (identifierCreate data cfg.chunkSize) = true := by
    rw [identifierRefused, hlength, decide_eq_true hlong, Bool.or_true, Bool.true_or]
  have hrun : runOps cfg load [.insert (pathOf cfg.chunkSize [data]) value txnId] =
      hbtrieNodeCreate := by
    simp only [runOps, foldl_cons, foldl_nil, applyOp, hbtrieInsert, ite_self,
      pathOf, map_cons, pathSteps_cons, hbtrieInsertSteps, if_pos hrefused]
  rw [hrun, hbtrieFind_eq load _ hvalid, contentAt_create]
  rfl

/-- Chunks of 32 bytes: of `2 ^ 32` bytes `vec_reserve_` can count the memory in an `int`. -/
def wideConfig : Config := hbtrieCreate (some ⟨32, by decide, by decide⟩) 0 112 96 16

def oversizedPath (cs : ChunkSize) : Path := pathOf cs [replicate (0xFFFFFFFF + 1) 0]

/-- With a component of `2 ^ 32` bytes the insert is refused, so the last insert is
not what a read returns. -/
theorem hbtrieFind_oversized : hbtrieFind noLoader (runOps wideConfig noLoader
        [.insert (oversizedPath wideConfig.chunkSize) [1] ⟨0, 0, 1⟩])
        (oversizedPath wideConfig.chunkSize) ⟨0, 0, 1⟩ ≠
      lastWrite (history (fun _ => true)
        [.insert (oversizedPath wideConfig.chunkSize) [1] ⟨0, 0, 1⟩]
        (pathChunks (oversizedPath wideConfig.chunkSize))) := by
  rw [oversizedPath,
    hbtrieFind_refused wideConfig noLoader _ [1] ⟨0, 0, 1⟩ (by rw [length_replicate]; omega)]
  generalize pathOf wideConfig.chunkSize [replicate (0xFFFFFFFF + 1) 0] = path
  simp [history, TrieOp.writeTo, lastWrite]

/-! ### Reads at any id -/

def snapshotRead (writes : List Write) (readTxnId : TransactionId) : Option Bytes :=
  lastWrite (writes.filter (·.txnId ≤ readTxnId))

def Write.isDelete (w : Write) : Bool := w.value.isNone

/-- Deletes of nothing apart, the history is a single insert, and it is newer than
the read id. -/
def readsBeforeSingleValue (writes : List Write) (readTxnId : TransactionId) : Bool :=
  match writes.dropWhile isDelete with
  | [w] => decide (readTxnId < w.txnId)
  | _ => false

def Write.version (w : Write) : VersionEntry := ⟨w.txnId, w.value, w.value.isNone⟩

/-- Over stored content every write adds its version. -/
theorem Write.apply_some (w : Write) (content : Content) :
    w.apply (some content) = some (.versions (w.version :: content.upgraded)) := by
  unfold apply
  cases hv : w.value with
  | none => simp [delete, versionEntryAdd, version, hv]
  | some value => simp [write, versionEntryAdd, version, hv]

/-- The shapes a history can leave: nothing, a single value, or the chain of all
its writes from the first insert on. -/
theorem contentOf_shape : (writes.dropWhile isDelete = [] ∧ contentOf writes = none) ∨
    (∃ w value, writes.dropWhile isDelete = [w] ∧ w.value = some value ∧
      contentOf writes = some (.legacy value w.txnId)) ∨
    (∃ w w' rest, writes.dropWhile isDelete = w :: w' :: rest ∧
      contentOf writes = some (.versions ((w :: w' :: rest).reverse.map version))) := by
  induction writes using reverseRecOn with
  | nil => exact .inl ⟨rfl, rfl⟩
  | append_singleton pre w ih =>
    have hcontent : contentOf (pre ++ [w]) = w.apply (contentOf pre) := by simp [contentOf]
    rw [dropWhile_append, hcontent]
    rcases ih with ⟨hdrop, hpre⟩ | ⟨w₀, v₀, hdrop, hv₀, hpre⟩ | ⟨w₀, w₁, rest, hdrop, hpre⟩
    · -- nothing is stored yet: a delete does nothing, an insert stores a single value
      cases hv : w.value with
      | none =>
        exact .inl ⟨by simp [hdrop, isDelete, hv], by simp [apply, hv, hpre]⟩
      | some value =>
        exact .inr (.inl ⟨w, value, by simp [hdrop, isDelete, hv], hv,
          by simp [apply, hv, hpre, write]⟩)
    · refine .inr (.inr ⟨w₀, w, [], by simp [hdrop], ?_⟩)
      rw [hpre, apply_some]
      simp [upgraded, version, hv₀]
    · refine .inr (.inr ⟨w₀, w₁, rest ++ [w], by simp [hdrop], ?_⟩)
      rw [hpre, apply_some]
      simp [upgraded]

/-- A chain of versions reads like the history behind it. -/
theorem versions_visible (readTxnId : TransactionId) :
    visible readTxnId (.versions (writes.reverse.map version)) = snapshotRead writes readTxnId := by
  have hlast : (writes.filter (·.txnId ≤ readTxnId)).getLast? =
      writes.reverse.find? (·.txnId ≤ readTxnId) := by
    rw [getLast?_eq_head?_reverse, ← filter_reverse, head?_filter]
  rw [snapshotRead, lastWrite, hlast, visible, versionEntryFindVisible_eq, find?_map]
  have hcomp : ((fun v : VersionEntry => decide (v.txnId ≤ readTxnId)) ∘ version) =
      fun w => decide (w.txnId ≤ readTxnId) := rfl
  rw [hcomp]
  cases writes.reverse.find? (·.txnId ≤ readTxnId) with
  | none => rfl
  | some w =>
    cases hv : w.value with
    | none | some value => simp [version, hv, Option.filter]

theorem lastWrite_cons_delete {w : Write} (hw : w.isDelete) (rest : List Write) :
    lastWrite (w :: rest) = lastWrite rest := by
  cases rest with
  | nil => simpa [lastWrite, isDelete] using hw
  | cons w' rest => simp [lastWrite]

theorem snapshotRead_dropWhile (readTxnId : TransactionId) :
    snapshotRead (writes.dropWhile isDelete) readTxnId = snapshotRead writes readTxnId := by
  induction writes with
  | nil => rfl
  | cons w rest ih =>
    by_cases hw : w.isDelete
    · rw [dropWhile_cons_of_pos hw, ih]
      unfold snapshotRead
      rw [filter_cons]
      split
      · rw [lastWrite_cons_delete hw]
      · rfl
    · rw [dropWhile_cons_of_neg hw]

/-- The result a snapshot read must have: the value of the write with the greatest
id not above the read id, and nothing when all writes are newer. -/
def SnapshotValue (writes : List Write) (readTxnId : TransactionId) (result : Option Bytes) :
    Prop :=
  (∃ w ∈ writes, w.txnId ≤ readTxnId ∧
      (∀ a ∈ writes, a.txnId ≤ readTxnId → a.txnId ≤ w.txnId) ∧ result = w.value) ∨
    ((∀ w ∈ writes, readTxnId < w.txnId) ∧ result = none)

theorem snapshotRead_greatest {writes : List Write} {w : Write}
    (hsorted : writes.Pairwise fun a b => a.txnId < b.txnId) (hw : w ∈ writes)
    (hle : w.txnId ≤ readTxnId)
    (hgreatest : ∀ a ∈ writes, a.txnId ≤ readTxnId → a.txnId ≤ w.txnId) :
    snapshotRead writes readTxnId = w.value := by
  obtain ⟨pre, post, rfl⟩ := append_of_mem hw
  have hpost : post.filter (·.txnId ≤ readTxnId) = [] := by
    refine filter_eq_nil_iff.mpr fun a ha hread => ?_
    have hlt := (pairwise_cons.mp (pairwise_append.mp hsorted).2.1).1 a ha
    exact absurd (hgreatest a (by simp [ha]) (of_decide_eq_true hread)) (not_le.mpr hlt)
  simp [snapshotRead, lastWrite, hle, hpost]

/-- With increasing ids the last write not above the read id is the greatest. -/
theorem snapshotValue_iff {writes : List Write} {result : Option Bytes}
    (hsorted : writes.Pairwise fun a b => a.txnId < b.txnId) :
    SnapshotValue writes readTxnId result ↔ result = snapshotRead writes readTxnId := by
  constructor
  · rintro (⟨w, hw, hle, hgreatest, rfl⟩ | ⟨hnewer, rfl⟩)
    · exact (snapshotRead_greatest hsorted hw hle hgreatest).symm
    · have hnil : writes.filter (·.txnId ≤ readTxnId) = [] := by
        refine filter_eq_nil_iff.mpr fun w hw hread => ?_
        exact absurd (of_decide_eq_true hread) (not_le.mpr (hnewer w hw))
      simp [snapshotRead, lastWrite, hnil]
  · rintro rfl
    rcases eq_nil_or_concat (writes.filter fun w : Write => decide (w.txnId ≤ readTxnId)) with
      hnil | ⟨pre, w, hlast⟩
    · refine .inr ⟨fun w hw => ?_, by simp [snapshotRead, lastWrite, hnil]⟩
      exact not_le.mp fun hle => filter_eq_nil_iff.mp hnil w hw (decide_eq_true hle)
    · rw [concat_eq_append] at hlast
      have hw : w ∈ writes.filter (·.txnId ≤ readTxnId) := by simp [hlast]
      obtain ⟨hmem, hle⟩ := mem_filter.mp hw
      refine .inl ⟨w, hmem, of_decide_eq_true hle, ?_, by simp [snapshotRead, lastWrite, hlast]⟩
      intro a ha hale
      have ha' : a ∈ writes.filter (·.txnId ≤ readTxnId) :=
        mem_filter.mpr ⟨ha, decide_eq_true hale⟩
      have hpair : (pre ++ [w]).Pairwise fun a b => a.txnId < b.txnId :=
        hlast ▸ hsorted.sublist filter_sublist
      rw [hlast, mem_append, mem_singleton] at ha'
      rcases ha' with ha' | rfl
      · exact ((pairwise_append.mp hpair).2.2 a ha' w (by simp)).le
      · exact le_rfl

/-- The writes of a run with increasing ids have increasing ids. -/
theorem history_sorted {accept : Path → Bool} {ops : List TrieOp} (key : List Chunk)
    (h : ops.Pairwise fun a b => a.txnId < b.txnId) :
    (history accept ops key).Pairwise fun a b => a.txnId < b.txnId := by
  refine List.Pairwise.filterMap _ ?_ h
  intro a b hlt wa hwa wb hwb
  rw [← TrieOp.writeTo_txnId hwa, ← TrieOp.writeTo_txnId hwb]
  exact hlt

theorem contentOf_visible_iff (readTxnId : TransactionId) :
    (contentOf writes).bind (visible readTxnId) = snapshotRead writes readTxnId ↔
      readsBeforeSingleValue writes readTxnId = false := by
  rw [← snapshotRead_dropWhile, readsBeforeSingleValue]
  rcases contentOf_shape writes with ⟨hdrop, hcontent⟩ | ⟨w, value, hdrop, hv, hcontent⟩ |
    ⟨w, w', rest, hdrop, hcontent⟩
  · simp [hdrop, hcontent, snapshotRead, lastWrite]
  · -- a single value is visible at every id
    rw [hdrop, hcontent]
    by_cases hlt : readTxnId < w.txnId
    · simp [visible, snapshotRead, lastWrite, hlt]
    · simp [visible, snapshotRead, lastWrite, not_lt.mp hlt, hv]
  · rw [hdrop, hcontent, Option.bind_some, versions_visible]
    simp

/-- In any run with increasing ids, a read at any id returns the write of its key
with the greatest id not above it, if and only if it does not come before the
single value of that key. -/
theorem hbtrieFind_snapshot_iff (cfg : Config) (load : Loader) (ops : List TrieOp)
    (hrun : SafeRun cfg load ops) (hids : ops.Pairwise fun a b => a.txnId < b.txnId) (q : Path)
    (hq : ValidPath q) (readTxnId : TransactionId) :
    SnapshotValue (history (pathAccepted cfg) ops (pathChunks q)) readTxnId
        (hbtrieFind load (runOps cfg load ops) q readTxnId) ↔
      readsBeforeSingleValue (history (pathAccepted cfg) ops (pathChunks q)) readTxnId =
        false := by
  rw [snapshotValue_iff (history_sorted _ hids), hbtrieFind_eq load _ hq, (contentAt_runOps hrun).2]
  exact contentOf_visible_iff _ readTxnId

/-- Between the two writes to a key the first is read. -/
theorem hbtrieFind_snapshot_sample :
    SnapshotValue (history (pathAccepted defaultConfig) sampleRun (pathChunks (bytePath 1)))
      ⟨0, 0, 2⟩ (hbtrieFind noLoader (runOps defaultConfig noLoader sampleRun) (bytePath 1)
        ⟨0, 0, 2⟩) :=
  (hbtrieFind_snapshot_iff defaultConfig noLoader sampleRun sampleRun_safe (by decide) (bytePath 1)
    (by decide) ⟨0, 0, 2⟩).mpr (by decide)

/-- A first write at id 5 is read at id 3. -/
theorem hbtrieFind_before_first_write : ¬ SnapshotValue
      (history (pathAccepted defaultConfig) [.insert (bytePath 1) [10] ⟨0, 0, 5⟩]
        (pathChunks (bytePath 1))) ⟨0, 0, 3⟩
      (hbtrieFind noLoader
        (runOps defaultConfig noLoader [.insert (bytePath 1) [10] ⟨0, 0, 5⟩]) (bytePath 1)
        ⟨0, 0, 3⟩) := by
  rw [snapshotValue_iff (history_sorted _ (pairwise_singleton _ _))]
  decide

end WaveDB.HBTrie
