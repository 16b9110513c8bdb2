import WaveDB.Graph.TripleKeys

/-!
Histories of triples and schemas.

Which keys an insert or a delete writes is decided by the schema at that moment.
-/

namespace WaveDB.Graph

open WaveDB.Basis HBTrie Database Workers List Option

/-! ### Runs -/

inductive GraphAction where
  | insert (env : CallEnv) (t : Triple)
  | delete (env : CallEnv) (t : Triple)
  | schema (envs : Nat → CallEnv) (dsl : Bytes)

/-- A layer, the triples that were inserted and not deleted since, and those that were deleted
and not inserted since. -/
structure GraphRun where
  layer : GraphLayer
  live : List Triple
  deleted : List Triple

section Runs

variable (cfg : Config) (load : Loader) (subtree : Option DatabaseSubtree)

/-- One call after the other. A triple counts as inserted or deleted if the call succeeds. -/
def graphStep [Libcbor] (run : GraphRun) : GraphAction → Option GraphRun
  | .insert env t =>
    match graphInsertSync cfg load subtree run.layer env t with
    | (layer, .ok _) => some ⟨layer, t :: run.live, run.deleted.filter (· ≠ t)⟩
    | (layer, .error _) => some { run with layer }
  | .delete env t =>
    match graphDeleteSync cfg load subtree run.layer env t with
    | (layer, .ok _) => some ⟨layer, run.live.filter (· ≠ t), t :: run.deleted⟩
    | (layer, .error _) => some { run with layer }
  | .schema envs dsl =>
    some { run with layer := (graphSchemaParse cfg load subtree run.layer envs dsl).1 }

def GraphLayer.has (layer : GraphLayer) (t : Triple) (index : GraphIndex) : Bool :=
  (layer.db.visible load (pathOf cfg.chunkSize (tripleKey subtree t index))).isSome

/-- Deleted triples are in no index, inserted ones in all that the schema asks for. -/
structure IndexesAgree (run : GraphRun) : Prop where
  deleted : ∀ t ∈ run.deleted, ∀ index, run.layer.has cfg load subtree t index = false
  live : ∀ t ∈ run.live, ∀ index,
    graphSchemaNeedsIndex run.layer.schema t.predicate index = true →
      run.layer.has cfg load subtree t index = true

def keyChunks (t : Triple) (index : GraphIndex) : List Chunk :=
  pathChunks (pathOf cfg.chunkSize (tripleKey subtree t index))

def sameKey (t t' : Triple) (index : GraphIndex) : Bool :=
  decide (keyChunks cfg subtree t index = keyChunks cfg subtree t' index)

def definesSafely [Libcbor] : GraphLayer → (Nat → CallEnv) → GraphSchema → Bool
  | _, _, [] => true
  | layer, envs, type :: rest =>
    opsSplitSafely cfg load (layer.db.lookUp load (schemaTypesPath cfg subtree)).trie
        (rawCalls cfg slash ((layer.db.lookUp load (schemaTypesPath cfg subtree)).nextId (envs 0))
          ((storeOpsIn cfg load subtree layer.db type).map (layerOp subtree))) &&
      definesSafely (defineType cfg load subtree layer (envs 0) type) (fun i => envs (i + 1)) rest

/-- An insert writes no key of a deleted triple. A delete writes no key that another triple
needs, and its own triple is in no index that the schema does not ask for. Leaves split above
their separators. -/
def indexSafe [Libcbor] (run : GraphRun) : GraphAction → Bool
  | .insert env t =>
    pathAccepted cfg (pathOf cfg.chunkSize (tripleKey subtree t .spo)) &&
      opsSplitSafely cfg load run.layer.db.trie (rawCalls cfg slash (run.layer.db.nextId env)
        ((insertOps run.layer.schema t).map (layerOp subtree))) &&
      run.deleted.all fun t' => decide (t' = t) ||
        (neededIndexes run.layer.schema t.predicate).all fun index =>
          !sameKey cfg subtree t t' index
  | .delete _ t =>
    (run.live.all fun t' => decide (t' = t) ||
      (neededIndexes run.layer.schema t.predicate).all fun index =>
        !(graphSchemaNeedsIndex run.layer.schema t'.predicate index &&
          sameKey cfg subtree t t' index)) &&
      allIndexes.all fun index => graphSchemaNeedsIndex run.layer.schema t.predicate index ||
        !run.layer.has cfg load subtree t index
  | .schema envs dsl => definesSafely cfg load subtree run.layer envs (parseSchema dsl).1

/-! ### What the calls leave -/

/-- Between two databases the triples' keys that are written get a value, and the others keep
theirs. -/
structure Rewrites (s s' : SyncDb) (touched : Triple → GraphIndex → Prop) (value : Option Bytes) :
    Prop where
  trie : TrieOk load s'.trie
  heads : ∀ t index,
    HeadReadable s.readTxnId (contentAt load s.trie (keyChunks cfg subtree t index)) →
      HeadReadable s'.readTxnId (contentAt load s'.trie (keyChunks cfg subtree t index))
  written : ∀ t index, touched t index →
    newestAt load s'.trie (keyChunks cfg subtree t index) = value
  kept : ∀ t index, ¬ touched t index →
    newestAt load s'.trie (keyChunks cfg subtree t index) =
      newestAt load s.trie (keyChunks cfg subtree t index)

def writtenKeys (schema : Option GraphSchema) (t t' : Triple) (index : GraphIndex) : Prop :=
  index ∈ neededIndexes schema t.predicate ∧ sameKey cfg subtree t t' index = true

/-- Each call writes to the key of the triple in one index. -/
def CallsWrite (t : Triple) (call : GraphIndex → TrieOp) (w : Write) : Prop :=
  ∀ t' i j, (call i).writeTo (pathAccepted cfg) (keyChunks cfg subtree t' j) =
    if keyChunks cfg subtree t i = keyChunks cfg subtree t' j then some w else none

def insertCall (t : Triple) (id : TransactionId) (index : GraphIndex) : TrieOp :=
  .insert (pathOf cfg.chunkSize (tripleKey subtree t index)) [] id

def deleteCall (t : Triple) (id : TransactionId) (index : GraphIndex) : TrieOp :=
  .delete (pathOf cfg.chunkSize (tripleKey subtree t index)) id

/-- A batch that makes one call for each needed index of a triple, none of which is refused. -/
structure TripleCalls (layer : GraphLayer) (env : CallEnv) (t : Triple) (ops : List RawOp)
    (value : Option Bytes) (call : TransactionId → GraphIndex → TrieOp) : Prop where
  write : ∀ id, CallsWrite cfg subtree t (call id) ⟨id, value⟩
  valid : ∀ id i, ValidPath (call id i).path
  calls : ∀ id, rawCalls cfg slash id (ops.map (layerOp subtree)) =
    (neededIndexes layer.schema t.predicate).map (call id)
  safe : opsSplitSafely cfg load layer.db.trie
    (rawCalls cfg slash (layer.db.nextId env) (ops.map (layerOp subtree))) = true
  accepted : ∀ path value, .put path value ∈
    (ops.map (layerOp subtree)).map (RawOp.batchOp cfg.chunkSize slash) →
      pathAccepted cfg path = true

end Runs

variable {type : GraphSchemaType} {env : CallEnv} {index : GraphIndex} {t : Triple}

section Effects

variable {cfg : Config} {load : Loader} {subtree : Option DatabaseSubtree} {s s' s'' : SyncDb}
  {value : Option Bytes}

theorem Rewrites.same {touched : Triple → GraphIndex → Prop} (htrie : TrieOk load s.trie)
    (h : s'.trie = s.trie) (hread : s'.readTxnId = s.readTxnId)
    (hnone : ∀ t index, ¬ touched t index) (value : Option Bytes) :
    Rewrites cfg load subtree s s' touched value where
  trie := h ▸ htrie
  heads t index hhead := by rwa [h, hread]
  written t index htouched := absurd htouched (hnone t index)
  kept t index _ := by rw [h]

section Calls

variable {schema : Option GraphSchema} {t : Triple} {call : GraphIndex → TrieOp} {w : Write}

theorem mem_history_calls (hwrite : CallsWrite cfg subtree t call w) (t' : Triple)
    (index : GraphIndex) (w' : Write) :
    w' ∈ history (pathAccepted cfg) ((neededIndexes schema t.predicate).map call)
        (keyChunks cfg subtree t' index) ↔ writtenKeys cfg subtree schema t t' index ∧ w' = w := by
  rw [history, filterMap_map, mem_filterMap]
  constructor
  · rintro ⟨i, hi, heq⟩
    rw [Function.comp_apply, hwrite t' i index, ite_none_right_eq_some] at heq
    obtain ⟨hsame, hw⟩ := heq
    obtain rfl := tripleKey_chunks_inj hsame
    exact ⟨⟨hi, decide_eq_true hsame⟩, (some.inj hw).symm⟩
  · rintro ⟨⟨hi, hsame⟩, rfl⟩
    refine ⟨index, hi, ?_⟩
    rw [Function.comp_apply, hwrite t' index index, if_pos (of_decide_eq_true hsame)]

theorem Rewrites.of_calls (hwrite : CallsWrite cfg subtree t call w)
    (hvalid : ∀ i, ValidPath (call i).path) (htrie : TrieOk load s.trie)
    (hsafe : opsSplitSafely cfg load s.trie ((neededIndexes schema t.predicate).map call))
    (happlied : s'.trie =
      ((neededIndexes schema t.predicate).map call).foldl (applyOp cfg load) s.trie)
    (hlater : s.readTxnId ≤ s'.readTxnId) (hreadable : w.txnId ≤ s'.readTxnId) :
    Rewrites cfg load subtree s s' (writtenKeys cfg subtree schema t) w.value := by
  have hmem := @mem_history_calls cfg subtree schema t call w hwrite
  obtain ⟨hok, hcontent⟩ := foldl_applyOp_content htrie (fun op hop => by
    obtain ⟨i, -, rfl⟩ := mem_map.mp hop
    exact hvalid i) hsafe
  rw [← happlied] at hok hcontent
  refine ⟨hok, fun t' index hhead => ?_, fun t' index hwritten => ?_, fun t' index hnot => ?_⟩
  · rw [hcontent]
    refine (hhead.mono hlater).foldl fun w' hw' => ?_
    rw [((hmem t' index w').mp hw').2]
    exact hreadable
  · rw [newestAt, hcontent, newest_foldl]
    cases hlast : (history (pathAccepted cfg) ((neededIndexes schema t.predicate).map call)
        (keyChunks cfg subtree t' index)).getLast? with
    | none =>
      have hw := (hmem t' index w).mpr ⟨hwritten, rfl⟩
      rw [getLast?_eq_none_iff.mp hlast] at hw
      cases hw
    | some w' => rw [elim_some, ((hmem t' index w').mp (mem_of_getLast? hlast)).2]
  · rw [newestAt, hcontent, eq_nil_iff_forall_not_mem.mpr fun w' hw' =>
      hnot ((hmem t' index w').mp hw').1]
    rfl

end Calls

section Triples

variable {layer layer' : GraphLayer} {ops : List RawOp} {call : TransactionId → GraphIndex → TrieOp}
  {result : Int}

section Batches

variable [Libcbor] (h : TripleCalls cfg load subtree layer env t ops value call)
  (htrie : TrieOk load layer.db.trie)

include h htrie

/-- A batch for the needed indexes of a triple that succeeds. -/
theorem TripleCalls.rewrites
    (heq : tripleBatch cfg load subtree layer env ops = (layer', .ok result)) :
    Rewrites cfg load subtree layer.db layer'.db (writtenKeys cfg subtree layer.schema t)
      value := by
  unfold tripleBatch at heq
  split at heq
  · rename_i hempty
    cases heq
    refine .same htrie rfl rfl (fun t' index hwritten => ?_) value
    have hnil := h.calls (layer.db.nextId env)
    rw [hempty] at hnil
    rw [writtenKeys, map_eq_nil_iff.mp hnil.symm] at hwritten
    cases hwritten.1
  · obtain ⟨rfl, hok⟩ := Prod.mk.inj heq
    obtain ⟨happlied, hlater, hreadable, -⟩ := databaseBatchSyncRaw_ok (Prod.ext rfl hok)
    have hsafe := h.safe
    rw [h.calls] at hsafe happlied
    exact .of_calls (w := ⟨_, value⟩) (h.write _) (h.valid _) htrie hsafe happlied hlater hreadable

theorem TripleCalls.failed {code : Int}
    (heq : tripleBatch cfg load subtree layer env ops = (layer', .error code)) :
    layer'.db.trie = layer.db.trie ∧ layer'.db.readTxnId = layer.db.readTxnId := by
  unfold tripleBatch at heq
  split at heq
  · cases heq
  · obtain ⟨rfl, herror⟩ := Prod.mk.inj heq
    obtain ⟨hfailed, hsame⟩ := databaseBatchSyncRaw_error (Prod.ext rfl herror)
    refine ⟨hsame (applyBatch_accepted htrie h.accepted (fun op hop => ?_) h.safe),
      hfailed.readTxnId⟩
    rw [← rawCalls, h.calls] at hop
    obtain ⟨i, -, rfl⟩ := mem_map.mp hop
    exact h.valid _ i

end Batches

theorem tripleBatch_schema [Libcbor] {result : Except Int Int}
    (heq : tripleBatch cfg load subtree layer env ops = (layer', result)) :
    layer'.schema = layer.schema := by
  unfold tripleBatch at heq
  split at heq <;> exact (Prod.mk.inj heq).1 ▸ rfl

theorem rawCalls_delete (hclean : CleanSubtree subtree) (schema : Option GraphSchema) (t : Triple)
    (id : TransactionId) : rawCalls cfg slash id ((deleteOps schema t).map (layerOp subtree)) =
      (neededIndexes schema t.predicate).map (deleteCall cfg subtree t id) := by
  rw [rawCalls, batchOps_deleteOps hclean, List.map_map]
  rfl

theorem insertCall_writeTo
    (haccepted : pathAccepted cfg (pathOf cfg.chunkSize (tripleKey subtree t .spo)))
    (id : TransactionId) : CallsWrite cfg subtree t (insertCall cfg subtree t id)
      ⟨id, some []⟩ := by
  intro t' i j
  have hindex : pathAccepted cfg (pathOf cfg.chunkSize (tripleKey subtree t i)) = true :=
    (pathAccepted_tripleKey i).mpr ((pathAccepted_tripleKey .spo).mp haccepted)
  simp only [insertCall, TrieOp.writeTo, hindex, and_true]
  rfl

theorem opsSplitSafely_deletes (indexes : List GraphIndex) (id : TransactionId)
    (trie : HbtrieNode) :
    opsSplitSafely cfg load trie (indexes.map (deleteCall cfg subtree t id)) = true := by
  induction indexes generalizing trie with
  | nil => rfl
  | cons i rest ih =>
    rw [map_cons, opsSplitSafely, ih, Bool.and_true]
    rfl

end Triples

/-! ### Storing a schema -/

theorem opsSplitSafely_take {calls : List TrieOp} {trie : HbtrieNode}
    (h : opsSplitSafely cfg load trie calls) (n : Nat) :
    opsSplitSafely cfg load trie (calls.take n) = true := by
  induction calls generalizing n trie with
  | nil => rw [take_nil, opsSplitSafely]
  | cons op rest ih =>
    cases n with
    | zero => rfl
    | succ n =>
      obtain ⟨hfirst, hrest⟩ := Bool.and_eq_true_iff.mp h
      rw [take_succ_cons, opsSplitSafely, hfirst, ih hrest, Bool.true_and]

def schemaName : Bytes := ascii "__gschema".toList

theorem storeTypeOps_keys {existing : Bytes} {op : RawOp} (h : op ∈ storeTypeOps existing type) :
    ∃ rest, op.key = schemaName ++ slash :: rest := by
  have htype : ∀ rest, ∃ rest', schemaTypeKey type.name rest = schemaName ++ slash :: rest' := by
    intro rest
    refine ⟨type.name ++ rest, ?_⟩
    rfl
  simp only [storeTypeOps, mem_append, mem_cons, mem_flatMap] at h
  rcases h with (h | rfl | ⟨field, -, h⟩) | h
  · split at h
    · cases h
    · rw [mem_singleton.mp h]
      exact ⟨ascii "types".toList, rfl⟩
  · exact htype _
  · simp only [fieldOps, mem_cons, not_mem_nil, or_false] at h
    rcases h with rfl | rfl | rfl <;> exact htype _
  · split at h
    · cases h
    · rw [mem_singleton.mp h]
      exact htype _

theorem mem_rawCalls (hclean : CleanSubtree subtree) {id : TransactionId} {ops : List RawOp}
    {op : TrieOp} (h : op ∈ rawCalls cfg slash id (ops.map (layerOp subtree))) :
    ∃ raw ∈ ops, op.path = layerPath cfg.chunkSize subtree raw.key := by
  simp only [rawCalls, List.map_map, List.mem_map] at h
  obtain ⟨raw, hraw, rfl⟩ := h
  refine ⟨raw, hraw, ?_⟩
  cases raw with
  | put key value | delete key => exact pathCreateFromRaw_layer hclean _ _

theorem rawSegments_schema (rest : Bytes) : rawSegments slash [] (schemaName ++ slash :: rest) =
      schemaName :: rawSegments slash [] rest := by
  rfl

theorem schema_keyChunks_ne (rest : Bytes) (t : Triple) (index : GraphIndex) :
    pathChunks (layerPath cfg.chunkSize subtree (schemaName ++ slash :: rest)) ≠
      keyChunks cfg subtree t index := by
  intro heq
  rw [layerPath, rawSegments_schema, keyChunks, tripleKey, append_assoc, pathChunks_append,
    pathChunks_append] at heq
  exact underscore_ne _ _ _ index _ ((append_cancel_left heq).trans (pathChunks_append ..))

/-- Calls on keys of the schema leave those of triples alone. -/
theorem Rewrites.of_schema {calls : List TrieOp} (htrie : TrieOk load s.trie)
    (hkeys : ∀ op ∈ calls, ∃ rest,
      op.path = layerPath cfg.chunkSize subtree (schemaName ++ slash :: rest))
    (hsafe : opsSplitSafely cfg load s.trie calls)
    (happlied : s'.trie = calls.foldl (applyOp cfg load) s.trie)
    (hlater : s.readTxnId ≤ s'.readTxnId) :
    Rewrites cfg load subtree s s' (fun _ _ => False) none := by
  have hvalid : ∀ op ∈ calls, ValidPath op.path := by
    intro op hop
    obtain ⟨rest, hpath⟩ := hkeys op hop
    rw [hpath, layerPath, rawSegments_schema]
    exact pathOf_valid _ (by simp)
  obtain ⟨hok, hcontent⟩ := foldl_applyOp_content htrie hvalid hsafe
  rw [← happlied] at hok hcontent
  have hsame : ∀ t index, contentAt load s'.trie (keyChunks cfg subtree t index) =
      contentAt load s.trie (keyChunks cfg subtree t index) := by
    intro t index
    have hnil : history (pathAccepted cfg) calls (keyChunks cfg subtree t index) = [] := by
      refine filterMap_eq_nil_iff.mpr fun op hop => ?_
      obtain ⟨rest, hpath⟩ := hkeys op hop
      have hne := hpath ▸ schema_keyChunks_ne rest t index
      cases op with
      | insert path value id => exact if_neg fun h => hne h.1
      | delete path id => exact if_neg hne
    rw [hcontent, hnil, foldl_nil]
  refine ⟨hok, fun t index hhead => ?_, fun _ _ hfalse => hfalse.elim, fun t index _ => ?_⟩
  · rw [hsame]
    exact hhead.mono hlater
  · rw [newestAt, hsame, newestAt]

/-- The definition of a type does not touch the keys of triples. -/
theorem graphSchemaStoreType_rewrites [Libcbor] (hclean : CleanSubtree subtree)
    (htrie : TrieOk load s.trie)
    (hsafe : opsSplitSafely cfg load (s.lookUp load (schemaTypesPath cfg subtree)).trie
      (rawCalls cfg slash ((s.lookUp load (schemaTypesPath cfg subtree)).nextId env)
        ((storeOpsIn cfg load subtree s type).map (layerOp subtree)))) :
    Rewrites cfg load subtree s (graphSchemaStoreType cfg load subtree s env type)
      (fun _ _ => False) none := by
  obtain ⟨hlooked, hsame⟩ :=
    @hbtrieFindAttach_spec (pathSteps (schemaTypesPath cfg subtree)) load s.trie htrie
  obtain ⟨n, happlied, hlater⟩ := databaseBatchSyncRaw_take cfg load
    (s.lookUp load (schemaTypesPath cfg subtree)) env slash
    ((storeOpsIn cfg load subtree s type).map (layerOp subtree))
  have hstored := @Rewrites.of_schema cfg load subtree _ _ _ hlooked (fun op hop => ?_)
    (opsSplitSafely_take hsafe n) happlied hlater
  · refine ⟨hstored.trie, fun t index hhead => hstored.heads t index ?_, hstored.written,
      fun t index hnot => (hstored.kept t index hnot).trans ?_⟩
    · rw [SyncDb.lookUp, hsame]
      exact hhead
    · rw [newestAt, SyncDb.lookUp, hsame, newestAt]
  · obtain ⟨raw, hraw, hpath⟩ := mem_rawCalls hclean (mem_of_mem_take hop)
    obtain ⟨rest, hrest⟩ := storeTypeOps_keys hraw
    exact ⟨rest, hrest ▸ hpath⟩

end Effects

/-! ### The invariant -/

structure RunInv (cfg : Config) (load : Loader) (subtree : Option DatabaseSubtree)
    (run : GraphRun) : Prop where
  trie : TrieOk load run.layer.db.trie
  heads : ∀ t index, HeadReadable run.layer.db.readTxnId
    (contentAt load run.layer.db.trie (keyChunks cfg subtree t index))
  deleted : ∀ t ∈ run.deleted, ∀ index,
    newestAt load run.layer.db.trie (keyChunks cfg subtree t index) = none
  live : ∀ t ∈ run.live, ∀ index,
    graphSchemaNeedsIndex run.layer.schema t.predicate index = true →
      newestAt load run.layer.db.trie (keyChunks cfg subtree t index) ≠ none

section Invariant

variable {cfg : Config} {load : Loader} {subtree : Option DatabaseSubtree} {run run' : GraphRun}
  {layer : GraphLayer} {schema : Option GraphSchema}

theorem has_eq_isSome (heads : ∀ t index, HeadReadable layer.db.readTxnId
      (contentAt load layer.db.trie (keyChunks cfg subtree t index)))
    (t : Triple) (index : GraphIndex) : layer.has cfg load subtree t index =
      (newestAt load layer.db.trie (keyChunks cfg subtree t index)).isSome := by
  rw [GraphLayer.has, visible_eq_newestAt (tripleKey_valid _ t index) (heads t index)]
  rfl

theorem mem_neededIndexes {p : Bytes} :
    index ∈ neededIndexes schema p ↔ graphSchemaNeedsIndex schema p index = true := by
  rw [neededIndexes, mem_filter]
  refine and_iff_right ?_
  cases index <;> decide

theorem writtenKeys_self : writtenKeys cfg subtree schema t t index ↔
      graphSchemaNeedsIndex schema t.predicate index = true := by
  rw [writtenKeys, mem_neededIndexes, sameKey, decide_eq_true_iff]
  exact and_iff_left rfl

/-- A further type asks for no index that was not asked for. -/
theorem needsIndex_of_append {p : Bytes}
    (h : graphSchemaNeedsIndex (some (schema.getD [] ++ [type])) p index) :
    graphSchemaNeedsIndex schema p index = true := by
  cases schema with
  | none => rfl
  | some types =>
    simp only [graphSchemaNeedsIndex, getD_some, flatMap_append, find?_append] at h ⊢
    cases hfind : (types.flatMap GraphSchemaType.fields).find? fun f => f.name == p with
    | none => rfl
    | some f =>
      rw [hfind] at h
      exact h

variable (h : RunInv cfg load subtree run)

include h

theorem RunInv.agree : IndexesAgree cfg load subtree run where
  deleted t ht index := by
    rw [has_eq_isSome h.heads, h.deleted t ht index, isSome_none]
  live t ht index hneeds := by
    rw [has_eq_isSome h.heads]
    exact isSome_iff_ne_none.mpr (h.live t ht index hneeds)

/-- A state with the same triples and stored values, whose schema asks for no more. -/
theorem RunInv.same {value : Option Bytes}
    (hdb : Rewrites cfg load subtree run.layer.db layer.db (fun _ _ => False) value)
    (hneeds : ∀ p index, graphSchemaNeedsIndex layer.schema p index →
      graphSchemaNeedsIndex run.layer.schema p index) :
    RunInv cfg load subtree { run with layer } where
  trie := hdb.trie
  heads t index := hdb.heads t index (h.heads t index)
  deleted t ht index := (hdb.kept t index id).trans (h.deleted t ht index)
  live t ht index hneed := by
    rw [hdb.kept t index id]
    exact h.live t ht index (hneeds _ _ hneed)

theorem RunInv.inserted (hdb : Rewrites cfg load subtree run.layer.db layer.db
      (writtenKeys cfg subtree run.layer.schema t) (some []))
    (hschema : layer.schema = run.layer.schema) (hapart : ∀ t' ∈ run.deleted, t' ≠ t → ∀ index,
      ¬ writtenKeys cfg subtree run.layer.schema t t' index) :
    RunInv cfg load subtree ⟨layer, t :: run.live, run.deleted.filter (· ≠ t)⟩ where
  trie := hdb.trie
  heads t' index := hdb.heads t' index (h.heads t' index)
  deleted t' ht' index := by
    obtain ⟨ht', hne⟩ := mem_filter.mp ht'
    rw [hdb.kept t' index (hapart t' ht' (of_decide_eq_true hne) index)]
    exact h.deleted t' ht' index
  live t' ht' index hneeds := by
    simp only [hschema] at hneeds
    by_cases hwritten : writtenKeys cfg subtree run.layer.schema t t' index
    · rw [hdb.written t' index hwritten]
      exact some_ne_none _
    · rw [hdb.kept t' index hwritten]
      rcases mem_cons.mp ht' with rfl | ht'
      · exact absurd (writtenKeys_self.mpr hneeds) hwritten
      · exact h.live t' ht' index hneeds

theorem RunInv.removed (hdb : Rewrites cfg load subtree run.layer.db layer.db
      (writtenKeys cfg subtree run.layer.schema t) none)
    (hschema : layer.schema = run.layer.schema) (hapart : ∀ t' ∈ run.live, t' ≠ t → ∀ index,
      graphSchemaNeedsIndex run.layer.schema t'.predicate index →
        ¬ writtenKeys cfg subtree run.layer.schema t t' index)
    (hgone : ∀ index, graphSchemaNeedsIndex run.layer.schema t.predicate index ∨
      run.layer.has cfg load subtree t index = false) :
    RunInv cfg load subtree ⟨layer, run.live.filter (· ≠ t), t :: run.deleted⟩ where
  trie := hdb.trie
  heads t' index := hdb.heads t' index (h.heads t' index)
  deleted t' ht' index := by
    by_cases hwritten : writtenKeys cfg subtree run.layer.schema t t' index
    · exact hdb.written t' index hwritten
    · rw [hdb.kept t' index hwritten]
      rcases mem_cons.mp ht' with rfl | ht'
      · rcases hgone index with hneeds | hgone
        · exact absurd (writtenKeys_self.mpr hneeds) hwritten
        · rw [has_eq_isSome h.heads] at hgone
          exact not_isSome_iff_eq_none.mp (Bool.eq_false_iff.mp hgone)
      · exact h.deleted t' ht' index
  live t' ht' index hneeds := by
    obtain ⟨ht', hne⟩ := mem_filter.mp ht'
    simp only [hschema] at hneeds
    rw [hdb.kept t' index (hapart t' ht' (of_decide_eq_true hne) index hneeds)]
    exact h.live t' ht' index hneeds

theorem RunInv.defined [Libcbor] (hclean : CleanSubtree subtree) {envs : Nat → CallEnv}
    {types : GraphSchema} (hsafe : definesSafely cfg load subtree run.layer envs types) :
    RunInv cfg load subtree
      { run with layer := defineTypes cfg load subtree run.layer envs types } := by
  induction types generalizing run envs with
  | nil => exact h
  | cons type rest ih =>
    obtain ⟨hfirst, hrest⟩ := Bool.and_eq_true_iff.mp hsafe
    have hnext := @RunInv.same cfg load subtree run
      (defineType cfg load subtree run.layer (envs 0) type) h _
      (graphSchemaStoreType_rewrites hclean h.trie hfirst) fun _ _ => needsIndex_of_append
    exact ih hnext hrest

theorem RunInv.failed [Libcbor] {ops : List RawOp} {value : Option Bytes}
    {call : TransactionId → GraphIndex → TrieOp} {code : Int}
    (hcalls : TripleCalls cfg load subtree run.layer env t ops value call)
    (heq : tripleBatch cfg load subtree run.layer env ops = (layer, .error code)) :
    RunInv cfg load subtree { run with layer } := by
  obtain ⟨htrie, hread⟩ := hcalls.failed h.trie heq
  refine h.same (.same h.trie htrie hread (fun _ _ => id) none) fun p index hneeds => ?_
  exact tripleBatch_schema heq ▸ hneeds

variable [Libcbor] (hclean : CleanSubtree subtree)

include hclean

theorem RunInv.insert (hsafe : indexSafe cfg load subtree run (.insert env t))
    (hstep : graphStep cfg load subtree run (.insert env t) = some run') :
    RunInv cfg load subtree run' := by
  simp only [indexSafe, Bool.and_eq_true, List.all_eq_true, Bool.or_eq_true, decide_eq_true_eq,
    Bool.not_eq_true'] at hsafe
  obtain ⟨⟨haccepted, hsplits⟩, hapart⟩ := hsafe
  have hcalls : TripleCalls cfg load subtree run.layer env t (insertOps run.layer.schema t)
      (some []) (insertCall cfg subtree t) := by
    refine ⟨insertCall_writeTo haccepted, fun _ => tripleKey_valid cfg.chunkSize t,
      fun id => ?_, hsplits, fun path value hop => ?_⟩
    · rw [rawCalls, batchOps_insertOps hclean, List.map_map]
      rfl
    · rw [batchOps_insertOps hclean] at hop
      obtain ⟨i, -, heq⟩ := mem_map.mp hop
      cases heq
      exact (pathAccepted_tripleKey i).mpr ((pathAccepted_tripleKey .spo).mp haccepted)
  simp only [graphStep, graphInsertSync] at hstep
  split at hstep
  · rename_i layer result heq
    cases hstep
    refine h.inserted (hcalls.rewrites h.trie heq) (tripleBatch_schema heq)
      fun t' ht' hne index hwritten => ?_
    rcases hapart t' ht' with heq | hapart
    · exact hne heq
    · exact absurd hwritten.2 (Bool.eq_false_iff.mp (hapart index hwritten.1))
  · next layer code heq =>
    cases hstep
    exact h.failed hcalls heq

theorem RunInv.delete (hsafe : indexSafe cfg load subtree run (.delete env t))
    (hstep : graphStep cfg load subtree run (.delete env t) = some run') :
    RunInv cfg load subtree run' := by
  simp only [indexSafe, Bool.and_eq_true, List.all_eq_true, Bool.or_eq_true, decide_eq_true_eq,
    Bool.not_eq_true'] at hsafe
  obtain ⟨hapart, hgone⟩ := hsafe
  have hcalls : TripleCalls cfg load subtree run.layer env t (deleteOps run.layer.schema t) none
      (deleteCall cfg subtree t) := by
    refine ⟨fun _ _ _ _ => rfl, fun _ => tripleKey_valid cfg.chunkSize t,
      rawCalls_delete hclean run.layer.schema t, ?_, fun path value hop => ?_⟩
    · rw [rawCalls_delete hclean]
      exact opsSplitSafely_deletes _ _ _
    · rw [batchOps_deleteOps hclean] at hop
      obtain ⟨i, -, heq⟩ := mem_map.mp hop
      cases heq
  simp only [graphStep, graphDeleteSync] at hstep
  split at hstep
  · rename_i layer result heq
    cases hstep
    refine h.removed (hcalls.rewrites h.trie heq) (tripleBatch_schema heq)
      (fun t' ht' hne index hneeds hwritten => ?_) fun index => ?_
    · rcases hapart t' ht' with heq | hapart
      · exact hne heq
      · have hnot := hapart index hwritten.1
        rw [hneeds, hwritten.2] at hnot
        cases hnot
    · exact hgone index (by cases index <;> decide)
  · next layer code heq =>
    cases hstep
    exact h.failed hcalls heq

theorem RunInv.step {action : GraphAction} (hsafe : indexSafe cfg load subtree run action)
    (hstep : graphStep cfg load subtree run action = some run') : RunInv cfg load subtree run' := by
  cases action with
  | insert env t => exact h.insert hclean hsafe hstep
  | delete env t => exact h.delete hclean hsafe hstep
  | schema envs dsl =>
    cases hstep
    exact h.defined hclean hsafe

end Invariant

/-- In every run whose steps are safe the indexes agree with what was inserted and deleted. -/
theorem triple_indexes_agree [Libcbor] (cfg : Config) (load : Loader)
    (subtree : Option DatabaseSubtree) (layer : GraphLayer) (run : GraphRun)
    (hclean : CleanSubtree subtree) (htrie : TrieOk load layer.db.trie)
    (hheads : ∀ t index, HeadReadable layer.db.readTxnId
      (contentAt load layer.db.trie (keyChunks cfg subtree t index)))
    (hrun : Reaches (graphStep cfg load subtree) (indexSafe cfg load subtree) ⟨layer, [], []⟩ run) :
    IndexesAgree cfg load subtree run := by
  refine (hrun.invariant (RunInv cfg load subtree)
    ⟨htrie, hheads, forall_mem_nil _, forall_mem_nil _⟩ ?_).agree
  intro s action s' h hsafe hstep
  exact h.step hclean hsafe hstep

/-! ### Examples -/

section Examples

attribute [local instance] headCbor

/-- `type T { knows: T }`. -/
def knowsSchema : Bytes := ascii "type T \x7b knows: T \x7d".toList

/-- An insert and a delete with the schema before both. -/
theorem triple_indexes_agree_knows :
    ∃ run, Reaches (graphStep defaultConfig noLoader none) (indexSafe defaultConfig noLoader none)
        ⟨freshLayer, [], []⟩ run ∧
      run.deleted = [knowsEdge] ∧ IndexesAgree defaultConfig noLoader none run := by
  refine exists_reaches_and [.schema (fun _ => calmEnv) knowsSchema, .insert calmEnv knowsEdge,
    .delete calmEnv knowsEdge] (by decide +kernel) fun run hrun =>
      triple_indexes_agree defaultConfig
      noLoader none freshLayer run nofun (.create _) (fun t index v older hcontent => ?_) hrun
  rw [show freshLayer.db.trie = hbtrieNodeCreate from rfl, contentAt_create] at hcontent
  cases hcontent

/-- With the schema between them, the delete leaves two keys of the triple. -/
theorem schema_hides_keys :
    ∃ run, Reaches (graphStep defaultConfig noLoader none) always ⟨freshLayer, [], []⟩ run ∧
      knowsEdge ∈ run.deleted ∧ run.layer.has defaultConfig noLoader none knowsEdge .osp = true ∧
        run.layer.has defaultConfig noLoader none knowsEdge .pso = true ∧
        ¬ IndexesAgree defaultConfig noLoader none run := by
  obtain ⟨run, hrun, hdeleted, hosp, hpso⟩ : ∃ run,
      Reaches (graphStep defaultConfig noLoader none) always ⟨freshLayer, [], []⟩ run ∧
        knowsEdge ∈ run.deleted ∧ run.layer.has defaultConfig noLoader none knowsEdge .osp ∧
        run.layer.has defaultConfig noLoader none knowsEdge .pso = true :=
    exists_reaches [.insert calmEnv knowsEdge, .schema (fun _ => calmEnv) knowsSchema,
      .delete calmEnv knowsEdge] (by decide +kernel)
  refine ⟨run, hrun, hdeleted, hosp, hpso, fun hagree => ?_⟩
  rw [hagree.deleted knowsEdge hdeleted .osp] at hosp
  cases hosp

end Examples

end WaveDB.Graph
