import WaveDB.HBTrie.Items
import WaveDB.HBTrie.TrieHistory

/-!
The paths recorded in a trie.

A value is stored with the chunk count and the byte length of each component of its path.
Together with the chunks that lead to it these give the components back
(`components_of_recorded`). `TrieFrom` is what a trie built from paths satisfies, and
`trieFrom_runOps` says that a run of inserts and deletes of these paths builds one.
-/

namespace WaveDB.HBTrie

open WaveDB.Basis Workers List Option BnodeEntry

/-! ### Metadata -/

/-- The metadata that `hbtrie_insert` records for a path. -/
def pathMetadata (path : Path) : List PathSubscriptMeta :=
  path.map fun identifier => ⟨identifier.chunks.length, identifier.length⟩

variable {cs : ChunkSize} {pathMeta : List PathSubscriptMeta} {txnId : TransactionId}
  {steps : List PathStep}

theorem components_of_recorded {p q : List Bytes}
    (hchunks : pathChunks (pathOf cs p) = pathChunks (pathOf cs q))
    (hmeta : pathMetadata (pathOf cs p) = pathMetadata (pathOf cs q)) : p = q := by
  induction p generalizing q with
  | nil =>
    cases q with
    | nil => rfl
    | cons b q => cases hmeta
  | cons a p ih =>
    cases q with
    | nil => cases hmeta
    | cons b q =>
      obtain ⟨hfirst, hrest⟩ := cons.inj hmeta
      obtain ⟨hcount, hlength⟩ := PathSubscriptMeta.mk.inj hfirst
      obtain ⟨hhead, htail⟩ := append_inj hchunks hcount
      have hbytes := congrArg (flatMap Chunk.data) hhead
      rw [identifierCreate_bytes, identifierCreate_bytes] at hbytes
      rw [(append_inj hbytes hlength).1, ih htail hrest]

/-- Every value is recorded with a path of the set that leads to it. -/
def BuiltFrom (cs : ChunkSize) (load : Loader) (paths : Set (List Bytes)) (root : HbtrieNode) :
    Prop :=
  ∀ chunks content pathMeta, itemAt load root chunks = some (content, pathMeta) →
    ∃ p ∈ paths, pathChunks (pathOf cs p) = chunks ∧ pathMetadata (pathOf cs p) = pathMeta

/-- The key of a value under a sequence of chunks: the path whose metadata it has. A value
without metadata, such as one whose path has 256 components and comes from a page, counts as one
component with all the bytes. -/
def IsKeyOf (cs : ChunkSize) (chunks : List Chunk) (pathMeta : List PathSubscriptMeta)
    (p : List Bytes) : Prop :=
  pathChunks (pathOf cs p) = chunks ∧ (pathMetadata (pathOf cs p) = pathMeta ∨
    pathMeta = [] ∧ p = [chunks.flatMap Chunk.data])

theorem IsKeyOf.unique {chunks : List Chunk} {p q : List Bytes} (hne : chunks ≠ [])
    (hp : IsKeyOf cs chunks pathMeta p) (hq : IsKeyOf cs chunks pathMeta q) : p = q := by
  -- Recorded metadata are not empty, as the chunks are not.
  have hrecorded : ∀ {r : List Bytes}, pathChunks (pathOf cs r) = chunks →
      pathMetadata (pathOf cs r) ≠ [] := by
    rintro r hchunks hnil
    obtain rfl : r = [] := by simpa [pathMetadata, pathOf] using hnil
    exact hne hchunks.symm
  obtain ⟨hpchunks, hpmeta | ⟨hpnil, hp⟩⟩ := hp
  · obtain ⟨hqchunks, hqmeta | ⟨hqnil, -⟩⟩ := hq
    · exact components_of_recorded (hpchunks.trans hqchunks.symm) (hpmeta.trans hqmeta.symm)
    · exact absurd (hpmeta.trans hqnil) (hrecorded hpchunks)
  · obtain ⟨hqchunks, hqmeta | ⟨-, hq⟩⟩ := hq
    · exact absurd (hqmeta.trans hpnil) (hrecorded hqchunks)
    · rw [hp, hq]

def Keyed (cs : ChunkSize) (load : Loader) (root : HbtrieNode) : Prop :=
  ∀ chunks content pathMeta, itemAt load root chunks = some (content, pathMeta) →
    ∃ p, IsKeyOf cs chunks pathMeta p

/-- A trie built from paths: its B+trees are search trees with separators above the leaves
only, and every value is recorded with one of the paths. -/
structure TrieFrom (cs : ChunkSize) (load : Loader) (paths : Set (List Bytes))
    (root : HbtrieNode) : Prop where
  trie : TrieOk load root
  plain : EntriesPlain load root
  recorded : BuiltFrom cs load paths root

/-! ### What is filed under a key -/

/-- The entry is no separator, and its metadata is admitted for the key. -/
def Filed (admits : List Chunk → List PathSubscriptMeta → Prop) (key : List Chunk)
    (e : BnodeEntry) : Prop :=
  e.isBnodeChild = false ∧
    ∀ content pathMeta, e.storedValue = some (content, pathMeta) → admits key pathMeta

def TrieFiled (load : Loader) (admits : List Chunk → List PathSubscriptMeta → Prop)
    (root : HbtrieNode) : Prop :=
  ∀ key e, entryAt load root key = some e → Filed admits key e

def stepMetadata (steps : List PathStep) : List PathSubscriptMeta :=
  steps.filterMap fun step =>
    match step with
    | .enter identifier => some ⟨identifier.chunks.length, identifier.length⟩
    | .chunk _ => none

theorem stepMetadata_pathSteps (path : Path) :
    stepMetadata (pathSteps path) = pathMetadata path := by
  induction path with
  | nil => rfl
  | cons identifier path ih =>
    have hchunks : (identifier.chunks.map PathStep.chunk).filterMap (fun step =>
        match step with
        | .enter identifier =>
          some (⟨identifier.chunks.length, identifier.length⟩ : PathSubscriptMeta)
        | .chunk _ => none) = [] := by
      rw [filterMap_map, filterMap_eq_nil_iff]
      exact fun _ _ => rfl
    rw [pathSteps_cons, stepMetadata, filterMap_cons, filterMap_append, hchunks,
      nil_append, ← stepMetadata, ih]
    rfl

section Filed

variable {cfg : Config} {load : Loader} {admits : List Chunk → List PathSubscriptMeta → Prop}
  {node node' : HbtrieNode} {c : Chunk} {e e' : BnodeEntry} {key : List Chunk}

theorem trieFiled_iff : TrieFiled load admits node ↔
    ∀ c e, bnodeFindLeafLazy load node.btree c = some e → Filed admits [c] e ∧
      ∀ next, e.loadedTrieNode load = some next →
        TrieFiled load (fun key => admits (c :: key)) next := by
  constructor
  · intro h c e hfind
    refine ⟨h [c] e hfind, fun next hnext key e' he' => ?_⟩
    cases key with
    | nil => cases he'
    | cons d rest => exact h (c :: d :: rest) e' (by simp [entryAt, hfind, hnext, he'])
  · intro h key e he
    cases key with
    | nil => cases he
    | cons c rest =>
      cases rest with
      | nil => exact (h c e he).1
      | cons d rest =>
        obtain ⟨next, hbind, he⟩ := bind_eq_some_iff.mp he
        obtain ⟨first, hfind, hnext⟩ := bind_eq_some_iff.mp hbind
        exact (h c first hfind).2 next hnext (d :: rest) e he

theorem TrieFiled.create : TrieFiled load admits hbtrieNodeCreate := by
  refine trieFiled_iff.mpr fun c e hfind => ?_
  cases hfind

/-- A node whose lookups changed at one chunk only. -/
theorem TrieFiled.rewrite (h : TrieFiled load admits node)
    (hnew : Rewritten load node c e' node') (hself : Filed admits [c] e')
    (hbelow : ∀ next, e'.loadedTrieNode load = some next →
      TrieFiled load (fun key => admits (c :: key)) next) : TrieFiled load admits node' := by
  refine trieFiled_iff.mpr fun k e hk => ?_
  rw [hnew.2 k] at hk
  split at hk
  · rename_i heq
    cases hk
    rw [heq]
    exact ⟨hself, hbelow⟩
  · exact trieFiled_iff.mp h k e hk

theorem Filed.of_storedValue (hplain : ∀ child, e'.slot ≠ .childBnode child)
    (h : ∀ content pathMeta, e'.storedValue = some (content, pathMeta) → admits key pathMeta) :
    Filed admits key e' := by
  refine ⟨?_, h⟩
  unfold isBnodeChild
  split
  · next hslot => exact absurd hslot (hplain _)
  · rfl

theorem Filed.setTrieNode (h : Filed admits key e) (next : HbtrieNode) :
    Filed admits key (e.setTrieNode next) := by
  refine of_storedValue (setTrieNode_slot e next) ?_
  intro content pathMeta hvalue
  obtain ⟨ekey, slot, offset⟩ := e
  cases slot with
  | child node | childBnode node => cases hvalue
  | value content' pathMeta' node => exact h.2 content pathMeta hvalue

theorem Filed.insertValue (h : Filed admits key e) (value : Bytes) (txnId : TransactionId)
    (hnew : admits key pathMeta) : Filed admits key (e.insertValue value txnId pathMeta) := by
  refine of_storedValue (insertValue_slot e value txnId pathMeta) ?_
  intro content stored hvalue
  obtain ⟨ekey, slot, offset⟩ := e
  cases slot with
  | child node | childBnode node =>
    cases hvalue
    exact hnew
  | value old oldMeta node =>
    cases old with
    | legacy oldValue oldTxnId =>
      cases hvalue
      exact h.2 _ _ rfl
    | versions chain =>
      cases hvalue
      exact hnew

theorem Filed.deleteValue (h : Filed admits key e) (txnId : TransactionId) :
    Filed admits key (e.deleteValue txnId) := by
  obtain ⟨ekey, slot, offset⟩ := e
  cases slot with
  | child node => exact h
  | childBnode node => exact h
  | value old oldMeta node =>
    refine ⟨rfl, fun content pathMeta hvalue => ?_⟩
    cases hvalue
    exact h.2 _ _ rfl

theorem Inserts.filed {value : Bytes} {result : HbtrieNode × Bool}
    (hinserts : Inserts cfg load value txnId pathMeta steps node result)
    (h : TrieFiled load admits node)
    (hnew : admits (stepChunks steps) (pathMeta ++ stepMetadata steps)) :
    TrieFiled load admits result.1 := by
  induction hinserts generalizing admits with
  | refused => exact h
  | enter _ _ ih =>
    refine ih h ?_
    rw [append_assoc]
    exact hnew
  | newValue _ hrewritten =>
    rw [stepMetadata, filterMap_cons_none rfl, filterMap_nil, append_nil] at hnew
    refine h.rewrite hrewritten ⟨rfl, fun content stored hvalue => ?_⟩ nofun
    cases hvalue
    exact hnew
  | oldValue hfind hrewritten =>
    rw [stepMetadata, filterMap_cons_none rfl, filterMap_nil, append_nil] at hnew
    obtain ⟨hself, hbelow⟩ := trieFiled_iff.mp h _ _ hfind
    refine h.rewrite hrewritten (hself.insertValue value txnId hnew) fun next hnext => ?_
    rw [insertValue_loaded] at hnext
    exact hbelow next hnext
  | newChild _ _ hrewritten ih =>
    refine h.rewrite hrewritten ⟨rfl, nofun⟩ fun next hnext => ?_
    cases hnext
    exact ih TrieFiled.create hnew
  | @oldChild _ _ _ _ e _ _ _ hfind _ hrewritten ih =>
    obtain ⟨hself, hbelow⟩ := trieFiled_iff.mp h _ _ hfind
    refine h.rewrite hrewritten (hself.setTrieNode _) fun next hnext => ?_
    rw [setTrieNode_loaded] at hnext
    cases hnext
    refine ih ?_ hnew
    cases hnext : e.loadedTrieNode load with
    | none => exact TrieFiled.create
    | some next => exact hbelow next hnext

theorem Deletes.filed (hdeletes : Deletes load txnId steps node node') (hok : TrieOk load node)
    (h : TrieFiled load admits node) : TrieFiled load admits node' := by
  induction hdeletes generalizing admits with
  | nil => exact h
  | enter _ ih => exact ih hok h
  | missed =>
    -- attaching what was loaded on the way changes no lookup
    obtain ⟨-, hsame⟩ := hok.btree.attach _
    exact trieFiled_iff.mpr fun k e hk => trieFiled_iff.mp h k e ((hsame k).symm.trans hk)
  | final hfind hrewritten =>
    obtain ⟨hself, hbelow⟩ := trieFiled_iff.mp h _ _ hfind
    refine h.rewrite hrewritten (hself.deleteValue txnId) fun next hnext => ?_
    rw [deleteValue_loaded] at hnext
    exact hbelow next hnext
  | child hfind hload _ hrewritten ih =>
    obtain ⟨hself, hbelow⟩ := trieFiled_iff.mp h _ _ hfind
    refine h.rewrite hrewritten (hself.setTrieNode _) fun next hnext => ?_
    rw [setTrieNode_loaded] at hnext
    cases hnext
    exact ih (hok.child hfind hload) (hbelow _ hload)

theorem contentAt_eq_itemAt (load : Loader) (node : HbtrieNode) (chunks : List Chunk) :
    contentAt load node chunks = (itemAt load node chunks).map Prod.fst := by
  induction chunks generalizing node with
  | nil => rfl
  | cons c rest ih =>
    cases rest with
    | nil =>
      rw [contentAt, itemAt, entryAt, map_bind]
      refine bind_congr fun e _ => ?_
      cases e <;> rfl
    | cons d rest =>
      simp only [contentAt, itemAt, entryAt, bind_assoc, map_bind, Function.comp_def] at ih ⊢
      refine bind_congr fun e _ => bind_congr fun next _ => ?_
      exact ih next

/-- A delete puts a tombstone on one item and leaves the others, all with their metadata. -/
theorem itemAt_hbtrieDeleteSteps (hok : TrieOk load node) (hplain : EntriesPlain load node)
    (hend : EndsInChunk steps) : EntriesPlain load (hbtrieDeleteSteps load txnId node steps).1 ∧
      ∀ chunks, itemAt load (hbtrieDeleteSteps load txnId node steps).1 chunks =
        (itemAt load node chunks).map fun item =>
          (if chunks = stepChunks steps then item.1.delete txnId else item.1, item.2) := by
  have hfiled : TrieFiled load (fun chunks pathMeta => ∃ content,
      itemAt load node chunks = some (content, pathMeta)) node := by
    intro chunks e he
    refine ⟨hplain chunks e he, fun content pathMeta hvalue => ⟨content, ?_⟩⟩
    rw [itemAt, he, bind_some, hvalue]
  have hfiled' := (@hbtrieDeleteSteps_deletes steps load txnId _ hok).filed hok hfiled
  have hcontent := (@hbtrieDeleteSteps_spec _ _ txnId _ hok hend).content
  refine ⟨fun chunks e he => (hfiled' chunks e he).1, fun chunks => ?_⟩
  have hc := hcontent chunks
  rw [contentAt_eq_itemAt, contentAt_eq_itemAt] at hc
  cases hitem : itemAt load (hbtrieDeleteSteps load txnId node steps).1 chunks with
  | none =>
    rw [hitem, map_none] at hc
    cases hold : itemAt load node chunks with
    | none => rfl
    | some item =>
      rw [hold] at hc
      split at hc <;> cases hc
  | some item =>
    obtain ⟨content, pathMeta⟩ := item
    obtain ⟨e, he, hvalue⟩ := bind_eq_some_iff.mp hitem
    obtain ⟨old, hold⟩ := (hfiled' chunks e he).2 content pathMeta hvalue
    rw [hitem, hold] at hc
    rw [hold, map_some]
    split at hc
    · rename_i heq
      obtain rfl : content = old.delete txnId := some.inj hc
      rw [if_pos heq]
    · rename_i heq
      obtain rfl : content = old := some.inj hc
      rw [if_neg heq]

end Filed

/-! ### Runs -/

section Runs

variable {cfg : Config} {load : Loader} {ops : List TrieOp}

theorem trieFiled_runOps {admits : List Chunk → List PathSubscriptMeta → Prop}
    (hrun : SafeRun cfg load ops)
    (hadmits : ∀ op ∈ ops, admits (pathChunks op.path) (pathMetadata op.path)) :
    TrieFiled load admits (runOps cfg load ops) := by
  induction ops using reverseRecOn with
  | nil => exact TrieFiled.create
  | append_singleton ops op ih =>
    have hok := (contentAt_runOps hrun.of_append).1
    have hfiled := ih hrun.of_append fun op hop => hadmits op (mem_append_left _ hop)
    have hsafe : opSplitsSafely cfg load (runOps cfg load ops) op = true := by
      simpa using hrun.splits ops.length (by simp)
    have hvalid := hrun.valid op (by simp)
    have hop := hadmits op (by simp)
    rw [runOps_concat]
    cases op with
    | insert path value txnId =>
      change ValidPath path at hvalid
      rw [applyOp, hbtrieInsert, if_neg hvalid.1]
      refine (hbtrieInsertSteps_inserts hok hvalid.endsInChunk hsafe).filed hfiled ?_
      rw [stepChunks_pathSteps, stepMetadata_pathSteps]
      exact hop
    | delete path txnId => exact (hbtrieDeleteSteps_deletes hok).filed hok hfiled

/-- A run of operations on these paths records every value with one of them. -/
theorem trieFrom_runOps {paths : Set (List Bytes)} (hrun : SafeRun cfg load ops)
    (hpaths : ∀ op ∈ ops, ∃ p ∈ paths, op.path = pathOf cs p) :
    TrieFrom cs load paths (runOps cfg load ops) := by
  have hfiled : TrieFiled load (fun key pathMeta => ∃ p ∈ paths,
      pathChunks (pathOf cs p) = key ∧ pathMetadata (pathOf cs p) = pathMeta)
      (runOps cfg load ops) := by
    refine trieFiled_runOps hrun fun op hop => ?_
    obtain ⟨p, hp, hpath⟩ := hpaths op hop
    rw [hpath]
    exact ⟨p, hp, rfl, rfl⟩
  refine ⟨(contentAt_runOps hrun).1, fun key e he => (hfiled key e he).1, ?_⟩
  intro key content pathMeta hitem
  obtain ⟨e, he, hvalue⟩ := bind_eq_some_iff.mp hitem
  exact (hfiled key e he).2 content pathMeta hvalue

end Runs

end WaveDB.HBTrie
