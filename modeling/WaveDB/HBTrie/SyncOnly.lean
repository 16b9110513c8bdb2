import WaveDB.HBTrie.GcPreserves

/-!
The sync-only operations (`HBTrie/hbtrie.c`): `hbtrie_insert_unsafe`,
`hbtrie_delete_unsafe` and, with `hbtrieFindUnsafe`, `hbtrie_find_unsafe`.

They are copies of the concurrent operations without the locks, written here after
their own nested loops over identifiers and chunks. `hbtrieInsertUnsafe_eq` and
`hbtrieDeleteUnsafe_eq`: on one trie the copies do what the originals do. A find of
the two families differs in the version it takes, the head of the chain or the
newest one that is not above the read id; `sync_only_equivalent` compares whole runs.

`ensure_btree_loaded` gives the node's write lock back and takes it again around a
page read, so a sync-only call that reads a page returns with the lock taken. No
sync-only call waits for it, and the lock is not part of the model.
-/

namespace WaveDB.HBTrie

open Workers

/-! ### `hbtrie_insert_unsafe` -/

/-- The loop over the chunks of one identifier. `next` is the rest of the outer loop,
which starts at the node the last chunk leads to. -/
def insertChunksUnsafe (cfg : Config) (load : Loader) (value : Bytes) (txnId : TransactionId)
    (pathMeta : List PathSubscriptMeta) (isLastIdentifier : Bool)
    (next : HbtrieNode → HbtrieNode × Bool) : HbtrieNode → List Chunk → HbtrieNode × Bool
  | current, [] => next current
  | current, chunk :: rest =>
    match ensureBtreeLoaded load current.btree chunk with
    | none => (current, false)
    | some (bnodePath, leaf) =>
      match rest.isEmpty && isLastIdentifier, bnodeFind leaf chunk with
      | true, (none, _) =>
        (current.insertEntry cfg bnodePath leaf
          { key := chunk, slot := .value (.legacy value txnId) pathMeta none
            childDiskOffset := 0 }, true)
      | true, (some entry, index) =>
        (current.updateEntry bnodePath leaf index
          (entry.insertValue value txnId pathMeta) true, true)
      | false, (none, _) =>
        let below := insertChunksUnsafe cfg load value txnId pathMeta isLastIdentifier next
          hbtrieNodeCreate rest
        (current.insertEntry cfg bnodePath leaf
          { key := chunk, slot := .child (some below.1), childDiskOffset := 0 }, below.2)
      | false, (some entry, index) =>
        -- A child that was loaded or created marks the leaf dirty.
        let child := (entry.loadedTrieNode load).getD hbtrieNodeCreate
        let below := insertChunksUnsafe cfg load value txnId pathMeta isLastIdentifier next
          child rest
        (current.updateEntry bnodePath leaf index (entry.setTrieNode below.1)
          entry.trieNode.isNone, below.2)

def insertIdentifiersUnsafe (cfg : Config) (load : Loader) (value : Bytes) (txnId : TransactionId) :
    List PathSubscriptMeta → HbtrieNode → Path → HbtrieNode × Bool
  | _, current, [] => (current, true)
  | pathMeta, current, identifier :: rest =>
    if identifierRefused cfg identifier then (current, false)
    else
      insertChunksUnsafe cfg load value txnId
        (pathMeta ++ [⟨identifier.chunks.length, identifier.length⟩]) rest.isEmpty
        (fun node => insertIdentifiersUnsafe cfg load value txnId
          (pathMeta ++ [⟨identifier.chunks.length, identifier.length⟩]) node rest)
        current identifier.chunks

/-- `hbtrie_insert_unsafe` on the root node: the new root and whether it returns 0. -/
def hbtrieInsertUnsafe (cfg : Config) (load : Loader) (root : HbtrieNode) (path : Path)
    (value : Bytes) (txnId : TransactionId) : HbtrieNode × Bool :=
  if path.isEmpty then (root, false)
  else insertIdentifiersUnsafe cfg load value txnId [] root path

/-! ### `hbtrie_delete_unsafe` -/

def deleteChunksUnsafe (load : Loader) (txnId : TransactionId) (isLastIdentifier : Bool)
    (next : HbtrieNode → HbtrieNode × Option Bytes) :
    HbtrieNode → List Chunk → HbtrieNode × Option Bytes
  | current, [] => next current
  | current, chunk :: rest =>
    match ensureBtreeLoaded load current.btree chunk with
    | none => (current, none)
    | some (bnodePath, leaf) =>
      match bnodeFind leaf chunk with
      | (none, _) => (current.attachPath bnodePath leaf, none)
      | (some entry, index) =>
        if rest.isEmpty && isLastIdentifier then
          match entry.content with
          | none => (current.attachPath bnodePath leaf, none)
          | some content =>
            (current.updateEntry bnodePath leaf index (entry.deleteValue txnId) true,
              content.visible txnId)
        else
          match entry.loadedTrieNode load with
          | none => (current.attachPath bnodePath leaf, none)
          | some child =>
            let below := deleteChunksUnsafe load txnId isLastIdentifier next child rest
            (current.updateEntry bnodePath leaf index (entry.setTrieNode below.1)
              entry.trieNode.isNone, below.2)

def deleteIdentifiersUnsafe (load : Loader) (txnId : TransactionId) :
    HbtrieNode → Path → HbtrieNode × Option Bytes
  | current, [] => (current, none)
  | current, identifier :: rest =>
    deleteChunksUnsafe load txnId rest.isEmpty
      (fun node => deleteIdentifiersUnsafe load txnId node rest) current identifier.chunks

def hbtrieDeleteUnsafe (load : Loader) (root : HbtrieNode) (path : Path)
    (txnId : TransactionId) : HbtrieNode × Option Bytes :=
  deleteIdentifiersUnsafe load txnId root path

/-! ### One call -/

/-- Steps are left after a chunk unless it is the last one of the last identifier. -/
theorem steps_left_iff (chunks : List Chunk) (rest : Path) :
    (chunks.isEmpty && rest.isEmpty) = (chunks.map PathStep.chunk ++ pathSteps rest).isEmpty := by
  cases chunks with
  | cons chunk chunks => rfl
  | nil =>
    cases rest with
    | nil => rfl
    | cons identifier rest => rfl

section Copies

variable {cfg : Config} {load : Loader} {value : Bytes} {txnId : TransactionId} {rest : Path}

/-- The chunks of an identifier lead the copy where they lead the original. -/
theorem insertChunksUnsafe_eq {pathMeta : List PathSubscriptMeta}
    {next : HbtrieNode → HbtrieNode × Bool} (hnext : ∀ node, next node =
      hbtrieInsertSteps cfg load value txnId pathMeta node (pathSteps rest))
    (current : HbtrieNode) (chunks : List Chunk) :
    insertChunksUnsafe cfg load value txnId pathMeta rest.isEmpty next current chunks =
      hbtrieInsertSteps cfg load value txnId pathMeta current
        (chunks.map .chunk ++ pathSteps rest) := by
  induction chunks generalizing current with
  | nil => exact hnext current
  | cons chunk chunks ih =>
    rw [insertChunksUnsafe, List.map_cons, List.cons_append, hbtrieInsertSteps]
    simp only [ih, steps_left_iff]
    cases ensureBtreeLoaded load current.btree chunk with
    | none => rfl
    | some descent =>
      dsimp only
      -- At the final position no step is left.
      rcases bnodeFind descent.2 chunk with ⟨_ | entry, index⟩ <;>
        cases chunks.map PathStep.chunk ++ pathSteps rest <;> rfl

theorem insertIdentifiersUnsafe_eq (pathMeta : List PathSubscriptMeta) (current : HbtrieNode)
    (path : Path) : insertIdentifiersUnsafe cfg load value txnId pathMeta current path =
      hbtrieInsertSteps cfg load value txnId pathMeta current (pathSteps path) := by
  induction path generalizing pathMeta current with
  | nil => rfl
  | cons identifier rest ih =>
    rw [insertIdentifiersUnsafe, pathSteps_cons, hbtrieInsertSteps]
    rw [insertChunksUnsafe_eq fun node => ih _ node]

theorem hbtrieInsertUnsafe_eq (root : HbtrieNode) (path : Path) :
    hbtrieInsertUnsafe cfg load root path value txnId =
      hbtrieInsert cfg load root path value txnId := by
  unfold hbtrieInsertUnsafe hbtrieInsert
  rw [insertIdentifiersUnsafe_eq]
  simp only [List.isEmpty_iff]

theorem deleteChunksUnsafe_eq {next : HbtrieNode → HbtrieNode × Option Bytes}
    (hnext : ∀ node, next node = hbtrieDeleteSteps load txnId node (pathSteps rest))
    (current : HbtrieNode) (chunks : List Chunk) :
    deleteChunksUnsafe load txnId rest.isEmpty next current chunks =
      hbtrieDeleteSteps load txnId current (chunks.map .chunk ++ pathSteps rest) := by
  induction chunks generalizing current with
  | nil => exact hnext current
  | cons chunk chunks ih =>
    rw [deleteChunksUnsafe, List.map_cons, List.cons_append, hbtrieDeleteSteps]
    simp only [ih, steps_left_iff]
    cases ensureBtreeLoaded load current.btree chunk with
    | none => rfl
    | some descent =>
      dsimp only
      rcases bnodeFind descent.2 chunk with ⟨_ | entry, index⟩ <;>
        cases chunks.map PathStep.chunk ++ pathSteps rest <;> rfl

theorem deleteIdentifiersUnsafe_eq (current : HbtrieNode) (path : Path) :
    deleteIdentifiersUnsafe load txnId current path =
      hbtrieDeleteSteps load txnId current (pathSteps path) := by
  induction path generalizing current with
  | nil => rfl
  | cons identifier rest ih =>
    exact deleteChunksUnsafe_eq ih current identifier.chunks

theorem hbtrieDeleteUnsafe_eq (root : HbtrieNode) (path : Path) :
    hbtrieDeleteUnsafe load root path txnId = hbtrieDelete load root path txnId :=
  deleteIdentifiersUnsafe_eq root path

end Copies

/-! ### Runs -/

/-- A call of either family. -/
inductive TrieCall where
  | write (op : TrieOp)
  | find (path : Path)

/-- The transaction id a call is given. A sync-only find has none, a concurrent one reads at
the latest. -/
def TrieCall.txnId : TrieCall → Option TransactionId
  | .write op => some op.txnId
  | .find _ => none

/-- What a call returns: the code of an insert (0 or -1), the value a delete removes or a find
returns. -/
inductive TrieResult where
  | code (accepted : Bool)
  | value (value : Option Bytes)
deriving DecidableEq

structure ConcurrentTrie where
  root : HbtrieNode
  latest : TransactionId

def concurrentCall (cfg : Config) (load : Loader) (s : ConcurrentTrie) :
    TrieCall → ConcurrentTrie × TrieResult
  | .write (.insert path value txnId) =>
    (⟨(hbtrieInsert cfg load s.root path value txnId).1, txnId⟩,
      .code (hbtrieInsert cfg load s.root path value txnId).2)
  | .write (.delete path txnId) =>
    (⟨(hbtrieDelete load s.root path txnId).1, txnId⟩,
      .value (hbtrieDelete load s.root path txnId).2)
  | .find path =>
    (⟨hbtrieFindAttach load s.root (pathSteps path), s.latest⟩,
      .value (hbtrieFind load s.root path s.latest))

def syncOnlyCall (cfg : Config) (load : Loader) (root : HbtrieNode) :
    TrieCall → HbtrieNode × TrieResult
  | .write (.insert path value txnId) =>
    ((hbtrieInsertUnsafe cfg load root path value txnId).1,
      .code (hbtrieInsertUnsafe cfg load root path value txnId).2)
  | .write (.delete path txnId) =>
    ((hbtrieDeleteUnsafe load root path txnId).1,
      .value (hbtrieDeleteUnsafe load root path txnId).2)
  | .find path =>
    (hbtrieFindAttach load root (pathSteps path), .value (hbtrieFindUnsafe load root path))

def runCalls {σ : Type} (call : σ → TrieCall → σ × TrieResult) :
    σ → List TrieCall → σ × List TrieResult
  | s, [] => (s, [])
  | s, c :: rest =>
    ((runCalls call (call s c).1 rest).1, (call s c).2 :: (runCalls call (call s c).1 rest).2)

/-- No version chain starts with a version newer than the id. -/
def HeadNotAfter (latest : TransactionId) (content : Content) : Prop :=
  ∀ v older, content = .versions (v :: older) → v.txnId ≤ latest

/-- The id is the latest one: no chain of the trie, in memory or in a page it may load, starts
with a newer version. -/
structure LatestIs (load : Loader) (root : HbtrieNode) (latest : TransactionId) : Prop where
  pages : LoadsAll (ContentsOf (HeadNotAfter latest)) load
  trie : root.btree.HoldsAll (HeadNotAfter latest)

section Runs

variable {cfg : Config} {load : Loader} {root : HbtrieNode} {latest : TransactionId}
  {s : ConcurrentTrie}

theorem headNotAfter_write (old : Option Content) (value : Bytes) (txnId : TransactionId) :
    HeadNotAfter txnId (.write old value txnId) := by
  rintro v older hchain
  cases old with
  | none => cases hchain
  | some content =>
    cases hchain
    exact le_rfl

theorem LatestIs.mono {later : TransactionId} (hle : latest ≤ later)
    (h : LatestIs load root latest) : LatestIs load root later := by
  constructor
  · intro offset node hload b hb e he c hc v older hchain
    exact (h.pages offset node hload b hb e he c hc v older hchain).trans hle
  · intro b hb e he c hc v older hchain
    exact (h.trie b hb e he c hc v older hchain).trans hle

/-- A find of either family takes the head of the chain. -/
theorem LatestIs.find_eq (h : LatestIs load root latest) (path : Path) :
    hbtrieFind load root path latest = hbtrieFindUnsafe load root path := by
  refine Option.bind_congr fun content hcontent => ?_
  obtain ⟨e, he, hstored⟩ := Option.bind_eq_some_iff.mp hcontent
  obtain ⟨leaf, hleaf, hmem, -⟩ := hbtrieFindEntry_below h.pages h.trie he
  exact visible_eq_newest_of_head (hleaf e hmem content hstored)

/-- A call leaves the latest id the latest, the call's own one if it has one. -/
theorem LatestIs.call (h : LatestIs load s.root s.latest) {call : TrieCall}
    (hid : ∀ id ∈ call.txnId, s.latest ≤ id) : LatestIs load (concurrentCall cfg load s call).1.root
      (concurrentCall cfg load s call).1.latest := by
  cases call with
  | find path =>
    refine ⟨h.pages, ?_⟩
    exact hbtrieFindAttach_everywhere (contentsOf_rule _) h.pages
      (fun _ _ _ hleaf he => hleaf.setEntry he) h.trie
  | write op =>
    have hmono := h.mono (hid op.txnId rfl)
    cases op with
    | insert path value txnId =>
      refine ⟨hmono.pages, ?_⟩
      exact hbtrieInsert_everywhere (contentsOf_rule _) hmono.pages cfg hmono.trie
        (headNotAfter_write _ value txnId)
    | delete path txnId =>
      refine ⟨hmono.pages, ?_⟩
      refine hbtrieDeleteSteps_everywhere (contentsOf_rule _) hmono.pages hmono.trie ?_
      rintro content - v older ⟨⟩
      exact le_rfl

/-- One call of either family: the same trie and the same result. -/
theorem syncOnlyCall_eq (h : LatestIs load s.root s.latest) (call : TrieCall) :
    syncOnlyCall cfg load s.root call =
      ((concurrentCall cfg load s call).1.root, (concurrentCall cfg load s call).2) := by
  cases call with
  | find path => rw [syncOnlyCall, concurrentCall, h.find_eq]
  | write op =>
    cases op with
    | insert path value txnId => rw [syncOnlyCall, concurrentCall, hbtrieInsertUnsafe_eq]
    | delete path txnId => rw [syncOnlyCall, concurrentCall, hbtrieDeleteUnsafe_eq]

end Runs

/-- From equal tries and with increasing transaction ids, every call of a sequence returns the
same in both families, and the tries stay equal. -/
theorem sync_only_equivalent (cfg : Config) (load : Loader) (s : ConcurrentTrie)
    (hlatest : LatestIs load s.root s.latest) (calls : List TrieCall)
    (hids : (s.latest :: calls.filterMap TrieCall.txnId).Pairwise (· < ·)) :
    (runCalls (syncOnlyCall cfg load) s.root calls).2 =
        (runCalls (concurrentCall cfg load) s calls).2 ∧
      (runCalls (syncOnlyCall cfg load) s.root calls).1 =
        (runCalls (concurrentCall cfg load) s calls).1.root := by
  induction calls generalizing s with
  | nil => exact ⟨rfl, rfl⟩
  | cons call rest ih =>
    have hid : ∀ id ∈ call.txnId, s.latest ≤ id := by
      intro id hmem
      refine (List.rel_of_pairwise_cons hids ?_).le
      exact List.mem_filterMap.mpr ⟨call, List.mem_cons_self, hmem⟩
    have hrest : ((concurrentCall cfg load s call).1.latest ::
        rest.filterMap TrieCall.txnId).Pairwise (· < ·) := by
      cases call with
      | find path => exact hids
      | write op => cases op <;> exact hids.tail
    obtain ⟨hresults, htrie⟩ := ih _ (hlatest.call hid) hrest
    simp only [runCalls, syncOnlyCall_eq hlatest, hresults, htrie, and_self]

def prefixAndReinsertion : List TrieCall :=
  [.write (.insert parentPath [1] ⟨1, 0, 0⟩), .write (.insert childPath [2] ⟨2, 0, 0⟩),
    .write (.delete parentPath ⟨3, 0, 0⟩), .find parentPath, .find childPath,
    .write (.insert parentPath [3] ⟨4, 0, 0⟩), .write (.insert [] [4] ⟨5, 0, 0⟩),
    .find parentPath]

theorem sync_only_equivalent_prefixAndReinsertion :
    (runCalls (syncOnlyCall defaultConfig noLoader) hbtrieNodeCreate prefixAndReinsertion).2 =
        (runCalls (concurrentCall defaultConfig noLoader) ⟨hbtrieNodeCreate, ⟨0, 0, 0⟩⟩
          prefixAndReinsertion).2 ∧
      (runCalls (syncOnlyCall defaultConfig noLoader) hbtrieNodeCreate prefixAndReinsertion).2 =
        [.code true, .code true, .value (some [1]), .value none, .value (some [2]), .code true,
          .code false, .value (some [3])] := by
  have hlatest : LatestIs noLoader hbtrieNodeCreate ⟨0, 0, 0⟩ :=
    ⟨loadsAll_noLoader, Bnode.everywhere_create (contentsOf_create 1)⟩
  constructor
  · exact (sync_only_equivalent defaultConfig noLoader ⟨hbtrieNodeCreate, ⟨0, 0, 0⟩⟩ hlatest
      prefixAndReinsertion (by decide)).1
  · decide +kernel

end WaveDB.HBTrie
