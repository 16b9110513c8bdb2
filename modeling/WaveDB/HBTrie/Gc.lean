import WaveDB.HBTrie.Hbtrie

/-!
Garbage collection of a trie (`hbtrie_gc` and `hbtrie_gc_unsafe` in
`HBTrie/hbtrie.c`).

Both walk every node in memory with explicit stacks; the nodes are disjoint, so the
order of the walk does not matter and the model recurses over the tree. An entry with a
version chain is trimmed, downgraded to a single value or removed, and the walk does
not enter its `trie_child`. The two functions differ in the cutoff, in the test before
an entry is removed and in `mark_dirty` (`GcMode`).
-/

namespace WaveDB.HBTrie

open Workers

structure GcMode where
  minActive : TransactionId
  /-- May an entry whose only version is a tombstone with this id be removed? -/
  removes : TransactionId → Bool
  /-- Does the collector call `mark_dirty`? -/
  marksDirty : Bool

/-- What is left, the number of versions and entries removed, and whether `mark_dirty`
was called for a bnode of the same B+tree. -/
structure GcResult (α : Type) where
  kept : α
  removed : Nat
  marked : Bool

/-- The branch for an entry with a version chain: `none` when the entry is removed. -/
def gcChain (mode : GcMode) (chain : List VersionEntry) : GcResult (Option Content) :=
  let (kept, removed) := versionEntryGc chain mode.minActive
  match kept with
  | [⟨txnId, some value, false⟩] => ⟨some (.legacy value txnId), removed, true⟩
  | [⟨txnId, value, true⟩] =>
    if mode.removes txnId then ⟨none, removed + 1, true⟩
    else ⟨some (.versions [⟨txnId, value, true⟩]), removed, decide (0 < removed)⟩
  | _ => ⟨some (.versions kept), removed, decide (0 < removed)⟩

/-- Is `mark_dirty` called for the entry's own bnode? -/
def gcTouches (mode : GcMode) (entry : BnodeEntry) : Bool :=
  match entry.slot with
  | .value (.versions chain) _ _ => (gcChain mode chain).marked
  | _ => false

section Mode

variable (mode : GcMode)

mutual

def gcBnode : Bnode → GcResult Bnode
  | ⟨level, entries, diskOffset, isDirty⟩ =>
    let result := gcEntries entries
    { kept :=
        { level, entries := result.kept, diskOffset
          isDirty := isDirty || mode.marksDirty && entries.any (gcTouches mode) }
      removed := result.removed
      marked := result.marked }

def gcEntries : List BnodeEntry → GcResult (List BnodeEntry)
  | [] => ⟨[], 0, false⟩
  | entry :: entries =>
    let first := gcEntry entry
    let rest := gcEntries entries
    { kept := first.kept.toList ++ rest.kept
      removed := first.removed + rest.removed
      marked := first.marked || rest.marked }

def gcEntry : BnodeEntry → GcResult (Option BnodeEntry)
  | ⟨key, .childBnode child, offset⟩ =>
    let result := gcChildBnode child
    ⟨some ⟨key, .childBnode result.kept, offset⟩, result.removed, result.marked⟩
  | ⟨key, .value (.versions chain) pathMeta node, offset⟩ =>
    let result := gcChain mode chain
    ⟨result.kept.map fun content => ⟨key, .value content pathMeta node, offset⟩, result.removed,
      result.marked⟩
  | ⟨key, .child node, offset⟩ =>
    let result := gcChild node
    ⟨some ⟨key, .child result.kept, offset⟩, result.removed, false⟩
  | ⟨key, .value (.legacy value txnId) pathMeta node, offset⟩ =>
    let result := gcChild node
    ⟨some ⟨key, .value (.legacy value txnId) pathMeta result.kept, offset⟩, result.removed, false⟩

def gcChildBnode : Option Bnode → GcResult (Option Bnode)
  | none => ⟨none, 0, false⟩
  | some node =>
    let result := gcBnode node
    ⟨some result.kept, result.removed, result.marked⟩

def gcChild : Option HbtrieNode → GcResult (Option HbtrieNode)
  | none => ⟨none, 0, false⟩
  | some node =>
    let result := gcNode node
    ⟨some result.kept, result.removed, false⟩

def gcNode : HbtrieNode → GcResult HbtrieNode
  | ⟨btree, diskOffset, isDirty⟩ =>
    let result := gcBnode btree
    { kept :=
        { btree := result.kept, diskOffset
          isDirty := isDirty || mode.marksDirty && result.marked }
      removed := result.removed
      marked := result.marked }

end

end Mode

/-- The mode of `hbtrie_gc`: tombstones go when they are older than the cutoff. -/
def gcMode (minActive : TransactionId) : GcMode :=
  { minActive
    removes := fun txnId => decide (transactionIdCompare txnId minActive < 0)
    marksDirty := true }

/-- The mode of `hbtrie_gc_unsafe`: the largest cutoff, any tombstone goes, and nothing
is marked dirty. -/
def gcUnsafeMode : GcMode :=
  { minActive := ⟨0xFFFFFFFFFFFFFFFF, 0xFFFFFFFFFFFFFFFF, 0xFFFFFFFFFFFFFFFF⟩
    removes := fun _ => true
    marksDirty := false }

/-- `hbtrie_gc`: the trie afterwards and the number it returns. -/
def hbtrieGc (root : HbtrieNode) (minActive : TransactionId) : HbtrieNode × Nat :=
  ((gcNode (gcMode minActive) root).kept, (gcNode (gcMode minActive) root).removed)

def hbtrieGcUnsafe (root : HbtrieNode) : HbtrieNode × Nat :=
  ((gcNode gcUnsafeMode root).kept, (gcNode gcUnsafeMode root).removed)

/-! ### The walk, entry by entry -/

section

variable (mode : GcMode) {e : BnodeEntry}

theorem gcEntries_kept (entries : List BnodeEntry) :
    (gcEntries mode entries).kept = entries.filterMap fun e => (gcEntry mode e).kept := by
  induction entries with
  | nil => rfl
  | cons e entries ih =>
    rw [gcEntries, ih, List.filterMap_cons]
    cases (gcEntry mode e).kept <;> rfl

@[simp] theorem gcBnode_level (node : Bnode) : (gcBnode mode node).kept.level = node.level := by
  cases node
  rfl

theorem gcBnode_entries (node : Bnode) :
    (gcBnode mode node).kept.entries = node.entries.filterMap fun e => (gcEntry mode e).kept := by
  cases node
  exact gcEntries_kept mode _

@[simp] theorem gcNode_btree (node : HbtrieNode) :
    (gcNode mode node).kept.btree = (gcBnode mode node.btree).kept := by
  cases node
  rfl

theorem gcEntry_key {e' : BnodeEntry} (h : (gcEntry mode e).kept = some e') : e'.key = e.key := by
  cases e with
  | childBnode child | child node =>
    cases h
    rfl
  | value content pathMeta node =>
    cases content with
    | legacy value txnId =>
      cases h
      rfl
    | versions chain =>
      obtain ⟨content, -, rfl⟩ := Option.map_eq_some_iff.mp h
      rfl

theorem gcEntry_childBnode {child : Option Bnode} (h : e.slot = .childBnode child) :
    (gcEntry mode e).kept =
      some ⟨e.key, .childBnode (child.map fun b => (gcBnode mode b).kept), e.childDiskOffset⟩ := by
  obtain ⟨key, slot, offset⟩ := e
  cases h
  cases child <;> rfl

/-- A leaf entry without a version chain stays, with its subtree collected. -/
theorem gcEntry_plain (hchild : ∀ child, e.slot ≠ .childBnode child)
    (hplain : ∀ chain, e.content ≠ some (.versions chain)) :
    ∃ e', (gcEntry mode e).kept = some e' ∧ e'.content = e.content ∧
      e'.trieNode = e.trieNode.map fun node => (gcNode mode node).kept := by
  cases e with
  | childBnode child => exact absurd rfl (hchild child)
  | child node => cases node <;> exact ⟨_, rfl, rfl, rfl⟩
  | value content pathMeta node =>
    cases content with
    | legacy value txnId => cases node <;> exact ⟨_, rfl, rfl, rfl⟩
    | versions chain => exact absurd rfl (hplain chain)

/-- An entry with a version chain keeps its subtree as it is, or goes with it. -/
theorem gcEntry_versions {chain : List VersionEntry} (h : e.content = some (.versions chain)) :
    (gcEntry mode e).kept.bind BnodeEntry.content = (gcChain mode chain).kept ∧
      (gcEntry mode e).kept.bind BnodeEntry.trieNode =
        if (gcChain mode chain).kept.isSome then e.trieNode else none := by
  cases e with
  | childBnode child => cases h
  | child node => cases h
  | value content pathMeta node =>
    cases h
    rw [gcEntry]
    cases (gcChain mode chain).kept <;> exact ⟨rfl, rfl⟩

end

end WaveDB.HBTrie
