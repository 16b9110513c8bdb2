import WaveDB.HBTrie.Btree
import WaveDB.HBTrie.Identifier

/-!
The trie operations (`HBTrie/hbtrie.c`): `hbtrie_find`, `hbtrie_insert`,
`hbtrie_delete` and their helpers.

Each operation walks the steps of a path: entering an identifier (where
`hbtrie_insert` checks its guards and records the subscript metadata) and
following one chunk. The last chunk of the last identifier is the final
position, i.e. the chunk after which no step is left. The per-node seqlocks and
spinlocks order concurrent calls and are not part of one call.
-/

namespace WaveDB.HBTrie

open Workers

/-- `hbtrie_create`: the parameters of a trie. A zero asks for the default, and
one-byte chunks cap the node size. -/
def hbtrieCreate (chunkSize : Option ChunkSize) (btreeNodeSize : Nat) (sizeofBnode sizeofBnodeEntry
    sizeofChunk : Nat) : Config :=
  let cs := chunkSize.getD defaultChunkSize
  let nodeSize := if btreeNodeSize = 0 then 64 * (cs.size + 24) else btreeNodeSize
  { chunkSize := cs
    nodeSize := if cs.size = 1 then min nodeSize (256 * (cs.size + 24)) else nodeSize
    sizeofBnode, sizeofBnodeEntry, sizeofChunk }

def defaultConfig : Config := hbtrieCreate none 0 112 96 16

/-! ### Stored content -/

/-- The value visible at a read id, as the end of `hbtrie_find` picks it: a single
value is returned whatever its transaction id. -/
def Content.visible (readTxnId : TransactionId) : Content → Option Bytes
  | .legacy value _ => some value
  | .versions chain => (versionEntryFindVisible chain readTxnId).bind VersionEntry.value

/-- The newest value, as the end of `hbtrie_find_unsafe` picks it. -/
def Content.newest : Content → Option Bytes
  | .legacy value _ => some value
  | .versions chain => chain.head?.bind fun v => if !v.isDeleted then v.value else none

def Content.upgraded : Content → List VersionEntry
  | .legacy value valueTxnId => [⟨valueTxnId, some value, false⟩]
  | .versions chain => chain

def Content.write (old : Option Content) (value : Bytes) (txnId : TransactionId) : Content :=
  match old with
  | none => .legacy value txnId
  | some content => .versions (versionEntryAdd content.upgraded txnId (some value) false)

def Content.delete (content : Content) (txnId : TransactionId) : Content :=
  .versions (versionEntryAdd content.upgraded txnId none true)

/-! ### Entries and nodes -/

def hbtrieNodeCreate : HbtrieNode :=
  { btree := bnodeCreateWithLevel 1, diskOffset := none, isDirty := false }

variable (load : Loader)

def hbtrieLoadChildNode (childDiskOffset : Nat) : Option HbtrieNode :=
  if childDiskOffset ≠ 0 then
    (load childDiskOffset).map fun root =>
      { btree := root, diskOffset := some childDiskOffset, isDirty := false }
  else none

def BnodeEntry.content (entry : BnodeEntry) : Option Content :=
  match entry.slot with
  | .value content _ _ => some content
  | _ => none

variable (entry : BnodeEntry)

/-- `entry->trie_child` of an entry with a value, `entry->child` of one without. -/
def BnodeEntry.trieNode : Option HbtrieNode :=
  match entry.slot with
  | .value _ _ node => node
  | .child node => node
  | .childBnode _ => none

/-- The same after `bnode_entry_lazy_load_trie_child` or
`bnode_entry_lazy_load_hbtrie_child`. -/
def BnodeEntry.loadedTrieNode : Option HbtrieNode :=
  entry.trieNode.or (hbtrieLoadChildNode load entry.childDiskOffset)

def BnodeEntry.setTrieNode (node : HbtrieNode) : BnodeEntry :=
  match entry.slot with
  | .value content pathMeta _ => { entry with slot := .value content pathMeta (some node) }
  | _ => { entry with slot := .child (some node) }

/-- The final position of `hbtrie_insert` on an existing entry. A child moves to
`trie_child`; the upgrade of a single value leaves `path_meta` as it is. -/
def BnodeEntry.insertValue (value : Bytes) (txnId : TransactionId)
    (pathMeta : List PathSubscriptMeta) : BnodeEntry :=
  match entry.slot with
  | .value (.legacy old oldTxnId) oldMeta node =>
    { entry with slot := .value (.write (some (.legacy old oldTxnId)) value txnId) oldMeta node }
  | .value (.versions chain) _ node =>
    { entry with slot := .value (.write (some (.versions chain)) value txnId) pathMeta node }
  | _ => { entry with slot := .value (.write none value txnId) pathMeta entry.trieNode }

def BnodeEntry.deleteValue (txnId : TransactionId) : BnodeEntry :=
  match entry.slot with
  | .value content pathMeta node =>
    { entry with slot := .value (content.delete txnId) pathMeta node }
  | _ => entry

def Bnode.setEntry (node : Bnode) (index : Nat) (entry : BnodeEntry) : Bnode :=
  { node with entries := node.entries.set index entry }

/-- A new entry in the reached leaf; `mark_dirty(current, leaf)`. -/
def HbtrieNode.insertEntry (node : HbtrieNode) (cfg : Config) (frames : List BtreeFrame)
    (leaf : Bnode) (entry : BnodeEntry) : HbtrieNode :=
  { node with btree := btreeInsertAt cfg frames leaf entry, isDirty := true }

/-- An existing entry of the reached leaf in its new state, with or without
`mark_dirty(current, leaf)`. -/
def HbtrieNode.updateEntry (node : HbtrieNode) (frames : List BtreeFrame) (leaf : Bnode)
    (index : Nat) (entry : BnodeEntry) (dirty : Bool) : HbtrieNode :=
  let leaf := leaf.setEntry index entry
  { node with
    btree := zipUp frames (if dirty then leaf.markDirty else leaf)
    isDirty := node.isDirty || dirty }

def HbtrieNode.attachPath (node : HbtrieNode) (frames : List BtreeFrame) (leaf : Bnode) :
    HbtrieNode :=
  { node with btree := zipUp frames leaf }

/-! ### Paths -/

inductive PathStep where
  | enter (identifier : Identifier)
  | chunk (chunk : Chunk)

def pathSteps (path : Path) : List PathStep :=
  path.flatMap fun identifier => .enter identifier :: identifier.chunks.map .chunk

@[elab_as_elim]
theorem stepsInduction {motive : List PathStep → Prop} (nil : motive [])
    (enter : ∀ identifier rest, motive rest → motive (.enter identifier :: rest))
    (chunk : ∀ c rest, motive rest → motive (.chunk c :: rest)) : ∀ steps, motive steps
  | [] => nil
  | .enter identifier :: rest => enter identifier rest (stepsInduction nil enter chunk rest)
  | .chunk c :: rest => chunk c rest (stepsInduction nil enter chunk rest)

def identifierRefused (cfg : Config) (identifier : Identifier) : Bool :=
  decide (0xFFFFFFFF < identifier.chunks.length) || decide (0xFFFFFFFF < identifier.length) ||
    decide (identifier.chunks.length * cfg.chunkSize.size < identifier.length)

/-! ### `hbtrie_find` -/

def hbtrieFindEntry (load : Loader) : HbtrieNode → List PathStep → Option BnodeEntry
  | _, [] => none
  | node, .enter _ :: rest => hbtrieFindEntry load node rest
  | node, [.chunk c] => bnodeFindLeafLazy load node.btree c
  | node, .chunk c :: step :: rest =>
    ((bnodeFindLeafLazy load node.btree c).bind fun e => e.loadedTrieNode load).bind
      fun next => hbtrieFindEntry load next (step :: rest)

def hbtrieFind (root : HbtrieNode) (path : Path) (readTxnId : TransactionId) : Option Bytes :=
  ((hbtrieFindEntry load root (pathSteps path)).bind BnodeEntry.content).bind
    (Content.visible readTxnId)

def hbtrieFindUnsafe (root : HbtrieNode) (path : Path) : Option Bytes :=
  ((hbtrieFindEntry load root (pathSteps path)).bind BnodeEntry.content).bind Content.newest

def hbtrieFindAttach (load : Loader) : HbtrieNode → List PathStep → HbtrieNode
  | node, [] => node
  | node, .enter _ :: rest => hbtrieFindAttach load node rest
  | node, .chunk c :: rest =>
    let descent := btreeDescendWithPathLazy load node.btree c
    match rest, bnodeFind descent.2 c with
    | [], _ => node.attachPath descent.1 descent.2
    | _ :: _, (none, _) => node.attachPath descent.1 descent.2
    | step :: rest, (some e, index) =>
      match e.loadedTrieNode load with
      | none => node.attachPath descent.1 descent.2
      | some next =>
        node.updateEntry descent.1 descent.2 index
          (e.setTrieNode (hbtrieFindAttach load next (step :: rest))) false

/-! ### `hbtrie_insert` -/

/-- The loops of `hbtrie_insert` from one node on: the new node, and whether the
call returns 0. A refused call keeps the nodes created so far. -/
def hbtrieInsertSteps (cfg : Config) (load : Loader) (value : Bytes) (txnId : TransactionId) :
    List PathSubscriptMeta → HbtrieNode → List PathStep → HbtrieNode × Bool
  | _, node, [] => (node, true)
  | pathMeta, node, .enter identifier :: rest =>
    if identifierRefused cfg identifier then (node, false)
    else
      hbtrieInsertSteps cfg load value txnId
        (pathMeta ++ [⟨identifier.chunks.length, identifier.length⟩]) node rest
  | pathMeta, node, .chunk c :: rest =>
    match ensureBtreeLoaded load node.btree c with
    | none => (node, false)
    | some (frames, leaf) =>
      match rest, bnodeFind leaf c with
      | [], (none, _) =>
        (node.insertEntry cfg frames leaf
          { key := c, slot := .value (.write none value txnId) pathMeta none
            childDiskOffset := 0 }, true)
      | [], (some e, index) =>
        (node.updateEntry frames leaf index (e.insertValue value txnId pathMeta) true, true)
      | step :: rest, (none, _) =>
        let below := hbtrieInsertSteps cfg load value txnId pathMeta hbtrieNodeCreate (step :: rest)
        (node.insertEntry cfg frames leaf
          { key := c, slot := .child (some below.1), childDiskOffset := 0 }, below.2)
      | step :: rest, (some e, index) =>
        let next := (e.loadedTrieNode load).getD hbtrieNodeCreate
        let below := hbtrieInsertSteps cfg load value txnId pathMeta next (step :: rest)
        (node.updateEntry frames leaf index (e.setTrieNode below.1) e.trieNode.isNone, below.2)

/-- `hbtrie_insert` on the root node: the new root and whether it returns 0. -/
def hbtrieInsert (cfg : Config) (load : Loader) (root : HbtrieNode) (path : Path) (value : Bytes)
    (txnId : TransactionId) : HbtrieNode × Bool :=
  if path = [] then (root, false)
  else hbtrieInsertSteps cfg load value txnId [] root (pathSteps path)

/-! ### `hbtrie_delete` -/

/-- The loops of `hbtrie_delete` from one node on: the new node and the value that
was visible to the deleting transaction. -/
def hbtrieDeleteSteps (load : Loader) (txnId : TransactionId) :
    HbtrieNode → List PathStep → HbtrieNode × Option Bytes
  | node, [] => (node, none)
  | node, .enter _ :: rest => hbtrieDeleteSteps load txnId node rest
  | node, .chunk c :: rest =>
    match ensureBtreeLoaded load node.btree c with
    | none => (node, none)
    | some (frames, leaf) =>
      match rest, bnodeFind leaf c with
      | _, (none, _) => (node.attachPath frames leaf, none)
      | [], (some e, index) =>
        match e.content with
        | none => (node.attachPath frames leaf, none)
        | some content =>
          (node.updateEntry frames leaf index (e.deleteValue txnId) true, content.visible txnId)
      | step :: rest, (some e, index) =>
        match e.loadedTrieNode load with
        | none => (node.attachPath frames leaf, none)
        | some next =>
          let below := hbtrieDeleteSteps load txnId next (step :: rest)
          (node.updateEntry frames leaf index (e.setTrieNode below.1) e.trieNode.isNone, below.2)

def hbtrieDelete (root : HbtrieNode) (path : Path) (txnId : TransactionId) :
    HbtrieNode × Option Bytes :=
  hbtrieDeleteSteps load txnId root (pathSteps path)

end WaveDB.HBTrie
