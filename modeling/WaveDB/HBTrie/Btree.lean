import WaveDB.Basis.Runs
import WaveDB.HBTrie.Bnode

/-!
The B+tree inside one `hbtrie_node` (`HBTrie/hbtrie.c`): descent with lazy
loading, leaf insertion and split propagation.

Children that are not in memory are read through a `Loader`, the page file seen
through `bnode_deserialize_v3`; a trie without a page file has `noLoader`.
In-place updates of a node below the root become a rebuild of the nodes on the
way down (`BtreeFrame`), which also attaches the children loaded during the
descent.
-/

namespace WaveDB.HBTrie

/-- The bnode stored at a page file offset, `none` when it cannot be read. -/
abbrev Loader := Nat → Option Bnode

def noLoader : Loader := fun _ => none

/-! ### Descent -/

variable (load : Loader) (cfg : Config)

/-- The child bnode of an entry, after `bnode_entry_lazy_load_bnode_child`. -/
def BnodeEntry.loadedBnode (entry : BnodeEntry) : Option Bnode :=
  match entry.slot with
  | .childBnode (some node) => some node
  | .childBnode none =>
    if entry.childDiskOffset ≠ 0 then load entry.childDiskOffset else none
  | _ => none

def childBnodeAt (node : Bnode) (index : Nat) : Option (Nat × Bnode) :=
  (node.entries[index]?).bind fun e => (e.loadedBnode load).map fun child => (index, child)

/-- One iteration of the descent: the exact match if its child is there, else
the greatest key below the search key, else the leftmost entry. -/
def btreeNextChild (node : Bnode) (key : Chunk) : Option (Nat × Bnode) :=
  match (bnodeFind node key).1.bind fun e => e.loadedBnode load with
  | some child => some ((bnodeFind node key).2, child)
  | none =>
    if (bnodeFind node key).2 = 0 then childBnodeAt load node 0
    else childBnodeAt load node ((bnodeFind node key).2 - 1)

/-- An internal node on the descent path and the entry that was followed. -/
structure BtreeFrame where
  node : Bnode
  index : Nat

/-- `btree_descend_with_path_lazy`: the internal nodes from the root down and
the node the descent stops at. One unit of fuel is one level. -/
def btreeDescendLoop (load : Loader) (key : Chunk) : Nat → Bnode → List BtreeFrame × Bnode
  | 0, node => ([], node)
  | fuel + 1, node =>
    if 1 < node.level then
      match btreeNextChild load node key with
      | none => ([], node)
      | some (index, child) =>
        (⟨node, index⟩ :: (btreeDescendLoop load key fuel child).1,
          (btreeDescendLoop load key fuel child).2)
    else ([], node)

/-- `btree_descend_with_path_lazy`. Levels drop by one from a node to its child. -/
def btreeDescendWithPathLazy (root : Bnode) (key : Chunk) : List BtreeFrame × Bnode :=
  btreeDescendLoop load key root.level root

/-- `bnode_descend`, the same walk over children in memory. -/
def bnodeDescend (root : Bnode) (key : Chunk) : Bnode :=
  (btreeDescendWithPathLazy noLoader root key).2

def bnodeFindLeafLazy (root : Bnode) (key : Chunk) : Option BnodeEntry :=
  (bnodeFind (btreeDescendWithPathLazy load root key).2 key).1

/-- `ensure_btree_loaded`: the path and the leaf, `none` when a child on the way
cannot be read. -/
def ensureBtreeLoaded (root : Bnode) (key : Chunk) : Option (List BtreeFrame × Bnode) :=
  let descent := btreeDescendWithPathLazy load root key
  if 1 < descent.2.level then none else some descent

/-! ### Rebuilding the path -/

/-- Attach a bnode to an entry (`entry->child_bnode = child`). -/
def BnodeEntry.setChildBnode (entry : BnodeEntry) (child : Bnode) : BnodeEntry :=
  { entry with slot := .childBnode (some child) }

def BtreeFrame.plug (frame : BtreeFrame) (child : Bnode) : Bnode :=
  { frame.node with entries := frame.node.entries.modify frame.index (·.setChildBnode child) }

theorem BtreeFrame.mem_plug {frame : BtreeFrame} {child : Bnode} {e : BnodeEntry}
    (h : e ∈ (frame.plug child).entries) : e ∈ frame.node.entries ∨
      ∃ old, frame.node.entries[frame.index]? = some old ∧ e = old.setChildBnode child :=
  Basis.mem_modify_cases h

def zipUp : List BtreeFrame → Bnode → Bnode
  | [], leaf => leaf
  | frame :: frames, leaf => frame.plug (zipUp frames leaf)

/-! ### Splitting -/

/-- `MAX_BTREE_HEIGHT`: how many internal nodes `btree_path_t` records. -/
def maxBtreeHeight : Nat := 32

structure PendingSplit where
  splitKey : Chunk
  right : Bnode

/-- `bnode_needs_split` and `bnode_split` as every caller combines them: a node that
is not split stays as it is. -/
def splitIfNeeded (node : Bnode) : Bnode × Option PendingSplit :=
  if !bnodeNeedsSplit cfg node then (node, none)
  else
    match bnodeSplit node with
    | none => (node, none)
    | some result => (result.left, some ⟨result.splitKey, result.right⟩)

def propagateInto (parent : Bnode) (split : PendingSplit) : Bnode × Option PendingSplit :=
  splitIfNeeded cfg (bnodeInsertBnodeChild parent split.splitKey split.right).markDirty

/-- The loop of `btree_propagate_split` from the deepest recorded node up.
`depth` counts the internal nodes above; those past `MAX_BTREE_HEIGHT` are not in
the recorded path and see no insertion. -/
def propagateSplitLoop (cfg : Config) :
    Nat → List BtreeFrame → Bnode → PendingSplit → Bnode × Option PendingSplit
  | _, [], leaf, split => (leaf, some split)
  | depth, frame :: frames, leaf, split =>
    let below := propagateSplitLoop cfg (depth + 1) frames leaf split
    let node := frame.plug below.1
    match below.2 with
    | none => (node, none)
    | some split =>
      if depth < maxBtreeHeight then propagateInto cfg node split else (node, some split)

/-- The new root over the old one and its right sibling, as both
`btree_propagate_split` and `btree_split_after_insert` build it. -/
def newRoot (oldRoot : Bnode) (split : PendingSplit) : Bnode :=
  let root := bnodeCreateWithLevel (oldRoot.level + 1)
  let root := match oldRoot.entries.head? with
    | none => root
    | some leftFirst =>
      bnodeInsert root
        { key := leftFirst.key, slot := .childBnode (some oldRoot), childDiskOffset := 0 }
  (bnodeInsert root
    { key := split.splitKey, slot := .childBnode (some split.right)
      childDiskOffset := 0 }).markDirty

variable (frames : List BtreeFrame)

/-- `btree_propagate_split`, and the root case of `btree_split_after_insert`. -/
def btreePropagateSplit (leaf : Bnode) (split : PendingSplit) : Bnode :=
  match propagateSplitLoop cfg 0 frames leaf split with
  | (root, none) => root
  | (root, some split) => newRoot root split

/-- `btree_split_after_insert`, returning the root. -/
def btreeSplitAfterInsert (leaf : Bnode) : Bnode :=
  match splitIfNeeded cfg leaf with
  | (leaf, none) => zipUp frames leaf
  | (leaf, some split) => btreePropagateSplit cfg frames leaf.markDirty split

/-- `bnode_insert` into the reached leaf, `btree_split_after_insert` and
`mark_dirty`, as `hbtrie_insert` does them for a new entry. -/
def btreeInsertAt (leaf : Bnode) (entry : BnodeEntry) : Bnode :=
  btreeSplitAfterInsert cfg frames (bnodeInsert leaf entry).markDirty

/-- Descend and insert a new entry; the tree is unchanged when it cannot be
descended. -/
def btreeInsert (load : Loader) (root : Bnode) (entry : BnodeEntry) : Bnode :=
  match ensureBtreeLoaded load root entry.key with
  | none => root
  | some (frames, leaf) => btreeInsertAt cfg frames leaf entry

end WaveDB.HBTrie
