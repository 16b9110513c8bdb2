import WaveDB.HBTrie.Coherence

/-!
Eviction of loaded nodes (`hbtrie_null_entries_by_offset` in `HBTrie/hbtrie.c`).

When the blob cache evicts the page at an offset, the trie drops every loaded child whose
entry names that offset. The walk keeps its pending trie nodes and bnodes on two fixed
arrays and skips what does not fit; it never looks at `is_dirty`. `evictedEntries` are the
entries it drops a child of, and `dirtyCount` counts the `is_dirty` flags in memory.
-/

namespace WaveDB.HBTrie

open Workers

/-! ### The walk -/

/-- `HBTRIE_CURSOR_MAX_DEPTH`: the slots for pending trie nodes. -/
def hbtrieCursorMaxDepth : Nat := 32

def pendingBnodesMax : Nat := 64

/-- The result of a part of the walk: the nodes after it, the pending trie nodes on the
stack (`stack_depth`), and `nulled`. -/
structure Nulled (α : Type) where
  kept : α
  stackDepth : Nat
  nulled : Nat

/-- `entry->child = NULL`, and the same for the other two pointers. -/
def BnodeEntry.dropChild (e : BnodeEntry) : BnodeEntry :=
  match e.slot with
  | .child _ => { e with slot := .child none }
  | .childBnode _ => { e with slot := .childBnode none }
  | .value content pathMeta _ => { e with slot := .value content pathMeta none }

def BnodeEntry.isDropped (offset : Nat) (e : BnodeEntry) : Bool :=
  decide (e.childDiskOffset = offset) && e.bnodeBelow.isSome

def BnodeEntry.pushesNode (e : BnodeEntry) (stackDepth : Nat) : Bool :=
  e.trieNode.isSome && decide (stackDepth < hbtrieCursorMaxDepth)

def BnodeEntry.pushesBnode (e : BnodeEntry) (bnodeDepth : Nat) : Bool :=
  e.bnodeBelow.isSome && e.trieNode.isNone && decide (bnodeDepth < pendingBnodesMax)

section Offset

variable (offset : Nat)

mutual

/-- The loop over the entries of a bnode that was popped with `bnodeDepth` bnodes left. The
walk of everything it pushes is included. -/
def nullBnode : Bnode → Nat → Nat → Nulled Bnode
  | ⟨level, entries, diskOffset, isDirty⟩, bnodeDepth, stackDepth =>
    let result := nullEntries entries bnodeDepth stackDepth
    ⟨⟨level, result.kept, diskOffset, isDirty⟩, result.stackDepth, result.nulled⟩

/-- The entries from one on. What is pushed at index `i` of a stack is popped when `i`
items are left: a trie node after this bnode, a child bnode after those of the later
entries. -/
def nullEntries : List BnodeEntry → Nat → Nat → Nulled (List BnodeEntry)
  | [], _, stackDepth => ⟨[], stackDepth, 0⟩
  | e :: es, bnodeDepth, stackDepth =>
    if e.isDropped offset then
      let rest := nullEntries es bnodeDepth stackDepth
      ⟨e.dropChild :: rest.kept, rest.stackDepth, rest.nulled + 1⟩
    else if e.pushesNode stackDepth then
      let rest := nullEntries es bnodeDepth (stackDepth + 1)
      let own := nullBelow e bnodeDepth stackDepth
      ⟨own.kept :: rest.kept, rest.stackDepth, own.nulled + rest.nulled⟩
    else if e.pushesBnode bnodeDepth then
      let rest := nullEntries es (bnodeDepth + 1) stackDepth
      let own := nullBelow e bnodeDepth rest.stackDepth
      ⟨own.kept :: rest.kept, own.stackDepth, own.nulled + rest.nulled⟩
    else
      let rest := nullEntries es bnodeDepth stackDepth
      ⟨e :: rest.kept, rest.stackDepth, rest.nulled⟩

def nullBelow : BnodeEntry → Nat → Nat → Nulled BnodeEntry
  | ⟨key, .child node, childDiskOffset⟩, _, stackDepth =>
    let result := nullChild node stackDepth
    ⟨⟨key, .child result.kept, childDiskOffset⟩, result.stackDepth, result.nulled⟩
  | ⟨key, .childBnode node, childDiskOffset⟩, bnodeDepth, stackDepth =>
    let result := nullChildBnode node bnodeDepth stackDepth
    ⟨⟨key, .childBnode result.kept, childDiskOffset⟩, result.stackDepth, result.nulled⟩
  | ⟨key, .value content pathMeta node, childDiskOffset⟩, _, stackDepth =>
    let result := nullChild node stackDepth
    ⟨⟨key, .value content pathMeta result.kept, childDiskOffset⟩, result.stackDepth, result.nulled⟩

def nullChildBnode : Option Bnode → Nat → Nat → Nulled (Option Bnode)
  | none, _, stackDepth => ⟨none, stackDepth, 0⟩
  | some node, bnodeDepth, stackDepth =>
    let result := nullBnode node bnodeDepth stackDepth
    ⟨some result.kept, result.stackDepth, result.nulled⟩

def nullChild : Option HbtrieNode → Nat → Nulled (Option HbtrieNode)
  | none, stackDepth => ⟨none, stackDepth, 0⟩
  | some node, stackDepth =>
    let result := nullNode node stackDepth
    ⟨some result.kept, result.stackDepth, result.nulled⟩

def nullNode : HbtrieNode → Nat → Nulled HbtrieNode
  | ⟨btree, diskOffset, isDirty⟩, stackDepth =>
    let result := nullBnode btree 0 stackDepth
    ⟨⟨result.kept, diskOffset, isDirty⟩, result.stackDepth, result.nulled⟩

end

end Offset

/-- `hbtrie_null_entries_by_offset`: the trie afterwards and the number of dropped
children. -/
def hbtrieNullEntriesByOffset (root : HbtrieNode) (offset : Nat) : HbtrieNode × Nat :=
  if offset = 0 then (root, 0)
  else ((nullNode offset root 0).kept, (nullNode offset root 0).nulled)

/-! ### What is dropped -/

section Dropped

variable (offset : Nat)

mutual

def droppedBnode : Bnode → Nat → Nat → List BnodeEntry
  | ⟨_, entries, _, _⟩, bnodeDepth, stackDepth =>
    droppedEntries entries bnodeDepth stackDepth

def droppedEntries : List BnodeEntry → Nat → Nat → List BnodeEntry
  | [], _, _ => []
  | e :: es, bnodeDepth, stackDepth =>
    if e.isDropped offset then e :: droppedEntries es bnodeDepth stackDepth
    else if e.pushesNode stackDepth then
      droppedBelow e bnodeDepth stackDepth ++
        droppedEntries es bnodeDepth (stackDepth + 1)
    else if e.pushesBnode bnodeDepth then
      droppedBelow e bnodeDepth
          (nullEntries offset es (bnodeDepth + 1) stackDepth).stackDepth ++
        droppedEntries es (bnodeDepth + 1) stackDepth
    else droppedEntries es bnodeDepth stackDepth

def droppedBelow : BnodeEntry → Nat → Nat → List BnodeEntry
  | ⟨_, .child node, _⟩, _, stackDepth => droppedChild node stackDepth
  | ⟨_, .childBnode node, _⟩, bnodeDepth, stackDepth =>
    droppedChildBnode node bnodeDepth stackDepth
  | ⟨_, .value _ _ node, _⟩, _, stackDepth => droppedChild node stackDepth

def droppedChildBnode : Option Bnode → Nat → Nat → List BnodeEntry
  | none, _, _ => []
  | some node, bnodeDepth, stackDepth => droppedBnode node bnodeDepth stackDepth

def droppedChild : Option HbtrieNode → Nat → List BnodeEntry
  | none, _ => []
  | some node, stackDepth => droppedNode node stackDepth

def droppedNode : HbtrieNode → Nat → List BnodeEntry
  | ⟨btree, _, _⟩, stackDepth => droppedBnode btree 0 stackDepth

end

end Dropped

def evictedEntries (root : HbtrieNode) (offset : Nat) : List BnodeEntry :=
  if offset = 0 then [] else droppedNode offset root 0

/-! ### Dirty nodes in memory -/

mutual

/-- The number of nodes at or below the bnode with `is_dirty` set. -/
def Bnode.dirtyCount : Bnode → Nat
  | ⟨_, entries, _, isDirty⟩ => isDirty.toNat + dirtyCountEntries entries

def dirtyCountEntries : List BnodeEntry → Nat
  | [] => 0
  | e :: es => e.dirtyCount + dirtyCountEntries es

def BnodeEntry.dirtyCount : BnodeEntry → Nat
  | ⟨_, .child node, _⟩ => dirtyCountChild node
  | ⟨_, .childBnode node, _⟩ => dirtyCountChildBnode node
  | ⟨_, .value _ _ node, _⟩ => dirtyCountChild node

def dirtyCountChildBnode : Option Bnode → Nat
  | none => 0
  | some node => node.dirtyCount

def dirtyCountChild : Option HbtrieNode → Nat
  | none => 0
  | some node => node.dirtyCount

def HbtrieNode.dirtyCount : HbtrieNode → Nat
  | ⟨btree, _, isDirty⟩ => isDirty.toNat + btree.dirtyCount

end

end WaveDB.HBTrie
