import WaveDB.HBTrie.Positions
import WaveDB.Storage.NodeSerializer
import WaveDB.Storage.PageFile

/-!
The copy-on-write flush (`database_flush_dirty_bnodes` in `Database/database.c`).

A pass marks what has to be rewritten because something below it will move
(`collectMarks`), lists the dirty bnodes with where they are (`collectDirtyBnodes`), sorts
them so that children come before parents, and writes each to a new offset, re-pointing the
entry above. Passes are repeated until one finds nothing. What `qsort` does with elements
that compare equal is left open (`DirtySort`), and so is the file that is written to
(`PageIo`): `pageFileIo` is the page file.
-/

namespace WaveDB.Database

open HBTrie Storage

/-! ### Marking -/

def dirtyBelow (e : BnodeEntry) : Bool := e.trieNode.any HbtrieNode.isDirty

def childDirty (e : BnodeEntry) : Bool :=
  match e.slot with
  | .childBnode (some node) => node.isDirty
  | _ => false

mutual

def propagateDirtyUpward : Bnode → Bnode
  | ⟨level, entries, diskOffset, isDirty⟩ =>
    ⟨level, propagateEntries entries, diskOffset,
      isDirty || (propagateEntries entries).any childDirty⟩

def propagateEntries : List BnodeEntry → List BnodeEntry
  | [] => []
  | e :: es => propagateEntry e :: propagateEntries es

def propagateEntry : BnodeEntry → BnodeEntry
  | ⟨key, .childBnode node, offset⟩ => ⟨key, .childBnode (propagateChild node), offset⟩
  | ⟨key, .child node, offset⟩ => ⟨key, .child node, offset⟩
  | ⟨key, .value content pathMeta node, offset⟩ => ⟨key, .value content pathMeta node, offset⟩

def propagateChild : Option Bnode → Option Bnode
  | none => none
  | some node => some (propagateDirtyUpward node)

end

/-- Phase 1 of `collect_dirty_bnodes_from_hbnode` at one bnode, after the trie nodes below it:
a bnode over a dirty trie node is marked. -/
def markBnode (node : Bnode) : Bnode :=
  { node with isDirty := node.isDirty || node.entries.any dirtyBelow }

/-- The trie node is marked as well if that happened in its B+tree; a dirty trie node then
passes the marks up its B+tree. -/
def markNode (node : HbtrieNode) : HbtrieNode :=
  if node.isDirty || node.btree.treeNodes.any fun b => b.entries.any dirtyBelow then
    { node with btree := propagateDirtyUpward node.btree, isDirty := true }
  else node

/-- The marks of `collect_dirty_bnodes_from_hbnode`, trie nodes below first. -/
def collectMarks (root : HbtrieNode) : HbtrieNode := root.bottomUp markBnode markNode

/-! ### Collecting -/

/-- `dirty_bnode_info_t`: the bnode and its trie node by their positions. -/
structure DirtyBnodeInfo where
  pos : List Nat
  hbPos : List Nat
  level : Nat
  hbtrieDepth : Nat
deriving DecidableEq

/-- The trie node a bnode belongs to: its position, its depth, and its flag. -/
structure Owner where
  hbPos : List Nat
  hbtrieDepth : Nat
  isDirty : Bool

mutual

/-- Phase 2 of `collect_dirty_bnodes_from_hbnode` from one bnode on, and what the calls for
the trie nodes below it add. -/
def collectFromBnode (owner : Owner) (pos : List Nat) : Bnode → List DirtyBnodeInfo
  | ⟨level, entries, _, isDirty⟩ =>
    (if owner.isDirty && isDirty then [⟨pos, owner.hbPos, level, owner.hbtrieDepth⟩] else []) ++
      collectFromEntries owner pos 0 entries

def collectFromEntries (owner : Owner) (pos : List Nat) : Nat → List BnodeEntry →
    List DirtyBnodeInfo
  | _, [] => []
  | i, e :: es => collectFromEntry owner (pos ++ [i]) e ++ collectFromEntries owner pos (i + 1) es

def collectFromEntry (owner : Owner) (pos : List Nat) : BnodeEntry → List DirtyBnodeInfo
  | ⟨_, .childBnode node, _⟩ => collectFromChildBnode owner pos node
  | ⟨_, .child node, _⟩ => collectFromChild (owner.hbtrieDepth + 1) pos node
  | ⟨_, .value _ _ node, _⟩ => collectFromChild (owner.hbtrieDepth + 1) pos node

def collectFromChildBnode (owner : Owner) (pos : List Nat) : Option Bnode → List DirtyBnodeInfo
  | none => []
  | some node => collectFromBnode owner pos node

def collectFromChild (hbtrieDepth : Nat) (pos : List Nat) : Option HbtrieNode → List DirtyBnodeInfo
  | none => []
  | some node => collectFromNode hbtrieDepth pos node

/-- `collect_dirty_bnodes_from_hbnode` without the marks. -/
def collectFromNode (hbtrieDepth : Nat) (pos : List Nat) : HbtrieNode → List DirtyBnodeInfo
  | ⟨btree, _, isDirty⟩ => collectFromBnode ⟨pos, hbtrieDepth, isDirty⟩ pos btree

end

def collectDirtyBnodes (root : HbtrieNode) : List DirtyBnodeInfo := collectFromNode 0 [] root

/-- `compare_dirty_by_level`: deeper trie nodes first, then lower levels. -/
def compareDirtyByLevel (a b : DirtyBnodeInfo) : Int :=
  if b.hbtrieDepth < a.hbtrieDepth then -1
  else if a.hbtrieDepth < b.hbtrieDepth then 1
  else if a.level < b.level then -1
  else if b.level < a.level then 1
  else 0

/-- `qsort` with this comparison, whatever it does with equal elements. -/
structure DirtySort where
  sort : List DirtyBnodeInfo → List DirtyBnodeInfo
  perm : ∀ infos, (sort infos).Perm infos
  sorted : ∀ infos, (sort infos).Pairwise fun a b => compareDirtyByLevel a b ≤ 0

/-! ### Writing -/

/-- The file below the flush: `page_file_write_node`, `page_file_mark_stale` and
`page_file_write_superblock`. -/
structure PageIo (σ : Type) where
  writeNode : σ → Bytes → Option (Nat × σ)
  markStale : σ → Nat → Nat → σ
  writeSuperblock : σ → Nat → Option σ

def pageFileIo : PageIo PageFile where
  writeNode := pageFileWriteNode
  markStale := pageFileMarkStale
  writeSuperblock := pageFileWriteSuperblock

/-- What a loop has come to: the state when the function returned and whether it returned 0,
or the state when it is still running after a number of iterations. -/
inductive Outcome (α : Type) where
  | returned (ok : Bool) (s : α)
  | running (s : α)

/-- The function has returned 0. -/
def Outcome.ok {α : Type} : Outcome α → Bool
  | .returned ok _ => ok
  | .running _ => false

def Outcome.state {α : Type} : Outcome α → α
  | .returned _ s => s
  | .running s => s

structure FlushState (σ : Type) where
  root : HbtrieNode
  file : σ

def placeBnode (newOffset : Nat) (bn : Bnode) : Bnode :=
  { bn with diskOffset := some newOffset, isDirty := false }

def repointEntry (index newOffset : Nat) (bn : Bnode) : Bnode :=
  { bn with
    entries := bn.entries.modify index fun e => { e with childDiskOffset := newOffset } }

/-- Change the bnode above the one at a position, given the index of the entry that leads
down. -/
def modifyParent (f : Nat → Bnode → Bnode) (pos : List Nat) (root : HbtrieNode) : HbtrieNode :=
  match parentOf pos with
  | none => root
  | some (parent, index) => root.modifyAt (f index) parent

def repointParent (pos : List Nat) (newOffset : Nat) (root : HbtrieNode) : HbtrieNode :=
  modifyParent (fun index bn => (repointEntry index newOffset bn).markDirty) pos root

section Flush

variable {σ : Type} (io : PageIo σ) (cs : ChunkSize)

/-- `page_file_mark_stale` for the old copy, if there is one, with the length of the new. -/
def markOldStale (bn : Bnode) (length : Nat) (file : σ) : σ :=
  match bn.diskOffset with
  | none => file
  | some old => io.markStale file old length

/-- One iteration of step 3, `none` when the write fails. -/
def flushBnode (s : FlushState σ) (info : DirtyBnodeInfo) : Option (FlushState σ) :=
  (s.root.btree.bnodeAt info.pos).bind fun bn =>
    (io.writeNode s.file (bnodeSerializeV3 cs bn)).map fun written =>
      { root := repointParent info.pos written.1 (s.root.modifyAt (placeBnode written.1) info.pos)
        file := markOldStale io bn (bnodeSerializeV3 cs bn).length written.2 }

def flushAll : FlushState σ → List DirtyBnodeInfo → FlushState σ × Bool
  | s, [] => (s, true)
  | s, info :: rest =>
    match flushBnode io cs s info with
    | none => (s, false)
    | some s => flushAll s rest

def clearNode (node : HbtrieNode) : HbtrieNode := { node with isDirty := false }

def clearNodes (root : HbtrieNode) (infos : List DirtyBnodeInfo) : HbtrieNode :=
  infos.foldl (fun root info => root.modifyNodeAt clearNode info.hbPos) root

def finishFlush (s : FlushState σ) : Outcome (FlushState σ) :=
  let root := { s.root with diskOffset := s.root.btree.diskOffset, isDirty := false }
  match io.writeSuperblock s.file (root.diskOffset.getD 0) with
  | none => .returned false ⟨root, s.file⟩
  | some file => .returned true ⟨root, file⟩

/-- `database_flush_dirty_bnodes` for a number of passes. -/
def databaseFlushDirtyBnodes (qsort : DirtySort) : Nat → FlushState σ → Outcome (FlushState σ)
  | 0, s => .running s
  | passes + 1, s =>
    let marked : FlushState σ := { s with root := collectMarks s.root }
    match qsort.sort (collectDirtyBnodes marked.root) with
    | [] => finishFlush io marked
    | info :: infos =>
      match flushAll io cs marked (info :: infos) with
      | (s, false) => .returned false s
      | (s, true) =>
        databaseFlushDirtyBnodes qsort passes
          { s with root := clearNodes s.root (info :: infos) }

end Flush

/-! ### One way to sort -/

theorem compareDirtyByLevel_le_zero {a b : DirtyBnodeInfo} : compareDirtyByLevel a b ≤ 0 ↔
      b.hbtrieDepth < a.hbtrieDepth ∨ b.hbtrieDepth = a.hbtrieDepth ∧ a.level ≤ b.level := by
  unfold compareDirtyByLevel
  split_ifs <;> omega

def NotAfter (a b : DirtyBnodeInfo) : Prop := compareDirtyByLevel a b ≤ 0

instance : DecidableRel NotAfter := fun a b =>
  inferInstanceAs (Decidable (compareDirtyByLevel a b ≤ 0))

instance : Std.Total NotAfter where
  total a b := by
    simp only [NotAfter, compareDirtyByLevel_le_zero]
    omega

instance : IsTrans DirtyBnodeInfo NotAfter where
  trans a b c hab hbc := by
    simp only [NotAfter, compareDirtyByLevel_le_zero] at hab hbc ⊢
    omega

def insertionQsort : DirtySort where
  sort infos := infos.insertionSort NotAfter
  perm infos := List.perm_insertionSort NotAfter infos
  sorted infos := List.pairwise_insertionSort NotAfter infos

end WaveDB.Database
