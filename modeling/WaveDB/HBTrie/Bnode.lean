import WaveDB.Basis.LowerBound
import WaveDB.HBTrie.Chunk
import WaveDB.HBTrie.Version

/-!
The data model of the trie (`HBTrie/bnode.h`, `HBTrie/hbtrie.h`) and the
operations on one B+tree node (`HBTrie/bnode.c`).

A `bnode` is a list of entries; an entry's union is a `Slot`: a child trie
node, a child bnode, or a value that may also own a trie child. NULL child
pointers are `none`; `childDiskOffset = 0` means "not on disk".
`bnodeSearch_eq_lowerBound`, `bnodeInsert_entries` and `Bnode.Sorted.bnodeFind_eq_some`
read the binary search off ascending entries; `bnodeSplit_eq` says what a split leaves
on either side.
-/

namespace WaveDB.HBTrie

open WaveDB.Basis Workers List

/-! ### Data model -/

structure PathSubscriptMeta where
  chunkCount : Nat
  byteLength : Nat
deriving DecidableEq

/-- What a `has_value` entry stores: a single value with its transaction id
(`has_versions == 0`) or a version chain. -/
inductive Content where
  | legacy (value : Bytes) (valueTxnId : TransactionId)
  | versions (chain : List VersionEntry)
deriving DecidableEq

mutual

/-- `bnode_t`. `level` 1 is a leaf; `diskOffset` is `none` for `UINT64_MAX`. -/
structure Bnode where
  level : Nat
  entries : List BnodeEntry
  diskOffset : Option Nat
  isDirty : Bool

structure BnodeEntry where
  key : Chunk
  slot : Slot
  childDiskOffset : Nat

/-- The union of an entry with its discriminating flags; `trie_child` only
exists next to a value. -/
inductive Slot where
  | child (node : Option HbtrieNode)
  | childBnode (node : Option Bnode)
  | value (content : Content) (pathMeta : List PathSubscriptMeta) (trieChild : Option HbtrieNode)

/-- `hbtrie_node_t`; its `btree_height` is the level of `btree`. -/
structure HbtrieNode where
  btree : Bnode
  diskOffset : Option Nat
  isDirty : Bool

end

/-- An entry by what its slot holds. -/
@[cases_eliminator]
theorem BnodeEntry.casesSlot {motive : BnodeEntry → Prop}
    (child : ∀ node key offset, motive ⟨key, .child node, offset⟩)
    (childBnode : ∀ node key offset, motive ⟨key, .childBnode node, offset⟩)
    (value : ∀ content pathMeta node key offset, motive ⟨key, .value content pathMeta node, offset⟩)
    (e : BnodeEntry) : motive e := by
  obtain ⟨key, slot, offset⟩ := e
  cases slot with
  | child node => exact child node key offset
  | childBnode node => exact childBnode node key offset
  | value content pathMeta node => exact value content pathMeta node key offset

/-- The parameters of one trie: `chunk_size`, the `node_size` all its bnodes
are created with, and the `sizeof`s that `bnode_size` adds up. -/
structure Config where
  chunkSize : ChunkSize
  nodeSize : Nat
  sizeofBnode : Nat
  sizeofBnodeEntry : Nat
  sizeofChunk : Nat

/-! ### One node -/

def bnodeCreateWithLevel (level : Nat) : Bnode :=
  { level := level, entries := [], diskOffset := none, isDirty := false }

variable (node : Bnode)

def Bnode.markDirty : Bnode := { node with isDirty := true }

@[simp] theorem Bnode.markDirty_entries :
    node.markDirty.entries = node.entries := rfl

def bnodeSearch (key : Chunk) : Nat :=
  lowerBoundLoop
    (fun mid => (node.entries[mid]?).any fun e => decide (bnodeEntryCompare e.key key < 0))
    node.entries.length 0 node.entries.length

/-- `bnode_find`: the matching entry, and the search index. -/
def bnodeFind (key : Chunk) : Option BnodeEntry × Nat :=
  let index := bnodeSearch node key
  ((node.entries[index]?).filter fun e => decide (bnodeEntryCompare e.key key = 0), index)

def bnodeInsert (entry : BnodeEntry) : Bnode :=
  { node with entries := node.entries.insertIdx (bnodeSearch node entry.key) entry }

def bnodeInsertBnodeChild (parent : Bnode) (key : Chunk) (child : Bnode) : Bnode :=
  bnodeInsert parent { key := key, slot := .childBnode (some child), childDiskOffset := 0 }

def bnodeSize (cfg : Config) (node : Bnode) : Nat :=
  cfg.sizeofBnode +
    (node.entries.map fun e => cfg.sizeofBnodeEntry + (cfg.sizeofChunk + e.key.size)).sum

def bnodeNeedsSplit (cfg : Config) (node : Bnode) : Bool :=
  decide (4 ≤ node.entries.length) && decide (cfg.nodeSize < bnodeSize cfg node)

/-- What `bnode_split` hands out besides the truncated left node. -/
structure SplitResult where
  left : Bnode
  splitKey : Chunk
  right : Bnode

/-- `bnode_split`: the left node keeps `[0, mid)`, the others are inserted one by
one into a new dirty node of the same level. -/
def bnodeSplit (node : Bnode) : Option SplitResult :=
  let mid := node.entries.length / 2
  if node.entries.length < 4 then none
  else (node.entries[mid]?).map fun midEntry =>
    { left := { node with entries := node.entries.take mid }
      splitKey := midEntry.key
      right := (node.entries.drop mid).foldl bnodeInsert
        (bnodeCreateWithLevel node.level).markDirty }

/-! ### Ascending nodes -/

def Bnode.Sorted (node : Bnode) : Prop := Ascending BnodeEntry.key node.entries

theorem bnodeSearch_eq_lowerBound (node : Bnode) (key : Chunk) :
    bnodeSearch node key = lowerBound BnodeEntry.key node.entries key := by
  simp only [bnodeSearch, lowerBound, bnodeEntryCompare_lt_zero]

theorem bnodeSearch_congr {node node' : Bnode} (key : Chunk)
    (h : node'.entries.map BnodeEntry.key = node.entries.map BnodeEntry.key) :
    bnodeSearch node' key = bnodeSearch node key := by
  have hkeys : ∀ node : Bnode, bnodeSearch node key = lowerBoundLoop
      (fun mid => ((node.entries.map BnodeEntry.key)[mid]?).any
        fun k => decide (bnodeEntryCompare k key < 0))
      (node.entries.map BnodeEntry.key).length 0 (node.entries.map BnodeEntry.key).length := by
    intro node
    simp only [bnodeSearch, getElem?_map, Option.any_map, length_map]
  rw [hkeys, hkeys, h]

theorem bnodeInsert_entries (node : Bnode) (entry : BnodeEntry) : (bnodeInsert node entry).entries =
      node.entries.insertIdx (lowerBound BnodeEntry.key node.entries entry.key) entry := by
  rw [bnodeInsert, bnodeSearch_eq_lowerBound]

theorem foldl_bnodeInsert (new : List BnodeEntry) (node : Bnode) : new.foldl bnodeInsert node =
      { node with
        entries := new.foldl
          (fun acc e => acc.insertIdx (lowerBound BnodeEntry.key acc e.key) e) node.entries } := by
  induction new generalizing node with
  | nil => cases node; rfl
  | cons e new ih => rw [foldl_cons, ih, foldl_cons, bnodeInsert_entries]; rfl

variable {node : Bnode} (h : node.Sorted)

include h

theorem Bnode.Sorted.bnodeFind_eq_some (key : Chunk) (e : BnodeEntry) :
    (bnodeFind node key).1 = some e ↔ e ∈ node.entries ∧ e.key = key := by
  have hidx := Ascending.getElem?_lowerBound h key
  simp only [bnodeFind, bnodeSearch_eq_lowerBound, bnodeEntryCompare_eq_zero, hidx,
    Option.filter_eq_some_iff, decide_eq_true_eq]
  constructor
  · rintro ⟨hhead, hkey⟩
    have hmem : e ∈ notBelow BnodeEntry.key node.entries key := mem_of_head? hhead
    exact ⟨(dropWhile_sublist _).subset hmem, hkey⟩
  · rintro ⟨hmem, hkey⟩
    subst hkey
    obtain ⟨post, hpost⟩ := Ascending.notBelow_eq_cons h hmem
    rw [hpost]
    exact ⟨rfl, rfl⟩

/-- The entries around a search: smaller keys, the match, greater keys. -/
theorem Bnode.Sorted.bnodeFind_split (key : Chunk) :
    ∃ lower upper, node.entries = lower ++ ((bnodeFind node key).1.toList ++ upper) ∧
      (bnodeFind node key).2 = lower.length ∧ (∀ e ∈ lower, e.key < key) ∧
      ∀ e ∈ upper, key < e.key := by
  have hsplit := @below_append_notBelow _ _ _ BnodeEntry.key node.entries key
  have hindex : (bnodeFind node key).2 = (below BnodeEntry.key node.entries key).length :=
    (bnodeSearch_eq_lowerBound node key).trans (h.nondescending.lowerBound_eq key)
  cases hfind : (bnodeFind node key).1 with
  | none =>
    refine ⟨_, _, hsplit.symm, hindex, fun e he => lt_of_mem_below he, fun e he => ?_⟩
    refine lt_of_le_of_ne (h.nondescending.le_of_mem_notBelow he) fun heq => ?_
    have hmem : e ∈ node.entries := (dropWhile_sublist _).subset he
    rw [(h.bnodeFind_eq_some key e).mpr ⟨hmem, heq.symm⟩] at hfind
    cases hfind
  | some e =>
    obtain ⟨hmem, rfl⟩ := (h.bnodeFind_eq_some key e).mp hfind
    obtain ⟨post, hpost⟩ := Ascending.notBelow_eq_cons h hmem
    rw [hpost] at hsplit
    refine ⟨_, post, hsplit.symm, hindex, fun e he => lt_of_mem_below he, ?_⟩
    have hsorted : Ascending BnodeEntry.key (below BnodeEntry.key node.entries e.key ++
        e :: post) := by
      rw [hsplit]
      exact h
    exact (pairwise_cons.mp (pairwise_append.mp hsorted).2.1).1

theorem Bnode.Sorted.bnodeFind_index {pre post : List BnodeEntry} {x : BnodeEntry}
    (hsplit : node.entries = pre ++ x :: post) : (bnodeFind node x.key).2 = pre.length := by
  have hindex : (bnodeFind node x.key).2 = (below BnodeEntry.key node.entries x.key).length :=
    (bnodeSearch_eq_lowerBound node x.key).trans (h.nondescending.lowerBound_eq x.key)
  have hpair : Ascending BnodeEntry.key (pre ++ x :: post) := hsplit ▸ h
  have hpre : ∀ e ∈ pre, e.key < x.key := fun e he =>
    (pairwise_append.mp hpair).2.2 e he x mem_cons_self
  rw [hindex, hsplit, below, takeWhile_append_of_pos (fun e he => by simpa using hpre e he),
    takeWhile_cons_of_neg (by simp), append_nil]

/-- A split leaves the first half and moves the second half to a new node. -/
theorem bnodeSplit_eq (hlen : 4 ≤ node.entries.length) :
    ∃ pre mid post, node.entries = pre ++ mid :: post ∧ pre ≠ [] ∧
      pre.length = node.entries.length / 2 ∧ bnodeSplit node = some
        { left := { node with entries := pre }
          splitKey := mid.key
          right := { level := node.level, entries := mid :: post, diskOffset := none,
                     isDirty := true } } := by
  have hmid : node.entries.length / 2 < node.entries.length := by omega
  have hdrop := drop_eq_getElem_cons hmid
  set mid := node.entries[node.entries.length / 2] with hmiddef
  set post := node.entries.drop (node.entries.length / 2 + 1) with hpostdef
  have hcut : node.entries = node.entries.take (node.entries.length / 2) ++ mid :: post := by
    rw [← hdrop, take_append_drop]
  have hright : (node.entries.drop (node.entries.length / 2)).foldl bnodeInsert
      (bnodeCreateWithLevel node.level).markDirty =
      { level := node.level, entries := mid :: post, diskOffset := none, isDirty := true } := by
    have hsorted : Ascending BnodeEntry.key ([] ++ mid :: post) := by
      rw [nil_append, ← hdrop]
      exact h.sublist (drop_sublist _ _)
    rw [foldl_bnodeInsert, hdrop]
    simp only [bnodeCreateWithLevel, Bnode.markDirty]
    rw [foldl_insertIdx_lowerBound _ _ hsorted, nil_append]
  refine ⟨_, mid, post, hcut, ?_, ?_, ?_⟩
  · intro hnil
    have := congrArg length hnil
    simp only [length_take, length_nil] at this
    omega
  · simp only [length_take]
    omega
  · rw [bnodeSplit, if_neg (by omega), getElem?_eq_getElem hmid, hright]
    rfl

end WaveDB.HBTrie
