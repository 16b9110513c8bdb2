import WaveDB.Basis.Keyed
import WaveDB.Basis.Runs
import WaveDB.HBTrie.PathOrder

/-!
The value cache (`Database/database_lru.c`).

A shard's hash map and linked list hold the same nodes; here they are one list from the most
to the least recently used node. What `calculate_entry_memory` returns depends on the
capacities of the vectors it meets, so the calls take its result as an argument, and whether
the new node could be allocated as another.

`lookup` is what a shard's hash map answers. The three lemmas `lookup_get`, `lookup_put` and
`lookup_delete` say what each call does to it: a put may lose other entries, to make room,
but changes none.
-/

namespace WaveDB.Database

open WaveDB.Basis HBTrie List

/-! ### Paths as keys -/

/-- `path_hash`; 0 stands for a hash that was not computed yet. -/
def pathHash (path : Path) : UInt64 :=
  let hash := (pathChunks path).foldl
    (fun hash chunk => chunk.data.foldl (fun hash byte => hash * 31 + byte.toUInt64) hash) 0
  if hash ≠ 0 then hash else 1

def comparePath (a b : Path) : Int :=
  if pathHash a ≠ pathHash b then if pathHash a < pathHash b then -1 else 1
  else pathCompare a b

theorem pathHash_congr {a b : Path} (h : componentChunks a = componentChunks b) :
    pathHash a = pathHash b := by
  rw [pathHash, pathHash, pathChunks_eq_flatten, pathChunks_eq_flatten, h]

theorem comparePath_eq_zero {a b : Path} :
    comparePath a b = 0 ↔ componentChunks a = componentChunks b := by
  rw [comparePath]
  split
  · rename_i hne
    constructor
    · intro h
      split at h
      · cases h
      · cases h
    · intro h
      exact absurd (pathHash_congr h) hne
  · exact (compareLists_sign identifierCompare_sign a b).2

/-! ### Shards -/

structure LruNode where
  path : Path
  value : Bytes
  memorySize : Nat

/-- `database_lru_shard_t`, the nodes from `first` to `last`. -/
structure LruShard where
  nodes : List LruNode
  currentMemory : Nat
  maxMemory : Nat

def LruNode.hasPath (path : Path) (node : LruNode) : Bool := decide (comparePath node.path path = 0)

variable (shard : LruShard) (path : Path)

def LruShard.hashmapGet : Option LruNode := shard.nodes.find? (LruNode.hasPath path)

def LruShard.unlink : List LruNode := shard.nodes.eraseP (LruNode.hasPath path)

/-- The loop around `lru_evict`, from the last node on. -/
def lruEvict (maxMemory entryMemory : Nat) : Nat → List LruNode → Nat × List LruNode
  | currentMemory, [] => (currentMemory, [])
  | currentMemory, node :: rest =>
    if maxMemory < currentMemory + entryMemory then
      lruEvict maxMemory entryMemory (currentMemory - node.memorySize) rest
    else (currentMemory, node :: rest)

def LruShard.makeRoom (entryMemory : Nat) : LruShard :=
  let (currentMemory, nodes) :=
    lruEvict shard.maxMemory entryMemory shard.currentMemory shard.nodes.reverse
  { shard with currentMemory := currentMemory, nodes := nodes.reverse }

def LruShard.get : Option Bytes × LruShard :=
  match shard.hashmapGet path with
  | none => (none, shard)
  | some node => (some node.value, { shard with nodes := node :: shard.unlink path })

/-- `database_lru_cache_put` on its shard. An entry that exists keeps its path. -/
def LruShard.put (value : Bytes) (entryMemory : Nat) (allocated : Bool) : LruShard :=
  match shard.hashmapGet path with
  | some existing =>
    { shard with
      nodes := { existing with value := value, memorySize := entryMemory } :: shard.unlink path
      currentMemory := shard.currentMemory + entryMemory - existing.memorySize }
  | none =>
    if allocated then
      { shard.makeRoom entryMemory with
        nodes := ⟨path, value, entryMemory⟩ :: (shard.makeRoom entryMemory).nodes
        currentMemory := (shard.makeRoom entryMemory).currentMemory + entryMemory }
    else shard.makeRoom entryMemory

def LruShard.delete : LruShard :=
  match shard.hashmapGet path with
  | none => shard
  | some node =>
    { shard with
      nodes := shard.unlink path
      currentMemory := shard.currentMemory - node.memorySize }

/-! ### The cache -/

structure LruCache where
  shards : List LruShard

variable (lru : LruCache) (path : Path)

def LruCache.shardIndex : Nat := (pathHash path).toNat % lru.shards.length

/-- `database_lru_cache_create` with a memory limit and a number of shards. -/
def databaseLruCacheCreate (maxMemoryBytes numShards : Nat) : LruCache :=
  ⟨List.replicate numShards ⟨[], 0, maxMemoryBytes / numShards⟩⟩

def LruCache.onShard (f : LruShard → LruShard) : LruCache :=
  ⟨lru.shards.modify (lru.shardIndex path) f⟩

def databaseLruCacheGet : Option Bytes × LruCache :=
  ((lru.shards[lru.shardIndex path]?).bind fun shard => (shard.get path).1,
    lru.onShard path fun shard => (shard.get path).2)

def databaseLruCachePut (value : Bytes) (entryMemory : Nat) (allocated : Bool) : LruCache :=
  lru.onShard path fun shard => shard.put path value entryMemory allocated

def databaseLruCacheDelete : LruCache := lru.onShard path fun shard => shard.delete path

/-! ### What the calls do to a shard -/

def LruNode.key (node : LruNode) : List (List Chunk) := componentChunks node.path

def LruShard.Distinct : Prop := (shard.nodes.map LruNode.key).Nodup

def LruShard.lookup : Option Bytes :=
  (shard.hashmapGet path).map LruNode.value

section Shard

variable {shard : LruShard} {path : Path} {value : Bytes} {entryMemory : Nat} {allocated : Bool}

theorem hasPath_eq (path : Path) :
    LruNode.hasPath path = fun node => decide (node.key = componentChunks path) := by
  funext node
  rw [LruNode.hasPath, decide_eq_decide]
  exact comparePath_eq_zero

theorem hashmapGet_eq (shard : LruShard) (path : Path) :
    shard.hashmapGet path = withKey LruNode.key shard.nodes (componentChunks path) := by
  rw [LruShard.hashmapGet, hasPath_eq]
  rfl

theorem unlink_eq (shard : LruShard) (path : Path) :
    shard.unlink path = withoutKey LruNode.key shard.nodes (componentChunks path) := by
  rw [LruShard.unlink, hasPath_eq]
  rfl

theorem lruEvict_suffix (maxMemory entryMemory currentMemory : Nat) (nodes : List LruNode) :
    (lruEvict maxMemory entryMemory currentMemory nodes).2 <:+ nodes := by
  induction nodes generalizing currentMemory with
  | nil => exact suffix_rfl
  | cons node rest ih =>
    rw [lruEvict]
    split
    · exact (ih _).trans (suffix_cons node rest)
    · exact suffix_rfl

theorem makeRoom_sublist (shard : LruShard) (entryMemory : Nat) :
    ((shard.makeRoom entryMemory).nodes).Sublist shard.nodes := by
  have hsuffix := lruEvict_suffix shard.maxMemory entryMemory shard.currentMemory
    shard.nodes.reverse
  have hsub := hsuffix.sublist.reverse
  rwa [reverse_reverse] at hsub

variable (h : shard.Distinct)

include h

theorem LruShard.Distinct.get (path : Path) : (shard.get path).2.Distinct := by
  rw [LruShard.get]
  cases hfind : shard.hashmapGet path with
  | none => exact h
  | some node =>
    rw [hashmapGet_eq] at hfind
    simp only [Distinct, unlink_eq]
    exact nodup_cons_withoutKey h (key_of_withKey hfind)

theorem LruShard.Distinct.put (path : Path) (value : Bytes) (entryMemory : Nat) (allocated : Bool) :
    (shard.put path value entryMemory allocated).Distinct := by
  have hsub := (makeRoom_sublist shard entryMemory).map LruNode.key
  rw [LruShard.put]
  cases hfind : shard.hashmapGet path with
  | some existing =>
    rw [hashmapGet_eq] at hfind
    have hkey : existing.key = componentChunks path := key_of_withKey hfind
    simp only [Distinct, unlink_eq]
    exact nodup_cons_withoutKey h hkey
  | none =>
    rw [hashmapGet_eq, withKey_eq_none] at hfind
    dsimp only
    split
    · rw [Distinct, map_cons, nodup_cons]
      exact ⟨fun hmem => hfind (hsub.subset hmem), h.sublist hsub⟩
    · exact h.sublist hsub

theorem LruShard.Distinct.delete (path : Path) : (shard.delete path).Distinct := by
  rw [LruShard.delete]
  cases shard.hashmapGet path with
  | none => exact h
  | some node =>
    simp only [Distinct, unlink_eq]
    exact nodup_withoutKey h _

theorem shard_lookup_get (path q : Path) :
    (shard.get path).1 = shard.lookup path ∧ (shard.get path).2.lookup q = shard.lookup q := by
  simp only [LruShard.get, LruShard.lookup]
  cases hfind : shard.hashmapGet path with
  | none => exact ⟨rfl, rfl⟩
  | some node =>
    refine ⟨rfl, ?_⟩
    rw [hashmapGet_eq] at hfind
    simp only [hashmapGet_eq, unlink_eq]
    rw [withKey_cons_withoutKey h (key_of_withKey hfind)]
    split
    · next hq => rw [← hq, hfind]
    · rfl

/-- Nothing is found for a path after a put unless it was there before or is what was put. -/
theorem shard_lookup_put (path q : Path) :
    (shard.put path value entryMemory allocated).lookup q = none ∨
      (shard.put path value entryMemory allocated).lookup q =
        if componentChunks path = componentChunks q then some value else shard.lookup q := by
  simp only [LruShard.put, LruShard.lookup]
  cases hfind : shard.hashmapGet path with
  | some existing =>
    right
    rw [hashmapGet_eq] at hfind
    have hkey : existing.key = componentChunks path := key_of_withKey hfind
    have hreplaced := @withKey_cons_withoutKey _ _ _ LruNode.key shard.nodes _
      { existing with value := value, memorySize := entryMemory } h hkey (componentChunks q)
    simp only [hashmapGet_eq, unlink_eq, hreplaced]
    split
    · rfl
    · rfl
  | none =>
    have hroom := withKey_sublist h (makeRoom_sublist shard entryMemory) (componentChunks q)
    rw [hashmapGet_eq] at hfind
    cases allocated with
    | true =>
      have hkey : LruNode.key ⟨path, value, entryMemory⟩ = componentChunks path := rfl
      simp only [if_true, hashmapGet_eq, withKey_cons]
      rw [hkey]
      by_cases hq : componentChunks path = componentChunks q
      · right
        rw [if_pos hq, if_pos hq]
        rfl
      · rw [if_neg hq, if_neg hq]
        exact hroom.imp (congrArg _) (congrArg _)
    | false =>
      simp only [Bool.false_eq_true, if_false, hashmapGet_eq]
      by_cases hq : componentChunks path = componentChunks q
      · left
        rw [hq] at hfind
        rw [hfind, or_self] at hroom
        rw [hroom]
        rfl
      · rw [if_neg hq]
        exact hroom.imp (congrArg _) (congrArg _)

theorem shard_lookup_delete (path q : Path) : (shard.delete path).lookup q =
      if componentChunks path = componentChunks q then none else shard.lookup q := by
  simp only [LruShard.delete, LruShard.lookup]
  cases hfind : shard.hashmapGet path with
  | none =>
    by_cases hq : componentChunks path = componentChunks q
    · rw [hashmapGet_eq, hq] at hfind
      rw [if_pos hq, hashmapGet_eq, hfind]
      rfl
    · rw [if_neg hq]
  | some node =>
    simp only [hashmapGet_eq, unlink_eq]
    rw [withKey_withoutKey h]
    split
    · rfl
    · rfl

end Shard

/-! ### What the calls do to the cache -/

def LruCache.lookup : Option Bytes :=
  (lru.shards[lru.shardIndex path]?).bind fun shard => shard.lookup path

def LruCache.Distinct : Prop := ∀ shard ∈ lru.shards, shard.Distinct

section Cache

variable {lru : LruCache} {path : Path} {f : LruShard → LruShard}

theorem lookup_create (maxMemoryBytes numShards : Nat) (path : Path) :
    (databaseLruCacheCreate maxMemoryBytes numShards).lookup path = none := by
  rw [LruCache.lookup, Option.bind_eq_none_iff]
  intro shard hshard
  rw [eq_of_mem_replicate (mem_of_getElem? hshard)]
  rfl

theorem LruCache.Distinct.onShard (h : lru.Distinct) (path : Path)
    (hf : ∀ shard : LruShard, shard.Distinct → (f shard).Distinct) :
    (lru.onShard path f).Distinct := by
  intro shard hshard
  rcases mem_modify_cases hshard with hshard | ⟨old, hold, rfl⟩
  · exact h shard hshard
  · exact hf old (h old (mem_of_getElem? hold))

/-- A call on the shard of one path, seen from another path: only equal paths and those of
the same shard can tell. -/
theorem lookup_onShard (lru : LruCache) (path q : Path) (f : LruShard → LruShard) :
    (lru.onShard path f).lookup q = (lru.shards[lru.shardIndex q]?).bind fun shard =>
        if lru.shardIndex path = lru.shardIndex q then (f shard).lookup q else shard.lookup q := by
  have hindex : (lru.onShard path f).shardIndex q = lru.shardIndex q := by
    rw [LruCache.shardIndex, LruCache.onShard, length_modify, ← LruCache.shardIndex]
  rw [LruCache.lookup, hindex, LruCache.onShard, getElem?_modify, Option.map_eq_map,
    Option.bind_map]
  refine Option.bind_congr fun shard _ => ?_
  dsimp only [Function.comp]
  split
  · rfl
  · rfl

theorem shardIndex_congr (lru : LruCache) {q : Path}
    (h : componentChunks path = componentChunks q) : lru.shardIndex path = lru.shardIndex q := by
  rw [LruCache.shardIndex, LruCache.shardIndex, pathHash_congr h]

variable (h : lru.Distinct)

include h

theorem get_eq_lookup (path : Path) : (databaseLruCacheGet lru path).1 = lru.lookup path := by
  refine Option.bind_congr fun shard hshard => ?_
  exact (shard_lookup_get (h shard (mem_of_getElem? hshard)) path path).1

theorem lookup_get (path q : Path) : (databaseLruCacheGet lru path).2.lookup q = lru.lookup q := by
  rw [databaseLruCacheGet, lookup_onShard]
  refine Option.bind_congr fun shard hshard => ?_
  split
  · exact (shard_lookup_get (h shard (mem_of_getElem? hshard)) path q).2
  · rfl

theorem lookup_put (path q : Path) (value : Bytes) (entryMemory : Nat) (allocated : Bool) :
    (databaseLruCachePut lru path value entryMemory allocated).lookup q = none ∨
      (databaseLruCachePut lru path value entryMemory allocated).lookup q =
        if componentChunks path = componentChunks q then some value else lru.lookup q := by
  rw [databaseLruCachePut, lookup_onShard]
  cases hshard : lru.shards[lru.shardIndex q]? with
  | none => exact .inl rfl
  | some shard =>
    rw [Option.bind_some, LruCache.lookup, hshard, Option.bind_some]
    by_cases hindex : lru.shardIndex path = lru.shardIndex q
    · rw [if_pos hindex]
      exact shard_lookup_put (h shard (mem_of_getElem? hshard)) path q
    · rw [if_neg hindex, if_neg fun hq => hindex (shardIndex_congr lru hq)]
      exact .inr rfl

theorem lookup_delete (path q : Path) : (databaseLruCacheDelete lru path).lookup q =
      if componentChunks path = componentChunks q then none else lru.lookup q := by
  rw [databaseLruCacheDelete, lookup_onShard]
  cases hshard : lru.shards[lru.shardIndex q]? with
  | none =>
    rw [LruCache.lookup, hshard, Option.bind_none, Option.bind_none, ite_self]
  | some shard =>
    rw [Option.bind_some, LruCache.lookup, hshard, Option.bind_some]
    by_cases hindex : lru.shardIndex path = lru.shardIndex q
    · rw [if_pos hindex]
      exact shard_lookup_delete (h shard (mem_of_getElem? hshard)) path q
    · rw [if_neg hindex, if_neg fun hq => hindex (shardIndex_congr lru hq)]

theorem LruCache.Distinct.get (path : Path) : (databaseLruCacheGet lru path).2.Distinct :=
  h.onShard path fun _ hshard => hshard.get path

theorem LruCache.Distinct.put (path : Path) (value : Bytes) (entryMemory : Nat) (allocated : Bool) :
    (databaseLruCachePut lru path value entryMemory allocated).Distinct :=
  h.onShard path fun _ hshard => hshard.put path value entryMemory allocated

theorem LruCache.Distinct.delete (path : Path) : (databaseLruCacheDelete lru path).Distinct :=
  h.onShard path fun _ hshard => hshard.delete path

end Cache

end WaveDB.Database
