import WaveDB.Basis.Codec
import WaveDB.Basis.Runs
import WaveDB.Storage.PageFile

/-!
The blob cache in front of the page file (`Storage/bnode_cache.c`).

Items live in an allocation list and are named by their index there, as the C code names
them by pointer: the hash table, the LRU list and the list of deferred evictions of a
shard hold such pointers. A shard `Has` what its table or its LRU list points to; the
lemmas at the end say for each operation which pointers a shard can gain, which is at most
the one it was called with.
-/

namespace WaveDB.Storage

open WaveDB.Basis HBTrie List

/-! ### Items and shards -/

/-- `bnode_cache_item_t`; `data` is the size field and the payload. -/
structure BnodeCacheItem where
  offset : Nat
  data : Bytes
  isDirty : Bool
  invalidatePending : Bool
  evictPending : Bool
  refCount : Nat

inductive Bucket where
  | empty
  | tombstone
  | item (ptr : Nat)
deriving DecidableEq

/-- `bnode_cache_shard_t`; the LRU list from `lru_first` to `lru_last`. -/
structure BnodeCacheShard where
  lru : List Nat
  buckets : List Bucket
  itemCount : Nat
  dirtyCount : Nat
  dirtyBytes : Nat
  deferred : List Nat

/-- `file_bnode_cache_t`, with every item allocated so far. -/
structure FileBnodeCache where
  shards : List BnodeCacheShard
  items : List BnodeCacheItem
  maxMemory : Nat
  currentMemory : Nat

def shardInit : BnodeCacheShard :=
  { lru := [], buckets := List.replicate 64 .empty, itemCount := 0, dirtyCount := 0
    dirtyBytes := 0, deferred := [] }

/-- `bnode_cache_create_file_cache` under a manager that asks for `numShards`. -/
def bnodeCacheCreateFileCache (maxMemory numShards : Nat) : FileBnodeCache :=
  { shards := List.replicate (if 0 < numShards then numShards else 4) shardInit, items := []
    maxMemory := maxMemory, currentMemory := 0 }

def decrement : Nat → Nat
  | 0 => 2 ^ 64 - 1
  | n + 1 => n

/-! ### The hash table -/

def probes (offset bucketCount : Nat) : List Nat :=
  (List.range bucketCount).map fun i => (offset % bucketCount + i) % bucketCount

def findIn (items : List BnodeCacheItem) (buckets : List Bucket) (offset : Nat) :
    List Nat → Option (Nat × Nat)
  | [] => none
  | pos :: rest =>
    match buckets[pos]? with
    | some .tombstone => findIn items buckets offset rest
    | some (.item ptr) =>
      if (items[ptr]?).any fun item => decide (item.offset = offset) then some (pos, ptr)
      else findIn items buckets offset rest
    | _ => none

variable (items : List BnodeCacheItem) (cache : FileBnodeCache) (shard : BnodeCacheShard)
  (pf : PageFile)

def shardFind (offset : Nat) : Option Nat :=
  (findIn items shard.buckets offset (probes offset shard.buckets.length)).map Prod.snd

def place (buckets : List Bucket) (offset ptr : Nat) : Option (List Bucket) :=
  ((probes offset buckets.length).find? fun pos =>
      buckets[pos]? == some .empty || buckets[pos]? == some .tombstone).map
    fun pos => buckets.set pos (.item ptr)

def rehash (items : List BnodeCacheItem) (buckets : List Bucket) : Bucket → List Bucket
  | .item ptr =>
    ((items[ptr]?).bind fun item => place buckets item.offset ptr).getD buckets
  | _ => buckets

def shardResize : BnodeCacheShard :=
  { shard with
    buckets := shard.buckets.foldl (rehash items)
      (List.replicate (shard.buckets.length * 2) .empty) }

/-- The part of `shard_insert` after the load factor is checked. A full table leaves the
item out. -/
def shardPut (offset ptr : Nat) : BnodeCacheShard :=
  match place shard.buckets offset ptr with
  | none => shard
  | some buckets =>
    { shard with buckets := buckets, itemCount := (shard.itemCount + 1) % 2 ^ 64 }

/-- `shard_insert`: a table three quarters full doubles first. -/
def shardInsert (offset ptr : Nat) : BnodeCacheShard :=
  if shard.buckets.length * 3 % 2 ^ 64 ≤ shard.itemCount * 4 % 2 ^ 64 then
    shardPut (shardResize items shard) offset ptr
  else shardPut shard offset ptr

def shardRemove (offset : Nat) : BnodeCacheShard :=
  match findIn items shard.buckets offset (probes offset shard.buckets.length) with
  | none => shard
  | some (pos, _) =>
    { shard with
      buckets := shard.buckets.set pos .tombstone
      itemCount := decrement shard.itemCount }

/-! ### The LRU list -/

def lruRemove (ptr : Nat) : BnodeCacheShard :=
  { shard with lru := shard.lru.erase ptr }

def lruPushFront (ptr : Nat) : BnodeCacheShard :=
  { shard with lru := ptr :: shard.lru }

def lruMoveToFront (ptr : Nat) : BnodeCacheShard :=
  if shard.lru.head? = some ptr then shard else lruPushFront (lruRemove shard ptr) ptr

/-! ### The operations -/

def FileBnodeCache.shardIndex (offset : Nat) : Nat :=
  offset % cache.shards.length

def FileBnodeCache.modifyShard (index : Nat) (f : BnodeCacheShard → BnodeCacheShard) :
    FileBnodeCache :=
  { cache with shards := cache.shards.modify index f }

def FileBnodeCache.modifyItem (ptr : Nat) (f : BnodeCacheItem → BnodeCacheItem) : FileBnodeCache :=
  { cache with items := cache.items.modify ptr f }

/-- `victim` leaves the LRU list and the table and waits among the deferred evictions. The
item count goes down here and in `shard_remove`. -/
def evictFrom (ptr : Nat) (victim : BnodeCacheItem) (shard : BnodeCacheShard) : BnodeCacheShard :=
  let shard := shardRemove items (lruRemove shard ptr) victim.offset
  { shard with itemCount := decrement shard.itemCount, deferred := ptr :: shard.deferred }

/-- One iteration of the loop of `evict_if_needed`, `none` when it stops. -/
def evictOne (index : Nat) : Option FileBnodeCache := do
  let shard ← cache.shards[index]?
  let ptr ← shard.lru.getLast?
  let victim ← cache.items[ptr]?
  if cache.maxMemory < cache.currentMemory ∧ victim.refCount = 0 ∧ victim.isDirty = false then
    some { (cache.modifyShard index (evictFrom cache.items ptr victim)).modifyItem ptr
        fun item => { item with evictPending := true } with
      currentMemory := cache.currentMemory - victim.data.length }
  else none

/-- The loop of `evict_if_needed`; each iteration shortens the LRU list. -/
def evictLoop (index : Nat) : Nat → FileBnodeCache → FileBnodeCache
  | 0, cache => cache
  | fuel + 1, cache =>
    match evictOne cache index with
    | none => cache
    | some cache => evictLoop index fuel cache

def evictIfNeeded (index : Nat) : FileBnodeCache :=
  evictLoop index ((cache.shards[index]?).elim 0 fun shard => shard.lru.length) cache

def FileBnodeCache.touch (index ptr : Nat) : FileBnodeCache :=
  let held := cache.modifyItem ptr fun item =>
    { item with refCount := (item.refCount + 1) % 2 ^ 32 }
  held.modifyShard index (lruMoveToFront · ptr)

/-- What `page_file_read_node` hands out: the size field and the payload. -/
def pageFileReadBuffer (offset : Nat) : Option Bytes :=
  (pageFileReadNode pf offset).map fun payload => writeUintLe 4 payload.length ++ payload

def FileBnodeCache.addItem (index offset : Nat) (data : Bytes) : FileBnodeCache :=
  let item : BnodeCacheItem :=
    { offset := offset, data := data, isDirty := false, invalidatePending := false
      evictPending := false, refCount := 1 }
  let items := cache.items ++ [item]
  let ptr := cache.items.length
  { cache with
    items := items
    shards := cache.shards.modify index fun shard =>
      lruPushFront (shardInsert items shard offset ptr) ptr
    currentMemory := cache.currentMemory + data.length }

def FileBnodeCache.find (offset : Nat) : Option Nat :=
  (cache.shards[cache.shardIndex offset]?).bind fun shard => shardFind cache.items shard offset

/-- `bnode_cache_read`: the cache afterwards, and the item. -/
def bnodeCacheRead (cache : FileBnodeCache) (offset : Nat) : FileBnodeCache × Option Nat :=
  match cache.find offset with
  | some ptr => (cache.touch (cache.shardIndex offset) ptr, some ptr)
  | none =>
    match pageFileReadBuffer pf offset with
    | none => (cache, none)
    | some data =>
      (evictIfNeeded (cache.addItem (cache.shardIndex offset) offset data)
        (cache.shardIndex offset), some cache.items.length)

def bnodeCachePeek (offset : Nat) : FileBnodeCache × Option Nat :=
  match cache.find offset with
  | some ptr => (cache.touch (cache.shardIndex offset) ptr, some ptr)
  | none => (cache, none)

def dropInvalidated (ptr : Nat) (item : BnodeCacheItem)
    (shard : BnodeCacheShard) : BnodeCacheShard :=
  let shard := lruRemove (shardRemove items shard item.offset) ptr
  { shard with
    itemCount := decrement shard.itemCount
    dirtyCount := if item.isDirty then decrement shard.dirtyCount else shard.dirtyCount
    dirtyBytes := if item.isDirty then shard.dirtyBytes - item.data.length else shard.dirtyBytes }

def bnodeCacheRelease (cache : FileBnodeCache) (ptr : Nat) (item : BnodeCacheItem) :
    PageFile × FileBnodeCache :=
  let index := cache.shardIndex item.offset
  let released := cache.modifyItem ptr fun item => { item with refCount := item.refCount - 1 }
  if item.refCount = 1 ∧ item.invalidatePending then
    (pageFileMarkStale pf item.offset item.data.length,
      { released.modifyShard index (dropInvalidated released.items ptr item) with
        currentMemory := cache.currentMemory - item.data.length })
  else if item.refCount = 1 ∧ (released.find item.offset).isSome then
    (pf, released.modifyShard index (lruMoveToFront · ptr))
  else (pf, released)

/-- `bnode_cache_complete_evict`: the first deferred item with the offset is freed. -/
def bnodeCacheCompleteEvict (offset : Nat) : FileBnodeCache :=
  cache.modifyShard (cache.shardIndex offset) fun shard =>
    { shard with
      deferred := shard.deferred.eraseP fun ptr =>
        (cache.items[ptr]?).any fun item => decide (item.offset = offset) && item.evictPending }

/-! ### What a shard points to -/

def BnodeCacheShard.Has (ptr : Nat) : Prop :=
  ptr ∈ shard.lru ∨ Bucket.item ptr ∈ shard.buckets

section Has

variable {items : List BnodeCacheItem} {shard : BnodeCacheShard} {offset ptr q : Nat}
  {buckets : List Bucket}

theorem item_mem_place {buckets' : List Bucket} (h : place buckets offset ptr = some buckets')
    (hq : Bucket.item q ∈ buckets') : q = ptr ∨ Bucket.item q ∈ buckets := by
  obtain ⟨pos, -, rfl⟩ := Option.map_eq_some_iff.mp h
  rcases mem_or_eq_of_mem_set hq with hmem | heq
  · exact .inr hmem
  · exact .inl (Bucket.item.inj heq)

theorem item_mem_rehash {b : Bucket} (hq : Bucket.item q ∈ rehash items buckets b) :
    Bucket.item q = b ∨ Bucket.item q ∈ buckets := by
  cases b with
  | empty | tombstone => exact .inr hq
  | item ptr =>
    simp only [rehash] at hq
    cases hplace : (items[ptr]?).bind fun item => place buckets item.offset ptr with
    | none =>
      rw [hplace] at hq
      exact .inr hq
    | some buckets' =>
      rw [hplace] at hq
      obtain ⟨item, -, hbuckets⟩ := Option.bind_eq_some_iff.mp hplace
      exact (item_mem_place hbuckets hq).imp_left (congrArg Bucket.item)

theorem item_mem_foldl_rehash {new : List Bucket}
    (hq : Bucket.item q ∈ new.foldl (rehash items) buckets) :
    Bucket.item q ∈ new ∨ Bucket.item q ∈ buckets := by
  induction new generalizing buckets with
  | nil => exact .inr hq
  | cons b new ih =>
    rcases ih hq with hnew | hbuckets
    · exact .inl (mem_cons_of_mem b hnew)
    · rcases item_mem_rehash hbuckets with rfl | hold
      · exact .inl mem_cons_self
      · exact .inr hold

theorem has_shardResize (h : (shardResize items shard).Has q) : shard.Has q := by
  rcases h with hlru | hbucket
  · exact .inl hlru
  · rcases item_mem_foldl_rehash hbucket with hold | hnew
    · exact .inr hold
    · cases eq_of_mem_replicate hnew

theorem has_shardPut (h : (shardPut shard offset ptr).Has q) : q = ptr ∨ shard.Has q := by
  unfold shardPut at h
  split at h
  · exact .inr h
  · rename_i hplace
    rcases h with hlru | hbucket
    · exact .inr (.inl hlru)
    · exact (item_mem_place hplace hbucket).imp_right .inr

theorem has_shardInsert (h : (shardInsert items shard offset ptr).Has q) :
    q = ptr ∨ shard.Has q := by
  unfold shardInsert at h
  split at h
  · exact (has_shardPut h).imp_right has_shardResize
  · exact has_shardPut h

theorem has_shardRemove (h : (shardRemove items shard offset).Has q) : shard.Has q := by
  unfold shardRemove at h
  split at h
  · exact h
  · rcases h with hlru | hbucket
    · exact .inl hlru
    · rcases mem_or_eq_of_mem_set hbucket with hold | heq
      · exact .inr hold
      · cases heq

theorem has_lruRemove (h : (lruRemove shard ptr).Has q) : shard.Has q := h.imp_left mem_of_mem_erase

theorem has_lruPushFront (h : (lruPushFront shard ptr).Has q) : q = ptr ∨ shard.Has q := by
  rcases h with hlru | hbucket
  · exact (mem_cons.mp hlru).imp_right .inl
  · exact .inr (.inr hbucket)

theorem has_lruMoveToFront (h : (lruMoveToFront shard ptr).Has q) : q = ptr ∨ shard.Has q := by
  unfold lruMoveToFront at h
  split at h
  · exact .inr h
  · exact (has_lruPushFront h).imp_right has_lruRemove

theorem has_of_shardFind (h : shardFind items shard offset = some ptr) : shard.Has ptr := by
  have hin : ∀ (positions : List Nat) (found : Nat × Nat),
      findIn items shard.buckets offset positions = some found →
        Bucket.item found.2 ∈ shard.buckets := by
    intro positions found hfound
    induction positions with
    | nil => cases hfound
    | cons pos rest ih =>
      rw [findIn] at hfound
      split at hfound
      · exact ih hfound
      · rename_i hbucket
        split at hfound
        · cases hfound
          exact mem_of_getElem? hbucket
        · exact ih hfound
      · cases hfound
  obtain ⟨found, hfound, rfl⟩ := Option.map_eq_some_iff.mp h
  exact .inr (hin _ found hfound)

/-! ### The LRU list afterwards -/

@[simp] theorem shardInsert_lru : (shardInsert items shard offset ptr).lru = shard.lru := by
  unfold shardInsert shardPut
  split <;> split <;> rfl

@[simp] theorem shardRemove_lru : (shardRemove items shard offset).lru = shard.lru := by
  unfold shardRemove
  split <;> rfl

theorem mem_lruMoveToFront (h : q ∈ shard.lru) : q ∈ (lruMoveToFront shard ptr).lru := by
  unfold lruMoveToFront
  split
  · exact h
  · by_cases heq : q = ptr
    · exact heq ▸ mem_cons_self
    · exact mem_cons_of_mem _ ((mem_erase_of_ne heq).mpr h)

theorem self_mem_lruMoveToFront : ptr ∈ (lruMoveToFront shard ptr).lru := by
  unfold lruMoveToFront
  split
  · next hhead => exact mem_of_head? hhead
  · exact mem_cons_self

end Has

end WaveDB.Storage
