import WaveDB.Storage.BnodeCache

/-!
The blob cache and the page file under it, over whole runs.

A run interleaves reads, peeks, releases and completed evictions of the cache with what a
flush does to the file (node writes, stale regions, superblocks) and with vacuum swaps.
Every resident item was read from the file, and a file that is only appended to keeps its
nodes (`Extends`), so only a swap can make an item stale.
-/

namespace WaveDB.Storage

open WaveDB.Basis HBTrie List Option

/-! ### The system -/

structure CachedFile where
  file : PageFile
  cache : FileBnodeCache

def BnodeCacheShard.pointers (shard : BnodeCacheShard) : List Nat :=
  shard.lru ++ shard.buckets.filterMap fun
    | .item ptr => some ptr
    | _ => none

variable (file : PageFile) (cache : FileBnodeCache)

def FileBnodeCache.residents : List Nat :=
  cache.shards.flatMap BnodeCacheShard.pointers

/-- The file `database_vacuum_rewrite` makes: a new one with the nodes in the order they are
written, and a superblock. -/
def rewrittenFile (payloads : List Bytes) (rootOffset : Nat) : Option PageFile :=
  (payloads.foldlM (fun pf data => (pageFileWriteNode pf data).map Prod.snd)
    pageFileCreate).bind (pageFileWriteSuperblock · rootOffset)

/-- `page_file_vacuum_file_swap`: the handle goes on at the end of the new file, with no
stale regions. -/
def pageFileVacuumFileSwap (new : PageFile) : PageFile := pageFileOpen new .create

/-- One call. A flush is a sequence of node writes, stale regions and a superblock; a write
that fails leaves the position where it stopped. -/
inductive CacheAction where
  | read (offset : Nat)
  | peek (offset : Nat)
  | release (ptr : Nat)
  | completeEvict (offset : Nat)
  | writeNode (data : Bytes)
  | writeFails (stop : Cursor)
  | markStale (offset length : Nat)
  | writeSuperblock (rootOffset : Nat)
  | vacuumSwap (payloads : List Bytes) (rootOffset : Nat)

def cachedFileStep (s : CachedFile) : CacheAction → Option CachedFile
  | .read offset => some { s with cache := (bnodeCacheRead s.file s.cache offset).1 }
  | .peek offset => some { s with cache := (bnodeCachePeek s.cache offset).1 }
  | .release ptr =>
    (s.cache.items[ptr]?).bind fun item =>
      if 0 < item.refCount then
        let released := bnodeCacheRelease s.file s.cache ptr item
        some ⟨released.1, released.2⟩
      else none
  | .completeEvict offset => some { s with cache := bnodeCacheCompleteEvict s.cache offset }
  | .writeNode data =>
    (pageFileWriteNode s.file data).map fun written => { s with file := written.2 }
  | .writeFails stop =>
    if s.file.position ≤ stop.position s.file.blockSize ∧
        stop.position s.file.blockSize ≤ stop.fileSize ∧ stop.offset ≤ s.file.blockSize then
      some { s with
        file := { s.file with
          curBid := stop.bid, curOffset := stop.offset, fileSize := stop.fileSize } }
    else none
  | .markStale offset length => some { s with file := pageFileMarkStale s.file offset length }
  | .writeSuperblock rootOffset =>
    (pageFileWriteSuperblock s.file rootOffset).map fun file => { s with file := file }
  | .vacuumSwap payloads rootOffset =>
    (rewrittenFile payloads rootOffset).map fun new =>
      { s with file := pageFileVacuumFileSwap new }

def cachedFileOpen (maxMemory numShards : Nat) : CachedFile :=
  ⟨file, bnodeCacheCreateFileCache maxMemory numShards⟩

def BnodeCacheItem.Matches (item : BnodeCacheItem) : Prop :=
  pageFileReadBuffer file item.offset = some item.data

instance (file : PageFile) (item : BnodeCacheItem) : Decidable (item.Matches file) :=
  inferInstanceAs (Decidable (pageFileReadBuffer file item.offset = some item.data))

/-- Every resident item holds what the file has under its offset. -/
def CachedFile.Coherent (s : CachedFile) : Prop :=
  ∀ ptr ∈ s.cache.residents, ∀ item, s.cache.items[ptr]? = some item → item.Matches s.file

def keepsResidents (s : CachedFile) : CacheAction → Bool
  | .vacuumSwap payloads rootOffset =>
    (rewrittenFile payloads rootOffset).all fun new =>
      s.cache.residents.all fun ptr =>
        (s.cache.items[ptr]?).all fun item => decide (item.Matches (pageFileVacuumFileSwap new))
  | _ => true

/-! ### The file -/

section File

variable {pf pf' : PageFile}

theorem Extends.of_nodes (hok : pf.Ok) (hblock : pf'.curOffset ≤ pf'.blockSize)
    (hsize : pf'.blockSize = pf.blockSize) (hnodes : pf'.nodes = pf.nodes)
    (hle : pf.position ≤ pf'.position) (hfile : pf'.position ≤ pf'.fileSize) : Extends pf pf' := by
  refine ⟨⟨hsize ▸ hok.blocks, hok.position_pos.trans_le hle, fun node hnode => ?_, hfile⟩, hblock,
    hle, fun o _ => ?_⟩
  · exact (hok.below node (hnodes ▸ hnode)).trans_le hle
  · rw [pageFileReadNode, hnodes, pageFileReadNode]

theorem pageFileCreate_ok : pageFileCreate.Ok :=
  ⟨by decide, by decide, fun _ hnode => (nomatch hnode), by decide⟩

theorem rewrittenFile_ok {payloads : List Bytes} {rootOffset : Nat} {new : PageFile}
    (h : rewrittenFile payloads rootOffset = some new) : new.Ok := by
  obtain ⟨written, hwritten, hsuper⟩ := bind_eq_some_iff.mp h
  have hwrites : ∀ (payloads : List Bytes) (pf : PageFile), pf.Ok → pf.curOffset ≤ pf.blockSize →
      payloads.foldlM (fun pf data => (pageFileWriteNode pf data).map Prod.snd) pf = some written →
        written.Ok := by
    intro payloads
    induction payloads with
    | nil =>
      intro pf hok _ hfold
      cases hfold
      exact hok
    | cons data payloads ih =>
      intro pf hok hblock hfold
      obtain ⟨mid, hmid, hfold⟩ := bind_eq_some_iff.mp hfold
      obtain ⟨⟨offset, _⟩, hwrite, rfl⟩ := map_eq_some_iff.mp hmid
      have hext := pageFileWriteNode_extends hok hblock hwrite
      exact ih _ hext.ok hext.inBlock hfold
  exact (pageFileWriteSuperblock_spec
    (hwrites payloads _ pageFileCreate_ok (by decide) hwritten) hsuper).1

end File

/-! ### The invariant -/

section Pointers

variable {cache : FileBnodeCache} {ptr : Nat}

theorem mem_pointers {shard : BnodeCacheShard} : ptr ∈ shard.pointers ↔ shard.Has ptr := by
  simp only [BnodeCacheShard.pointers, BnodeCacheShard.Has, mem_append, mem_filterMap]
  refine or_congr_right ⟨?_, fun h => ⟨_, h, rfl⟩⟩
  rintro ⟨bucket, hmem, heq⟩
  cases bucket with
  | empty | tombstone => cases heq
  | item q =>
    cases heq
    exact hmem

theorem mem_residents : ptr ∈ cache.residents ↔ ∃ shard ∈ cache.shards, shard.Has ptr := by
  simp only [FileBnodeCache.residents, mem_flatMap, mem_pointers]

end Pointers

/-- Every pointer a shard holds satisfies `P`. -/
def FileBnodeCache.Within (P : Nat → Prop) : Prop :=
  ∀ shard ∈ cache.shards, ∀ ptr, shard.Has ptr → P ptr

/-- The item under the pointer, if there is one, holds what the file has. -/
def PointsOk (items : List BnodeCacheItem) (ptr : Nat) : Prop :=
  ∀ item, items[ptr]? = some item → item.Matches file

/-- Resident items match the file, and an item in use is on the LRU list of a shard. -/
structure CacheOk (file : PageFile) (cache : FileBnodeCache) : Prop where
  shards : 0 < cache.shards.length
  resident : cache.Within (PointsOk file cache.items)
  held : ∀ ptr item, cache.items[ptr]? = some item → 0 < item.refCount →
    ∃ shard ∈ cache.shards, ptr ∈ shard.lru

section Modify

variable {α : Type} {xs : List α} {index : Nat} {f : α → α}

theorem exists_mem_modify {p : α → Prop} (hf : ∀ x, p x → p (f x)) (h : ∃ x ∈ xs, p x) :
    ∃ x ∈ xs.modify index f, p x := by
  obtain ⟨x, hmem, hx⟩ := h
  obtain ⟨i, hi⟩ := mem_iff_getElem?.mp hmem
  have hget : (xs.modify index f)[i]? = some (if index = i then f x else x) := by
    rw [getElem?_modify, hi]
    split <;> rfl
  refine ⟨_, mem_of_getElem? hget, ?_⟩
  split
  · exact hf x hx
  · exact hx

end Modify

section Ops

variable {file : PageFile} {cache cache' : FileBnodeCache} {index ptr offset : Nat}

theorem FileBnodeCache.Within.modifyShard {P : Nat → Prop} {f : BnodeCacheShard → BnodeCacheShard}
    (h : cache.Within P) (hf : ∀ shard q, (f shard).Has q → P q ∨ shard.Has q) :
    (cache.modifyShard index f).Within P := by
  intro shard hshard q hq
  rcases mem_modify_cases hshard with hold | ⟨old, hold, rfl⟩
  · exact h shard hold q hq
  · exact (hf old q hq).elim id (h old (mem_of_getElem? hold) q)

/-- Flags and reference counts are not part of what must match. -/
theorem PointsOk.modify {items : List BnodeCacheItem} {f : BnodeCacheItem → BnodeCacheItem}
    {q : Nat} (h : PointsOk file items q) (ptr : Nat)
    (hf : ∀ item, (f item).offset = item.offset ∧ (f item).data = item.data) :
    PointsOk file (items.modify ptr f) q := by
  intro item hitem
  rw [getElem?_modify] at hitem
  obtain ⟨old, hold, rfl⟩ := map_eq_some_iff.mp hitem
  have hmatch := h old hold
  unfold BnodeCacheItem.Matches at hmatch ⊢
  split
  · rw [(hf old).1, (hf old).2]
    exact hmatch
  · exact hmatch

theorem FileBnodeCache.Within.modifyItem {f : BnodeCacheItem → BnodeCacheItem}
    (h : cache.Within (PointsOk file cache.items)) (ptr : Nat)
    (hf : ∀ item, (f item).offset = item.offset ∧ (f item).data = item.data) :
    (cache.modifyItem ptr f).Within (PointsOk file (cache.items.modify ptr f)) :=
  fun shard hshard q hq => (h shard hshard q hq).modify ptr hf

section Cached

variable (h : CacheOk file cache)

include h

theorem CacheOk.find (hfind : cache.find offset = some ptr) :
    PointsOk file cache.items ptr ∧ ∃ shard, cache.shards[cache.shardIndex offset]? =
      some shard := by
  obtain ⟨shard, hshard, hfound⟩ := bind_eq_some_iff.mp hfind
  exact ⟨h.resident shard (mem_of_getElem? hshard) ptr (has_of_shardFind hfound), shard, hshard⟩

theorem CacheOk.touch (hptr : PointsOk file cache.items ptr)
    (hindex : ∃ shard, cache.shards[index]? = some shard) :
    CacheOk file (cache.touch index ptr) := by
  constructor
  · exact (length_modify ..).symm ▸ h.shards
  · refine FileBnodeCache.Within.modifyShard
      (FileBnodeCache.Within.modifyItem h.resident ptr fun _ => ⟨rfl, rfl⟩) fun shard q hq => ?_
    rcases has_lruMoveToFront hq with rfl | hq
    · exact .inl (hptr.modify q fun _ => ⟨rfl, rfl⟩)
    · exact .inr hq
  · intro q item hitem hheld
    by_cases heq : q = ptr
    · obtain ⟨shard, hshard⟩ := hindex
      have hget : (cache.touch index ptr).shards[index]? = _ :=
        (getElem?_modify_eq ..).trans (congrArg _ hshard)
      exact ⟨_, mem_of_getElem? hget, heq ▸ self_mem_lruMoveToFront⟩
    · change (cache.items.modify ptr _)[q]? = some item at hitem
      rw [getElem?_modify_ne _ _ (Ne.symm heq)] at hitem
      exact exists_mem_modify (fun _ => mem_lruMoveToFront) (h.held q item hitem hheld)

theorem CacheOk.addItem {data : Bytes} (hindex : index < cache.shards.length)
    (hread : pageFileReadBuffer file offset = some data) :
    CacheOk file (cache.addItem index offset data) := by
  have hitems : ∀ q, PointsOk file cache.items q ∨ q = cache.items.length →
      PointsOk file (cache.addItem index offset data).items q := by
    intro q hq item hitem
    change (cache.items ++ [_])[q]? = some item at hitem
    rcases Nat.lt_or_ge q cache.items.length with hlt | hge
    · rw [getElem?_append_left hlt] at hitem
      rcases hq with hold | rfl
      · exact hold item hitem
      · exact absurd hlt (lt_irrefl _)
    · rw [getElem?_append_right hge, getElem?_singleton] at hitem
      obtain ⟨-, heq⟩ := (ite_none_right_eq_some).mp hitem
      cases heq
      exact hread
  constructor
  · exact (length_modify ..).symm ▸ h.shards
  · intro shard hshard q hq
    refine hitems q ?_
    rcases mem_modify_cases hshard with hold | ⟨old, hold, rfl⟩
    · exact .inl (h.resident shard hold q hq)
    · rcases has_lruPushFront hq with rfl | hq
      · exact .inr rfl
      · rcases has_shardInsert hq with rfl | hq
        · exact .inr rfl
        · exact .inl (h.resident old (mem_of_getElem? hold) q hq)
  · intro q item hitem hheld
    change (cache.items ++ [_])[q]? = some item at hitem
    rcases Nat.lt_or_ge q cache.items.length with hlt | hge
    · rw [getElem?_append_left hlt] at hitem
      refine exists_mem_modify (fun shard hq => ?_) (h.held q item hitem hheld)
      change q ∈ _ :: _
      rw [shardInsert_lru]
      exact mem_cons_of_mem _ hq
    · have hq : q = cache.items.length := by
        have hlt := (List.getElem?_eq_some_iff.mp hitem).1
        rw [length_append, length_singleton] at hlt
        omega
      have hget : (cache.addItem index offset data).shards[index]? = _ :=
        (getElem?_modify_eq ..).trans (congrArg _ (getElem?_eq_getElem hindex))
      exact ⟨_, mem_of_getElem? hget, hq ▸ mem_cons_self⟩

theorem CacheOk.evictOne (hevict : Storage.evictOne cache index = some cache') :
    CacheOk file cache' := by
  simp only [Storage.evictOne, bind_eq_bind, bind_eq_some_iff, ite_none_right_eq_some] at hevict
  obtain ⟨shard, -, victimPtr, -, victim, hvictim, ⟨-, hfree, -⟩, heq⟩ := hevict
  cases heq
  constructor
  · change 0 < (cache.shards.modify index _).length
    rw [length_modify]
    exact h.shards
  · refine FileBnodeCache.Within.modifyShard
      (FileBnodeCache.Within.modifyItem h.resident victimPtr fun _ => ⟨rfl, rfl⟩)
      fun shard q hq => ?_
    exact .inr (has_lruRemove (has_shardRemove hq))
  · intro q item hitem hheld
    change (cache.items.modify victimPtr _)[q]? = some item at hitem
    by_cases heq : victimPtr = q
    · subst heq
      rw [getElem?_modify_eq, hvictim] at hitem
      cases hitem
      exact absurd hheld (by simp [hfree])
    · rw [getElem?_modify_ne _ _ heq] at hitem
      refine exists_mem_modify (fun shard hq => ?_) (h.held q item hitem hheld)
      rw [evictFrom, shardRemove_lru, lruRemove]
      exact (mem_erase_of_ne (Ne.symm heq)).mpr hq

theorem CacheOk.evictLoop {fuel : Nat} : CacheOk file (Storage.evictLoop index fuel cache) := by
  induction fuel generalizing cache with
  | zero => exact h
  | succ fuel ih =>
    rw [Storage.evictLoop]
    split
    · exact h
    · next hevict => exact ih (h.evictOne hevict)

theorem CacheOk.read (offset : Nat) : CacheOk file (bnodeCacheRead file cache offset).1 := by
  unfold bnodeCacheRead
  split
  · next hfind => exact h.touch (h.find hfind).1 (h.find hfind).2
  · split
    · exact h
    · next hread => exact (h.addItem (Nat.mod_lt _ h.shards) hread).evictLoop

theorem CacheOk.peek (offset : Nat) : CacheOk file (bnodeCachePeek cache offset).1 := by
  unfold bnodeCachePeek
  split
  · next hfind => exact h.touch (h.find hfind).1 (h.find hfind).2
  · exact h

/-- The same shards and items over a file that still has their bytes. -/
theorem CacheOk.onto {file' : PageFile}
    (hread : ∀ offset data, pageFileReadBuffer file offset = some data → pageFileReadBuffer file'
      offset = some data)
    (hshards : cache'.shards = cache.shards) (hitems : cache'.items = cache.items) :
    CacheOk file' cache' := by
  constructor
  · exact hshards ▸ h.shards
  · intro shard hshard q hq item hitem
    rw [hshards] at hshard
    rw [hitems] at hitem
    exact hread _ _ (h.resident shard hshard q hq item hitem)
  · rw [hshards, hitems]
    exact h.held

theorem CacheOk.dropReference : CacheOk file (cache.modifyItem ptr fun item =>
      { item with refCount := item.refCount - 1 }) := by
  constructor
  · exact h.shards
  · exact h.resident.modifyItem ptr fun _ => ⟨rfl, rfl⟩
  · intro q item hitem hheld
    change (cache.items.modify ptr _)[q]? = some item at hitem
    rw [getElem?_modify] at hitem
    obtain ⟨old, hold, rfl⟩ := map_eq_some_iff.mp hitem
    refine h.held q old hold ?_
    split at hheld
    · exact Nat.lt_of_lt_of_le hheld (Nat.sub_le ..)
    · exact hheld

end Cached

theorem CacheOk.modifyShard {f : BnodeCacheShard → BnodeCacheShard} (h : CacheOk file cache)
    (hhas : ∀ shard q, (f shard).Has q → PointsOk file cache.items q ∨ shard.Has q)
    (hlru : ∀ q item, cache.items[q]? = some item → 0 < item.refCount →
      ∀ shard : BnodeCacheShard, q ∈ shard.lru → q ∈ (f shard).lru) :
    CacheOk file (cache.modifyShard index f) where
  shards := (length_modify ..).symm ▸ h.shards
  resident := h.resident.modifyShard hhas
  held := fun q item hitem hheld =>
    exists_mem_modify (hlru q item hitem hheld) (h.held q item hitem hheld)

theorem CacheOk.release (h : CacheOk file cache) {item : BnodeCacheItem}
    (hitem : cache.items[ptr]? = some item) (hheld : 0 < item.refCount) :
    CacheOk (bnodeCacheRelease file cache ptr item).1
      (bnodeCacheRelease file cache ptr item).2 := by
  have hreleased : CacheOk file (cache.modifyItem ptr _) := h.dropReference
  unfold bnodeCacheRelease
  dsimp only
  split
  · rename_i hlast
    -- the stale region is not part of what is read
    refine (hreleased.modifyShard (f := dropInvalidated _ ptr item)
      (fun shard q hq => .inr (has_shardRemove (has_lruRemove hq)))
      (fun q other hother hpos shard hq => ?_)).onto (fun _ _ hread => hread) rfl rfl
    rw [dropInvalidated, lruRemove, shardRemove_lru, mem_erase_of_ne]
    · exact hq
    · rintro rfl
      change (cache.items.modify q _)[q]? = some other at hother
      rw [getElem?_modify_eq, hitem] at hother
      cases hother
      simp [hlast.1] at hpos
  · split
    · obtain ⟨shard, hshard, hlru⟩ := h.held ptr item hitem hheld
      have hptr := h.resident shard hshard ptr (.inl hlru)
      refine hreleased.modifyShard (fun shard q hq => ?_)
        (fun q other hother hpos shard hq => mem_lruMoveToFront hq)
      rcases has_lruMoveToFront hq with rfl | hq
      · exact .inl (hptr.modify q fun _ => ⟨rfl, rfl⟩)
      · exact .inr hq
    · exact hreleased

end Ops

structure CacheInv (s : CachedFile) : Prop where
  file : s.file.Ok
  inBlock : s.file.curOffset ≤ s.file.blockSize
  cache : CacheOk s.file s.cache

/-! ### Steps -/

section Steps

variable {s s' : CachedFile} {file : PageFile}

theorem CacheInv.open (hok : file.Ok) (hblock : file.curOffset ≤ file.blockSize)
    (maxMemory numShards : Nat) : CacheInv (cachedFileOpen file maxMemory numShards) := by
  refine ⟨hok, hblock, ?_, fun shard hshard q hq => ?_, nofun⟩
  · change 0 < (replicate _ _).length
    rw [length_replicate]
    split <;> omega
  · rw [eq_of_mem_replicate hshard] at hq
    rcases hq with hlru | hbucket
    · cases hlru
    · cases eq_of_mem_replicate hbucket

theorem CacheInv.extend (h : CacheInv s) (hext : Extends s.file file) :
    CacheInv { s with file := file } := by
  refine ⟨hext.ok, hext.inBlock, h.cache.onto (fun offset data hread => ?_) rfl rfl⟩
  obtain ⟨payload, hpayload, heq⟩ := map_eq_some_iff.mp hread
  rw [pageFileReadBuffer, hext.read offset (pageFileReadNode_lt h.file hpayload), hpayload,
    map_some, heq]

theorem CacheInv.swap {payloads : List Bytes} {rootOffset : Nat} {new : PageFile} (h : CacheInv s)
    (hnew : rewrittenFile payloads rootOffset = some new)
    (hkeeps : keepsResidents s (.vacuumSwap payloads rootOffset)) :
    CacheInv { s with file := pageFileVacuumFileSwap new } := by
  have hok := rewrittenFile_ok hnew
  simp only [keepsResidents, hnew, all_some, List.all_eq_true, Option.all_eq_true,
    decide_eq_true_eq] at hkeeps
  refine ⟨(pageFileOpen_spec .create hok).1, ?_, h.cache.shards, ?_, h.cache.held⟩
  · exact (Nat.mod_lt _ (Nat.zero_lt_of_lt hok.blocks)).le
  · intro shard hshard q hq item hitem
    exact hkeeps q (mem_residents.mpr ⟨shard, hshard, hq⟩) item hitem

theorem CacheInv.step {a : CacheAction} (h : CacheInv s) (hkeeps : keepsResidents s a)
    (hstep : cachedFileStep s a = some s') : CacheInv s' := by
  cases a with
  | read offset =>
    cases hstep
    exact ⟨h.file, h.inBlock, h.cache.read offset⟩
  | peek offset =>
    cases hstep
    exact ⟨h.file, h.inBlock, h.cache.peek offset⟩
  | release ptr =>
    obtain ⟨item, hitem, hstep⟩ := bind_eq_some_iff.mp hstep
    obtain ⟨hheld, heq⟩ := ite_none_right_eq_some.mp hstep
    cases heq
    have hcache := h.cache.release hitem hheld
    have hfile : (bnodeCacheRelease s.file s.cache ptr item).1.Ok ∧
        (bnodeCacheRelease s.file s.cache ptr item).1.curOffset ≤
          (bnodeCacheRelease s.file s.cache ptr item).1.blockSize := by
      unfold bnodeCacheRelease
      dsimp only
      split
      · exact ⟨⟨h.file.blocks, h.file.position_pos, h.file.below, h.file.inFile⟩, h.inBlock⟩
      · split <;> exact ⟨h.file, h.inBlock⟩
    exact ⟨hfile.1, hfile.2, hcache⟩
  | completeEvict offset =>
    cases hstep
    refine ⟨h.file, h.inBlock, ?_⟩
    exact h.cache.modifyShard (fun _ _ hq => .inr hq) fun _ _ _ _ _ hq => hq
  | writeNode data =>
    obtain ⟨⟨offset, file⟩, hwrite, rfl⟩ := map_eq_some_iff.mp hstep
    exact h.extend (pageFileWriteNode_extends h.file h.inBlock hwrite)
  | writeFails stop =>
    obtain ⟨⟨hle, hfile, hblock⟩, heq⟩ := ite_none_right_eq_some.mp hstep
    cases heq
    exact h.extend (.of_nodes h.file hblock rfl rfl hle hfile)
  | markStale offset length =>
    cases hstep
    exact h.extend (.of_nodes h.file h.inBlock rfl rfl le_rfl h.file.inFile)
  | writeSuperblock rootOffset =>
    obtain ⟨file, hwrite, rfl⟩ := map_eq_some_iff.mp hstep
    obtain ⟨hok, hposition, hnodes, -⟩ := pageFileWriteSuperblock_spec h.file hwrite
    have hsame : file.curOffset = s.file.curOffset ∧ file.blockSize = s.file.blockSize := by
      simp only [pageFileWriteSuperblock] at hwrite
      split at hwrite
      · cases hwrite
        exact ⟨rfl, rfl⟩
      · split at hwrite
        · cases hwrite
        · cases hwrite
          exact ⟨rfl, rfl⟩
    refine h.extend (.of_nodes h.file ?_ hsame.2 hnodes hposition.ge hok.inFile)
    rw [hsame.1, hsame.2]
    exact h.inBlock
  | vacuumSwap payloads rootOffset =>
    obtain ⟨new, hnew, rfl⟩ := map_eq_some_iff.mp hstep
    exact h.swap hnew hkeeps

end Steps

/-! ### Whole runs -/

/-- In a run whose swaps keep the bytes under the offsets of the resident items, every resident
item holds what the current file has under its offset. -/
theorem cached_items_match_file {file : PageFile} (hok : file.Ok)
    (hblock : file.curOffset ≤ file.blockSize) (maxMemory numShards : Nat) {s : CachedFile}
    (hrun : Reaches cachedFileStep keepsResidents (cachedFileOpen file maxMemory numShards) s) :
    s.Coherent := by
  have hinv : CacheInv s := hrun.invariant CacheInv (CacheInv.open hok hblock maxMemory numShards)
    fun _ _ _ h hkeeps hstep => h.step hkeeps hstep
  intro ptr hptr
  obtain ⟨shard, hshard, hhas⟩ := mem_residents.mp hptr
  exact hinv.cache.resident shard hshard ptr hhas

/-- Two nodes, both read through the cache; one item is evicted. The rewritten file has
the resident node at its old offset. -/
theorem cached_items_match_file_swap :
    ∃ s, Reaches cachedFileStep keepsResidents (cachedFileOpen pageFileCreate 6 4) s ∧
      s.file.nodes = [(8197, [2]), (8192, [1])] ∧ s.cache.residents ≠ [] ∧ s.Coherent := by
  obtain ⟨s, hs, hnodes, hresident⟩ : ∃ s, Reaches cachedFileStep keepsResidents
      (cachedFileOpen pageFileCreate 6 4) s ∧
        s.file.nodes = [(8197, [2]), (8192, [1])] ∧ s.cache.residents ≠ [] :=
    exists_reaches [.writeNode [1], .writeNode [2], .writeSuperblock 8197, .read 8192, .release 0,
      .read 8197, .completeEvict 8192, .markStale 8192 1, .vacuumSwap [[1], [2]] 8197]
      (by decide +kernel)
  exact ⟨s, hs, hnodes, hresident, cached_items_match_file pageFileCreate_ok (by decide) 6 4 hs⟩

/-- The vacuum writes the two nodes in the other order: the cache keeps the bytes of the old
file under the offsets of the new one. -/
theorem swap_leaves_stale_items :
    ∃ s, Reaches cachedFileStep always (cachedFileOpen pageFileCreate 1024 4) s ∧
      ¬ s.Coherent := by
  obtain ⟨s, hs, hp⟩ : ∃ s, Reaches cachedFileStep always
      (cachedFileOpen pageFileCreate 1024 4) s ∧
      (s.cache.residents.any fun ptr => (s.cache.items[ptr]?).any fun item =>
        !decide (item.Matches s.file)) = true :=
    exists_reaches [.writeNode [1], .writeNode [2], .writeSuperblock 8197, .read 8192, .release 0,
      .vacuumSwap [[2], [1]] 8197] (by decide +kernel)
  obtain ⟨ptr, hptr, hitem⟩ := any_eq_true.mp hp
  refine ⟨s, hs, fun hcoherent => ?_⟩
  cases hget : s.cache.items[ptr]? with
  | none => simp [hget] at hitem
  | some item =>
    rw [hget, any_some, Bool.not_eq_true', decide_eq_false_iff_not] at hitem
    exact hitem (hcoherent ptr hptr item hget)

end WaveDB.Storage
