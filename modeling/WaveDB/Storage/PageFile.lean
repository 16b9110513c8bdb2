import Mathlib.Algebra.Group.Nat.Defs
import WaveDB.HBTrie.Version

/-!
The page file (`Storage/page_file.c`, `Storage/stale_region.c`): where nodes are placed and
which offsets can be read.

Nodes are appended block by block; each block ends in a trailer. The bytes of the blocks
are left out: `nodes` holds the payloads that `page_file_read_node` gives back, by offset.
`pageFileWriteNode_spec` is the contract of a write that starts in a block with room: the
payload can be read at the offset returned, nothing else changes, and the offset is fresh.
A write that starts in a block without room reports an offset its data is not at.
-/

namespace WaveDB.Storage

open HBTrie Option

/-! ### Stale regions -/

structure StaleRegion where
  offset : Nat
  length : Nat
deriving DecidableEq

def StaleRegion.stop (r : StaleRegion) : Nat := r.offset + r.length

def endsBefore (offset : Nat) (r : StaleRegion) : Bool := decide (r.stop < offset)

def startsBy (stop : Nat) (r : StaleRegion) : Bool := decide (r.offset ≤ stop)

/-- `stale_region_mgr_t`; the array's capacity is left out. -/
structure StaleRegionMgr where
  regions : List StaleRegion
  totalStaleBytes : UInt64
deriving DecidableEq

def StaleRegionMgr.create : StaleRegionMgr := ⟨[], 0⟩

def mergedRegion (offset length : Nat) (first last : StaleRegion) : StaleRegion :=
  let start := min offset first.offset
  ⟨start, max (offset + length) last.stop - start⟩

/-- The regions of `merging` and the new one become one; without any, the new one is inserted. -/
def StaleRegionMgr.place (total : UInt64) (left merging right : List StaleRegion)
    (offset length : Nat) : StaleRegionMgr :=
  match merging, merging.getLast? with
  | first :: _, some last =>
    let merged := mergedRegion offset length first last
    { regions := left ++ merged :: right
      totalStaleBytes :=
        merging.foldl (fun total r => total - UInt64.ofNat r.length) total +
          UInt64.ofNat merged.length }
  | _, _ =>
    { regions := left ++ ⟨offset, length⟩ :: right
      totalStaleBytes := total + UInt64.ofNat length }

/-- `stale_region_add` -/
def StaleRegionMgr.add (mgr : StaleRegionMgr) (offset length : Nat) : StaleRegionMgr :=
  if length = 0 ∨ 2 ^ 64 ≤ offset + length then mgr
  else
    let rest := mgr.regions.dropWhile (endsBefore offset)
    place mgr.totalStaleBytes (mgr.regions.takeWhile (endsBefore offset))
      (rest.takeWhile (startsBy (offset + length))) (rest.dropWhile (startsBy (offset + length)))
      offset length

/-- The length of the blob `stale_region_serialize` makes. -/
def staleBlobLength (mgr : StaleRegionMgr) : Nat := 16 + 16 * mgr.regions.length

/-! ### The file -/

def indexBlkMetaSize : Nat := 16

/-- `page_file_t` and what of the file's content is read back. -/
structure PageFile where
  blockSize : Nat
  curBid : Nat
  curOffset : Nat
  fileSize : Nat
  nodes : List (Nat × Bytes)
  stale : StaleRegionMgr
  /-- `root_offset` of the newest superblock. -/
  rootOffset : Nat
deriving DecidableEq

/-- `page_file_open` on a new file, as `database_create` opens it: 4096 bytes a block, two
superblocks. -/
def pageFileCreate : PageFile :=
  { blockSize := 4096, curBid := 2, curOffset := 0, fileSize := 8192, nodes := []
    stale := .create, rootOffset := 0 }

variable (pf : PageFile)

/-- `page_file_open` on an existing file: writing goes on at its end. The stale regions are
what is read from the blob of the superblock. -/
def pageFileOpen (stale : StaleRegionMgr) : PageFile :=
  { pf with
    curBid := pf.fileSize / pf.blockSize
    curOffset := pf.fileSize % pf.blockSize
    stale := stale }

/-- The largest file offset: past it `pwrite` fails. -/
def maxFileOffset : Nat := 2 ^ 63 - 1

/-- Where the write loop stands: the block, the offset in it, and the file size. -/
structure Cursor where
  bid : Nat
  offset : Nat
  fileSize : Nat

def Cursor.pwrite (blockSize n : Nat) (cur : Cursor) : Option Cursor :=
  let stop := cur.bid * blockSize + cur.offset + n
  if maxFileOffset < stop then none
  else some { cur with offset := cur.offset + n, fileSize := max cur.fileSize stop }

def Cursor.endBlock (blockSize : Nat) (cur : Cursor) : Option Cursor :=
  let stop := (cur.bid + 1) * blockSize
  if maxFileOffset < stop then none
  else some { bid := cur.bid + 1, offset := 0, fileSize := max cur.fileSize stop }

/-- The block IDs used so far, the last one first; `none` when the array is full. -/
def recordBid (maxBids bid : Nat) (bids : List Nat) : Option (List Nat) :=
  if bids.head? = some bid then some bids
  else if maxBids ≤ bids.length then none
  else some (bid :: bids)

/-- One iteration of `while (written < total_len)` in `page_file_write_node`: what fits into
the current block. The size field and the payload are one run of bytes here. -/
def writeBlock (blockSize totalLen maxBids : Nat) (cur : Cursor) (written : Nat)
    (bids : List Nat) : Option (Cursor × Nat × List Nat) := do
  let cur :=
    if blockSize - cur.offset ≤ indexBlkMetaSize then { cur with bid := cur.bid + 1, offset := 0 }
    else cur
  let usable := min (blockSize - cur.offset - indexBlkMetaSize) (totalLen - written)
  let cur ← cur.pwrite blockSize usable
  let bids ← recordBid maxBids cur.bid bids
  if blockSize - cur.offset ≤ indexBlkMetaSize ∨
      (totalLen ≤ written + usable ∧ 1 < bids.length) then
    (cur.endBlock blockSize).map fun cur => (cur, written + usable, bids)
  else some (cur, written + usable, bids)

def writeNodeLoop (blockSize totalLen maxBids : Nat) :
    Nat → Cursor → Nat → List Nat → Option Cursor
  | 0, cur, written, _ => if written < totalLen then none else some cur
  | fuel + 1, cur, written, bids =>
    if written < totalLen then
      (writeBlock blockSize totalLen maxBids cur written bids).bind fun (cur, written, bids) =>
        writeNodeLoop blockSize totalLen maxBids fuel cur written bids
    else some cur

/-- `page_file_write_node` with room for 64 block IDs: the offset and the file afterwards. -/
def pageFileWriteNode (data : Bytes) : Option (Nat × PageFile) :=
  if data = [] ∨ 2 ^ 32 ≤ data.length then none
  else
    let offset := pf.curBid * pf.blockSize + pf.curOffset
    let totalLen := 4 + data.length
    (writeNodeLoop pf.blockSize totalLen 64 totalLen
        ⟨pf.curBid, pf.curOffset, pf.fileSize⟩ 0 []).map
      fun cur =>
        (offset,
          { pf with
            curBid := cur.bid
            curOffset := cur.offset
            fileSize := cur.fileSize
            -- without room the data starts in the next block, and nothing is at `offset`
            nodes :=
              if pf.blockSize - pf.curOffset ≤ indexBlkMetaSize then pf.nodes
              else (offset, data) :: pf.nodes })

def pageFileReadNode (offset : Nat) : Option Bytes := pf.nodes.lookup offset

def pageFileMarkStale (offset length : Nat) : PageFile :=
  { pf with stale := pf.stale.add offset length }

/-- `page_file_write_superblock`: the new root, and the stale regions in the block of the
superblock or, if they do not fit, in new blocks at the end of the file. -/
def pageFileWriteSuperblock (rootOffset : Nat) : Option PageFile :=
  let blob := staleBlobLength pf.stale
  if 88 + blob ≤ pf.blockSize then some { pf with rootOffset := rootOffset }
  else
    let blobOffset := (pf.fileSize + pf.blockSize - 1) / pf.blockSize * pf.blockSize
    let stop := blobOffset + max pf.blockSize blob
    if maxFileOffset < stop then none
    else some { pf with rootOffset := rootOffset, fileSize := stop }

/-! ### Positions -/

def PageFile.position : Nat := pf.curBid * pf.blockSize + pf.curOffset

/-- The current block has room for data before its trailer. -/
def PageFile.HasRoom : Prop := pf.curOffset + indexBlkMetaSize < pf.blockSize

instance (pf : PageFile) : Decidable pf.HasRoom :=
  inferInstanceAs (Decidable (pf.curOffset + indexBlkMetaSize < pf.blockSize))

/-- Nodes lie below the position, and the position in the file. -/
structure PageFile.Ok (pf : PageFile) : Prop where
  blocks : indexBlkMetaSize < pf.blockSize
  position_pos : 0 < pf.position
  below : ∀ node ∈ pf.nodes, node.1 < pf.position
  inFile : pf.position ≤ pf.fileSize

def Cursor.position (blockSize : Nat) (cur : Cursor) : Nat := cur.bid * blockSize + cur.offset

variable {blockSize : Nat} {cur cur' : Cursor} {pf pf' : PageFile} {data : Bytes}

theorem Cursor.pwrite_eq_some {n : Nat} (h : cur.pwrite blockSize n = some cur') :
    cur'.bid = cur.bid ∧ cur'.offset = cur.offset + n ∧
      cur'.position blockSize = cur.position blockSize + n ∧
      cur'.position blockSize ≤ cur'.fileSize ∧ cur'.position blockSize ≤ maxFileOffset := by
  simp only [pwrite, ite_none_left_eq_some, some.injEq] at h
  obtain ⟨hmax, rfl⟩ := h
  refine ⟨rfl, rfl, ?_, ?_, ?_⟩
  · exact (Nat.add_assoc ..).symm
  · exact (Nat.add_assoc ..).symm.le.trans (Nat.le_max_right ..)
  · exact (Nat.add_assoc ..).symm.le.trans (not_lt.mp hmax)

/-- The cursor is in the file, in a block with room. -/
structure Cursor.Ok (blockSize : Nat) (cur : Cursor) : Prop where
  room : cur.offset + indexBlkMetaSize < blockSize
  inFile : cur.position blockSize ≤ cur.fileSize

theorem writeBlock_eq_some {totalLen maxBids written written' : Nat} {bids bids' : List Nat}
    (hroom : cur.offset + indexBlkMetaSize < blockSize) (hwritten : written < totalLen)
    (h : writeBlock blockSize totalLen maxBids cur written bids = some (cur', written', bids')) :
    cur'.Ok blockSize ∧ cur.position blockSize < cur'.position blockSize ∧
      cur.position blockSize < maxFileOffset := by
  have hstay : ¬ blockSize - cur.offset ≤ indexBlkMetaSize := by omega
  simp only [writeBlock, if_neg hstay] at h
  obtain ⟨mid, hmid, h⟩ := bind_eq_some_iff.mp h
  obtain ⟨hbid, hoffset, hposition, hfile, hmax⟩ := Cursor.pwrite_eq_some hmid
  obtain ⟨used, -, h⟩ := bind_eq_some_iff.mp h
  have hforward : cur.position blockSize < mid.position blockSize := by omega
  split at h
  · obtain ⟨last, hlast, heq⟩ := map_eq_some_iff.mp h
    cases heq
    simp only [Cursor.endBlock, ite_none_left_eq_some, some.injEq] at hlast
    obtain ⟨hend, rfl⟩ := hlast
    have hmidPosition : mid.position blockSize = mid.bid * blockSize + mid.offset := rfl
    have hnext : (mid.bid + 1) * blockSize = mid.bid * blockSize + blockSize := Nat.succ_mul ..
    refine ⟨⟨by simpa using by omega, Nat.le_max_right ..⟩, ?_, by omega⟩
    change cur.position blockSize < (mid.bid + 1) * blockSize + 0
    omega
  · rename_i hnot
    cases h
    exact ⟨⟨by omega, hfile⟩, hforward, by omega⟩

/-- Without room the data starts in the next block. -/
theorem writeBlock_full {totalLen maxBids written : Nat} {bids : List Nat}
    (hblocks : indexBlkMetaSize < blockSize) (hfull : blockSize - cur.offset ≤ indexBlkMetaSize) :
    writeBlock blockSize totalLen maxBids cur written bids =
      writeBlock blockSize totalLen maxBids { cur with bid := cur.bid + 1, offset := 0 } written
        bids := by
  have hroom : ¬ blockSize - 0 ≤ indexBlkMetaSize := by omega
  simp only [writeBlock, if_pos hfull, if_neg hroom]

/-- The loop moves forward and stops in a block with room. -/
theorem writeNodeLoop_eq_some {totalLen maxBids fuel written : Nat} {bids : List Nat}
    (hcur : cur.Ok blockSize)
    (h : writeNodeLoop blockSize totalLen maxBids fuel cur written bids = some cur') :
    cur'.Ok blockSize ∧ cur.position blockSize ≤ cur'.position blockSize ∧
      (written < totalLen → cur.position blockSize < cur'.position blockSize ∧
        cur.position blockSize < maxFileOffset) := by
  induction fuel generalizing cur written bids with
  | zero =>
    simp only [writeNodeLoop, ite_none_left_eq_some, some.injEq] at h
    obtain ⟨hdone, rfl⟩ := h
    exact ⟨hcur, le_rfl, fun hlt => absurd hlt hdone⟩
  | succ fuel ih =>
    rw [writeNodeLoop] at h
    split at h
    · rename_i hlt
      obtain ⟨⟨mid, written', bids'⟩, hblock, hrest⟩ := bind_eq_some_iff.mp h
      obtain ⟨hmid, hforward, hmax⟩ := writeBlock_eq_some hcur.room hlt hblock
      obtain ⟨hend, hle, -⟩ := ih hmid hrest
      exact ⟨hend, by omega, fun _ => ⟨by omega, hmax⟩⟩
    · rename_i hdone
      cases h
      exact ⟨hcur, le_rfl, fun hlt => absurd hlt hdone⟩

/-! ### The operations -/

/-- A node was appended under the offset. -/
structure Appended (pf : PageFile) (data : Bytes) (offset : Nat) (pf' : PageFile) : Prop where
  ok : pf'.Ok
  room : pf'.HasRoom
  offset_eq : offset = pf.position
  position_lt : pf.position < pf'.position
  offset_lt : offset < 256 ^ 8
  nodes : pf'.nodes = (offset, data) :: pf.nodes
  rootOffset : pf'.rootOffset = pf.rootOffset

theorem pageFileWriteNode_spec {offset : Nat} (hok : pf.Ok) (hroom : pf.HasRoom)
    (h : pageFileWriteNode pf data = some (offset, pf')) : Appended pf data offset pf' := by
  simp only [pageFileWriteNode, ite_none_left_eq_some, map_eq_some_iff] at h
  obtain ⟨-, cur, hloop, heq⟩ := h
  have hcur : Cursor.Ok pf.blockSize ⟨pf.curBid, pf.curOffset, pf.fileSize⟩ := ⟨hroom, hok.inFile⟩
  obtain ⟨hend, -, hforward⟩ := writeNodeLoop_eq_some hcur hloop
  obtain ⟨hlt, hmax⟩ := hforward (by omega)
  have hstay : ¬ pf.blockSize - pf.curOffset ≤ indexBlkMetaSize := by
    have hroom' : pf.curOffset + indexBlkMetaSize < pf.blockSize := hroom
    omega
  rw [if_neg hstay] at heq
  cases heq
  refine ⟨⟨hok.blocks, (Nat.zero_le _).trans_lt hlt, fun node hnode => ?_, hend.inFile⟩, hend.room,
    rfl, hlt, hmax.trans (by decide), rfl, rfl⟩
  rcases List.mem_cons.mp hnode with rfl | hnode
  · exact hlt
  · exact (hok.below node hnode).trans hlt

/-- The nodes of a file stay readable as long as it is only appended to. -/
structure Extends (pf pf' : PageFile) : Prop where
  ok : pf'.Ok
  inBlock : pf'.curOffset ≤ pf'.blockSize
  position_le : pf.position ≤ pf'.position
  read : ∀ o, o < pf.position → pageFileReadNode pf' o = pageFileReadNode pf o

theorem pageFileWriteNode_extends {offset : Nat} (hok : pf.Ok)
    (hblock : pf.curOffset ≤ pf.blockSize) (h : pageFileWriteNode pf data = some (offset, pf')) :
    Extends pf pf' := by
  by_cases hroom : pf.HasRoom
  · have happ := pageFileWriteNode_spec hok hroom h
    have hend : pf'.curOffset + indexBlkMetaSize < pf'.blockSize := happ.room
    refine ⟨happ.ok, by omega, happ.position_lt.le, fun o ho => ?_⟩
    have hne : (o == offset) = false := beq_false_of_ne (happ.offset_eq ▸ ho.ne)
    rw [pageFileReadNode, happ.nodes, List.lookup_cons, hne, pageFileReadNode]
  · have hfull : pf.blockSize - pf.curOffset ≤ indexBlkMetaSize := by
      unfold PageFile.HasRoom at hroom
      omega
    simp only [pageFileWriteNode, ite_none_left_eq_some, map_eq_some_iff] at h
    obtain ⟨-, cur, hloop, heq⟩ := h
    rw [if_pos hfull] at heq
    cases heq
    -- the first block of the loop is the next one
    rw [show 4 + data.length = (3 + data.length) + 1 by omega, writeNodeLoop,
      if_pos (Nat.succ_pos _)] at hloop
    obtain ⟨⟨mid, written, bids⟩, hfirst, hrest⟩ := bind_eq_some_iff.mp hloop
    rw [writeBlock_full hok.blocks hfull] at hfirst
    obtain ⟨hmid, hforward, -⟩ :=
      writeBlock_eq_some (by simpa using hok.blocks) (Nat.succ_pos _) hfirst
    obtain ⟨hend, hle, -⟩ := writeNodeLoop_eq_some hmid hrest
    have hstart : pf.position ≤ cur.position pf.blockSize := by
      have hnext : (pf.curBid + 1) * pf.blockSize = pf.curBid * pf.blockSize + pf.blockSize :=
        Nat.succ_mul ..
      have hmove : Cursor.position pf.blockSize ⟨pf.curBid + 1, 0, pf.fileSize⟩ =
          (pf.curBid + 1) * pf.blockSize := Nat.add_zero _
      have hposition : pf.position = pf.curBid * pf.blockSize + pf.curOffset := rfl
      rw [hmove] at hforward
      omega
    have hin := hend.room
    refine ⟨⟨hok.blocks, hok.position_pos.trans_le hstart, fun node hnode => ?_, hend.inFile⟩, ?_,
      hstart, fun _ _ => rfl⟩
    · exact (hok.below node hnode).trans_le hstart
    · change cur.offset ≤ pf.blockSize
      omega

theorem pageFileReadNode_lt {o : Nat} (hok : pf.Ok) (h : pageFileReadNode pf o = some data) :
    o < pf.position := by
  obtain ⟨before, after, heq, -⟩ := List.lookup_eq_some_iff.mp h
  exact hok.below (o, data) (heq ▸ List.mem_append_right _ List.mem_cons_self)

theorem pageFileWriteSuperblock_spec {rootOffset : Nat} (hok : pf.Ok)
    (h : pageFileWriteSuperblock pf rootOffset = some pf') :
    pf'.Ok ∧ pf'.position = pf.position ∧ pf'.nodes = pf.nodes ∧ pf'.rootOffset = rootOffset := by
  simp only [pageFileWriteSuperblock] at h
  split at h
  · cases h
    exact ⟨⟨hok.blocks, hok.position_pos, hok.below, hok.inFile⟩, rfl, rfl, rfl⟩
  · split at h
    · cases h
    · cases h
      refine ⟨⟨hok.blocks, hok.position_pos, hok.below, ?_⟩, rfl, rfl, rfl⟩
      have hblocks := hok.blocks
      have hround := Nat.lt_mul_div_succ (pf.fileSize + pf.blockSize - 1)
        (Nat.zero_lt_of_lt hblocks)
      rw [Nat.mul_add, Nat.mul_one, Nat.mul_comm pf.blockSize] at hround
      refine hok.inFile.trans ?_
      simp only
      omega

/-- Reopening moves the position to the end of the file. -/
theorem pageFileOpen_spec (stale : StaleRegionMgr) (hok : pf.Ok) :
    (pageFileOpen pf stale).Ok ∧ pf.position ≤ (pageFileOpen pf stale).position := by
  have hend : (pageFileOpen pf stale).position = pf.fileSize := Nat.div_add_mod' ..
  have hle : pf.position ≤ (pageFileOpen pf stale).position := hend ▸ hok.inFile
  refine ⟨⟨hok.blocks, hok.position_pos.trans_le hle, fun node hnode => ?_, hend.le⟩, hle⟩
  exact (hok.below node hnode).trans_le hle

end WaveDB.Storage
