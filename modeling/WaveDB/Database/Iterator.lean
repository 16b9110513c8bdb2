import WaveDB.Basis.Cursor
import WaveDB.HBTrie.Items
import WaveDB.HBTrie.PathOrder

/-!
Scans over the trie (`Database/database_iterator.c`).

An iterator keeps a stack of frames, one for each B+tree node between the root and the current
entry, the top first. One pass of the loops of `database_scan_next`, `database_scan_prev` and
`seek_to_rightmost` is one move of a cursor; a call of `database_scan_next` or
`database_scan_prev` moves until a leaf is emitted or the stack is empty. Both rebuild the path
of a leaf from the indices in the frames and judge it against the bounds of the scan.

The seeks of bounded scans put the frames in place before the first call; where they give up,
the walk starts from the end of the trie.
-/

namespace WaveDB.Database

open WaveDB.Basis HBTrie Workers

/-! ### Frames -/

/-- `iterator_frame_t` with the B+tree node it walks; the index `SIZE_MAX` is `none`. The chunks
that lead to the node (`above`) are not in the source: no step reads them. -/
structure IteratorFrame where
  bnode : Bnode
  entryIndex : Option Nat
  valuePending : Bool
  above : List Chunk

variable (bnode : Bnode)

/-- The frame that `push_frame` and `push_bnode_frame` push. -/
def newFrame (above : List Chunk) : IteratorFrame where
  bnode := bnode
  entryIndex := some 0
  valuePending := false
  above := above

variable (cs : ChunkSize) (load : Loader)

def IteratorFrame.below (frame : IteratorFrame) (e : BnodeEntry) : Option IteratorFrame :=
  (e.loadedBelow load).map fun child => newFrame child (frame.above ++ e.keyChunks)

def decrement : Nat → Option Nat
  | 0 => none
  | index + 1 => some index

/-- `entry_index + 1`, which wraps from `SIZE_MAX`. -/
def increment : Option Nat → Nat
  | none => 0
  | some index => index + 1

def bnodeGet (index : Option Nat) : Option BnodeEntry :=
  index.bind fun i => bnode.entries[i]?

def keyChunk (index : Option Nat) : Option Chunk :=
  ((bnodeGet bnode index).filter fun e => !e.isBnodeChild).map BnodeEntry.key

/-- A value that the walk comes to: the chunks collected from the frames, the content and the
metadata. `source`, the chunks that lead to the value, is not in the source. -/
structure ScanLeaf where
  source : List Chunk
  collected : StoredItem
deriving DecidableEq

/-! ### Forward -/

def IteratorFrame.passedChunk (frame : IteratorFrame) : Option Chunk :=
  keyChunk frame.bnode (frame.entryIndex.bind decrement)

def passedChunks (stack : List IteratorFrame) : List Chunk :=
  stack.reverse.filterMap IteratorFrame.passedChunk

def scanNextMove (load : Loader) : List IteratorFrame → Move (List IteratorFrame) ScanLeaf
  | [] => .finished
  | frame :: stack =>
    match bnodeGet frame.bnode frame.entryIndex with
    | none => .moved stack
    | some e =>
      let pushed := (frame.below load e).toList ++
        { frame with entryIndex := some (increment frame.entryIndex) } :: stack
      match e.slot with
      | .value content pathMeta _ =>
        .visited ⟨frame.above ++ [e.key], ⟨passedChunks pushed, content, pathMeta⟩⟩ pushed
      | _ => .moved pushed

/-! ### Backward -/

def IteratorFrame.descendedChunk (frame : IteratorFrame) : Option Chunk :=
  keyChunk frame.bnode
    (if frame.valuePending then frame.entryIndex else some (increment frame.entryIndex))

/-- The chunks that `database_scan_prev` collects from the frames below the top one. -/
def descendedChunks (stack : List IteratorFrame) : List Chunk :=
  stack.reverse.filterMap IteratorFrame.descendedChunk

/-- The stack of a reverse scan, and whether `seek_to_rightmost` is still running. -/
structure ReversePosition where
  seeking : Bool
  stack : List IteratorFrame

def seekToRightmostMove (load : Loader) : List IteratorFrame → ReversePosition
  | [] => ⟨false, []⟩
  | frame :: stack =>
    match frame.bnode.entries.getLast? with
    | none => ⟨false, frame :: stack⟩
    | some e =>
      let last := frame.bnode.entries.length - 1
      match frame.below load e with
      | none => ⟨false, { frame with entryIndex := some last } :: stack⟩
      | some child =>
        match e.slot with
        | .value _ _ _ =>
          ⟨true, child :: { frame with entryIndex := some last, valuePending := true } :: stack⟩
        | _ => ⟨true, child :: { frame with entryIndex := decrement last } :: stack⟩

/-- `database_scan_prev` at one entry: a value above a subtree is visited after it. -/
def scanPrevEntry (frame : IteratorFrame) (stack : List IteratorFrame) (index : Nat)
    (e : BnodeEntry) : Move ReversePosition ScanLeaf :=
  let left := { frame with entryIndex := decrement index }
  match e.slot, frame.below load e with
  | .value content pathMeta _, child =>
    match child.filter fun _ => !frame.valuePending with
    | some child => .moved ⟨true, child :: { frame with valuePending := true } :: stack⟩
    | none =>
      .visited ⟨frame.above ++ [e.key], ⟨descendedChunks stack ++
        (keyChunk frame.bnode (some index)).toList, content, pathMeta⟩⟩
        ⟨false, { left with valuePending := false } :: stack⟩
  | _, none => .moved ⟨false, left :: stack⟩
  | .childBnode _, some child =>
    .moved ⟨false, { child with entryIndex := decrement child.bnode.entries.length } ::
      left :: stack⟩
  | .child _, some child => .moved ⟨true, child :: left :: stack⟩

def scanPrevMove (load : Loader) : ReversePosition → Move ReversePosition ScanLeaf
  | ⟨true, stack⟩ => .moved (seekToRightmostMove load stack)
  | ⟨false, []⟩ => .finished
  | ⟨false, frame :: stack⟩ =>
    match frame.entryIndex with
    | none => .moved ⟨false, stack⟩
    | some index =>
      match frame.bnode.entries[index]? with
      | none => .moved ⟨false, stack⟩
      | some e => scanPrevEntry load frame stack index e

/-! ### Paths and bounds -/

/-- `build_identifier_from_chunks`: a byte length of 0, or one that the chunks cannot hold,
counts as missing. -/
def buildIdentifierFromChunks (chunks : List Chunk) (byteLength : Nat) : Identifier :=
  if chunks = [] then identifierCreate [] cs
  else
    let totalPadded := chunks.length * cs.size
    let realLength :=
      if 0 < byteLength ∧ byteLength ≤ totalPadded then byteLength else totalPadded
    identifierCreate ((chunks.flatMap Chunk.data).take realLength) cs

def buildIdentifiers (cs : ChunkSize) : List Chunk → List PathSubscriptMeta → Path
  | _, [] => []
  | chunks, m :: ms =>
    buildIdentifierFromChunks cs (chunks.take m.chunkCount) m.byteLength ::
      buildIdentifiers cs (chunks.drop m.chunkCount) ms

/-- The path of an emitted leaf without its first `prefix_skip` identifiers. A leaf without
metadata is one identifier. -/
def buildPath (prefixSkip : Nat) (item : StoredItem) : Path :=
  if item.pathMeta = [] then [buildIdentifierFromChunks cs item.chunks 0]
  else
    let skip := min prefixSkip item.pathMeta.length
    let chunkOffset := ((item.pathMeta.take skip).map PathSubscriptMeta.chunkCount).sum
    buildIdentifiers cs (item.chunks.drop chunkOffset) (item.pathMeta.drop skip)

inductive BoundsCheck where
  | inside
  | skip
  | stop
deriving DecidableEq

def withinBounds (startPath endPath : Option Path) (path : Path) : BoundsCheck :=
  if endPath.any fun bound => decide (0 ≤ pathCompare path bound) then .stop
  else if startPath.any fun bound => decide (pathCompare path bound < 0) then .skip
  else .inside

def withinBoundsReverse (startPath endPath : Option Path) (path : Path) : BoundsCheck :=
  if startPath.any fun bound => decide (pathCompare path bound < 0) then .stop
  else if endPath.any fun bound => decide (0 ≤ pathCompare path bound) then .skip
  else .inside

/-- The value a scan shows: a visible version without a value, or no version at all, is an empty
value. -/
def shownValue (readTxnId : TransactionId) : Content → Option Bytes
  | .legacy value _ => some value
  | .versions [] => some []
  | .versions (newest :: older) =>
    (versionEntryFindVisible (newest :: older) readTxnId).bind fun visible =>
      if !visible.isDeleted then some (visible.value.getD []) else none

/-! ### The iterator -/

structure DatabaseIterator where
  startPath : Option Path
  endPath : Option Path
  readTxnId : TransactionId
  prefixSkip : Nat
  position : ReversePosition

/-- `out_path` and `out_value`; `source` is that of the leaf. -/
structure ScanResult where
  source : List Chunk
  path : Path
  value : Bytes
deriving DecidableEq

/-- What `database_scan_next` makes of a leaf. Tombstones end a scan too. -/
def judgeNext (iter : DatabaseIterator) (leaf : ScanLeaf) : Verdict ScanResult :=
  let path := buildPath cs iter.prefixSkip leaf.collected
  match shownValue iter.readTxnId leaf.collected.content,
    withinBounds iter.startPath iter.endPath path with
  | _, .stop => .stop
  | some value, .inside => .report ⟨leaf.source, path, value⟩
  | _, _ => .skip

/-- What `database_scan_prev` makes of a leaf. Tombstones are passed over. -/
def judgePrev (iter : DatabaseIterator) (leaf : ScanLeaf) : Verdict ScanResult :=
  let path := buildPath cs iter.prefixSkip leaf.collected
  match shownValue iter.readTxnId leaf.collected.content,
    withinBoundsReverse iter.startPath iter.endPath path with
  | some _, .stop => .stop
  | some value, .inside => .report ⟨leaf.source, path, value⟩
  | _, _ => .skip

def databaseScanNextMove (iter : DatabaseIterator) : Move DatabaseIterator ScanResult :=
  (scanNextMove load iter.position.stack).judged (judgeNext cs iter)
    fun stack => { iter with position := ⟨false, stack⟩ }

def databaseScanPrevMove (iter : DatabaseIterator) : Move DatabaseIterator ScanResult :=
  (scanPrevMove load iter.position).judged (judgePrev cs iter)
    fun position => { iter with position := position }

/-! ### Seeks -/

/-- How a seek leaves one chunk of its path: in place, one trie level down, or giving up. -/
inductive SeekMove where
  | positioned (stack : List IteratorFrame)
  | descended (frame : IteratorFrame) (stack : List IteratorFrame)
  | bail (stack : List IteratorFrame)

def seekPositionLeaf (chunk : Chunk) (isLast : Bool) (frame : IteratorFrame)
    (stack : List IteratorFrame) : SeekMove :=
  let found := bnodeFind frame.bnode chunk
  match found.1 with
  | none => .positioned ({ frame with entryIndex := some found.2 } :: stack)
  | some e =>
    if isLast then .positioned ({ frame with entryIndex := some found.2 } :: stack)
    else
      let left := { frame with entryIndex := some (found.2 + 1) }
      match e.loadedTrieNode load with
      | none => .positioned (left :: stack)
      | some next => .descended (newFrame next.btree (frame.above ++ [e.key])) (left :: stack)

/-- The separator that `seek_to_start_path` goes down from: the match, or the one before it. -/
def startSeparator (chunk : Chunk) : Nat :=
  if (bnodeFind bnode chunk).1.any BnodeEntry.isBnodeChild then (bnodeFind bnode chunk).2
  else (bnodeFind bnode chunk).2 - 1

/-- One chunk of `seek_to_start_path`: down the B+tree to a leaf. One unit of fuel is one
level. -/
def seekStartChunk (load : Loader) (chunk : Chunk) (isLast : Bool) :
    Nat → IteratorFrame → List IteratorFrame → SeekMove
  | 0, frame, stack => seekPositionLeaf load chunk isLast frame stack
  | fuel + 1, frame, stack =>
    if 1 < frame.bnode.level then
      match childBnodeAt load frame.bnode (startSeparator frame.bnode chunk) with
      | none => .bail (frame :: stack)
      | some (index, child) =>
        seekStartChunk load chunk isLast fuel (newFrame child frame.above)
          ({ frame with entryIndex := some (index + 1) } :: stack)
    else seekPositionLeaf load chunk isLast frame stack

/-- The leaf part of one chunk of `seek_to_end_path`. -/
def seekEndLeaf (chunk : Chunk) (isLast : Bool) (frame : IteratorFrame)
    (stack : List IteratorFrame) : SeekMove :=
  let found := bnodeFind frame.bnode chunk
  if isLast then
    match decrement found.2 with
    | none => .bail (frame :: stack)
    | some index => .positioned ({ frame with entryIndex := some index } :: stack)
  else
    let descend := if found.1.isSome then some found.2 else decrement found.2
    match descend, bnodeGet frame.bnode descend with
    | some index, some e =>
      match e.loadedTrieNode load with
      | none => .positioned ({ frame with entryIndex := some index } :: stack)
      | some next =>
        let left := match e.slot with
          | .value _ _ _ => { frame with entryIndex := some index, valuePending := true }
          | _ => { frame with entryIndex := decrement index }
        .descended { newFrame next.btree (frame.above ++ [e.key]) with
          entryIndex := decrement next.btree.entries.length } (left :: stack)
    | _, _ => .bail (frame :: stack)

/-- One chunk of `seek_to_end_path`: down the B+tree through the last separators below the
chunk. -/
def seekEndChunk (load : Loader) (chunk : Chunk) (isLast : Bool) :
    Nat → IteratorFrame → List IteratorFrame → SeekMove
  | 0, frame, stack => seekEndLeaf load chunk isLast frame stack
  | fuel + 1, frame, stack =>
    if 1 < frame.bnode.level then
      match decrement (bnodeFind frame.bnode chunk).2 with
      | none => .bail (frame :: stack)
      | some index =>
        let left := { frame with entryIndex := decrement index }
        match childBnodeAt load frame.bnode index with
        | none => .bail (left :: stack)
        | some (_, child) =>
          seekEndChunk load chunk isLast fuel (newFrame child frame.above) (left :: stack)
    else seekEndLeaf load chunk isLast frame stack

/-- The loops over the identifiers and chunks of a path, shared by the two seeks. An identifier
without chunks makes them give up. -/
def seekSteps (seekChunk : Chunk → Bool → Nat → IteratorFrame → List IteratorFrame → SeekMove) :
    List PathStep → IteratorFrame → List IteratorFrame → SeekMove
  | [], frame, stack => .descended frame stack
  | .enter identifier :: rest, frame, stack =>
    if identifier.chunks = [] then .bail (frame :: stack)
    else seekSteps seekChunk rest frame stack
  | .chunk chunk :: rest, frame, stack =>
    match seekChunk chunk rest.isEmpty frame.bnode.level frame stack with
    | .descended frame stack => seekSteps seekChunk rest frame stack
    | .positioned stack => .positioned stack
    | .bail stack => .bail stack

/-- `seek_to_start_path` on the stack of a new iterator. -/
def seekToStartPath (root : HbtrieNode) (startPath : Path) : List IteratorFrame :=
  match seekSteps (seekStartChunk load) (pathSteps startPath) (newFrame root.btree []) [] with
  | .positioned stack => stack
  | .descended frame stack => frame :: stack
  | .bail _ => [newFrame root.btree []]

/-- `seek_to_end_path` on the stack of a new iterator. Giving up keeps `value_pending` of the
root frame. -/
def seekToEndPath (root : HbtrieNode) (endPath : Path) : ReversePosition :=
  if endPath = [] then ⟨true, [newFrame root.btree []]⟩
  else
    match seekSteps (seekEndChunk load) (pathSteps endPath) (newFrame root.btree []) [] with
    | .positioned stack => ⟨false, stack⟩
    | .descended frame stack => ⟨false, frame :: stack⟩
    | .bail stack =>
      ⟨true, (stack.getLast?.map fun frame => { frame with entryIndex := some 0 }).toList⟩

/-! ### Starting a scan -/

/-- `database_t` as far as scans read it. -/
structure Db where
  chunkSize : ChunkSize
  load : Loader
  root : HbtrieNode
  syncOnly : Bool
  lastCommitted : TransactionId

variable (db : Db)

def scanReadTxnId : TransactionId :=
  if db.syncOnly then txnIdSentinel else db.lastCommitted

def databaseScanStart (startPath endPath : Option Path) : DatabaseIterator where
  startPath := startPath
  endPath := endPath
  readTxnId := scanReadTxnId db
  prefixSkip := 0
  position := ⟨false,
    match startPath with
    | none => [newFrame db.root.btree []]
    | some path => seekToStartPath db.load db.root path⟩

def databaseScanStartReverse (startPath endPath : Option Path) : DatabaseIterator where
  startPath := startPath
  endPath := endPath
  readTxnId := scanReadTxnId db
  prefixSkip := 0
  position :=
    match endPath with
    | none => ⟨true, [newFrame db.root.btree []]⟩
    | some path => seekToEndPath db.load db.root path

/-- `database_scan_next` until it returns -1: the results, if the fuel suffices. -/
def scanAll (fuel : Nat) (iter : DatabaseIterator) : Option (List ScanResult) :=
  collect (databaseScanNextMove db.chunkSize db.load) fuel iter

/-- `database_scan_prev` until it returns -1: the results, if the fuel suffices. -/
def scanAllReverse (fuel : Nat) (iter : DatabaseIterator) : Option (List ScanResult) :=
  collect (databaseScanPrevMove db.chunkSize db.load) fuel iter

end WaveDB.Database
