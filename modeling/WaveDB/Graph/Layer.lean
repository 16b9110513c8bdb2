import WaveDB.Database.PrefixDelete
import WaveDB.Graph.VertexSet

/-!
Keys and operators of the graph layer (`Layers/graph/graph.c`, `Layers/graph/graph_ops.c`).

A triple is stored as one key for each index, `/spo/s/p/o` and its rotations. `Out`, `In` and
`Has` scan a range of keys that starts at a prefix of such a key and ends at the prefix with a
`0` behind its last component, and take components of the keys they get.

The operators are functions of the range scan (`LayerScan`), which a layer provides through its
database or its subtree (`layerScanRange`).
-/

namespace WaveDB.Graph

open WaveDB.Basis HBTrie Database

/-! ### Keys -/

def slash : UInt8 := 47

def successor : UInt8 := 48

def bufferSize : Nat := 4096

@[ext]
structure Triple where
  subject : Bytes
  predicate : Bytes
  object : Bytes
deriving DecidableEq

inductive GraphIndex where
  | spo | pos | osp | pso
deriving DecidableEq

def GraphIndex.name : GraphIndex → Bytes
  | .spo => [115, 112, 111]
  | .pos => [112, 111, 115]
  | .osp => [111, 115, 112]
  | .pso => [112, 115, 111]

/-- The strings of a triple in the order of an index. -/
def GraphIndex.first : GraphIndex → Triple → Bytes
  | .spo, t => t.subject
  | .pos, t => t.predicate
  | .osp, t => t.object
  | .pso, t => t.predicate

@[inherit_doc GraphIndex.first]
def GraphIndex.second : GraphIndex → Triple → Bytes
  | .spo, t => t.predicate
  | .pos, t => t.object
  | .osp, t => t.subject
  | .pso, t => t.subject

@[inherit_doc GraphIndex.first]
def GraphIndex.third : GraphIndex → Triple → Bytes
  | .spo, t => t.object
  | .pos, t => t.subject
  | .osp, t => t.predicate
  | .pso, t => t.object

def buildPathVec (indexName c1 c2 c3 : Bytes) : Bytes :=
  slash :: indexName ++ slash :: c1 ++ slash :: c2 ++ slash :: c3

def buildPrefixVec (indexName c1 c2 : Bytes) : Bytes :=
  slash :: indexName ++ slash :: c1 ++ slash :: c2 ++ [slash]

def appendSuccessor (buf : Bytes) : Bytes := strippedPrefix buf slash ++ [successor]

def cString (data : Bytes) : Bytes := data.takeWhile (· ≠ 0)

/-- `key_last_component`: what follows the last delimiter, cut to the buffer. -/
def keyLastComponent (key : Bytes) : Option Bytes :=
  if slash ∈ key then some (cString ((key.rtakeWhile (· ≠ slash)).take (bufferSize - 1)))
  else none

def isSeparator (b : UInt8) : Bool := b == slash || b == 0

/-- The loop of `key_nth_component` over the components before the wanted one. -/
def skipComponents : Nat → Bytes → Option Bytes
  | 0, rest => some rest
  | _ + 1, [] => none
  | n + 1, b :: rest =>
    skipComponents n (((b :: rest).dropWhile fun x => !isSeparator x).dropWhile isSeparator)

def keyNthComponent (key : Bytes) (n : Nat) : Option Bytes :=
  ((skipComponents n (if key.head? = some slash then key.tail else key)).map
    (List.takeWhile fun x => !isSeparator x)).filter fun component =>
      decide (component ≠ []) && decide (component.length < bufferSize)

/-! ### Operators -/

/-- A range scan: the keys between a start and an end key, or the error code. -/
abbrev LayerScan := Bytes → Bytes → Except Int (List Bytes)

/-- The loop that `graph_execute_out` and `graph_execute_in` share: one scan for each vertex. A
prefix that is too long for the end buffer is passed over. -/
def scanEach (scan : LayerScan) (prefixFor : Bytes → Bytes) :
    List Bytes → VertexSet → VertexSet × Int
  | [], output => (output, 0)
  | vertex :: rest, output =>
    if bufferSize < (prefixFor vertex).length + 2 then scanEach scan prefixFor rest output
    else
      match scan (prefixFor vertex) (appendSuccessor (prefixFor vertex)) with
      | .error rc =>
        ((scanEach scan prefixFor rest output).1,
          if (scanEach scan prefixFor rest output).2 = 0 then rc
          else (scanEach scan prefixFor rest output).2)
      | .ok keys =>
        scanEach scan prefixFor rest (output.addAll (keys.filterMap keyLastComponent))

def graphExecuteOut (scan : LayerScan) (input : VertexSet) (predicate : Bytes) : VertexSet × Int :=
  scanEach scan (fun vertex => buildPrefixVec GraphIndex.spo.name vertex predicate)
    input.vertices .init

def graphExecuteIn (scan : LayerScan) (input : VertexSet) (predicate : Bytes) : VertexSet × Int :=
  scanEach scan (fun vertex => buildPrefixVec GraphIndex.pos.name predicate vertex)
    input.vertices .init

inductive GraphCmp where
  | eq | gt | gte | lt | lte
deriving DecidableEq

/-- `strcmp`; only the sign is used. -/
def strcmp (a b : Bytes) : Int := compareBytes a a.length b b.length

def cmpStrings (a b : Bytes) : GraphCmp → Bool
  | .eq => decide (strcmp a b = 0)
  | .gt => decide (0 < strcmp a b)
  | .gte => decide (0 ≤ strcmp a b)
  | .lt => decide (strcmp a b < 0)
  | .lte => decide (strcmp a b ≤ 0)

variable (predicate value : Bytes)

def hasStart : GraphCmp → Bytes
  | .eq => buildPrefixVec GraphIndex.pos.name predicate value
  | _ => slash :: GraphIndex.pos.name ++ slash :: predicate ++ [slash]

def hasEnd : GraphCmp → Bytes
  | .eq => appendSuccessor (buildPrefixVec GraphIndex.pos.name predicate value)
  | .lt => slash :: GraphIndex.pos.name ++ slash :: predicate ++ slash :: value ++ [slash]
  | .lte => appendSuccessor (slash :: GraphIndex.pos.name ++ slash :: predicate ++ slash :: value)
  | .gt | .gte => appendSuccessor (slash :: GraphIndex.pos.name ++ slash :: predicate ++ [slash])

def hasLength : GraphCmp → Nat
  | .eq => (hasStart predicate value .eq).length + 2
  | cmp => (hasStart predicate value cmp).length + value.length + 2

/-- The subject that a key of the scan gives. Equality relies on the range; the other comparisons
look at the object. -/
def hasSubject (value : Bytes) (cmp : GraphCmp) (key : Bytes) : Option Bytes :=
  if cmp = .eq then keyLastComponent key
  else (keyNthComponent key 2).bind fun object =>
    if cmpStrings object value cmp then keyLastComponent key else none

/-- `graph_execute_has`; without an input set every subject is kept. -/
def graphExecuteHas (scan : LayerScan) (input : Option VertexSet) (predicate value : Bytes)
    (cmp : GraphCmp) : VertexSet × Int :=
  if bufferSize < hasLength predicate value cmp then (.init, -1)
  else
    match scan (hasStart predicate value cmp) (hasEnd predicate value cmp) with
    | .error rc => (.init, rc)
    | .ok keys =>
      (VertexSet.init.addAll ((keys.filterMap (hasSubject value cmp)).filter fun subject =>
        input.all fun set => set.contains subject), 0)

/-! ### Layers -/

def databaseSubtreePrependKey (st : DatabaseSubtree) (key : Bytes) : Bytes :=
  st.prefixKey ++ st.delimiter :: key

/-- A bound of `database_subtree_scan_range_sync_raw`. -/
def subtreeBoundPath (cs : ChunkSize) (st : DatabaseSubtree) (key : Bytes) (delimiter : UInt8) :
    Option Path :=
  if key = [] then none
  else some (pathCreateFromRaw cs (databaseSubtreePrependKey st key) delimiter)

/-- `database_subtree_scan_range_sync_raw`: the results, if the fuel suffices. -/
def databaseSubtreeScanRangeSyncRaw (db : Db) (st : DatabaseSubtree) (startKey endKey : Bytes)
    (delimiter : UInt8) (fuel : Nat) : Option (List RawResult) :=
  (scanAll db fuel (databaseScanStart db (subtreeBoundPath db.chunkSize st startKey delimiter)
    (subtreeBoundPath db.chunkSize st endKey delimiter))).map (List.filterMap (rawResult st))

def layerScanRange (db : Db) (subtree : Option DatabaseSubtree) (startKey endKey : Bytes)
    (fuel : Nat) : Option (List Bytes) :=
  match subtree with
  | none => (databaseScanRangeSyncRaw db startKey endKey slash fuel).map (List.map RawResult.key)
  | some st =>
    (databaseSubtreeScanRangeSyncRaw db st startKey endKey slash fuel).map (List.map RawResult.key)

/-- The scan returns what the layer's database returns with enough fuel. -/
def Scans (db : Db) (subtree : Option DatabaseSubtree) (scan : LayerScan) : Prop :=
  ∀ startKey endKey, ∃ keys n, scan startKey endKey = .ok keys ∧
    ∀ fuel, n ≤ fuel → layerScanRange db subtree startKey endKey fuel = some keys

end WaveDB.Graph
