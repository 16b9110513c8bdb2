import WaveDB.Basis.Codec
import WaveDB.HBTrie.NodeShape
import WaveDB.HBTrie.Stored

/-!
The V3 page format of a bnode (`Storage/node_serializer.c`).

A page is one bnode: its level, and for each entry the key, a flags byte, the content and
the disk offset of the child. Beside a value, the offset of a child that is not in memory is
not written.
-/

namespace WaveDB.Storage

open WaveDB.Basis HBTrie Workers

/-! ### Writing -/

def bnodeSerializeMagicV3 : Nat := 0xB5

def entryFlags (hasValue isBnodeChild hasVersions hasTrieChild hasPathMeta : Bool) : Nat :=
  (if hasValue then 0x01 else 0) ||| (if isBnodeChild then 0x02 else 0) |||
    (if hasVersions then 0x04 else 0) ||| (if hasTrieChild then 0x08 else 0) |||
    (if hasPathMeta then 0x10 else 0)

def serializeValue (value : Bytes) : Bytes := writeUint 4 value.length ++ value

def serializeVersion (v : VersionEntry) : Bytes :=
  writeUint 1 v.isDeleted.toNat ++ (writeUint 8 v.txnId.time.toNat ++
    (writeUint 8 v.txnId.nanos.toNat ++ (writeUint 8 v.txnId.count.toNat ++
      match v.isDeleted, v.value with
      | false, some value => serializeValue value
      | _, _ => writeUint 4 0)))

/-- What a `has_value` entry holds. A chain without versions is written as an absent value. -/
def serializeContent : Content → Bytes
  | .legacy value _ => serializeValue value
  | .versions [] => writeUint 4 0
  | .versions (v :: vs) =>
    writeUint 2 (v :: vs).length ++ (v :: vs).flatMap serializeVersion

def writesPathMeta (pathMeta : List PathSubscriptMeta) : Bool :=
  decide (0 < pathMeta.length) && decide (pathMeta.length ≤ 255)

def serializeSubscript (m : PathSubscriptMeta) : Bytes :=
  writeUint 4 m.chunkCount ++ writeUint 4 m.byteLength

def serializePathMeta (pathMeta : List PathSubscriptMeta) : Bytes :=
  writeUint 1 pathMeta.length ++ pathMeta.flatMap serializeSubscript

/-- One entry of `bnode_serialize_entries_v3`. Beside a value the offset is written only for
a `trie_child` in memory. -/
def bnodeSerializeEntryV3 (cs : ChunkSize) (e : BnodeEntry) : Bytes :=
  e.key.data.take cs.size ++
    match e.slot with
    | .value content pathMeta trieChild =>
      writeUint 1 (entryFlags true false content.hasVersions trieChild.isSome
          (writesPathMeta pathMeta)) ++
        (serializeContent content ++
          ((if trieChild.isSome then writeUint 8 e.childDiskOffset else []) ++
            (if writesPathMeta pathMeta then serializePathMeta pathMeta else [])))
    | .childBnode _ =>
      writeUint 1 (entryFlags false true false false false) ++ writeUint 8 e.childDiskOffset
    | .child _ =>
      writeUint 1 (entryFlags false false false false false) ++ writeUint 8 e.childDiskOffset

def bnodeSerializeV3 (cs : ChunkSize) (node : Bnode) : Bytes :=
  writeUint 1 bnodeSerializeMagicV3 ++ (writeUint 2 node.level ++
    (writeUint 2 node.entries.length ++ node.entries.flatMap (bnodeSerializeEntryV3 cs)))

end WaveDB.Storage
