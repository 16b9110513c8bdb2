import Mathlib.Data.List.Infix
import WaveDB.Database.RawBatch
import WaveDB.Graph.Scan
import WaveDB.Graph.Schema

/-!
Inserting and deleting triples (`graph_insert_sync`, `graph_delete_sync` and
`graph_schema_parse` in `Layers/graph/graph.c`).

A triple is written as one batch with a key for each index that the schema asks for at that
moment. Defining a type changes the schema in memory and writes it to keys under `__gschema`.
-/

namespace WaveDB.Graph

open WaveDB.Basis HBTrie Database Workers

/-- `graph_layer_t` without its statistics and morphisms. -/
structure GraphLayer where
  db : SyncDb
  schema : Option GraphSchema

def layerOp (subtree : Option DatabaseSubtree) : RawOp → RawOp
  | .put key value => .put (subtree.elim key fun st => databaseSubtreePrependKey st key) value
  | .delete key => .delete (subtree.elim key fun st => databaseSubtreePrependKey st key)

def GraphIndex.pathVec (index : GraphIndex) (t : Triple) : Bytes :=
  buildPathVec index.name (index.first t) (index.second t) (index.third t)

def allIndexes : List GraphIndex := [.spo, .pos, .osp, .pso]

def neededIndexes (schema : Option GraphSchema) (predicate : Bytes) : List GraphIndex :=
  allIndexes.filter (graphSchemaNeedsIndex schema predicate)

section Operations

variable (cfg : Config) (load : Loader) (subtree : Option DatabaseSubtree)

/-- `database_batch_sync_raw`, or `database_subtree_batch_sync_raw` with a subtree. -/
def layerBatchSyncRaw [Libcbor] (s : SyncDb) (env : CallEnv) (ops : List RawOp) :
    SyncDb × Except Int Int :=
  databaseBatchSyncRaw cfg load s env slash (ops.map (layerOp subtree))

/-- The operations of `graph_insert_sync`: the value of a key is empty. -/
def insertOps (schema : Option GraphSchema) (t : Triple) : List RawOp :=
  (neededIndexes schema t.predicate).map fun index => .put (index.pathVec t) []

def deleteOps (schema : Option GraphSchema) (t : Triple) : List RawOp :=
  (neededIndexes schema t.predicate).map fun index => .delete (index.pathVec t)

variable (layer : GraphLayer)

def tripleBatch [Libcbor] (env : CallEnv) (ops : List RawOp) : GraphLayer × Except Int Int :=
  if ops = [] then (layer, .ok 0)
  else
    ({ layer with db := (layerBatchSyncRaw cfg load subtree layer.db env ops).1 },
      (layerBatchSyncRaw cfg load subtree layer.db env ops).2)

def graphInsertSync [Libcbor] (env : CallEnv) (t : Triple) : GraphLayer × Except Int Int :=
  tripleBatch cfg load subtree layer env (insertOps layer.schema t)

def graphDeleteSync [Libcbor] (env : CallEnv) (t : Triple) : GraphLayer × Except Int Int :=
  tripleBatch cfg load subtree layer env (deleteOps layer.schema t)

end Operations

/-! ### Schemas -/

def comma : UInt8 := 44

def schemaTypesKey : Bytes := ascii "__gschema/types".toList

def schemaTypeKey (type rest : Bytes) : Bytes := ascii "__gschema/".toList ++ type ++ rest

/-- A key of a field. The length that is given for `/fields/` includes its NUL. -/
def schemaFieldKey (type field rest : Bytes) : Bytes :=
  schemaTypeKey type (ascii "/fields/".toList ++ 0 :: field ++ rest)

def indicesSuffix : Bytes := ascii "/indices".toList ++ [0]

def indicesString (flags : GraphIndexFlags) : Bytes :=
  [comma].intercalate ((allIndexes.filter flags.contains).map GraphIndex.name)

/-- `already_present`: the name is found between commas, or the list begins with it. -/
def alreadyPresent (existing name : Bytes) : Bool :=
  decide (existing ≠ []) &&
    (decide ((comma :: name ++ [comma]) <:+: cString (comma :: existing ++ [comma])) ||
      name.isPrefixOf existing)

def typesValue (existing name : Bytes) : Bytes :=
  if existing = [] then name else existing ++ comma :: name

def fieldOps (type : Bytes) (field : GraphSchemaField) : List RawOp :=
  [.put (schemaFieldKey type field.name (ascii "/type".toList)) field.type,
    .put (schemaFieldKey type field.name (ascii "/array".toList))
      [if field.isArray then 49 else 48],
    .put (schemaFieldKey type field.name indicesSuffix) (indicesString field.indices)]

def storeTypeOps (existing : Bytes) (type : GraphSchemaType) : List RawOp :=
  (if alreadyPresent existing type.name then []
    else [.put schemaTypesKey (typesValue existing type.name)]) ++
  .put (schemaTypeKey type.name indicesSuffix) (indicesString type.indices) ::
  type.fields.flatMap (fieldOps type.name) ++
  (if type.fields = [] then []
    else [.put (schemaTypeKey type.name (ascii "/fields_list".toList ++ [0]))
      ([comma].intercalate (type.fields.map GraphSchemaField.name))])

section Definitions

variable (cfg : Config) (load : Loader) (subtree : Option DatabaseSubtree)

def schemaTypesPath : Path :=
  pathCreateFromRaw cfg.chunkSize
    (subtree.elim schemaTypesKey fun st => databaseSubtreePrependKey st schemaTypesKey) slash

def storeOpsIn (db : SyncDb) (type : GraphSchemaType) : List RawOp :=
  storeTypeOps ((db.visible load (schemaTypesPath cfg subtree)).getD []) type

/-- `graph_schema_store_type`. Its result is not looked at. -/
def graphSchemaStoreType [Libcbor] (db : SyncDb) (env : CallEnv) (type : GraphSchemaType) :
    SyncDb :=
  (layerBatchSyncRaw cfg load subtree (db.lookUp load (schemaTypesPath cfg subtree)) env
    (storeOpsIn cfg load subtree db type)).1

/-- The end of `parse_type_def`: the type joins the schema and is stored. -/
def defineType [Libcbor] (layer : GraphLayer) (env : CallEnv) (type : GraphSchemaType) :
    GraphLayer where
  db := graphSchemaStoreType cfg load subtree layer.db env type
  schema := some (layer.schema.getD [] ++ [type])

def defineTypes [Libcbor] : GraphLayer → (Nat → CallEnv) → GraphSchema → GraphLayer
  | layer, _, [] => layer
  | layer, envs, type :: rest =>
    defineTypes (defineType cfg load subtree layer (envs 0) type) (fun i => envs (i + 1)) rest

/-- `graph_schema_parse`: the types before an error stay defined. -/
def graphSchemaParse [Libcbor] (layer : GraphLayer) (envs : Nat → CallEnv) (dsl : Bytes) :
    GraphLayer × Option ParseError :=
  (defineTypes cfg load subtree layer envs (parseSchema dsl).1, (parseSchema dsl).2)

end Definitions

end WaveDB.Graph
