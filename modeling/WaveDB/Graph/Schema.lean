import WaveDB.Graph.Layer

/-!
Schemas of a graph layer (`Layers/graph/graph_schema_parser.c`).

The text `type Clip @index(spo, pos) { tagged_with: [Tag]; ... }` defines a type: its fields are
predicates, each with the indexes that are kept for it. The functions read from the rest of the
input; an error carries the rest at which it was found. Each turn of a loop takes at least one
byte, so that the fuel is the length of the input.
-/

namespace WaveDB.Graph

open HBTrie

abbrev GraphIndexFlags := List GraphIndex

structure GraphSchemaField where
  name : Bytes
  type : Bytes
  isArray : Bool
  indices : GraphIndexFlags
deriving DecidableEq

structure GraphSchemaType where
  name : Bytes
  indices : GraphIndexFlags
  fields : List GraphSchemaField
deriving DecidableEq

abbrev GraphSchema := List GraphSchemaType

/-- `graph_schema_needs_index`: the first field of that name decides. -/
def graphSchemaNeedsIndex (schema : Option GraphSchema) (predicate : Bytes)
    (index : GraphIndex) : Bool :=
  match schema with
  | none => true
  | some types =>
    ((types.flatMap GraphSchemaType.fields).find? fun f => f.name == predicate).all fun f =>
      f.indices.contains index

/-! ### Parser -/

/-- An error of the parser: what was left of the input, and the message. -/
structure ParseError where
  rest : Bytes
  message : String
deriving DecidableEq

def isSpace (b : UInt8) : Bool := (9 ≤ b && b ≤ 13) || b == 32

def isAlpha (b : UInt8) : Bool := (65 ≤ b && b ≤ 90) || (97 ≤ b && b ≤ 122)

def isNameByte (b : UInt8) : Bool := isAlpha b || (48 ≤ b && b ≤ 57) || b == 95

def skipWhitespace (rest : Bytes) : Bytes := rest.dropWhile isSpace

def expectChar (c : UInt8) (rest : Bytes) : Except ParseError Bytes :=
  if (skipWhitespace rest).head? = some c then .ok (skipWhitespace rest).tail
  else .error ⟨skipWhitespace rest, "Expected '" ++ (Char.ofNat c.toNat).toString ++ "'"⟩

/-- `expect_string` for the only string it is called with. -/
def expectType (rest : Bytes) : Except ParseError Bytes :=
  if [116, 121, 112, 101].isPrefixOf (skipWhitespace rest) then .ok ((skipWhitespace rest).drop 4)
  else .error ⟨skipWhitespace rest, "Expected 'type'"⟩

/-- `parse_name`: the name, if there is one, and the rest. -/
def parseName (rest : Bytes) : Option Bytes × Bytes :=
  if (skipWhitespace rest).head?.any isAlpha then
    (some ((skipWhitespace rest).takeWhile isNameByte), (skipWhitespace rest).dropWhile isNameByte)
  else (none, skipWhitespace rest)

def requireName (message : String) (rest : Bytes) : Except ParseError (Bytes × Bytes) :=
  match parseName rest with
  | (some name, rest) => .ok (name, rest)
  | (none, rest) => .error ⟨rest, message⟩

def unknownIndex (name : Bytes) : String :=
  String.ofList (("Unknown index '".toList ++ name.map (fun b => Char.ofNat b.toNat) ++
    "'".toList).take 127)

def parseIndexName (rest : Bytes) : Except ParseError (GraphIndex × Bytes) := do
  let (name, rest) ← requireName "Expected index name" rest
  match [GraphIndex.spo, .pos, .osp, .pso].find? fun index => index.name == name with
  | some index => .ok (index, rest)
  | none => .error ⟨rest, unknownIndex name⟩

/-- The loop of `parse_index_list` behind the first name; every turn takes a comma. -/
def parseIndexTail : Nat → GraphIndexFlags → Bytes → Except ParseError (GraphIndexFlags × Bytes)
  | 0, flags, rest => .ok (flags, rest)
  | fuel + 1, flags, rest =>
    if (skipWhitespace rest).head? = some 44 then do
      let (index, rest) ← parseIndexName (skipWhitespace rest).tail
      parseIndexTail fuel (flags.insert index) rest
    else .ok (flags, skipWhitespace rest)

variable (rest : Bytes)

def parseIndexList : Except ParseError (GraphIndexFlags × Bytes) := do
  let (index, rest) ← parseIndexName rest
  parseIndexTail rest.length [index] rest

/-- `parse_type_ref`: the type and whether it is an array. -/
def parseTypeRef : Except ParseError ((Bytes × Bool) × Bytes) := do
  if (skipWhitespace rest).head? = some 91 then
    let (name, rest) ← requireName "Expected type name" (skipWhitespace rest).tail
    return ((name, true), ← expectChar 93 rest)
  else
    let (name, rest) ← requireName "Expected type name" rest
    return ((name, false), rest)

/-- An optional `@index(...)`, as types and fields have it. Other directives are passed over. -/
def parseIndexDirective : Except ParseError (Option GraphIndexFlags × Bytes) :=
  if (skipWhitespace rest).head? = some 64 then
    match parseName (skipWhitespace rest).tail with
    | (some [105, 110, 100, 101, 120], rest) => do
      let (flags, rest) ← parseIndexList (← expectChar 40 rest)
      return (some flags, ← expectChar 41 rest)
    | (_, rest) => .ok (none, rest)
  else .ok (none, skipWhitespace rest)

/-- `parse_field`, with the indexes of the type where the field has none. -/
def parseField (defaults : GraphIndexFlags) (rest : Bytes) :
    Except ParseError (GraphSchemaField × Bytes) := do
  let (name, rest) ← requireName "Expected field name" rest
  let ((type, isArray), rest) ← parseTypeRef (← expectChar 58 rest)
  let (flags, rest) ← parseIndexDirective rest
  return (⟨name, type, isArray, flags.getD defaults⟩, rest)

def skipSemicolon : Bytes :=
  if (skipWhitespace rest).head? = some 59 then (skipWhitespace rest).tail
  else skipWhitespace rest

/-- The loop over the fields of a type, with the number of fields that are still allowed. -/
def parseFields (defaults : GraphIndexFlags) :
    Nat → Bytes → Except ParseError (List GraphSchemaField × Bytes)
  | allowed, rest =>
    if rest = [] then .ok ([], rest)
    else if (skipWhitespace rest).head? = some 125 then .ok ([], skipWhitespace rest)
    else
      match allowed with
      | 0 => .error ⟨skipWhitespace rest, "Too many fields (max 64 per type)"⟩
      | allowed + 1 => do
        let (field, rest) ← parseField defaults (skipWhitespace rest)
        let (fields, rest) ← parseFields defaults allowed (skipSemicolon rest)
        return (field :: fields, rest)

def maxFieldsPerType : Nat := 64

def parseTypeDef (rest : Bytes) : Except ParseError (GraphSchemaType × Bytes) := do
  let (name, rest) ← requireName "Expected type name after 'type'" (← expectType rest)
  let (flags, rest) ← parseIndexDirective rest
  let indices := flags.getD [.spo, .pos]
  let (fields, rest) ← parseFields indices maxFieldsPerType (← expectChar 123 rest)
  return (⟨name, indices, fields⟩, ← expectChar 125 rest)

/-- The loop of `graph_schema_parse_dsl`: the types that are defined, and the error that ends it,
if any. -/
def parseTypeDefs : Nat → Bytes → GraphSchema × Option ParseError
  | 0, _ => ([], none)
  | fuel + 1, rest =>
    if skipWhitespace rest = [] then ([], none)
    else
      match parseTypeDef (skipWhitespace rest) with
      | .error e => ([], some e)
      | .ok (type, rest) =>
        (type :: (parseTypeDefs fuel rest).1, (parseTypeDefs fuel rest).2)

def parseSchema (dsl : Bytes) : GraphSchema × Option ParseError :=
  parseTypeDefs (dsl.length + 1) dsl

end WaveDB.Graph
