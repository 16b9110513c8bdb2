import WaveDB.Basis.Decimal
import WaveDB.Database.Batch
import WaveDB.Database.Subtree

/-!
Mutations of the GraphQL layer (`graphql_mutate_impl` in `Layers/graphql/graphql_resolve.c`).

`createT(...)` and `updateT(id: ..., ...)` write one key per argument: the text
`plural/id/argument` is printed into a buffer of 512 bytes and split at `/` again.

* `path_of_field_iff`: three components come back exactly if each is a component and the buffer
  holds them.
-/

namespace WaveDB.GraphQL

open WaveDB.Basis HBTrie Database List

def slash : UInt8 := 47

/-! ### Literals -/

/-- `graphql_literal_t`; the text of a float is what `%g` prints. -/
inductive Literal where
  | string (text : Bytes)
  | int (value : Int)
  | float (text : Bytes)
  | bool (value : Bool)
  | null
  | enum (name : Bytes)
  | object (fields : List (Bytes × Literal))
  | list (items : List Literal)

mutual

def literalToString : Literal → Bytes
  | .string text => text
  | .int value => formatLld value
  | .float text => text
  | .bool value => if value then ascii "true".toList else ascii "false".toList
  | .null => ascii "null".toList
  | .enum name => name
  | .object fields => ascii "\x7b".toList ++ fieldsToString true fields ++ ascii "\x7d".toList
  | .list items => ascii "[".toList ++ itemsToString true items ++ ascii "]".toList

def fieldsToString (first : Bool) : List (Bytes × Literal) → Bytes
  | [] => []
  | (name, value) :: fields =>
    (if first then [] else ascii ", ".toList) ++ ascii "\"".toList ++ name ++
      ascii "\": ".toList ++ literalToString value ++ fieldsToString false fields

def itemsToString (first : Bool) : List Literal → Bytes
  | [] => []
  | item :: items =>
    (if first then [] else ascii ", ".toList) ++ literalToString item ++ itemsToString false items

end

/-! ### Types and fields -/

/-- `graphql_field_t`, with what `validate_required_fields` asks of it. -/
structure FieldDefinition where
  name : Bytes
  isRequired : Bool

structure GraphqlType where
  name : Bytes
  isObject : Bool
  pluralName : Option Bytes
  fields : List FieldDefinition

def graphqlTypeGetPlural (type : GraphqlType) : Bytes := type.pluralName.getD type.name

structure Argument where
  name : Bytes
  literal : Option Literal

structure MutationField where
  name : Bytes
  arguments : List Argument

inductive MutationKind where
  | create
  | update
  | delete
deriving DecidableEq

def mutationKind (fieldName : Bytes) : Option MutationKind :=
  if fieldName.take 6 = ascii "create".toList then some .create
  else if fieldName.take 6 = ascii "update".toList then some .update
  else if fieldName.take 6 = ascii "delete".toList then some .delete
  else none

def toUpper (b : UInt8) : UInt8 := if 97 ≤ b ∧ b ≤ 122 then b - 32 else b

/-- `type_name`, a buffer of 256 bytes. -/
def mutationTypeName (fieldName : Bytes) : Bytes :=
  match fieldName.drop 6 with
  | [] => fieldName.take 255
  | first :: rest => toUpper first :: rest.take 254

variable (types : Bytes → Option GraphqlType)

variable (field : MutationField)

/-- `plural`: that of the type, or the name where there is no such type. -/
def mutationPlural : Bytes :=
  ((types (mutationTypeName field.name)).map graphqlTypeGetPlural).getD
    (mutationTypeName field.name)

/-- The fields that `validate_required_fields` misses. -/
def missingFields (type : Option GraphqlType) (arguments : List Argument) : List Bytes :=
  match type with
  | none => []
  | some type =>
    if type.isObject then
      (type.fields.filter fun f => f.isRequired && !arguments.any (·.name == f.name)).map (·.name)
    else []

/-! ### Writes -/

def fieldPath (plural id name : Bytes) : Bytes :=
  (plural ++ slash :: (id ++ slash :: name)).take 511

/-- `path_from_string`: the identifiers have the default chunk size. -/
def pathFromString (text : Bytes) : Path := pathOf defaultChunkSize (rawSegments slash [] text)

def fieldPut (plural id : Bytes) (written : Bytes × Literal) : BatchOp :=
  .put (pathFromString (fieldPath plural id written.1)) (literalToString written.2)

def createdId (newId : Int) : Bytes := formatLld (if 0 < newId then newId - 1 else 1)

/-- `target_id`: that of the first argument `id` with a literal. -/
def targetId (arguments : List Argument) : Option Bytes :=
  match (arguments.filter (·.name = ascii "id".toList)).findSome? Argument.literal with
  | some (.string text) => some text
  | some (.int value) => some (formatLld value)
  | _ => none

def mutationTarget (newId : Int) : Option Bytes :=
  match mutationKind field.name with
  | some .create =>
    if missingFields (types (mutationTypeName field.name)) field.arguments = [] then
      some (createdId newId)
    else none
  | some .update => targetId field.arguments
  | _ => none

/-- The arguments that are written: for an update, all but `id`. -/
def writtenArguments : List (Bytes × Literal) :=
  field.arguments.filterMap fun argument =>
    if mutationKind field.name = some .update ∧ argument.name = ascii "id".toList then none
    else argument.literal.map fun literal => (argument.name, literal)

def mutationBatch (newId : Int) : List BatchOp :=
  match mutationTarget types field newId with
  | none => []
  | some id => (writtenArguments field).map (fieldPut (mutationPlural types field) id)

/-! ### Confinement -/

def internalNames : List Bytes := [ascii "__meta".toList, ascii "__schema".toList]

/-- Each argument is written under the entity and its own name, and the id is not internal. -/
def Confined (newId : Int) : Prop :=
  ∀ id, mutationTarget types field newId = some id → ∀ written ∈ writtenArguments field,
    (fieldPut (mutationPlural types field) id written).path =
      pathOf defaultChunkSize [mutationPlural types field, id, written.1] ∧ id ∉ internalNames

def IsComponent (text : Bytes) : Prop := text ≠ [] ∧ slash ∉ text

/-- A text that ends in another byte has more of them than any beginning of it. -/
theorem le_of_filter_take {text name : Bytes} {n : Nat} (hname : IsComponent name)
    (h : ((text ++ name).take n).filter (· != slash) = (text ++ name).filter (· != slash)) :
    (text ++ name).length ≤ n := by
  by_contra hlt
  have hsplit := congrArg (filter (· != slash)) (take_append_drop n (text ++ name))
  rw [filter_append, h, append_right_eq_self] at hsplit
  obtain ⟨last, hlast⟩ : ∃ last, name.getLast? = some last := ⟨_, getLast?_eq_some_getLast hname.1⟩
  have hdrop : ((text ++ name).drop n).getLast? = some last := by
    rw [getLast?_drop, if_neg hlt, getLast?_append_of_ne_nil _ hname.1, hlast]
  have hslash : last ≠ slash := by
    rintro rfl
    exact hname.2 (mem_of_getLast? hlast)
  exact filter_eq_nil_iff.mp hsplit last (mem_of_getLast? hdrop) (bne_iff_ne.mpr hslash)

theorem path_of_field_iff (plural id name : Bytes) :
    rawSegments slash [] (fieldPath plural id name) = [plural, id, name] ↔
      (IsComponent plural ∧ IsComponent id ∧ IsComponent name) ∧
        plural.length + id.length + name.length + 2 ≤ 511 := by
  constructor
  · intro h
    have hcomponent : ∀ c ∈ [plural, id, name], IsComponent c := by
      intro c hc
      rw [← h] at hc
      exact of_mem_rawSegments not_mem_nil hc
    obtain ⟨hplural, hid, hname⟩ : IsComponent plural ∧ IsComponent id ∧ IsComponent name := by
      simpa using hcomponent
    refine ⟨⟨hplural, hid, hname⟩, ?_⟩
    have hbytes := @flatten_rawSegments slash [] (fieldPath plural id name)
    have hwhole : plural ++ slash :: (id ++ slash :: name) =
        (plural ++ slash :: (id ++ [slash])) ++ name := by simp
    have hfilter : ((plural ++ slash :: (id ++ [slash])) ++ name).filter (· != slash) =
        [plural, id, name].flatten := by
      rw [filter_append, filter_append, filter_cons_of_neg (by simp),
        filter_append, filter_bne_eq_self_of_not_mem hplural.2, filter_bne_eq_self_of_not_mem hid.2,
        filter_bne_eq_self_of_not_mem hname.2]
      simp
    rw [h, fieldPath, hwhole, nil_append, ← hfilter] at hbytes
    have hle := le_of_filter_take hname hbytes.symm
    simp only [length_append, length_cons] at hle
    omega
  · rintro ⟨⟨hplural, hid, hname⟩, hlength⟩
    rw [fieldPath, take_of_length_le, rawSegments_append, rawSegments_append, rawSegments_eq_self
      hplural.1 hplural.2, rawSegments_eq_self hid.1 hid.2, rawSegments_eq_self hname.1 hname.2]
    · rfl
    · simp only [length_append, length_cons]
      omega

theorem pathOf_inj {cs : ChunkSize} {p q : List Bytes} : pathOf cs p = pathOf cs q ↔ p = q := by
  refine ⟨fun h => ?_, congrArg _⟩
  rw [← map_identifierToBuffer_pathOf cs p, h, map_identifierToBuffer_pathOf]

/-- A create or update stays inside its entity exactly if, for each argument that is written,
plural, id and name are components that fit into the buffer, and the id is not internal. -/
theorem mutation_confined_iff (types : Bytes → Option GraphqlType) (field : MutationField)
    (newId : Int) :
    Confined types field newId ↔
      ∀ id, mutationTarget types field newId = some id → ∀ written ∈ writtenArguments field,
        ((IsComponent (mutationPlural types field) ∧ IsComponent id ∧ IsComponent written.1) ∧
          (mutationPlural types field).length + id.length + written.1.length + 2 ≤ 511) ∧
        id ∉ internalNames := by
  refine forall₂_congr fun id _ => forall₂_congr fun written _ => and_congr_left fun _ => ?_
  rw [fieldPut, BatchOp.path, pathFromString, pathOf_inj, path_of_field_iff]

/-- `updateUser(id: "<id>", next_id: "1")`. -/
def updateUser (id : String) : MutationField :=
  { name := ascii "updateUser".toList
    arguments := [⟨ascii "id".toList, some (.string (ascii id.toList))⟩,
      ⟨ascii "next_id".toList, some (.string (ascii "1".toList))⟩] }

/-- An update of the entity `__meta` writes the counter of its type, and one of `7/8` writes a
key with four components. -/
theorem update_reaches_counter :
    ((mutationBatch (fun _ => none) (updateUser "__meta") 1).map BatchOp.path =
        [pathOf defaultChunkSize
          [ascii "User".toList, ascii "__meta".toList, ascii "next_id".toList]] ∧
      ¬ Confined (fun _ => none) (updateUser "__meta") 1) ∧
    (mutationBatch (fun _ => none) (updateUser "7/8") 1).map BatchOp.path =
        [pathOf defaultChunkSize (["User", "7", "8", "next_id"].map fun c => ascii c.toList)] ∧
      ¬ Confined (fun _ => none) (updateUser "7/8") 1 := by
  have hwritten : ∀ id, (ascii "next_id".toList, .string (ascii "1".toList)) ∈
      writtenArguments (updateUser id) := fun id => mem_singleton.mpr rfl
  refine ⟨⟨rfl, fun h => ?_⟩, rfl, fun h => ?_⟩
  · exact (h (ascii "__meta".toList) rfl _ (hwritten _)).2 (by decide)
  · have hpath := (h (ascii "7/8".toList) rfl _ (hwritten _)).1
    exact absurd (congrArg length hpath) (by decide)

end WaveDB.GraphQL
