import WaveDB.GraphQL.Mutation

/-!
What a mutation reports (`graphql_mutate_impl` in `Layers/graphql/graphql_resolve.c`).

`success` is set before the first field, and only a create without its required fields takes it
back: a missing id is an error that leaves it, and what the database returns is not looked at.
-/

namespace WaveDB.GraphQL

open WaveDB.Basis HBTrie Database List

/-! ### Fields -/

/-- What the calls of one field meet: the counter, the allocation of batch and result node, and the
database. A scan that does not start gives no keys. -/
structure FieldEnv where
  newId : Int
  allocated : Bool
  writeBatch : List BatchOp → Int
  scan : Path → Option (List Path)
  delete : Path → Int

/-- `success` and the messages of a `graphql_result_t`. `codes` records what the database returned
to each field, or that it was not asked; the function does not have them. -/
structure MutationResult where
  success : Bool
  errors : List Bytes
  codes : List (Option (List Int))

def requiredMessage (missing : List Bytes) : Bytes :=
  ascii "Missing required fields: ".toList ++ (ascii ", ".toList).intercalate missing

def idMessage (kind : String) : Bytes :=
  ascii "Missing required 'id' argument on ".toList ++ ascii kind.toList ++
    ascii " mutation".toList

section Impl

variable (types : Bytes → Option GraphqlType)

variable (field : MutationField)

def deletedKeys (env : FieldEnv) (id : Bytes) : Option (List Path) :=
  env.scan (pathFromString ((mutationPlural types field ++ slash :: id).take 255))

def fieldCodes (env : FieldEnv) : Option (List Int) :=
  if mutationKind field.name = some .delete then
    (targetId field.arguments).elim (some []) fun id =>
      (deletedKeys types field env id).map (·.map env.delete)
  else if (mutationTarget types field env.newId).isNone then some []
  else if env.allocated then some [env.writeBatch (mutationBatch types field env.newId)]
  else none

def mutateField (r : MutationResult) (f : MutationField × FieldEnv) : MutationResult :=
  let codes := r.codes ++ [fieldCodes types f.1 f.2]
  match mutationKind f.1.name with
  | some .create =>
    match missingFields (types (mutationTypeName f.1.name)) f.1.arguments with
    | [] => { r with codes }
    | missing => ⟨false, r.errors ++ [requiredMessage missing], codes⟩
  | some .update =>
    if (targetId f.1.arguments).isSome then { r with codes }
    else { r with errors := r.errors ++ [idMessage "update"], codes }
  | some .delete =>
    if (targetId f.1.arguments).isSome then { r with codes }
    else { r with errors := r.errors ++ [idMessage "delete"], codes }
  | none => { r with codes }

/-- `graphql_mutate_impl` for what the parser makes of a text: a message, or the fields of the first
operation, if there is one. -/
def graphqlMutateImpl :
    Except Bytes (Option (List (MutationField × FieldEnv))) → MutationResult
  | .error message => ⟨false, [message], []⟩
  | .ok none => ⟨false, [ascii "No mutation operation found".toList], []⟩
  | .ok (some fields) => fields.foldl (mutateField types) ⟨true, [], []⟩

/-- Success means that there are no errors, and that every call was made and returned 0. -/
def MutationResult.Honest (r : MutationResult) : Prop :=
  r.success = true → r.errors = [] ∧ ∀ codes ∈ r.codes, ∃ returned, codes = some returned ∧
    ∀ code ∈ returned, code = 0

/-! ### What the loop leaves -/

def passesValidation : Bool :=
  mutationKind field.name != some .create ||
    (missingFields (types (mutationTypeName field.name)) field.arguments).isEmpty

def namesTarget : Bool :=
  match mutationKind field.name with
  | some .update | some .delete => (targetId field.arguments).isSome
  | _ => true

theorem mutateField_eq (r : MutationResult) (f : MutationField × FieldEnv) :
    (mutateField types r f).success = (r.success && passesValidation types f.1) ∧
      ((mutateField types r f).errors = [] ↔
        r.errors = [] ∧ passesValidation types f.1 ∧ namesTarget f.1) ∧
      (mutateField types r f).codes = r.codes ++ [fieldCodes types f.1 f.2] := by
  rw [mutateField, passesValidation, namesTarget]
  cases mutationKind f.1.name with
  | none => simp
  | some kind =>
    cases kind with
    | create => cases missingFields (types (mutationTypeName f.1.name)) f.1.arguments <;> simp
    | update | delete => cases targetId f.1.arguments <;> simp

theorem foldl_mutateField (r : MutationResult) (fields : List (MutationField × FieldEnv)) :
    (fields.foldl (mutateField types) r).success =
        (r.success && fields.all fun f => passesValidation types f.1) ∧
      ((fields.foldl (mutateField types) r).errors = [] ↔ r.errors = [] ∧
        ∀ f ∈ fields, passesValidation types f.1 ∧ namesTarget f.1) ∧
      (fields.foldl (mutateField types) r).codes =
        r.codes ++ fields.map fun f => fieldCodes types f.1 f.2 := by
  induction fields generalizing r with
  | nil => simp
  | cons f fields ih =>
    obtain ⟨hsuccess, herrors, hcodes⟩ := mutateField_eq types r f
    obtain ⟨hsuccess', herrors', hcodes'⟩ := ih (mutateField types r f)
    rw [foldl_cons]
    refine ⟨?_, ?_, ?_⟩
    · rw [hsuccess', hsuccess, all_cons, Bool.and_assoc]
    · rw [herrors', herrors, forall_mem_cons, and_assoc, and_assoc]
    · rw [hcodes', hcodes, map_cons, append_assoc, singleton_append]

end Impl

/-- The reported success is honest exactly if a create of the document lacks a required field, or
every update and delete names its id and every call to the database is made and returns 0. -/
theorem mutation_success_honest_iff (types : Bytes → Option GraphqlType)
    (document : Except Bytes (Option (List (MutationField × FieldEnv)))) :
    (graphqlMutateImpl types document).Honest ↔
      ∀ fields, document = .ok (some fields) →
        (∃ f ∈ fields, passesValidation types f.1 = false) ∨
          ∀ f ∈ fields, namesTarget f.1 = true ∧ ∃ returned,
            fieldCodes types f.1 f.2 = some returned ∧ ∀ code ∈ returned, code = 0 := by
  match document with
  | .error message => exact iff_of_true nofun nofun
  | .ok none => exact iff_of_true nofun nofun
  | .ok (some fields) =>
    obtain ⟨hsuccess, herrors, hcodes⟩ := foldl_mutateField types ⟨true, [], []⟩ fields
    simp only [MutationResult.Honest, graphqlMutateImpl, hsuccess, herrors, hcodes, Bool.true_and,
      nil_append, forall_mem_map, true_and, Except.ok.injEq, Option.some.injEq, forall_eq']
    by_cases hall : ∀ f ∈ fields, passesValidation types f.1
    · have hnone : ¬ ∃ f ∈ fields, passesValidation types f.1 = false := by
        rintro ⟨f, hf, hfalse⟩
        exact Bool.false_ne_true (hfalse.symm.trans (hall f hf))
      rw [all_eq_true, imp_iff_right hall, or_iff_right hnone, ← forall₂_and]
      exact forall₂_congr fun f hf => by rw [hall f hf]; simp
    · refine iff_of_true (fun h => absurd (all_eq_true.mp h) hall) (.inl ?_)
      simpa using hall

def mutateOne (field : MutationField) (code : Int) : MutationResult :=
  graphqlMutateImpl (fun _ => none)
    (.ok (some [(field, ⟨1, true, fun _ => code, fun _ => some [], fun _ => code⟩)]))

/-- An update without an id, and one whose batch is not written, are reported as a success. -/
theorem mutation_success_hides_failure :
    ((mutateOne ⟨ascii "updateUser".toList, []⟩ 0).success = true ∧
      (mutateOne ⟨ascii "updateUser".toList, []⟩ 0).errors = [idMessage "update"]) ∧
    (mutateOne (updateUser "7") (-1)).success = true ∧
      (mutateOne (updateUser "7") (-1)).codes = [some [-1]] ∧
      ¬ (mutateOne ⟨ascii "updateUser".toList, []⟩ 0).Honest ∧
      ¬ (mutateOne (updateUser "7") (-1)).Honest := by
  refine ⟨⟨rfl, rfl⟩, rfl, rfl, fun h => ?_, fun h => ?_⟩
  · cases (h rfl).1
  · obtain ⟨returned, heq, hzero⟩ := (h rfl).2 (some [-1]) (mem_singleton.mpr rfl)
    cases heq
    exact absurd (hzero (-1) (mem_singleton.mpr rfl)) (by decide)

end WaveDB.GraphQL
