import GraphQL.Grammar.Value
import GraphQL.Introspection.Wire
import GraphQL.Schema.Consistency
import GraphQL.Schema.Registry

/-!
# Schemas from descriptions

Makes the schema that a server describes. The description is checked on the way: references have to
lead to types of the description, kinds have to fit, nothing may be missing, and default values have
to be literals of their types. Unless the caller trusts the server, the schema also has to be
consistent.

Types refer to each other by name, so building one needs no other one to be built: references only
look at the kinds of the records.
-/

namespace GraphQL.Introspection

/-- Options for making a schema. -/
structure BuildOptions where
  /-- Trusts the description to be consistent. -/
  assumeValid : Bool := false
deriving DecidableEq, Repr, Inhabited

/-- Reads the options. -/
def BuildOptions.reader : Json.Reader BuildOptions :=
  Json.Record.reader "BuildClientSchemaOptions" <|
    BuildOptions.mk <$> .given "assumeValid" .boolean false

/-- Why a description cannot be made into a schema. -/
inductive BuildError where
  /-- The answer does not hold the description of a schema. -/
  | noSchema (answer : Json)
  /-- The description is not of the right form. -/
  | malformed (mismatch : Json.Mismatch)
  /-- The record of a type is of a kind that named types do not have. -/
  | wrapperRecord (record : TypeRecord)
  /-- A record lacks a part that its kind requires. -/
  | missingPart (part record : String)
  /-- A reference to a named type lacks the name. -/
  | namelessReference (reference : TypeRef)
  /-- A reference leads to no record. -/
  | unknownType (name : String)
  /-- A reference has too many wrappers, or one that wraps nothing. -/
  | tooDeep
  /-- A type is required twice. -/
  | requiredTwice (type : TypeLiteral)
  | outputTypeExpected (type : TypeLiteral)
  | inputTypeExpected (type : TypeLiteral)
  | objectTypeExpected (type : TypeLiteral)
  | interfaceTypeExpected (type : TypeLiteral)
  /-- A default value cannot be read, or is no literal of its type. -/
  | badDefault (coordinate value reason : String)
  /-- The schema is not consistent. -/
  | inconsistent (faults : List Inconsistency)
deriving Repr

/-- What users are told. -/
def BuildError.message : BuildError → String
  | noSchema answer =>
    "Invalid or incomplete introspection result. Ensure that you are passing \"data\" " ++
      "property of introspection response and no \"errors\" was returned alongside: " ++
      answer.text ++ "."
  | malformed mismatch => "Malformed introspection result: " ++ mismatch.message ++ "."
  | wrapperRecord record =>
    "Invalid or incomplete introspection result. Ensure that a full introspection query is " ++
      "used in order to build a client schema: " ++ summary record.kind record.name ++ "."
  | missingPart part record => "Introspection result missing " ++ part ++ ": " ++ record ++ "."
  | namelessReference reference =>
    "Unknown type reference: " ++ summary reference.kind reference.name ++ "."
  | unknownType name =>
    "Invalid or incomplete schema, unknown type: " ++ name ++ ". Ensure that a full " ++
      "introspection query is used in order to build a client schema."
  | tooDeep => "Decorated type deeper than introspection query."
  | requiredTwice type => "Expected " ++ type.text ++ " to be a GraphQL nullable type."
  | outputTypeExpected type =>
    "Introspection must provide output type for fields, but received: " ++ type.text ++ "."
  | inputTypeExpected type =>
    "Introspection must provide input type for arguments, but received: " ++ type.text ++ "."
  | objectTypeExpected type => "Expected " ++ type.text ++ " to be a GraphQL Object type."
  | interfaceTypeExpected type => "Expected " ++ type.text ++ " to be a GraphQL Interface type."
  | badDefault coordinate value reason =>
    "Invalid default value " ++ value ++ " for " ++ coordinate ++ ": " ++ reason ++ "."
  | inconsistent faults => "\n".intercalate (faults.map Inconsistency.message)

/-- Making a schema can fail. -/
abbrev Build := Except BuildError

/-- How many wrappers an introspection query asks for. -/
def maxWrappers : Nat := 7

/-- Puts a record in the place of the one of its name, or at the end. -/
def putRecord (record : TypeRecord) : List TypeRecord → List TypeRecord
  | [] => [record]
  | other :: rest =>
    if other.name = record.name then record :: rest else other :: putRecord record rest

/-- The records by their names; of several of one name the last one counts. -/
def distinctRecords (records : List TypeRecord) : List TypeRecord :=
  records.foldl (fun found record => putRecord record found) []

/-- The kind of the type of a name. -/
def kindOf (records : List TypeRecord) (name : String) : Build TypeKind :=
  match records.find? (·.name = name) with
  | some record => .ok record.kind
  | none => .error (.unknownType name)

/-- The wrappers of a reference from the outside, of which there may be `budget` at most, and the
reference to the named type inside. -/
def unwrap : (budget : Nat) → TypeRef → Build (List TypeKind × TypeRef)
  | budget, .wrapping kind name ofType =>
    if !kind.isWrapper then .ok ([], .wrapping kind name ofType)
    else
      match budget with
      | 0 => .error .tooDeep
      | budget + 1 => do
        let (wrappers, inner) ← unwrap budget ofType
        return (kind :: wrappers, inner)
  | _, .plain kind name =>
    if kind.isWrapper then .error .tooDeep else .ok ([], .plain kind name)

/-- Wraps a type again. -/
def rewrap (t : TypeLiteral) : List TypeKind → Build TypeLiteral
  | [] => .ok t
  | kind :: inner => do
    let t ← rewrap t inner
    if kind = .nonNull then
      if t.isRequired then throw (.requiredTwice t) else return t.required
    else return .list t false

/-- The type that a reference stands for, and the kind of the named type inside. -/
def decode (records : List TypeRecord) (reference : TypeRef) : Build (TypeLiteral × TypeKind) := do
  let (wrappers, inner) ← unwrap maxWrappers reference
  match inner.name with
  | none => throw (.namelessReference inner)
  | some name =>
    let kind ← kindOf records name
    let t ← rewrap (.named name false) wrappers
    return (t, kind)

/-- The type of a field. -/
def outputType (records : List TypeRecord) (reference : TypeRef) : Build TypeLiteral := do
  let (t, kind) ← decode records reference
  if kind.isOutput then return t else throw (.outputTypeExpected t)

/-- The type of an argument or input field. -/
def inputType (records : List TypeRecord) (reference : TypeRef) : Build TypeLiteral := do
  let (t, kind) ← decode records reference
  if kind.isInput then return t else throw (.inputTypeExpected t)

/-- The name of a type of a given kind, which must not be wrapped. -/
def namedOfKind (records : List TypeRecord) (expected : TypeKind)
    (error : TypeLiteral → BuildError) (reference : TypeRef) : Build String := do
  let (t, kind) ← decode records reference
  match t with
  | .named name false => if kind = expected then return name else throw (error t)
  | _ => throw (error t)

/-- A part of a record that has to be there. -/
def part {α : Type} (name record : String) : Option α → Build α
  | some a => .ok a
  | none => .error (.missingPart name record)

/-- Whether something is deprecated: a reason alone says so too. -/
def deprecation (isDeprecated : Bool) (reason : Option String) : Deprecation :=
  if isDeprecated || reason.isSome then .deprecated reason else .current

/-- Reads a default value. -/
def defaultValue (name text : String) : Build Value :=
  match Value.parse text with
  | .ok value => .ok value.item
  | .error error => .error (.badDefault name text error.item.message)

/-- Makes an argument or input field. -/
def buildInput (records : List TypeRecord) (record : InputValueRecord) : Build InputValue := do
  let type ← inputType records record.type
  let default ← record.defaultValue.mapM (defaultValue record.name)
  return {
    name := record.name
    type := type
    description := record.description
    default := default
    deprecation := deprecation record.isDeprecated record.deprecationReason }

/-- Makes a field. -/
def buildField (records : List TypeRecord) (record : FieldRecord) : Build Field := do
  let type ← outputType records record.type
  let arguments ← part "field args" (summary none record.name) record.args
  let arguments ← arguments.mapM (buildInput records)
  return {
    name := record.name
    type := type
    description := record.description
    arguments := arguments
    deprecation := deprecation record.isDeprecated record.deprecationReason }

/-- Makes a value of an enum. -/
def buildValue (record : EnumValueRecord) : EnumValue where
  name := record.name
  description := record.description
  deprecation := deprecation record.isDeprecated record.deprecationReason

/-- The interfaces of an object or interface. Interfaces may leave them null, objects may not; none
may list itself. -/
def buildInterfaces (records : List TypeRecord) (record : TypeRecord) : Build (List String) := do
  let references ← match record.interfaces with
    | some (some references) => pure references
    | some none =>
      if record.kind = .interface then pure []
      else throw (.missingPart "interfaces" (summary record.kind record.name))
    | none => throw (.missingPart "interfaces" (summary record.kind record.name))
  references.mapM fun reference => do
    let name ← namedOfKind records .interface .interfaceTypeExpected reference
    if name = record.name then throw (.interfaceTypeExpected (.named name false))
    return name

/-- The shape of a type. -/
def buildShape (records : List TypeRecord) (record : TypeRecord) : Build Shape := do
  let whole := summary record.kind record.name
  match record.kind with
  | .scalar => return .scalar record.specifiedByURL
  | .object =>
    let interfaces ← buildInterfaces records record
    let fields ← part "fields" whole record.fields
    return .object interfaces (← fields.mapM (buildField records))
  | .interface =>
    let interfaces ← buildInterfaces records record
    let fields ← part "fields" whole record.fields
    return .interface interfaces (← fields.mapM (buildField records))
  | .union =>
    let members ← part "possibleTypes" whole record.possibleTypes
    return .union (← members.mapM (namedOfKind records .object .objectTypeExpected))
  | .enum =>
    let values ← part "enumValues" whole record.enumValues
    return .enum (values.map buildValue)
  | .inputObject =>
    let fields ← part "inputFields" whole record.inputFields
    return .inputObject (← fields.mapM (buildInput records))
  | .list => throw (.wrapperRecord record)
  | .nonNull => throw (.wrapperRecord record)

/-- Makes a type. What a description says about standard types is not looked at. -/
def buildType (records : List TypeRecord) (record : TypeRecord) : Build NamedType :=
  match (Standard.type? record.name).filter (·.kind = record.kind) with
  | some standard => .ok standard
  | none => do
    let shape ← buildShape records record
    return { name := record.name, description := record.description, shape := shape }

/-- Makes a directive. -/
def buildDirective (records : List TypeRecord) (record : DirectiveRecord) : Build Directive := do
  let whole := summary none record.name
  let arguments ← part "directive args" whole record.args
  let arguments ← arguments.mapM (buildInput records)
  let locations ← part "directive locations" whole record.locations
  return {
    name := record.name
    description := record.description
    locations := locations
    arguments := arguments
    repeatable := record.isRepeatable }

/-- The name of a root type, which has to be an object. -/
def buildRoot (records : List TypeRecord) (root : RootRecord) : Build String := do
  let kind ← kindOf records root.name
  if kind = .object then return root.name
  else throw (.objectTypeExpected (.named root.name false))

/-- What the schema of a description is made from. -/
def buildConfig (record : SchemaRecord) (options : BuildOptions) : Build Schema.Config := do
  let records := distinctRecords record.types
  let types ← records.mapM (buildType records)
  let query ← record.queryType.mapM (buildRoot records)
  let mutation ← record.mutationType.mapM (buildRoot records)
  let subscription ← record.subscriptionType.mapM (buildRoot records)
  let directives ← record.directives.mapM (buildDirective records)
  return {
    description := record.description
    query := query
    mutation := mutation
    subscription := subscription
    types := types
    directives := some directives
    assumeValid := options.assumeValid }

/-- The arguments and input fields of a schema that clients define, with their coordinates. -/
def inputCoordinates (schema : Schema) : List (String × InputValue) :=
  (schema.types.filter (!·.isBuiltin)).flatMap (fun t =>
    t.fields.flatMap (fun field => field.arguments.map fun argument =>
      (t.name ++ "." ++ field.name ++ "(" ++ argument.name ++ ":)", argument)) ++
    t.inputFields.map fun field => (t.name ++ "." ++ field.name, field)) ++
  schema.directives.flatMap fun directive => directive.arguments.map fun argument =>
    ("@" ++ directive.name ++ "(" ++ argument.name ++ ":)", argument)

/-- A default value has to be a literal of its type. -/
def checkDefault (schema : Schema) (coordinate : String) (input : InputValue) : Build Unit :=
  match input.default, schema.resolve input.type with
  | some value, some type =>
    match schema.literalFault? type value with
    | some fault => .error (.badDefault coordinate value.text fault.message)
    | none => .ok ()
  | _, _ => .ok ()

/-- Makes the schema of a description. -/
def build (record : SchemaRecord) (options : BuildOptions) : Build Schema := do
  let config ← buildConfig record options
  let schema := Schema.ofConfig config
  (inputCoordinates schema).forM fun (coordinate, input) => checkDefault schema coordinate input
  if !options.assumeValid && !schema.inconsistencies.isEmpty then
    throw (.inconsistent schema.inconsistencies)
  return schema

/-- Makes the schema of the answer to an introspection query. -/
def buildAnswer (answer : Json) (options : BuildOptions) : Build Schema :=
  match answer.get? "__schema" with
  | some (.object entries) =>
    match SchemaRecord.reader (.object entries) with
    | .ok record => build record options
    | .error mismatch => .error (.malformed mismatch)
  | _ => .error (.noSchema answer)

end GraphQL.Introspection
