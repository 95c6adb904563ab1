import GraphQL.Graph.Cycle
import GraphQL.Schema.Literal
import GraphQL.Schema.Subtype

/-!
# Consistent schemas

Everything that can be wrong with a schema, and the check that lists it: names given twice, roots,
directives, then the types in their order. `Inconsistency.message` is the text for users.
-/

namespace GraphQL

/-- Something that is wrong with a schema. -/
inductive Inconsistency where
  | noQueryRoot
  | rootNotObject (kind : OperationKind) (type : String)
  | unknownType (type referrer : String)
  | ambiguousName (name : String)
  | reservedName (name : String)
  | noLocations (directive : String)
  | notInputType (coordinate : String) (type : TypeLiteral)
  | notOutputType (coordinate : String) (type : TypeLiteral)
  | duplicateArgument (coordinate : String)
  | deprecatedRequiredArgument (coordinate : String)
  | deprecatedRequiredInputField (coordinate : String)
  | noFields (type : String)
  | notInterface (type interface : String)
  | implementsItself (type : String)
  | duplicateInterface (type interface : String)
  | missingField (interface field type : String)
  | fieldType (interface field : String) (expected : TypeLiteral) (type : String)
      (actual : TypeLiteral)
  | missingArgument (interface field argument type : String)
  | argumentType (interface field argument : String) (expected : TypeLiteral) (type : String)
      (actual : TypeLiteral)
  | extraRequiredArgument (type field argument : String) (argumentType : TypeLiteral)
      (interface : String)
  | circularImplementation (type interface : String)
  | missingInterface (type ancestor interface : String)
  | noMembers (union : String)
  | duplicateMember (union member : String)
  | memberNotObject (union member : String)
  | noValues (enum : String)
  | reservedValue (enum value : String)
  | noInputFields (type : String)
  | endlessInput (type : String) (path : List String)
deriving Repr

namespace Inconsistency

/-- What the root of a kind of operations is called at the start of a sentence. -/
def rootTitle : OperationKind → String
  | .query => "Query"
  | .mutation => "Mutation"
  | .subscription => "Subscription"

/-- What users are told. -/
def message : Inconsistency → String
  | noQueryRoot => "Query root type must be provided."
  | rootNotObject kind type =>
    rootTitle kind ++ " root type must be Object type, it cannot be " ++ type ++ "."
  | unknownType type referrer =>
    "Unknown type " ++ quoted type ++ " referenced by " ++ referrer ++ "."
  | ambiguousName name =>
    "Schema must contain uniquely named types but contains multiple types named " ++
      quoted name ++ "."
  | reservedName name =>
    "Name " ++ quoted name ++
      " must not begin with \"__\", which is reserved by GraphQL introspection."
  | noLocations directive =>
    "Directive @" ++ directive ++ " must include 1 or more locations."
  | notInputType coordinate type =>
    "The type of " ++ coordinate ++ " must be Input Type but got: " ++ type.text ++ "."
  | notOutputType coordinate type =>
    "The type of " ++ coordinate ++ " must be Output Type but got: " ++ type.text ++ "."
  | duplicateArgument coordinate => "Argument " ++ coordinate ++ " can only be defined once."
  | deprecatedRequiredArgument coordinate =>
    "Required argument " ++ coordinate ++ " cannot be deprecated."
  | deprecatedRequiredInputField coordinate =>
    "Required input field " ++ coordinate ++ " cannot be deprecated."
  | noFields type => "Type " ++ type ++ " must define one or more fields."
  | notInterface type interface =>
    "Type " ++ type ++ " must only implement Interface types, it cannot implement " ++
      interface ++ "."
  | implementsItself type =>
    "Type " ++ type ++ " cannot implement itself because it would create a circular reference."
  | duplicateInterface type interface =>
    "Type " ++ type ++ " can only implement " ++ interface ++ " once."
  | missingField interface field type =>
    "Interface field " ++ interface ++ "." ++ field ++ " expected but " ++ type ++
      " does not provide it."
  | fieldType interface field expected type actual =>
    "Interface field " ++ interface ++ "." ++ field ++ " expects type " ++ expected.text ++
      " but " ++ type ++ "." ++ field ++ " is type " ++ actual.text ++ "."
  | missingArgument interface field argument type =>
    "Interface field argument " ++ interface ++ "." ++ field ++ "(" ++ argument ++
      ":) expected but " ++ type ++ "." ++ field ++ " does not provide it."
  | argumentType interface field argument expected type actual =>
    "Interface field argument " ++ interface ++ "." ++ field ++ "(" ++ argument ++
      ":) expects type " ++ expected.text ++ " but " ++ type ++ "." ++ field ++ "(" ++ argument ++
      ":) is type " ++ actual.text ++ "."
  | extraRequiredArgument type field argument required interface =>
    "Argument \"" ++ type ++ "." ++ field ++ "(" ++ argument ++ ":)\" must not be required type " ++
      quoted required.text ++ " if not provided by the Interface field " ++
      quoted (interface ++ "." ++ field) ++ "."
  | circularImplementation type interface =>
    "Type " ++ type ++ " cannot implement " ++ interface ++
      " because it would create a circular reference."
  | missingInterface type ancestor interface =>
    "Type " ++ type ++ " must implement " ++ ancestor ++ " because it is implemented by " ++
      interface ++ "."
  | noMembers union => "Union type " ++ union ++ " must define one or more member types."
  | duplicateMember union member =>
    "Union type " ++ union ++ " can only include type " ++ member ++ " once."
  | memberNotObject union member =>
    "Union type " ++ union ++ " can only include Object types, it cannot include " ++ member ++ "."
  | noValues enum => "Enum type " ++ enum ++ " must define one or more values."
  | reservedValue enum value => "Enum type " ++ enum ++ " cannot include value: " ++ value ++ "."
  | noInputFields type => "Input Object type " ++ type ++ " must define one or more fields."
  | endlessInput type path =>
    "Cannot reference Input Object " ++ quoted type ++
      " within itself through a series of non-null fields: " ++ quoted (".".intercalate path) ++ "."

end Inconsistency

namespace Schema

/-- Faults of names: those that begin with two underscores are not for users. -/
def nameFaults (name : String) : List Inconsistency :=
  if isReservedName name then [.reservedName name] else []

/-- Faults of the root types. -/
def rootFaults (schema : Schema) : List Inconsistency :=
  (if schema.query.isNone then [.noQueryRoot] else []) ++
    OperationKind.all.flatMap fun kind =>
      match schema.rootName? kind with
      | none => []
      | some name =>
        match schema.type? name with
        | none => [.unknownType name (kind.keyword ++ " root")]
        | some t => if t.isObject then [] else [.rootNotObject kind name]

/-- Faults of the type of something that can be given, like an argument. -/
def inputTypeFaults (schema : Schema) (coordinate : String) (type : TypeLiteral) :
    List Inconsistency :=
  match schema.type? type.innermost with
  | none => [.unknownType type.innermost coordinate]
  | some t => if t.kind.isInput then [] else [.notInputType coordinate type]

/-- Faults of the type of a field. -/
def outputTypeFaults (schema : Schema) (coordinate : String) (type : TypeLiteral) :
    List Inconsistency :=
  match schema.type? type.innermost with
  | none => [.unknownType type.innermost coordinate]
  | some t => if t.kind.isOutput then [] else [.notOutputType coordinate type]

/-- Faults of the arguments of a field or directive; `earlier` are the names of those before. -/
def argumentFaults (schema : Schema) (owner : String) :
    (earlier : List String) → List InputValue → List Inconsistency
  | _, [] => []
  | earlier, argument :: rest =>
    let coordinate := owner ++ "(" ++ argument.name ++ ":)"
    nameFaults argument.name ++
      (if earlier.contains argument.name then [.duplicateArgument coordinate] else []) ++
      schema.inputTypeFaults coordinate argument.type ++
      (if argument.isRequired && argument.deprecation.isDeprecated then
        [.deprecatedRequiredArgument coordinate] else []) ++
      schema.argumentFaults owner (argument.name :: earlier) rest

/-- Faults of a directive. -/
def directiveFaults (schema : Schema) (directive : Directive) : List Inconsistency :=
  nameFaults directive.name ++
    (if directive.locations.isEmpty then [.noLocations directive.name] else []) ++
    schema.argumentFaults ("@" ++ directive.name) [] directive.arguments

/-- Faults of the fields of an object or interface. -/
def fieldFaults (schema : Schema) (t : NamedType) : List Inconsistency :=
  (if t.fields.isEmpty then [.noFields t.name] else []) ++
    t.fields.flatMap fun field =>
      let coordinate := t.name ++ "." ++ field.name
      nameFaults field.name ++ schema.outputTypeFaults coordinate field.type ++
        schema.argumentFaults coordinate [] field.arguments

/-- A type has to list the interfaces of its interfaces. -/
def ancestorFaults (t interface : NamedType) : List Inconsistency :=
  interface.interfaces.flatMap fun ancestor =>
    if t.interfaces.contains ancestor then []
    else if ancestor = t.name then [.circularImplementation t.name interface.name]
    else [.missingInterface t.name ancestor interface.name]

/-- An argument of a field of an interface has to be provided with the same type. -/
def implementedArgumentFaults (schema : Schema) (t interface : NamedType)
    (field expected : Field) : List Inconsistency :=
  (expected.arguments.flatMap fun argument =>
    match field.argument? argument.name with
    | none => [.missingArgument interface.name expected.name argument.name t.name]
    | some own =>
      match schema.resolve argument.type, schema.resolve own.type with
      | some type, some ownType =>
        if type.same ownType then []
        else
          [.argumentType interface.name expected.name argument.name type.literal t.name
            ownType.literal]
      | _, _ => []) ++
    field.arguments.flatMap fun own =>
      if own.isRequired && (expected.argument? own.name).isNone then
        [.extraRequiredArgument t.name field.name own.name own.type interface.name]
      else []

/-- A field of an interface has to be provided with a subtype. -/
def implementedFieldFaults (schema : Schema) (t interface : NamedType) : List Inconsistency :=
  interface.fields.flatMap fun expected =>
    match t.field? expected.name with
    | none => [.missingField interface.name expected.name t.name]
    | some field =>
      (match schema.resolve field.type, schema.resolve expected.type with
        | some actual, some type =>
          if schema.isSubtypeOf actual type then []
          else
            [.fieldType interface.name expected.name type.literal t.name actual.literal]
        | _, _ => []) ++
        schema.implementedArgumentFaults t interface field expected

/-- Faults of the interfaces that a type lists; `earlier` are those before. -/
def interfaceFaults (schema : Schema) (t : NamedType) :
    (earlier : List String) → List String → List Inconsistency
  | _, [] => []
  | earlier, name :: rest =>
    match schema.type? name with
    | none =>
      .unknownType name (t.name ++ " interfaces") :: schema.interfaceFaults t earlier rest
    | some interface =>
      if !interface.isInterface then
        .notInterface t.name name :: schema.interfaceFaults t earlier rest
      else if name = t.name then
        .implementsItself t.name :: schema.interfaceFaults t earlier rest
      else if earlier.contains name then
        .duplicateInterface t.name name :: schema.interfaceFaults t earlier rest
      else
        ancestorFaults t interface ++ schema.implementedFieldFaults t interface ++
          schema.interfaceFaults t (name :: earlier) rest

/-- Faults of the members of a union; `earlier` are those before. -/
def memberFaults (schema : Schema) (union : String) :
    (earlier : List String) → List String → List Inconsistency
  | _, [] => []
  | earlier, member :: rest =>
    (if earlier.contains member then [.duplicateMember union member]
      else
        match schema.type? member with
        | none => [.unknownType member (union ++ " members")]
        | some t => if t.isObject then [] else [.memberNotObject union member]) ++
      schema.memberFaults union (member :: earlier) rest

/-- Faults of the values of an enum. -/
def valueFaults (t : NamedType) (values : List EnumValue) : List Inconsistency :=
  (if values.isEmpty then [.noValues t.name] else []) ++
    values.flatMap fun value =>
      nameFaults value.name ++
        if ["true", "false", "null"].contains value.name then [.reservedValue t.name value.name]
        else []

/-- Faults of the fields of an input object. -/
def inputFieldFaults (schema : Schema) (t : NamedType) (fields : List InputValue) :
    List Inconsistency :=
  (if fields.isEmpty then [.noInputFields t.name] else []) ++
    fields.flatMap fun field =>
      let coordinate := t.name ++ "." ++ field.name
      nameFaults field.name ++ schema.inputTypeFaults coordinate field.type ++
        if field.isRequired && field.deprecation.isDeprecated then
          [.deprecatedRequiredInputField coordinate]
        else []

/-- The input objects of a schema. -/
def inputObjects (schema : Schema) : List String :=
  (schema.types.filter NamedType.isInputObject).map NamedType.name

/-- The input objects that a value of an input object always contains, with the fields that contain
them. -/
def requiredInputs (schema : Schema) (name : String) : List (Graph.Edge String String) :=
  match schema.type? name with
  | none => []
  | some t => t.inputFields.filterMap fun field =>
    match field.type with
    | .named target true =>
      if (schema.type? target).any NamedType.isInputObject then some ⟨target, field.name⟩ else none
    | _ => none

/-- Input objects that would have to contain themselves, by the type at which the search began. -/
def endlessInputs (schema : Schema) : List (String × List Inconsistency) :=
  (Graph.cyclesByStart schema.inputObjects schema.requiredInputs).map fun (start, cycles) =>
    (start, cycles.map fun cycle => .endlessInput cycle.node (cycle.edges.map Graph.Edge.label))

/-- Faults of a type, given the input objects that would have to contain themselves. -/
def typeFaults (schema : Schema) (endless : List (String × List Inconsistency)) (t : NamedType) :
    List Inconsistency :=
  (if (Standard.introspection? t.name).isSome then [] else nameFaults t.name) ++
    match t.shape with
    | .scalar _ => []
    | .object interfaces _ => schema.fieldFaults t ++ schema.interfaceFaults t [] interfaces
    | .interface interfaces _ => schema.fieldFaults t ++ schema.interfaceFaults t [] interfaces
    | .union members =>
      (if members.isEmpty then [.noMembers t.name] else []) ++ schema.memberFaults t.name [] members
    | .enum values => valueFaults t values
    | .inputObject fields =>
      schema.inputFieldFaults t fields ++ (endless.lookup t.name).getD []

/-- Everything that is wrong with a schema. -/
def inconsistencies (schema : Schema) : List Inconsistency :=
  schema.ambiguous.map .ambiguousName ++ schema.rootFaults ++
    schema.directives.flatMap schema.directiveFaults ++
    schema.types.flatMap (schema.typeFaults schema.endlessInputs)

end Schema

end GraphQL
