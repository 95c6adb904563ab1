import GraphQL.Schema.Directive

/-!
# Standard types

The scalars and the introspection types that every schema can refer to, and the fields by which
introspection is asked for.
-/

namespace GraphQL.Standard

/-- A scalar with its description. -/
def scalar (name description : String) : NamedType :=
  { name := name, description := some description, shape := .scalar none }

/-- The built-in scalars. -/
def scalars : List NamedType := [
  scalar "Int" <|
    "The `Int` scalar type represents non-fractional signed whole numeric values. " ++
    "Int can represent values between -(2^31) and 2^31 - 1.",
  scalar "Float" <|
    "The `Float` scalar type represents signed double-precision fractional values as " ++
    "specified by [IEEE 754](https://en.wikipedia.org/wiki/IEEE_floating_point).",
  scalar "String" <|
    "The `String` scalar type represents textual data, represented as UTF-8 character " ++
    "sequences. The String type is most often used by GraphQL to represent free-form " ++
    "human-readable text.",
  scalar "Boolean" "The `Boolean` scalar type represents `true` or `false`.",
  scalar "ID" <|
    "The `ID` scalar type represents a unique identifier, often used to refetch an " ++
    "object or as key for a cache. The ID type appears in a JSON response as a String; " ++
    "however, it is not intended to be human-readable. When expected as an input type, " ++
    "any string (such as `\"4\"`) or integer (such as `4`) input value will be accepted " ++
    "as an ID."]

/-- A type that may be null. -/
def nullable (name : String) : TypeLiteral := .named name false

/-- A type that is never null. -/
def required (name : String) : TypeLiteral := .named name true

/-- A list of items that are never null. -/
def items (name : String) : TypeLiteral := .list (required name) false

/-- A list of items, neither of which is ever null. -/
def requiredItems (name : String) : TypeLiteral := .list (required name) true

/-- Asks for deprecated entries too. -/
def includeDeprecated : InputValue :=
  { name := "includeDeprecated", type := nullable "Boolean", default := some (.boolean false) }

/-- An enum value with its description. -/
def value (name description : String) : EnumValue :=
  { name := name, description := some description }

/-- Describes a schema. -/
def schema : NamedType where
  name := "__Schema"
  description := some <|
    "A GraphQL Schema defines the capabilities of a GraphQL server. It exposes all available " ++
    "types and directives on the server, as well as the entry points for query, mutation, " ++
    "and subscription operations."
  shape := .object [] [
    { name := "description", type := nullable "String" },
    { name := "types", type := requiredItems "__Type",
      description := some "A list of all types supported by this server." },
    { name := "queryType", type := required "__Type",
      description := some "The type that query operations will be rooted at." },
    { name := "mutationType", type := nullable "__Type",
      description := some <|
        "If this server supports mutation, the type that mutation operations will be " ++
        "rooted at." },
    { name := "subscriptionType", type := nullable "__Type",
      description := some <|
        "If this server support subscription, the type that subscription operations will " ++
        "be rooted at." },
    { name := "directives", type := requiredItems "__Directive",
      description := some "A list of all directives supported by this server." }]

/-- Describes a directive. -/
def directive : NamedType where
  name := "__Directive"
  description := some <|
    "A Directive provides a way to describe alternate runtime execution and type validation " ++
    "behavior in a GraphQL document.\n\nIn some cases, you need to provide options to alter " ++
    "GraphQL's execution behavior in ways field arguments will not suffice, such as " ++
    "conditionally including or skipping a field. Directives provide this by describing " ++
    "additional information to the executor."
  shape := .object [] [
    { name := "name", type := required "String" },
    { name := "description", type := nullable "String" },
    { name := "isRepeatable", type := required "Boolean" },
    { name := "locations", type := requiredItems "__DirectiveLocation" },
    { name := "args", type := requiredItems "__InputValue", arguments := [includeDeprecated] }]

/-- Names a place at which a directive can stand. -/
def directiveLocation : NamedType where
  name := "__DirectiveLocation"
  description := some <|
    "A Directive can be adjacent to many parts of the GraphQL language, a " ++
    "__DirectiveLocation describes one such possible adjacencies."
  shape := .enum [
    value "QUERY" "Location adjacent to a query operation.",
    value "MUTATION" "Location adjacent to a mutation operation.",
    value "SUBSCRIPTION" "Location adjacent to a subscription operation.",
    value "FIELD" "Location adjacent to a field.",
    value "FRAGMENT_DEFINITION" "Location adjacent to a fragment definition.",
    value "FRAGMENT_SPREAD" "Location adjacent to a fragment spread.",
    value "INLINE_FRAGMENT" "Location adjacent to an inline fragment.",
    value "VARIABLE_DEFINITION" "Location adjacent to a variable definition.",
    value "SCHEMA" "Location adjacent to a schema definition.",
    value "SCALAR" "Location adjacent to a scalar definition.",
    value "OBJECT" "Location adjacent to an object type definition.",
    value "FIELD_DEFINITION" "Location adjacent to a field definition.",
    value "ARGUMENT_DEFINITION" "Location adjacent to an argument definition.",
    value "INTERFACE" "Location adjacent to an interface definition.",
    value "UNION" "Location adjacent to a union definition.",
    value "ENUM" "Location adjacent to an enum definition.",
    value "ENUM_VALUE" "Location adjacent to an enum value definition.",
    value "INPUT_OBJECT" "Location adjacent to an input object type definition.",
    value "INPUT_FIELD_DEFINITION" "Location adjacent to an input object field definition."]

/-- Describes a type. -/
def type : NamedType where
  name := "__Type"
  description := some <|
    "The fundamental unit of any GraphQL Schema is the type. There are many kinds of types " ++
    "in GraphQL as represented by the `__TypeKind` enum.\n\nDepending on the kind of a " ++
    "type, certain fields describe information about that type. Scalar types provide no " ++
    "information beyond a name, description and optional `specifiedByURL`, while Enum types " ++
    "provide their values. Object and Interface types provide the fields they describe. " ++
    "Abstract types, Union and Interface, provide the Object types possible at runtime. " ++
    "List and NonNull types compose other types."
  shape := .object [] [
    { name := "kind", type := required "__TypeKind" },
    { name := "name", type := nullable "String" },
    { name := "description", type := nullable "String" },
    { name := "specifiedByURL", type := nullable "String" },
    { name := "fields", type := items "__Field", arguments := [includeDeprecated] },
    { name := "interfaces", type := items "__Type" },
    { name := "possibleTypes", type := items "__Type" },
    { name := "enumValues", type := items "__EnumValue", arguments := [includeDeprecated] },
    { name := "inputFields", type := items "__InputValue", arguments := [includeDeprecated] },
    { name := "ofType", type := nullable "__Type" }]

/-- Describes a field. -/
def field : NamedType where
  name := "__Field"
  description := some <|
    "Object and Interface types are described by a list of Fields, each of which has a " ++
    "name, potentially a list of arguments, and a return type."
  shape := .object [] [
    { name := "name", type := required "String" },
    { name := "description", type := nullable "String" },
    { name := "args", type := requiredItems "__InputValue", arguments := [includeDeprecated] },
    { name := "type", type := required "__Type" },
    { name := "isDeprecated", type := required "Boolean" },
    { name := "deprecationReason", type := nullable "String" }]

/-- Describes an argument or a field of an input object. -/
def inputValue : NamedType where
  name := "__InputValue"
  description := some <|
    "Arguments provided to Fields or Directives and the input fields of an InputObject are " ++
    "represented as Input Values which describe their type and optionally a default value."
  shape := .object [] [
    { name := "name", type := required "String" },
    { name := "description", type := nullable "String" },
    { name := "type", type := required "__Type" },
    { name := "defaultValue", type := nullable "String",
      description := some <|
        "A GraphQL-formatted string representing the default value for this input value." },
    { name := "isDeprecated", type := required "Boolean" },
    { name := "deprecationReason", type := nullable "String" }]

/-- Describes a value of an enum. -/
def enumValue : NamedType where
  name := "__EnumValue"
  description := some <|
    "One possible value for a given Enum. Enum values are unique values, not a placeholder " ++
    "for a string or numeric value. However an Enum value is returned in a JSON response as " ++
    "a string."
  shape := .object [] [
    { name := "name", type := required "String" },
    { name := "description", type := nullable "String" },
    { name := "isDeprecated", type := required "Boolean" },
    { name := "deprecationReason", type := nullable "String" }]

/-- Names the kind of a type. -/
def typeKind : NamedType where
  name := "__TypeKind"
  description := some "An enum describing what kind of type a given `__Type` is."
  shape := .enum [
    value "SCALAR" "Indicates this type is a scalar.",
    value "OBJECT"
      "Indicates this type is an object. `fields` and `interfaces` are valid fields.",
    value "INTERFACE" <|
      "Indicates this type is an interface. `fields`, `interfaces`, and " ++
      "`possibleTypes` are valid fields.",
    value "UNION" "Indicates this type is a union. `possibleTypes` is a valid field.",
    value "ENUM" "Indicates this type is an enum. `enumValues` is a valid field.",
    value "INPUT_OBJECT"
      "Indicates this type is an input object. `inputFields` is a valid field.",
    value "LIST" "Indicates this type is a list. `ofType` is a valid field.",
    value "NON_NULL" "Indicates this type is a non-null. `ofType` is a valid field."]

/-- The introspection types. -/
def introspection : List NamedType :=
  [schema, directive, directiveLocation, type, field, inputValue, enumValue, typeKind]

/-- All standard types. -/
def types : List NamedType :=
  scalars ++ introspection

/-- The built-in scalar of a name. -/
def scalar? (name : String) : Option NamedType :=
  scalars.find? (·.name = name)

/-- The introspection type of a name. -/
def introspection? (name : String) : Option NamedType :=
  introspection.find? (·.name = name)

/-- The standard type of a name. -/
def type? (name : String) : Option NamedType :=
  types.find? (·.name = name)

/-- The standard type that another type stands for: the one of the same name and kind. -/
def of? (t : NamedType) : Option NamedType :=
  (type? t.name).filter (·.kind = t.kind)

/-- The field of every composite type that names the type at hand. -/
def typenameField : Field :=
  { name := "__typename", type := required "String",
    description := some "The name of the current Object type at runtime." }

/-- The field of the query root that describes the schema. -/
def schemaField : Field :=
  { name := "__schema", type := required "__Schema",
    description := some "Access the current type schema of this server." }

/-- The field of the query root that describes one type. -/
def typeField : Field :=
  { name := "__type", type := nullable "__Type",
    description := some "Request the type information of a single type.",
    arguments := [{ name := "name", type := required "String" }] }

end GraphQL.Standard
