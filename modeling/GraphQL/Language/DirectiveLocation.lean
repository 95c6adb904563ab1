/-!
# Where directives may stand

The places of a document at which a directive can be written, with the names that schemas use for
them and the words that error messages use.
-/

namespace GraphQL

/-- A place at which a directive can be written. -/
inductive DirectiveLocation where
  | query
  | mutation
  | subscription
  | field
  | fragmentDefinition
  | fragmentSpread
  | inlineFragment
  | variableDefinition
  | schema
  | scalar
  | object
  | fieldDefinition
  | argumentDefinition
  | interface
  | union
  | enum
  | enumValue
  | inputObject
  | inputFieldDefinition
deriving DecidableEq, Repr

namespace DirectiveLocation

/-- All places. -/
def all : List DirectiveLocation :=
  [query, mutation, subscription, field, fragmentDefinition, fragmentSpread, inlineFragment,
    variableDefinition, schema, scalar, object, fieldDefinition, argumentDefinition, interface,
    union, enum, enumValue, inputObject, inputFieldDefinition]

/-- The name of a place in a schema. -/
def name : DirectiveLocation → String
  | query => "QUERY"
  | mutation => "MUTATION"
  | subscription => "SUBSCRIPTION"
  | field => "FIELD"
  | fragmentDefinition => "FRAGMENT_DEFINITION"
  | fragmentSpread => "FRAGMENT_SPREAD"
  | inlineFragment => "INLINE_FRAGMENT"
  | variableDefinition => "VARIABLE_DEFINITION"
  | schema => "SCHEMA"
  | scalar => "SCALAR"
  | object => "OBJECT"
  | fieldDefinition => "FIELD_DEFINITION"
  | argumentDefinition => "ARGUMENT_DEFINITION"
  | interface => "INTERFACE"
  | union => "UNION"
  | enum => "ENUM"
  | enumValue => "ENUM_VALUE"
  | inputObject => "INPUT_OBJECT"
  | inputFieldDefinition => "INPUT_FIELD_DEFINITION"

/-- The place of a name. -/
def ofName? (s : String) : Option DirectiveLocation :=
  all.find? (·.name = s)

/-- What error messages call a place. -/
def description : DirectiveLocation → String
  | query => "query"
  | mutation => "mutation"
  | subscription => "subscription"
  | field => "field"
  | fragmentDefinition => "fragment definition"
  | fragmentSpread => "fragment spread"
  | inlineFragment => "inline fragment"
  | variableDefinition => "variable definition"
  | schema => "schema"
  | scalar => "scalar"
  | object => "object"
  | fieldDefinition => "field definition"
  | argumentDefinition => "argument definition"
  | interface => "interface"
  | union => "union"
  | enum => "enum"
  | enumValue => "enum value"
  | inputObject => "input object"
  | inputFieldDefinition => "input field definition"

/-- Whether a place belongs to documents that are executed. -/
def isExecutable : DirectiveLocation → Bool
  | query | mutation | subscription | field | fragmentDefinition | fragmentSpread | inlineFragment
  | variableDefinition => true
  | _ => false

end DirectiveLocation

end GraphQL
