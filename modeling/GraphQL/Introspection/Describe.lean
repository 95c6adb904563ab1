import GraphQL.Introspection.Record
import GraphQL.Schema.Subtype

/-!
# Describing a schema

What a server answers to a full introspection query: all types and directives, with everything that
is deprecated. Types that the schema does not know are described as scalars.
-/

namespace GraphQL

open Introspection

namespace Schema

/-- Refers to a named type. -/
def namedRef (schema : Schema) (name : String) : TypeRef :=
  .named (((schema.type? name).map NamedType.kind).getD .scalar) name

/-- Refers to a type. -/
def typeRef (schema : Schema) : TypeLiteral → TypeRef
  | .named name false => schema.namedRef name
  | .named name true => .nonNull (schema.namedRef name)
  | .list item false => .list (schema.typeRef item)
  | .list item true => .nonNull (.list (schema.typeRef item))

/-- Describes an argument or input field. -/
def describeInput (schema : Schema) (input : InputValue) : InputValueRecord where
  name := input.name
  description := input.description
  type := schema.typeRef input.type
  defaultValue := input.default.map Value.text
  isDeprecated := input.deprecation.isDeprecated
  deprecationReason := input.deprecation.reason?

/-- Describes a field. -/
def describeField (schema : Schema) (field : Field) : FieldRecord where
  name := field.name
  description := field.description
  args := some (field.arguments.map schema.describeInput)
  type := schema.typeRef field.type
  isDeprecated := field.deprecation.isDeprecated
  deprecationReason := field.deprecation.reason?

/-- Describes a value of an enum. -/
def describeValue (value : EnumValue) : EnumValueRecord where
  name := value.name
  description := value.description
  isDeprecated := value.deprecation.isDeprecated
  deprecationReason := value.deprecation.reason?

/-- Describes a type. -/
def describeType (schema : Schema) (t : NamedType) : TypeRecord :=
  let bare : TypeRecord :=
    { kind := t.kind, name := t.name, description := t.description
      specifiedByURL := t.specifiedBy?, fields := none, interfaces := some none
      possibleTypes := none, enumValues := none, inputFields := none }
  match t.shape with
  | .scalar _ => bare
  | .object interfaces fields =>
    { bare with
      fields := some (fields.map schema.describeField)
      interfaces := some (some (interfaces.map schema.namedRef)) }
  | .interface interfaces fields =>
    { bare with
      fields := some (fields.map schema.describeField)
      interfaces := some (some (interfaces.map schema.namedRef))
      possibleTypes := some ((schema.possibleTypes t).map fun p => schema.namedRef p.name) }
  | .union members => { bare with possibleTypes := some (members.map schema.namedRef) }
  | .enum values => { bare with enumValues := some (values.map describeValue) }
  | .inputObject fields => { bare with inputFields := some (fields.map schema.describeInput) }

/-- Describes a directive. -/
def describeDirective (schema : Schema) (directive : Directive) : DirectiveRecord where
  name := directive.name
  description := directive.description
  isRepeatable := directive.repeatable
  locations := some directive.locations
  args := some (directive.arguments.map schema.describeInput)

/-- Describes a root type. -/
def describeRoot (schema : Schema) (name : String) : RootRecord where
  kind := (schema.type? name).map NamedType.kind
  name := name

/-- Describes a schema. -/
def describe (schema : Schema) : SchemaRecord where
  description := schema.description
  queryType := schema.query.map schema.describeRoot
  mutationType := schema.mutation.map schema.describeRoot
  subscriptionType := schema.subscription.map schema.describeRoot
  types := schema.types.map schema.describeType
  directives := schema.directives.map schema.describeDirective

end Schema

end GraphQL
