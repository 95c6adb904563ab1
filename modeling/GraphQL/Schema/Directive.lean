import GraphQL.Language.DirectiveLocation
import GraphQL.Schema.NamedType

/-!
# Directives

The directives of a schema, and those that schemas have unless they say otherwise.
-/

namespace GraphQL

/-- A directive of a schema. -/
structure Directive where
  name : String
  description : Option String := none
  locations : List DirectiveLocation
  arguments : List InputValue := []
  repeatable : Bool := false
deriving Repr, Inhabited

namespace Directive

/-- Selects a field or fragment on a condition. -/
def includeIf : Directive where
  name := "include"
  description := some
    "Directs the executor to include this field or fragment only when the `if` argument is true."
  locations := [.field, .fragmentSpread, .inlineFragment]
  arguments := [
    { name := "if", type := .named "Boolean" true, description := some "Included when true." }]

/-- Leaves out a field or fragment on a condition. -/
def skipIf : Directive where
  name := "skip"
  description := some
    "Directs the executor to skip this field or fragment when the `if` argument is true."
  locations := [.field, .fragmentSpread, .inlineFragment]
  arguments := [
    { name := "if", type := .named "Boolean" true, description := some "Skipped when true." }]

/-- Marks a part of a schema that should no longer be used. -/
def deprecated : Directive where
  name := "deprecated"
  description := some "Marks an element of a GraphQL schema as no longer supported."
  locations := [.fieldDefinition, .argumentDefinition, .inputFieldDefinition, .enumValue]
  arguments := [{
    name := "reason"
    type := .named "String" false
    description := some <|
      "Explains why this element was deprecated, usually also including a " ++
      "suggestion for how to access supported similar data. Formatted using the " ++
      "Markdown syntax, as specified by [CommonMark](https://commonmark.org/)."
    default := some (.string "No longer supported") }]

/-- Says where a scalar is specified. -/
def specifiedBy : Directive where
  name := "specifiedBy"
  description := some "Exposes a URL that specifies the behavior of this scalar."
  locations := [.scalar]
  arguments := [{
    name := "url"
    type := .named "String" true
    description := some "The URL that specifies the behavior of this scalar." }]

/-- The directives of a schema that does not say otherwise. -/
def specified : List Directive :=
  [includeIf, skipIf, deprecated, specifiedBy]

/-- Whether a directive has the name of a specified one. -/
def isSpecified (directive : Directive) : Bool :=
  specified.any (·.name = directive.name)

/-- The argument of a name. -/
def argument? (directive : Directive) (name : String) : Option InputValue :=
  directive.arguments.find? (·.name = name)

/-- The types of the arguments. -/
def references (directive : Directive) : List String :=
  directive.arguments.map (·.type.innermost)

end Directive

end GraphQL
