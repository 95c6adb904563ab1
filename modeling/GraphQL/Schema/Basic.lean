import GraphQL.Language.Document
import GraphQL.Schema.Standard

/-!
# Schemas

A schema holds named types, directives and the names of its root types. This module looks things up
in it; `GraphQL.Schema.Registry` makes schemas.
-/

namespace GraphQL

/-- A schema. -/
structure Schema where
  description : Option String
  query : Option String
  mutation : Option String
  subscription : Option String
  /-- The types, each name once, in the order in which they are listed. -/
  types : List NamedType
  /-- The directives, each name once. -/
  directives : List Directive
  /-- The names for which several different types were given. -/
  ambiguous : List String
  /-- Whether the schema is trusted to be consistent. -/
  assumeValid : Bool
deriving Repr, Inhabited

/-- A type expression whose name has been looked up. -/
abbrev ResolvedType := TypeExpr NamedType

namespace ResolvedType

/-- The expression that a resolved type was looked up for. -/
def literal (t : ResolvedType) : TypeLiteral :=
  TypeExpr.map NamedType.name t

/-- How a resolved type is written. -/
def text (t : ResolvedType) : String :=
  TypeExpr.textWith NamedType.name t

/-- Whether values of the type can be given to a server. -/
def isInput (t : ResolvedType) : Bool :=
  (TypeExpr.innermost t).kind.isInput

/-- Whether the type can be the type of a field. -/
def isOutput (t : ResolvedType) : Bool :=
  (TypeExpr.innermost t).kind.isOutput

/-- Whether two types are written alike; they may belong to different schemas. -/
def same (t u : ResolvedType) : Bool :=
  t.literal = u.literal

end ResolvedType

namespace Schema

/-- The type of a name. -/
def type? (schema : Schema) (name : String) : Option NamedType :=
  schema.types.find? (·.name = name)

/-- The directive of a name. -/
def directive? (schema : Schema) (name : String) : Option Directive :=
  schema.directives.find? (·.name = name)

/-- The name of the root type of a kind of operations. -/
def rootName? (schema : Schema) : OperationKind → Option String
  | .query => schema.query
  | .mutation => schema.mutation
  | .subscription => schema.subscription

/-- The root type of a kind of operations. -/
def root? (schema : Schema) (kind : OperationKind) : Option NamedType :=
  (schema.rootName? kind).bind schema.type?

/-- Looks up the name in a type expression. -/
def resolve (schema : Schema) (t : TypeLiteral) : Option ResolvedType :=
  t.resolve schema.type?

/-- Whether a type is the root of queries. -/
def isQueryRoot (schema : Schema) (t : NamedType) : Bool :=
  (schema.root? .query).any (·.name = t.name)

/-- The field that a selection of a type can name: one of the type's own fields or a field of
introspection. -/
def field? (schema : Schema) (parent : NamedType) (name : String) : Option Field :=
  if name = "__typename" && parent.kind.isComposite then some Standard.typenameField
  else if name = "__schema" && schema.isQueryRoot parent then some Standard.schemaField
  else if name = "__type" && schema.isQueryRoot parent then some Standard.typeField
  else parent.field? name

end Schema

end GraphQL
