import GraphQL.Language.DirectiveLocation
import GraphQL.Language.TypeExpr
import GraphQL.Language.Value

/-!
# Documents

The trees that source texts are read into: operations and fragments, which are executed against a
schema, and definitions of schemas, types and directives. A list of directives is empty if none is
written, and the selections of a field are empty if it has no selection set; where something written
has a span of its own, like the parentheses around arguments, it is optional instead.
-/

namespace GraphQL

/-- An argument as it is given to a field or directive. -/
structure Argument where
  name : Name
  value : Located Value
deriving Repr, Inhabited

/-- The value of the first argument of a name. -/
def Argument.find? (arguments : List Argument) (name : String) : Option (Located Value) :=
  (arguments.find? (·.name.item = name)).map Argument.value

/-- A directive as it is applied somewhere. -/
structure DirectiveUse where
  name : Name
  arguments : Option (Located (List Argument))
deriving Repr, Inhabited

/-- What stands before the selection set of a field. -/
structure FieldHead where
  responseAlias : Option Name
  name : Name
  arguments : Option (Located (List Argument))
  directives : List (Located DirectiveUse)
deriving Repr, Inhabited

/-- The name under which a field occurs in a response. -/
def FieldHead.responseName (head : FieldHead) : String :=
  (head.responseAlias.getD head.name).item

/-- A fragment that is used by its name. -/
structure FragmentSpread where
  name : Name
  directives : List (Located DirectiveUse)
deriving Repr, Inhabited

/-- What stands before the selection set of an inline fragment. -/
structure InlineHead where
  condition : Option Name
  directives : List (Located DirectiveUse)
deriving Repr, Inhabited

/-- One entry of a selection set. -/
inductive Selection where
  | field (node : Located FieldHead) (selections : List Selection)
  | spread (node : Located FragmentSpread)
  | inline (node : Located InlineHead) (selections : List Selection)
deriving Repr, Inhabited

/-- What an operation does. -/
inductive OperationKind where
  | query
  | mutation
  | subscription
deriving DecidableEq, Repr, Inhabited

namespace OperationKind

/-- All kinds of operations. -/
def all : List OperationKind := [query, mutation, subscription]

/-- The word that starts an operation. -/
def keyword : OperationKind → String
  | query => "query"
  | mutation => "mutation"
  | subscription => "subscription"

/-- The kind of operation that a word starts. -/
def ofKeyword? (word : String) : Option OperationKind :=
  all.find? (·.keyword = word)

end OperationKind

/-- A variable that an operation defines. -/
structure VariableDefinition where
  /-- The name, which starts at its dollar sign. -/
  name : Name
  type : Located TypeLiteral
  default : Option (Located Value)
  directives : List (Located DirectiveUse)
deriving Repr, Inhabited

/-- An operation. -/
structure Operation where
  kind : OperationKind
  name : Option Name
  variableDefinitions : Option (Located (List VariableDefinition))
  directives : List (Located DirectiveUse)
  selections : List Selection
deriving Repr, Inhabited

/-- The variables that an operation defines. -/
def Operation.definedVariables (operation : Operation) : List VariableDefinition :=
  (operation.variableDefinitions.map Located.item).getD []

/-- A fragment with a name. -/
structure Fragment where
  name : Name
  condition : Name
  directives : List (Located DirectiveUse)
  selections : List Selection
deriving Repr, Inhabited

/-- The root type of one kind of operation. -/
structure RootDefinition where
  kind : OperationKind
  type : Name
deriving Repr, Inhabited

/-- A schema or an extension of it. -/
structure SchemaDefinition where
  extension : Bool
  description : Option Name
  directives : List (Located DirectiveUse)
  roots : List (Located RootDefinition)
deriving Repr, Inhabited

/-- An argument or a field of an input object, as it is defined. -/
structure InputValueDefinition where
  description : Option Name
  name : Name
  type : Located TypeLiteral
  default : Option (Located Value)
  directives : List (Located DirectiveUse)
deriving Repr, Inhabited

/-- A field of an object or interface, as it is defined. -/
structure FieldDefinition where
  description : Option Name
  name : Name
  arguments : List (Located InputValueDefinition)
  type : Located TypeLiteral
  directives : List (Located DirectiveUse)
deriving Repr, Inhabited

/-- A value of an enum, as it is defined. -/
structure EnumValueDefinition where
  description : Option Name
  name : Name
  directives : List (Located DirectiveUse)
deriving Repr, Inhabited

/-- What a type definition says about its type. -/
inductive TypeBody where
  | scalar
  | object (interfaces : List Name) (fields : List (Located FieldDefinition))
  | interface (interfaces : List Name) (fields : List (Located FieldDefinition))
  | union (members : List Name)
  | enum (values : List (Located EnumValueDefinition))
  | inputObject (fields : List (Located InputValueDefinition))
deriving Repr, Inhabited

namespace TypeBody

/-- The word that starts a type definition. -/
def keyword : TypeBody → String
  | scalar => "scalar"
  | object _ _ => "type"
  | interface _ _ => "interface"
  | union _ => "union"
  | enum _ => "enum"
  | inputObject _ => "input"

/-- The fields of an object or interface. -/
def fields : TypeBody → List (Located FieldDefinition)
  | object _ fields => fields
  | interface _ fields => fields
  | _ => []

/-- The types that are named directly: interfaces that are implemented and members of a union. -/
def references : TypeBody → List Name
  | object interfaces _ => interfaces
  | interface interfaces _ => interfaces
  | union members => members
  | _ => []

end TypeBody

/-- A named type or an extension of it. -/
structure TypeDefinition where
  extension : Bool
  description : Option Name
  name : Name
  directives : List (Located DirectiveUse)
  body : TypeBody
deriving Repr, Inhabited

/-- A directive, as it is defined. -/
structure DirectiveDefinition where
  description : Option Name
  name : Name
  arguments : List (Located InputValueDefinition)
  repeatable : Bool
  locations : List (Located DirectiveLocation)
deriving Repr, Inhabited

/-- One entry of a document. -/
inductive Definition where
  | operation (node : Located Operation)
  | fragment (node : Located Fragment)
  | schema (node : Located SchemaDefinition)
  | type (node : Located TypeDefinition)
  | directive (node : Located DirectiveDefinition)
deriving Repr, Inhabited

/-- Whether a definition can be executed. -/
def Definition.isExecutable : Definition → Bool
  | operation _ => true
  | fragment _ => true
  | _ => false

/-- A document. -/
abbrev Document := List Definition

namespace Document

/-- The operations of a document. -/
def operations (document : Document) : List (Located Operation) :=
  document.filterMap fun
    | .operation node => some node
    | _ => none

/-- The fragments of a document. -/
def fragments (document : Document) : List (Located Fragment) :=
  document.filterMap fun
    | .fragment node => some node
    | _ => none

/-- The schemas that a document defines or extends. -/
def schemas (document : Document) : List (Located SchemaDefinition) :=
  document.filterMap fun
    | .schema node => some node
    | _ => none

/-- The types that a document defines or extends. -/
def types (document : Document) : List (Located TypeDefinition) :=
  document.filterMap fun
    | .type node => some node
    | _ => none

/-- The directives that a document defines. -/
def directives (document : Document) : List (Located DirectiveDefinition) :=
  document.filterMap fun
    | .directive node => some node
    | _ => none

/-- The first fragment of a name. -/
def fragment? (document : Document) (name : String) : Option Fragment :=
  (document.fragments.find? (·.item.name.item = name)).map Located.item

/-- The last definition of a directive of a name. -/
def directive? (document : Document) (name : String) : Option DirectiveDefinition :=
  (document.directives.reverse.find? (·.item.name.item = name)).map Located.item

end Document

end GraphQL
