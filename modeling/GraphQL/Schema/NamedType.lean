import GraphQL.Language.TypeExpr
import GraphQL.Language.Value
import GraphQL.Schema.TypeKind

/-!
# Named types

The types of a schema. They refer to each other by name only; what a name means is up to the schema
that holds them.
-/

namespace GraphQL

/-- Whether something should no longer be used. -/
inductive Deprecation where
  | current
  /-- Should no longer be used, perhaps for a given reason. -/
  | deprecated (reason : Option String)
deriving DecidableEq, Repr, Inhabited

namespace Deprecation

/-- Whether something should no longer be used. -/
def isDeprecated : Deprecation → Bool
  | current => false
  | deprecated _ => true

/-- Why something should no longer be used. -/
def reason? : Deprecation → Option String
  | current => none
  | deprecated reason => reason

end Deprecation

/-- An argument of a field or directive, or a field of an input object. -/
structure InputValue where
  name : String
  type : TypeLiteral
  description : Option String := none
  default : Option Value := none
  deprecation : Deprecation := .current
deriving Repr, Inhabited

/-- Whether a value has to be given. -/
def InputValue.isRequired (input : InputValue) : Bool :=
  input.type.isRequired && input.default.isNone

/-- A field of an object or interface. -/
structure Field where
  name : String
  type : TypeLiteral
  description : Option String := none
  arguments : List InputValue := []
  deprecation : Deprecation := .current
deriving Repr, Inhabited

/-- The argument of a name. -/
def Field.argument? (field : Field) (name : String) : Option InputValue :=
  field.arguments.find? (·.name = name)

/-- A value of an enum. -/
structure EnumValue where
  name : String
  description : Option String := none
  deprecation : Deprecation := .current
deriving DecidableEq, Repr, Inhabited

/-- What tells the kinds of named types apart. -/
inductive Shape where
  | scalar (specifiedBy : Option String)
  | object (interfaces : List String) (fields : List Field)
  | interface (interfaces : List String) (fields : List Field)
  | union (members : List String)
  | enum (values : List EnumValue)
  | inputObject (fields : List InputValue)
deriving Repr, Inhabited

/-- The kind of types of a shape. -/
def Shape.kind : Shape → TypeKind
  | scalar _ => .scalar
  | object _ _ => .object
  | interface _ _ => .interface
  | union _ => .union
  | enum _ => .enum
  | inputObject _ => .inputObject

/-- Names that begin with two underscores belong to introspection. -/
def isReservedName (name : String) : Bool :=
  ['_', '_'].isPrefixOf name.toList

/-- The scalars that every schema knows. -/
def builtinScalarNames : List String :=
  ["Int", "Float", "String", "Boolean", "ID"]

/-- A type of a schema. -/
structure NamedType where
  name : String
  description : Option String := none
  shape : Shape
deriving Repr, Inhabited

namespace NamedType

/-- The kind of a type. -/
def kind (t : NamedType) : TypeKind :=
  t.shape.kind

/-- Where the scalar is specified. -/
def specifiedBy? (t : NamedType) : Option String :=
  match t.shape with
  | .scalar specifiedBy => specifiedBy
  | _ => none

/-- The fields of an object or interface. -/
def fields (t : NamedType) : List Field :=
  match t.shape with
  | .object _ fields => fields
  | .interface _ fields => fields
  | _ => []

/-- The interfaces that an object or interface says to implement. -/
def interfaces (t : NamedType) : List String :=
  match t.shape with
  | .object interfaces _ => interfaces
  | .interface interfaces _ => interfaces
  | _ => []

/-- The members of a union. -/
def members (t : NamedType) : List String :=
  match t.shape with
  | .union members => members
  | _ => []

/-- The values of an enum. -/
def values (t : NamedType) : List EnumValue :=
  match t.shape with
  | .enum values => values
  | _ => []

/-- The fields of an input object. -/
def inputFields (t : NamedType) : List InputValue :=
  match t.shape with
  | .inputObject fields => fields
  | _ => []

/-- The field of a name. -/
def field? (t : NamedType) (name : String) : Option Field :=
  t.fields.find? (·.name = name)

/-- The field of a name of an input object. -/
def inputField? (t : NamedType) (name : String) : Option InputValue :=
  t.inputFields.find? (·.name = name)

/-- Whether the type is an object. -/
def isObject (t : NamedType) : Bool := t.kind = .object

/-- Whether the type is an interface. -/
def isInterface (t : NamedType) : Bool := t.kind = .interface

/-- Whether the type is an input object. -/
def isInputObject (t : NamedType) : Bool := t.kind = .inputObject

/-- Whether the type is a built-in scalar or belongs to introspection, by its name. -/
def isBuiltin (t : NamedType) : Bool :=
  isReservedName t.name || (t.kind = .scalar && builtinScalarNames.contains t.name)

/-- The types that the fields, their arguments and the input fields of a type have. -/
def valueReferences (t : NamedType) : List String :=
  t.fields.flatMap (fun f => f.type.innermost :: f.arguments.map (·.type.innermost)) ++
    t.inputFields.map (·.type.innermost)

/-- All types that a type refers to. -/
def references (t : NamedType) : List String :=
  t.members ++ t.interfaces ++ t.valueReferences

end NamedType

end GraphQL
