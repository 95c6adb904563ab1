import GraphQL.Language.DirectiveLocation
import GraphQL.Schema.TypeKind

/-!
# Descriptions of schemas

The records in which a server describes its schema to clients. Parts that only some kinds of types
have are optional, so that a description that lacks one can still be read and the gap be reported.
-/

namespace GraphQL.Introspection

/-- A reference to a type: a named one has a name, a list or required type says what it wraps. -/
inductive TypeRef where
  | plain (kind : TypeKind) (name : Option String)
  | wrapping (kind : TypeKind) (name : Option String) (ofType : TypeRef)
deriving DecidableEq, Repr, Inhabited

namespace TypeRef

/-- The kind of the outermost type. -/
def kind : TypeRef → TypeKind
  | plain kind _ => kind
  | wrapping kind _ _ => kind

/-- The name of the outermost type. -/
def name : TypeRef → Option String
  | plain _ name => name
  | wrapping _ name _ => name

/-- What the outermost type wraps. -/
def ofType? : TypeRef → Option TypeRef
  | plain _ _ => none
  | wrapping _ _ ofType => some ofType

/-- A reference of the given parts. -/
def ofParts (kind : TypeKind) (name : Option String) : Option TypeRef → TypeRef
  | none => plain kind name
  | some ofType => wrapping kind name ofType

/-- A reference to a named type. -/
def named (kind : TypeKind) (name : String) : TypeRef :=
  plain kind (some name)

/-- A reference to a list. -/
def list (item : TypeRef) : TypeRef :=
  wrapping .list none item

/-- A reference to a required type. -/
def nonNull (t : TypeRef) : TypeRef :=
  wrapping .nonNull none t

end TypeRef

/-- Describes an argument or a field of an input object. -/
structure InputValueRecord where
  name : String
  description : Option String
  type : TypeRef
  /-- The default value as it is written. -/
  defaultValue : Option String
  isDeprecated : Bool
  deprecationReason : Option String
deriving DecidableEq, Repr, Inhabited

/-- Describes a field. -/
structure FieldRecord where
  name : String
  description : Option String
  args : Option (List InputValueRecord)
  type : TypeRef
  isDeprecated : Bool
  deprecationReason : Option String
deriving DecidableEq, Repr, Inhabited

/-- Describes a value of an enum. -/
structure EnumValueRecord where
  name : String
  description : Option String
  isDeprecated : Bool
  deprecationReason : Option String
deriving DecidableEq, Repr, Inhabited

/-- Describes a named type. -/
structure TypeRecord where
  kind : TypeKind
  name : String
  description : Option String
  specifiedByURL : Option String
  fields : Option (List FieldRecord)
  /-- Absent, null or a list. -/
  interfaces : Option (Option (List TypeRef))
  possibleTypes : Option (List TypeRef)
  enumValues : Option (List EnumValueRecord)
  inputFields : Option (List InputValueRecord)
deriving DecidableEq, Repr, Inhabited

/-- Describes a directive. -/
structure DirectiveRecord where
  name : String
  description : Option String
  isRepeatable : Bool
  locations : Option (List DirectiveLocation)
  args : Option (List InputValueRecord)
deriving DecidableEq, Repr, Inhabited

/-- Refers to a root type. -/
structure RootRecord where
  kind : Option TypeKind
  name : String
deriving DecidableEq, Repr, Inhabited

/-- Describes a schema. -/
structure SchemaRecord where
  description : Option String
  queryType : Option RootRecord
  mutationType : Option RootRecord
  subscriptionType : Option RootRecord
  types : List TypeRecord
  directives : List DirectiveRecord
deriving DecidableEq, Repr, Inhabited

/-- How messages call a record: by its kind and name. -/
def summary (kind : Option TypeKind) (name : Option String) : String :=
  let parts := (kind.map fun k => "kind: \"" ++ k.name ++ "\"").toList ++
    (name.map fun n => "name: \"" ++ n ++ "\"").toList
  "\x7b " ++ ", ".intercalate parts ++ " \x7d"

end GraphQL.Introspection
