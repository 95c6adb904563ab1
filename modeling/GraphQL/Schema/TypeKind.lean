/-!
# Kinds of types

The kinds that descriptions of schemas tell apart: six kinds of named types and the two ways to wrap
a type.
-/

namespace GraphQL

/-- The kind of a type. -/
inductive TypeKind where
  | scalar
  | object
  | interface
  | union
  | enum
  | inputObject
  | list
  | nonNull
deriving DecidableEq, Repr, Inhabited

namespace TypeKind

/-- All kinds. -/
def all : List TypeKind :=
  [scalar, object, interface, union, enum, inputObject, list, nonNull]

/-- The name of a kind in a description. -/
def name : TypeKind → String
  | scalar => "SCALAR"
  | object => "OBJECT"
  | interface => "INTERFACE"
  | union => "UNION"
  | enum => "ENUM"
  | inputObject => "INPUT_OBJECT"
  | list => "LIST"
  | nonNull => "NON_NULL"

/-- The kind of a name. -/
def ofName? (s : String) : Option TypeKind :=
  all.find? (·.name = s)

/-- Whether a kind wraps another type. -/
def isWrapper : TypeKind → Bool
  | list => true
  | nonNull => true
  | _ => false

/-- Whether values of the kind can be given to a server. -/
def isInput : TypeKind → Bool
  | scalar => true
  | enum => true
  | inputObject => true
  | _ => false

/-- Whether named types of the kind can be the types of fields. -/
def isOutput : TypeKind → Bool
  | inputObject => false
  | _ => true

/-- Whether types of the kind have selections. -/
def isComposite : TypeKind → Bool
  | object => true
  | interface => true
  | union => true
  | _ => false

/-- Whether types of the kind have no selections in a query. -/
def isLeaf : TypeKind → Bool
  | scalar => true
  | enum => true
  | _ => false

/-- Whether types of the kind stand for several object types. -/
def isAbstract : TypeKind → Bool
  | interface => true
  | union => true
  | _ => false

end TypeKind

end GraphQL
