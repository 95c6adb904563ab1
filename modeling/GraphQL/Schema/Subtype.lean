import GraphQL.Graph.Reach
import GraphQL.Schema.Basic

/-!
# Subtypes

Which types may stand in for which others. An object or interface stands in for an interface that it
implements, directly or through other interfaces, and an object for a union that lists it; lists are
compared item by item, and a type without null stands in for the same type with null.
-/

namespace GraphQL

namespace Schema

/-- The interfaces that a type implements, directly or through others. -/
def ancestors (schema : Schema) (t : NamedType) : List String :=
  Graph.reachable (schema.types.map NamedType.name)
    (fun name => ((schema.type? name).map NamedType.interfaces).getD []) t.interfaces

/-- Whether a type implements an interface, directly or through others. -/
def implements (schema : Schema) (t interface : NamedType) : Bool :=
  (schema.ancestors t).contains interface.name

/-- Whether a type is a member of a union or implements an interface. -/
def isPossible (schema : Schema) (abstract t : NamedType) : Bool :=
  match abstract.shape with
  | .union members => members.contains t.name
  | .interface _ _ => schema.implements t abstract
  | _ => false

/-- The types that may be returned where an abstract type is expected: the members of a union, or
the objects that implement an interface. -/
def possibleTypes (schema : Schema) (abstract : NamedType) : List NamedType :=
  match abstract.shape with
  | .union members => members.filterMap schema.type?
  | .interface _ _ => schema.types.filter fun t => t.isObject && schema.implements t abstract
  | _ => []

/-- Whether a value of the first type may stand where the second one is expected. -/
def isSubtypeOf (schema : Schema) : ResolvedType → ResolvedType → Bool
  | .named a r, .named b s =>
    (r || !s) &&
      (a.name = b.name ||
        (b.kind.isAbstract && (a.isObject || a.isInterface) && schema.isPossible b a))
  | .list t r, .list u s => (r || !s) && schema.isSubtypeOf t u
  | _, _ => false

/-- Whether a value of the first type may stand where the second one is expected. Types that the
schema does not know are related to themselves only. -/
def isSubtype (schema : Schema) (t u : TypeLiteral) : Bool :=
  t = u ||
    match schema.resolve t, schema.resolve u with
    | some t, some u => schema.isSubtypeOf t u
    | _, _ => false

/-- Whether the first name is the second one or names one of its possible types. -/
def isNamedSubtype (schema : Schema) (a b : String) : Bool :=
  a = b ||
    match schema.type? a, schema.type? b with
    | some t, some u => u.kind.isAbstract && schema.isPossible u t
    | _, _ => false

/-- Whether some object could be of both types. -/
def overlap (schema : Schema) (t u : NamedType) : Bool :=
  t.name = u.name ||
    match t.kind.isAbstract, u.kind.isAbstract with
    | true, true => (schema.possibleTypes t).any (schema.isPossible u)
    | true, false => schema.isPossible t u
    | false, true => schema.isPossible u t
    | false, false => false

end Schema

end GraphQL
