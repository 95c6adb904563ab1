import GraphQL.Graph.Reach
import GraphQL.Schema.Basic

/-!
# Making schemas

A schema is made from the types and directives it should have. Standard types need not be given:
they are added behind the first type that refers to them. A given type that has the name and kind of
a standard one is replaced by it, of several given types of one name the first one counts, and
built-in scalars that nothing refers to are left out in the end.

`Schema.ofConfig` always succeeds; whether the schema makes sense is checked on its own.
-/

namespace GraphQL

/-- What a schema is made from. -/
structure Schema.Config where
  description : Option String := none
  query : Option String := none
  mutation : Option String := none
  subscription : Option String := none
  types : List NamedType := []
  /-- None stands for the specified directives. -/
  directives : Option (List Directive) := none
  assumeValid : Bool := false
deriving Repr, Inhabited

namespace Registry

/-- A type, or the standard type it stands for. -/
def shared (t : NamedType) : NamedType :=
  (Standard.of? t).getD t

/-- Whether a type stands for a standard type. -/
def isShared (t : NamedType) : Bool :=
  (Standard.of? t).isSome

/-- The first type of each name. -/
def firsts : List NamedType → List NamedType
  | [] => []
  | t :: rest => t :: (firsts rest).filter (·.name ≠ t.name)

/-- The names for which different types are given, in the order in which that shows: a later type
differs from the first one of its name unless both stand for a standard type. -/
def ambiguous (types : List NamedType) : List String :=
  (go [] types).eraseDups
where
  go : List NamedType → List NamedType → List String
    | _, [] => []
    | earlier, t :: rest =>
      match earlier.find? (·.name = t.name) with
      | none => go (earlier ++ [t]) rest
      | some first =>
        if isShared first && isShared t then go earlier rest else t.name :: go earlier rest

/-- The names of some types. -/
def names (types : List NamedType) : List String :=
  types.map NamedType.name

/-- Adds the standard types of the waiting names and those that these refer to, each behind the one
that needs it first. Names that are given types of their own are left alone. -/
def addStandard (given waiting : List String) (registry : List NamedType) : List NamedType :=
  match waiting with
  | [] => registry
  | name :: waiting =>
    if name ∈ given ∨ name ∈ names registry then addStandard given waiting registry
    else
      match _ : Standard.type? name with
      | none => addStandard given waiting registry
      | some t => addStandard given (t.references ++ waiting) (registry ++ [t])
termination_by ((Graph.unseen (names Standard.types) (names registry)).length, waiting.length)
decreasing_by
  · exact Prod.Lex.right _ (by simp)
  · exact Prod.Lex.right _ (by simp)
  · have hname : t.name = name := by
      simpa using List.find?_some ‹Standard.type? name = some t›
    have hmem : name ∈ names Standard.types := by
      rw [← hname]
      exact List.mem_map_of_mem (List.mem_of_find?_eq_some ‹Standard.type? name = some t›)
    have hnew : name ∉ names registry := fun hm =>
      ‹¬(name ∈ given ∨ name ∈ names registry)› (Or.inr hm)
    have := Graph.length_unseen_lt hmem hnew
    have hcons : Graph.unseen (names Standard.types) (names (registry ++ [t])) =
        Graph.unseen (names Standard.types) (name :: names registry) := by
      simp [Graph.unseen, names, hname, or_comm]
    rw [hcons]
    exact Prod.Lex.left _ _ this

/-- The given types in their order, each followed by the standard types that only it and later types
refer to. -/
def collect (given : List NamedType) : List NamedType :=
  given.foldl (fun registry t => addStandard (names given) t.references (registry ++ [t])) []

/-- The types that fields, input fields and arguments have. -/
def valueReferences (types : List NamedType) (directives : List Directive) : List String :=
  types.flatMap NamedType.valueReferences ++ directives.flatMap Directive.references

/-- All types of a schema of the given types, roots and directives. -/
def types (given : List NamedType) (roots : List String) (directives : List Directive) :
    List NamedType :=
  let all := addStandard (names given)
    (roots ++ directives.flatMap Directive.references ++ [Standard.schema.name]) (collect given)
  let referenced := valueReferences all directives
  all.filter fun t => !builtinScalarNames.contains t.name || referenced.contains t.name

/-- Puts a directive in the place of the one of its name, or at the end. -/
def putDirective (directive : Directive) : List Directive → List Directive
  | [] => [directive]
  | other :: rest =>
    if other.name = directive.name then directive :: rest
    else other :: putDirective directive rest

/-- The directives by their names; of several of one name the last one counts. -/
def directives (given : List Directive) : List Directive :=
  given.foldl (fun found directive => putDirective directive found) []

end Registry

namespace Schema

/-- Makes a schema. -/
def ofConfig (config : Config) : Schema :=
  let given := config.types.map Registry.shared
  let directives := Registry.directives (config.directives.getD Directive.specified)
  let roots := [config.query, config.mutation, config.subscription].filterMap id
  { description := config.description
    query := config.query
    mutation := config.mutation
    subscription := config.subscription
    types := Registry.types (Registry.firsts given) roots directives
    directives := directives
    ambiguous := Registry.ambiguous given
    assumeValid := config.assumeValid }

/-- What an equal schema can be made from. -/
def toConfig (schema : Schema) : Config where
  description := schema.description
  query := schema.query
  mutation := schema.mutation
  subscription := schema.subscription
  types := schema.types
  directives := some schema.directives
  assumeValid := schema.assumeValid

/-- The schema that has standard types and directives only. -/
def standard : Schema :=
  ofConfig {}

end Schema

end GraphQL
