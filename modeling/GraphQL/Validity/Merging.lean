import GraphQL.Graph.Reach
import GraphQL.Validity.Rule

/-!
# Merging fields

Selections of one response name end up in one field of the response, so they have to be the same
field with the same arguments and compatible types, and the selections below them have to be
mergeable too. Selections on two different objects never meet in one response; they only need
compatible types.

Spread fragments are not expanded into the selection set. Instead, the fields of a set are compared
with each fragment that the set spreads, and the fragments with each other; `Compared` remembers
which pairs of fragments have been compared in the document, so none is compared twice for the same
purpose. Comparing two fields compares the selections below them, so the search descends into both
at once; the bound on its depth is only reached where fragments contain themselves.
-/

namespace GraphQL

namespace Merging

/-- A field of a selection set, with the type it is selected from. -/
structure Selected where
  owner : Option NamedType
  node : Located FieldHead
  selections : List Selection
deriving Repr

namespace Selected

/-- The name under which the field occurs in a response. -/
def name (selected : Selected) : String :=
  selected.node.item.responseName

/-- The type of the field, if it is known. -/
def type? (selected : Selected) (schema : Schema) : Option TypeLiteral :=
  (selected.owner.bind (schema.field? · selected.node.item.name.item)).map Field.type

/-- Where the field starts. -/
def position (selected : Selected) : Position :=
  selected.node.span.start

/-- Whether the field is selected from an object. -/
def onObject (selected : Selected) : Bool :=
  selected.owner.any NamedType.isObject

end Selected

mutual

/-- The fields of one selection, those in inline fragments included. -/
def fieldsOfOne (schema : Schema) (owner : Option NamedType) : Selection → List Selected
  | .field node selections => [⟨owner, node, selections⟩]
  | .spread _ => []
  | .inline node selections =>
    fieldsOf schema
      (((node.item.condition.bind fun name => schema.type? name.item)).or owner) selections

/-- The fields of a selection set, those in inline fragments included. -/
def fieldsOf (schema : Schema) (owner : Option NamedType) : List Selection → List Selected
  | [] => []
  | selection :: rest => fieldsOfOne schema owner selection ++ fieldsOf schema owner rest

end

mutual

/-- The fragments that one selection spreads, those in inline fragments included. -/
def spreadsOfOne : Selection → List String
  | .field _ _ => []
  | .spread node => [node.item.name.item]
  | .inline _ selections => spreadsOf selections

/-- The fragments that a selection set spreads, those in inline fragments included. -/
def spreadsOf : List Selection → List String
  | [] => []
  | selection :: rest => spreadsOfOne selection ++ spreadsOf rest

end

mutual

/-- The number of fields in a selection. -/
def fieldCountOfOne : Selection → Nat
  | .field _ selections => fieldCount selections + 1
  | .spread _ => 0
  | .inline _ selections => fieldCount selections

/-- The number of fields in a selection set. -/
def fieldCount : List Selection → Nat
  | [] => 0
  | selection :: rest => fieldCountOfOne selection + fieldCount rest

end

/-- What a selection set holds: its fields, and the fragments it spreads, each once. -/
structure FieldSet where
  fields : List Selected
  spreads : List String

/-- What a selection set holds. -/
def FieldSet.of (schema : Schema) (owner : Option NamedType) (selections : List Selection) :
    FieldSet :=
  ⟨fieldsOf schema owner selections, (spreadsOf selections).eraseDups⟩

/-- The response names of some fields, in the order of their first occurrences. -/
def responseNames (fields : List Selected) : List String :=
  (fields.map Selected.name).eraseDups

/-- All pairs of an entry and a later one. -/
def laterPairs {α : Type} : List α → List (α × α)
  | [] => []
  | a :: rest => rest.map (a, ·) ++ laterPairs rest

/-- The pairs of fields of one set that have the same response name. -/
def pairsWithin (fields : List Selected) : List (Selected × Selected) :=
  (responseNames fields).flatMap fun name => laterPairs (fields.filter (·.name = name))

/-- The pairs of fields of two sets that have the same response name. -/
def pairsBetween (left right : List Selected) : List (Selected × Selected) :=
  (responseNames left).flatMap fun name =>
    (left.filter (·.name = name)).flatMap fun a =>
      (right.filter (·.name = name)).map fun b => (a, b)

/-- The pairs of fragments that have been compared, and whether only for fields that never meet. -/
abbrev Compared := List ((String × String) × Bool)

namespace Compared

/-- A pair of fragments in the order of their names. -/
def key (a b : String) : String × String :=
  if a ≤ b then (a, b) else (b, a)

/-- Whether a pair need not be compared: a comparison for fields that may meet covers both cases. -/
def covers (compared : Compared) (a b : String) (exclusive : Bool) : Bool :=
  match compared.lookup (key a b) with
  | some wasExclusive => exclusive || !wasExclusive
  | none => false

/-- Remembers a comparison. -/
def mark (compared : Compared) (a b : String) (exclusive : Bool) : Compared :=
  (key a b, exclusive) :: compared

end Compared

/-- Two fields that cannot be merged, with the places of both sides. -/
structure Clash where
  name : String
  conflict : Conflict
  left : List Position
  right : List Position

/-- A search that remembers which pairs of fragments have been compared. -/
abbrev Search := StateM Compared

/-- Searches for each entry of a list and puts together what is found. -/
def searchAll {α : Type} (search : α → Search (List Clash)) : List α → Search (List Clash)
  | [] => pure []
  | a :: rest => do
    let found ← search a
    let more ← searchAll search rest
    return found ++ more

/-- Whether the arguments of two fields are the same. -/
def sameArguments : Option (Located (List Argument)) → Option (Located (List Argument)) → Bool
  | none, none => true
  | some left, some right =>
    left.item.length = right.item.length &&
      left.item.all fun argument =>
        (Argument.find? right.item argument.name.item).any fun value =>
          argument.value.item.alike value.item
  | _, _ => false

/-- Whether values of two types cannot stand in one field of a response: the lists and exclusions of
null have to agree, and so do the names of leaves. -/
def typesConflict (schema : Schema) : TypeLiteral → TypeLiteral → Bool
  | .named a r, .named b s =>
    r != s || (a ≠ b && (isLeaf a || isLeaf b))
  | .list t r, .list u s => r != s || typesConflict schema t u
  | _, _ => true
where
  isLeaf (name : String) : Bool := (schema.type? name).any (·.kind.isLeaf)

/-- Why two fields cannot be merged, whatever is selected below them. -/
def ownConflict? (schema : Schema) (exclusive : Bool) (a b : Selected) : Option Conflict :=
  let left := a.node.item
  let right := b.node.item
  if !exclusive && left.name.item ≠ right.name.item then
    some (.differentFields left.name.item right.name.item)
  else if !exclusive && !sameArguments left.arguments right.arguments then
    some .differingArguments
  else
    match a.type? schema, b.type? schema with
    | some t, some u => if typesConflict schema t u then some (.conflictingTypes t u) else none
    | _, _ => none

/-- Whether two fields are selected from different objects. -/
def neverMeet (a b : Selected) : Bool :=
  a.owner.map NamedType.name ≠ b.owner.map NamedType.name && a.onObject && b.onObject

/-- What a fragment holds. -/
def fragmentSet? (schema : Schema) (document : Document) (name : String) : Option FieldSet :=
  (document.fragment? name).map fun fragment =>
    .of schema (schema.type? fragment.condition.item) fragment.selections

/-- A fragment and those that it spreads, directly or not, each where it occurs first. -/
def expansion (document : Document) (name : String) : List String :=
  (Graph.reachable (document.fragments.map (·.item.name.item))
    (fun name => ((document.fragment? name).map fun fragment =>
      (spreadsOf fragment.selections).eraseDups).getD []) [name]).reverse

section

variable (schema : Schema) (document : Document)
  (compare : (exclusive : Bool) → Selected → Selected → Search (List Clash))

/-- Compares the fields of two sets. -/
def compareFields (exclusive : Bool) (left right : List Selected) : Search (List Clash) :=
  searchAll (fun (a, b) => compare exclusive a b) (pairsBetween left right)

/-- Compares fields with those of a fragment and of the fragments that it spreads. -/
def compareWithFragment (exclusive : Bool) (fields : List Selected) (fragment : String) :
    Search (List Clash) :=
  searchAll (fun name =>
    match fragmentSet? schema document name with
    | some set => compareFields compare exclusive fields set.fields
    | none => pure []) (expansion document fragment)

/-- Compares two fragments and those that they spread; `fuel` bounds how far they spread. -/
def compareFragments (exclusive : Bool) : (fuel : Nat) → String → String → Search (List Clash)
  | 0, _, _ => pure []
  | fuel + 1, a, b => do
    if a = b || (← get).covers a b exclusive then return []
    match fragmentSet? schema document a, fragmentSet? schema document b with
    | some left, some right =>
      modify (·.mark a b exclusive)
      let found ← compareFields compare exclusive left.fields right.fields
      let inRight ← searchAll (fun c => compareFragments exclusive fuel a c) right.spreads
      let inLeft ← searchAll (fun c => compareFragments exclusive fuel c b) left.spreads
      return found ++ inRight ++ inLeft
    | _, _ => return []

/-- How far two fragments can spread: each pair of them is compared at most twice. -/
def spreadBound : Nat :=
  document.fragments.length * document.fragments.length + 1

/-- Compares two selection sets. -/
def compareSets (exclusive : Bool) (left right : FieldSet) : Search (List Clash) := do
  let fields ← compareFields compare exclusive left.fields right.fields
  let inRight ← searchAll
    (compareWithFragment schema document compare exclusive left.fields) right.spreads
  let inLeft ← searchAll
    (compareWithFragment schema document compare exclusive right.fields) left.spreads
  let fragments ← searchAll (fun a => searchAll (fun b =>
    compareFragments schema document compare exclusive (spreadBound document) a b) right.spreads)
    left.spreads
  return fields ++ inRight ++ inLeft ++ fragments

/-- Compares everything inside one selection set. -/
def compareWithin (set : FieldSet) : Search (List Clash) := do
  let fields ← searchAll (fun (a, b) => compare false a b) (pairsWithin set.fields)
  let fragments ← go set.spreads
  return fields ++ fragments
where
  go : List String → Search (List Clash)
    | [] => pure []
    | a :: rest => do
      let fields ← compareWithFragment schema document compare false set.fields a
      let fragments ← searchAll
        (compareFragments schema document compare false (spreadBound document) a) rest
      let more ← go rest
      return fields ++ fragments ++ more

end

/-- The type that the selections below a field select from. -/
def innerOwner (schema : Schema) (selected : Selected) : Option NamedType :=
  (selected.type? schema).bind fun t => schema.type? t.innermost

/-- Compares two fields of one response name; `fuel` bounds how deeply fields are nested. -/
def compareSelected (schema : Schema) (document : Document) :
    (fuel : Nat) → (exclusive : Bool) → Selected → Selected → Search (List Clash)
  | 0, _, _, _ => pure []
  | fuel + 1, parentsExclusive, a, b => do
    let exclusive := parentsExclusive || neverMeet a b
    match ownConflict? schema exclusive a b with
    | some conflict => return [⟨a.name, conflict, [a.position], [b.position]⟩]
    | none =>
      if a.selections.isEmpty || b.selections.isEmpty then return []
      let nested ← compareSets schema document (compareSelected schema document fuel) exclusive
        (.of schema (innerOwner schema a) a.selections)
        (.of schema (innerOwner schema b) b.selections)
      if nested.isEmpty then return []
      return [⟨a.name, .subfields (nested.map fun clash => (clash.name, clash.conflict)),
        a.position :: nested.flatMap Clash.left, b.position :: nested.flatMap Clash.right⟩]

/-- The number of fields in a document. -/
def documentFieldCount (document : Document) : Nat :=
  fieldCount (document.operations.flatMap (·.item.selections)) +
    fieldCount (document.fragments.flatMap (·.item.selections))

/-- How deeply two fields can be nested in each other's comparison before something repeats. -/
def depthBound (document : Document) : Nat :=
  let size := (document.fragments.length + 1) * (documentFieldCount document + 1)
  8 * (size * size)

end Merging

namespace Rules

open Merging

/-- Selections of one response name can be merged. -/
def mergeableFields (schema : Schema) (document : Document) : Rule where
  State := Compared
  start := []
  observe compared event :=
    match event.phase, event.node with
    | .enter, .selectionSet selections =>
      let compare := compareSelected schema document (depthBound document)
      let (clashes, compared) :=
        (compareWithin schema document compare (.of schema event.place.parent selections)).run
          compared
      (compared, clashes.map fun clash =>
        ⟨.fieldConflict clash.name clash.conflict, clash.left ++ clash.right⟩)
    | _, _ => (compared, [])
  finish _ := []

end Rules

end GraphQL
