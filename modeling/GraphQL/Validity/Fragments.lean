import GraphQL.Graph.Cycle
import GraphQL.Schema.Subtype
import GraphQL.Validity.Scope

/-!
# Rules on fragments

Fragments have to be known and used, must not contain themselves, and have to be about types that
can occur where they are spread.
-/

namespace GraphQL.Rules

/-- Conditions of fragments are types that have selections. -/
def compositeConditions (schema : Schema) : Rule :=
  .onEnter fun place node =>
    match node with
    | .fragment node =>
      check place (some node.item.name.item) node.item.condition
    | .inline node _ =>
      match node.item.condition with
      | some condition => check place none condition
      | none => []
    | _ => []
where
  check (place : Surroundings) (fragment : Option String) (condition : Name) : List Fault :=
    match place.type? schema with
    | some t =>
      if t.kind.isComposite then []
      else [⟨.conditionNotComposite fragment t.name, [condition.span.start]⟩]
    | none => []

/-- Fragments that are spread exist. -/
def knownFragmentNames (document : Document) : Rule :=
  .onEnter fun _ node =>
    match node with
    | .spread node =>
      if (document.fragment? node.item.name.item).isSome then []
      else [⟨.unknownFragment node.item.name.item, [node.item.name.span.start]⟩]
    | _ => []

/-- The type that a fragment is about: the first known one that fragments of this name have. -/
def conditionOf? (schema : Schema) (document : Document) (fragment : String) : Option NamedType :=
  (document.fragments.filter (·.item.name.item = fragment)).findSome? fun node =>
    schema.type? node.item.condition.item

/-- Whether a value of the one type may also be of the other. An interface also applies inside the
interfaces it implements, even if no object implements both. -/
def canApply (schema : Schema) (parent condition : NamedType) : Bool :=
  (parent.isInterface && condition.isInterface && schema.implements condition parent) ||
    schema.overlap parent condition

/-- Fragments are about types that can occur where they are spread. -/
def possibleSpreads (schema : Schema) (document : Document) : Rule :=
  .onEnter fun place node =>
    match node with
    | .inline node _ =>
      check place none (node.item.condition.bind fun name => schema.type? name.item)
        node.span.start
    | .spread node =>
      check place (some node.item.name.item) (conditionOf? schema document node.item.name.item)
        node.span.start
    | _ => []
where
  check (place : Surroundings) (fragment : Option String) (condition : Option NamedType)
      (position : Position) : List Fault :=
    match place.parent, condition with
    | some parent, some condition =>
      if canApply schema parent condition then []
      else [⟨.impossibleSpread fragment parent.name condition.name, [position]⟩]
    | _, _ => []

/-- Fragments are used by some operation. -/
def noUnusedFragments : Rule :=
  .onUsage fun usage =>
    let used := usage.numbered.flatMap fun (_, index) => usage.reachable index
    (usage.fragments.filter fun node => !used.contains (.fragment node.item.name.item)).map
      fun node => ⟨.unusedFragment node.item.name.item, [node.span.start]⟩

/-- The fragments that a fragment spreads, with the places. -/
def spreadEdges (usage : Usage) (fragment : String) : List (Graph.Edge String Position) :=
  (usage.spreadsIn (.fragment fragment)).map fun spread =>
    ⟨spread.item.name.item, spread.span.start⟩

/-- Fragments do not contain themselves. -/
def noFragmentCycles : Rule :=
  .onUsage fun usage =>
    (Graph.cycles (usage.fragments.map (·.item.name.item)) (spreadEdges usage)).map fun cycle =>
      ⟨.fragmentCycle cycle.node (cycle.edges.dropLast.map Graph.Edge.target),
        cycle.edges.map Graph.Edge.label⟩

end GraphQL.Rules
