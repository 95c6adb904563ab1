import GraphQL.Validity.Rule

/-!
# Rules on named types

Every type that a document names has to be known: to the schema, or because the document defines it.
-/

namespace GraphQL

/-- The types that a node names, with their places. -/
def Node.typeNames : Node → List (String × Position)
  | .inline node _ => (node.item.condition.map Located.start).toList
  | .fragment node => [node.item.condition.start]
  | .variableDefinition definition =>
    [(definition.type.item.innermost, definition.type.span.start)]
  | .schema node => node.item.roots.map (·.item.type.start)
  | .type node => node.item.body.references.map Located.start
  | .fieldDefinition node => [(node.item.type.item.innermost, node.item.type.span.start)]
  | .argumentDefinition node => [(node.item.type.item.innermost, node.item.type.span.start)]
  | .inputFieldDefinition node => [(node.item.type.item.innermost, node.item.type.span.start)]
  | _ => []

namespace Rules

/-- The types that a document defines, not only extends. -/
def definedTypes (document : Document) : List String :=
  (document.types.filter (!·.item.extension)).map (·.item.name.item)

/-- Types that are named are known to the schema, defined by the document, or one of `others`. -/
def knownTypeNames (others : List String) (schema : Schema) (document : Document) : Rule :=
  let known := definedTypes document ++ others
  .onEnter fun _ node => (node.typeNames.filter fun (name, _) =>
    !(known.contains name || (schema.type? name).isSome)).map fun (name, position) =>
      ⟨.unknownType name, [position]⟩

end Rules

end GraphQL
