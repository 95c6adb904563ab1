import GraphQL.Validity.Rule

/-!
# Rules on fields

Fields have to exist, and they have selections exactly if their types have fields of their own.
-/

namespace GraphQL.Rules

/-- The fields of a selection set that are written in it directly. -/
def directFields (selections : List Selection) : List FieldHead :=
  selections.filterMap fun
    | .field node _ => some node.item
    | _ => none

/-- Fields exist on the types they are selected from. The root of a subscription is an event, which
has no type name. -/
def fieldsOnType (schema : Schema) : Rule :=
  .onEnter fun place node =>
    match node with
    | .operation node =>
      if node.item.kind = .subscription then
        ((directFields node.item.selections).filter (·.name.item = "__typename")).map fun field =>
          ⟨.subscriptionTypename, [field.name.span.start]⟩
      else []
    | .field node _ =>
      match place.parent with
      | none => []
      | some parent =>
        if (schema.field? parent node.item.name.item).isSome then []
        else [⟨.unknownField node.item.name.item parent.name, [node.item.name.span.start]⟩]
    | _ => []

/-- Fields have selections exactly if their types are not leaves. -/
def leafSelections (schema : Schema) : Rule :=
  .onEnter fun place node =>
    match node with
    | .field node selections =>
      match place.type? schema, place.output with
      | some t, some type =>
        if t.kind.isLeaf then
          if selections.isEmpty then []
          else [⟨.selectionOnLeaf node.item.name.item type, [node.span.start]⟩]
        else if selections.isEmpty then
          [⟨.missingSelection node.item.name.item type, [node.span.start]⟩]
        else []
      | _, _ => []
    | _ => []

/-- The schema is not asked for. -/
def noIntrospection : Rule :=
  .onEnter fun _ node =>
    match node with
    | .field node _ =>
      if ["__schema", "__type"].contains node.item.name.item then
        [⟨.introspection node.item.name.item, [node.item.name.span.start]⟩]
      else []
    | _ => []

end GraphQL.Rules
