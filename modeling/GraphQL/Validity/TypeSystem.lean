import GraphQL.Validity.Rule

/-!
# Rules on type systems

Documents that define a schema do not define the same thing twice. Extensions add to what they
extend and are no definitions of their own.
-/

namespace GraphQL

/-- The values of an enum with their places. -/
def TypeBody.valueNames : TypeBody → List (String × Position)
  | .enum values => values.map (·.item.name.start)
  | _ => []

/-- The fields of an object, interface or input object with their places. -/
def TypeBody.fieldNames : TypeBody → List (String × Position)
  | .object _ fields => fields.map (·.item.name.start)
  | .interface _ fields => fields.map (·.item.name.start)
  | .inputObject fields => fields.map (·.item.name.start)
  | _ => []

namespace Rules

/-- The definitions and extensions of each type together: its name and what `parts` gives for all of
them. -/
def partsByType (document : Document) (parts : TypeBody → List (String × Position)) :
    List (String × List (String × Position)) :=
  (document.types.map (·.item.name.item)).eraseDups.map fun name =>
    (name, (document.types.filter (·.item.name.item = name)).flatMap fun t => parts t.item.body)

/-- The schema is defined once. -/
def loneSchemaDefinition : Rule :=
  .onDocument fun document =>
    ((document.schemas.filter (!·.item.extension)).drop 1).map fun node =>
      ⟨.duplicateSchema, [node.span.start]⟩

/-- Each kind of operation gets one root type. -/
def uniqueOperationTypes : Rule :=
  .onDocument fun document =>
    repetitions (document.schemas.flatMap fun node => node.item.roots.map fun root =>
      (root.item.kind.keyword, root.span.start)) .duplicateRoot

/-- Types have different names. -/
def uniqueTypeNames : Rule :=
  .onDocument fun document =>
    repetitions ((document.types.filter (!·.item.extension)).map (·.item.name.start))
      .duplicateType

/-- The values of an enum have different names. -/
def uniqueEnumValueNames : Rule :=
  .onDocument fun document =>
    (partsByType document TypeBody.valueNames).flatMap fun (type, names) =>
      repetitions names (.duplicateEnumValue type)

/-- The fields of a type have different names. -/
def uniqueFieldDefinitionNames : Rule :=
  .onDocument fun document =>
    (partsByType document TypeBody.fieldNames).flatMap fun (type, names) =>
      repetitions names (.duplicateFieldDefinition type)

/-- The arguments of a field or directive have different names. -/
def uniqueArgumentDefinitionNames : Rule :=
  .onEnter fun _ node =>
    match node with
    | .type node => node.item.body.fields.flatMap fun field =>
      check (node.item.name.item ++ "." ++ field.item.name.item) field.item.arguments
    | .directiveDefinition node => check ("@" ++ node.item.name.item) node.item.arguments
    | _ => []
where
  check (owner : String) (arguments : List (Located InputValueDefinition)) : List Fault :=
    repetitions (arguments.map (·.item.name.start)) (.duplicateArgumentDefinition owner)

/-- Directives have different names. -/
def uniqueDirectiveNames : Rule :=
  .onDocument fun document =>
    repetitions (document.directives.map (·.item.name.start)) .duplicateDirectiveDefinition

end Rules

end GraphQL
