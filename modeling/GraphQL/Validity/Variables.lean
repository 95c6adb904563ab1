import GraphQL.Schema.Subtype
import GraphQL.Validity.Scope

/-!
# Rules on variables

Operations define exactly the variables that they use, with types that fit where they are used.
-/

namespace GraphQL

/-- The name of an operation. -/
def Operation.title (operation : Operation) : Option String :=
  operation.name.map Located.item

/-- The type that a variable has where it is used: with a default value other than null, it is never
null. -/
def VariableDefinition.effectiveType (definition : VariableDefinition) : TypeLiteral :=
  match definition.default with
  | some value => if value.item.isNull then definition.type.item else definition.type.item.required
  | none => definition.type.item

namespace Rules

/-- Variables are of types that can be given. -/
def variablesAreInputs (schema : Schema) : Rule :=
  .onEnter fun _ node =>
    match node with
    | .variableDefinition definition =>
      if (schema.type? definition.type.item.innermost).any (!·.kind.isInput) then
        [⟨.variableNotInput definition.name.item definition.type.item,
          [definition.type.span.start]⟩]
      else []
    | _ => []

/-- Variables that are used are defined. -/
def noUndefinedVariables : Rule :=
  .onUsage fun usage => usage.numbered.flatMap fun (operation, index) =>
    ((usage.variablesOf index).filter fun use =>
      !operation.item.definedVariables.any (·.name.item = use.name.item)).map fun use =>
        ⟨.undefinedVariable use.name.item operation.item.title,
          [use.name.span.start, operation.span.start]⟩

/-- Variables that are defined are used. -/
def noUnusedVariables : Rule :=
  .onUsage fun usage => usage.numbered.flatMap fun (operation, index) =>
    let uses := usage.variablesOf index
    (operation.item.definedVariables.filter fun definition =>
      !uses.any (·.name.item = definition.name.item)).map fun definition =>
        ⟨.unusedVariable definition.name.item operation.item.title,
          [definition.name.span.start]⟩

/-- Variables are used where their types may stand. -/
def variablePositions (schema : Schema) : Rule :=
  .onUsage fun usage => usage.numbered.flatMap fun (operation, index) =>
    (usage.variablesOf index).filterMap fun use => do
      let expected ← use.expected
      let definition ← operation.item.definedVariables.find? (·.name.item = use.name.item)
      if schema.isSubtype definition.effectiveType expected then none
      else
        some ⟨.variablePosition use.name.item definition.type.item expected,
          [definition.name.span.start, use.name.span.start]⟩

end Rules

end GraphQL
