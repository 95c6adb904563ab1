import GraphQL.Validity.Rule

/-!
# Rules on definitions

Documents that are executed define operations and fragments only, each under a name of its own; an
operation without a name has to be the only one.
-/

namespace GraphQL.Rules

/-- Only operations and fragments can be executed. -/
def executableDefinitions : Rule :=
  .onDocument fun document => document.filterMap fun
    | .operation _ => none
    | .fragment _ => none
    | .schema node => some ⟨.notExecutable none, [node.span.start]⟩
    | .type node => some ⟨.notExecutable (some node.item.name.item), [node.span.start]⟩
    | .directive node => some ⟨.notExecutable (some node.item.name.item), [node.span.start]⟩

/-- An operation without a name stands alone. -/
def loneAnonymousOperation : Rule :=
  .onDocument fun document =>
    if document.operations.length < 2 then []
    else (document.operations.filter (·.item.name.isNone)).map fun node =>
      ⟨.anonymousNotAlone, [node.span.start]⟩

/-- Operations have different names. -/
def uniqueOperationNames : Rule :=
  .onDocument fun document =>
    repetitions (document.operations.filterMap fun node => node.item.name.map Located.start)
      .duplicateOperation

/-- Fragments have different names. -/
def uniqueFragmentNames : Rule :=
  .onDocument fun document =>
    repetitions (document.fragments.map (·.item.name.start)) .duplicateFragment

/-- The variables of an operation have different names. -/
def uniqueVariableNames : Rule :=
  .onEnter fun _ node =>
    match node with
    | .operation operation =>
      repetitions (operation.item.definedVariables.map (·.name.start))
        .duplicateVariable
    | _ => []

end GraphQL.Rules
