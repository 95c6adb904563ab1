import GraphQL.Json.Record
import GraphQL.Schema.Registry
import GraphQL.Validity.Arguments
import GraphQL.Validity.Definitions
import GraphQL.Validity.Directives
import GraphQL.Validity.Fields
import GraphQL.Validity.Fragments
import GraphQL.Validity.Merging
import GraphQL.Validity.TypeSystem
import GraphQL.Validity.Types
import GraphQL.Validity.Variables

/-!
# Valid documents

Checks documents: those that are executed against a schema, and those that define one. All rules
watch one walk through the document, and what they find is put in order.
-/

namespace GraphQL

/-- Options for checking a document. -/
structure ValidityOptions where
  /-- Whether the document must not ask for the schema. -/
  disableIntrospection : Bool := false
deriving DecidableEq, Repr, Inhabited

/-- Reads the options. -/
def ValidityOptions.reader : Json.Reader ValidityOptions :=
  Json.Record.reader "ValidationOptions" <|
    ValidityOptions.mk <$> .given "disableIntrospection" .boolean false

namespace Rules

/-- The rules for documents that are executed. -/
def executable (schema : Schema) (document : Document) : List Rule := [
  executableDefinitions,
  argumentValues schema,
  defaultValues schema,
  fieldsOnType schema,
  compositeConditions schema,
  knownArgumentNames schema document,
  knownDirectives schema document,
  knownFragmentNames document,
  knownTypeNames [] schema document,
  loneAnonymousOperation,
  noFragmentCycles,
  noUndefinedVariables,
  noUnusedFragments,
  noUnusedVariables,
  mergeableFields schema document,
  possibleSpreads schema document,
  providedArguments schema,
  leafSelections schema,
  uniqueArgumentNames,
  uniqueDirectivesPerLocation schema document,
  uniqueFragmentNames,
  uniqueInputFieldNames,
  uniqueOperationNames,
  uniqueVariableNames,
  variablesAreInputs schema,
  variablePositions schema]

/-- The rules for documents that define a schema. -/
def typeSystem (schema : Schema) (document : Document) : List Rule := [
  loneSchemaDefinition,
  uniqueOperationTypes,
  uniqueTypeNames,
  uniqueEnumValueNames,
  uniqueFieldDefinitionNames,
  uniqueArgumentDefinitionNames,
  uniqueDirectiveNames,
  knownTypeNames builtinScalarNames schema document,
  knownDirectives schema document,
  uniqueDirectivesPerLocation schema document,
  knownArgumentNames schema document]

end Rules

namespace Document

/-- Everything that some rules find in a document, in order. -/
def check (schema : Schema) (document : Document) (rules : List Rule) : List Report :=
  Report.sort (((Rule.all rules).run (document.events schema)).map Fault.report)

/-- Everything that keeps a document from being executed against a schema. -/
def validate (schema : Schema) (options : ValidityOptions) (document : Document) : List Report :=
  document.check schema <|
    Rules.executable schema document ++
      if options.disableIntrospection then [Rules.noIntrospection] else []

/-- Everything that is wrong with a document that defines a schema. It is checked against what every
schema knows. -/
def validateTypeSystem (document : Document) : List Report :=
  document.check .standard (Rules.typeSystem .standard document)

end Document

end GraphQL
