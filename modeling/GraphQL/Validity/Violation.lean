import GraphQL.Schema.Literal

/-!
# What is wrong with a document

`Violation` lists everything that a document can do wrong, `Fault` adds where, and `Report` is what
users see. Reports are ordered by their places and then by their texts.
-/

namespace GraphQL

/-- Why two selections of one response name cannot be merged. -/
inductive Conflict where
  /-- They name different fields. -/
  | differentFields (left right : String)
  | differingArguments
  | conflictingTypes (left right : TypeLiteral)
  /-- Selections below them cannot be merged. -/
  | subfields (conflicts : List (String × Conflict))
deriving Repr, Inhabited

mutual

/-- How a conflict is described. -/
def Conflict.text : Conflict → String
  | .differentFields left right => left ++ " and " ++ right ++ " are different fields"
  | .differingArguments => "they have differing arguments"
  | .conflictingTypes left right =>
    "they return conflicting types " ++ left.text ++ " and " ++ right.text
  | .subfields conflicts => " and ".intercalate (Conflict.texts conflicts)

/-- How the conflicts of some response names are described. -/
def Conflict.texts : List (String × Conflict) → List String
  | [] => []
  | (name, conflict) :: rest =>
    ("subfields " ++ quoted name ++ " conflict because " ++ conflict.text) :: Conflict.texts rest

end

/-- What has arguments. -/
inductive ArgumentOwner where
  | field (name : String)
  | directive (name : String)
deriving DecidableEq, Repr

/-- How messages call what has arguments. -/
def ArgumentOwner.text : ArgumentOwner → String
  | field name => "Field " ++ quoted name
  | directive name => "Directive " ++ quoted ("@" ++ name)

/-- Something that a document does wrong. -/
inductive Violation where
  | notExecutable (definition : Option String)
  | argumentValue (argument : String) (fault : LiteralFault)
  | defaultValue (name : String) (fault : LiteralFault)
  | introspection (field : String)
  | subscriptionTypename
  | unknownField (field type : String)
  | conditionNotComposite (fragment : Option String) (type : String)
  | unknownFieldArgument (argument field type : String)
  | unknownDirectiveArgument (argument directive : String)
  | unknownDirective (directive : String)
  | misplacedDirective (directive : String) (location : DirectiveLocation)
  | unknownFragment (fragment : String)
  | unknownType (type : String)
  | anonymousNotAlone
  | fragmentCycle (fragment : String) (through : List String)
  | undefinedVariable (name : String) (operation : Option String)
  | unusedFragment (fragment : String)
  | unusedVariable (name : String) (operation : Option String)
  | fieldConflict (name : String) (conflict : Conflict)
  | impossibleSpread (fragment : Option String) (parent condition : String)
  | missingArgument (owner : ArgumentOwner) (argument : String) (type : TypeLiteral)
  | selectionOnLeaf (field : String) (type : TypeLiteral)
  | missingSelection (field : String) (type : TypeLiteral)
  | duplicateArgument (argument : String)
  | duplicateDirective (directive : String)
  | duplicateFragment (fragment : String)
  | duplicateInputField (field : String)
  | duplicateOperation (operation : String)
  | duplicateVariable (name : String)
  | variableNotInput (name : String) (type : TypeLiteral)
  | variablePosition (name : String) (type expected : TypeLiteral)
  | duplicateSchema
  | duplicateRoot (kind : String)
  | duplicateType (type : String)
  | duplicateEnumValue (enum value : String)
  | duplicateFieldDefinition (type field : String)
  | duplicateArgumentDefinition (owner argument : String)
  | duplicateDirectiveDefinition (directive : String)
deriving Repr

namespace Violation

/-- A variable as it is written, between quotes. -/
def variableText (name : String) : String :=
  quoted ("$" ++ name)

/-- How messages call a fragment. -/
def fragmentText : Option String → String
  | some name => "Fragment " ++ quoted name
  | none => "Inline fragment"

/-- What users are told. -/
def message : Violation → String
  | notExecutable definition =>
    "The " ++ (match definition with
      | some name => quoted name
      | none => "schema") ++ " definition is not executable."
  | argumentValue argument fault =>
    "Argument " ++ quoted argument ++ " has an invalid value: " ++ fault.message
  | defaultValue name fault =>
    "Variable " ++ variableText name ++ " has an invalid default value: " ++ fault.message
  | introspection field =>
    "GraphQL introspection is not allowed, but the operation contained `" ++ field ++ "`"
  | subscriptionTypename =>
    "`__typename` may not be included as a root field in a subscription operation"
  | unknownField field type => "Unknown field " ++ quoted field ++ " on type " ++ quoted type
  | conditionNotComposite fragment type =>
    fragmentText fragment ++ " cannot be conditioned on non-composite type " ++ quoted type
  | unknownFieldArgument argument field type =>
    "Unknown argument " ++ quoted argument ++ " on field " ++ quoted field ++ " of type " ++
      quoted type
  | unknownDirectiveArgument argument directive =>
    "Unknown argument " ++ quoted argument ++ " on directive " ++ quoted directive
  | unknownDirective directive => "Unknown directive " ++ quoted directive
  | misplacedDirective directive location =>
    "Directive " ++ quoted directive ++ " may not be used on " ++ location.description
  | unknownFragment fragment => "Unknown fragment " ++ quoted fragment
  | unknownType type => "Unknown type " ++ quoted type
  | anonymousNotAlone => "An anonymous operation must be the only operation in its document"
  | fragmentCycle fragment through =>
    "Fragment " ++ quoted fragment ++ " spreads itself" ++
      if through.isEmpty then "" else " through " ++ quotedList through
  | undefinedVariable name operation =>
    "Variable " ++ variableText name ++ " is not defined" ++ (match operation with
      | some name => " by operation " ++ quoted name
      | none => "")
  | unusedFragment fragment => "Fragment " ++ quoted fragment ++ " is never used"
  | unusedVariable name operation =>
    "Variable " ++ variableText name ++ " is not used" ++ (match operation with
      | some name => " by operation " ++ quoted name
      | none => "")
  | fieldConflict name conflict =>
    "Fields " ++ quoted name ++ " conflict because " ++ conflict.text ++
      ". Use different aliases on the fields to fetch both if this was intentional"
  | impossibleSpread fragment parent condition =>
    fragmentText fragment ++ " cannot be spread here, as no value of type " ++ quoted parent ++
      " is ever of type " ++ quoted condition
  | missingArgument owner argument type =>
    owner.text ++ " argument " ++ quoted argument ++ " of type " ++ quoted type.text ++
      " is required but not provided"
  | selectionOnLeaf field type =>
    "Field " ++ quoted field ++ " of leaf type " ++ quoted type.text ++
      " cannot have a selection set"
  | missingSelection field type =>
    "Field " ++ quoted field ++ " of type " ++ quoted type.text ++
      " needs a selection of subfields"
  | duplicateArgument argument => "There can only be one argument named " ++ quoted argument
  | duplicateDirective directive =>
    "The directive " ++ quoted ("@" ++ directive) ++ " can only be used once at this location"
  | duplicateFragment fragment => "There can only be one fragment named " ++ quoted fragment
  | duplicateInputField field => "There can only be one input field named " ++ quoted field
  | duplicateOperation operation => "There can only be one operation named " ++ quoted operation
  | duplicateVariable name =>
    "There can only be one variable named " ++ variableText name
  | variableNotInput name type =>
    "Variable " ++ variableText name ++ " cannot be of non-input type " ++ quoted type.text
  | variablePosition name type expected =>
    "Variable " ++ variableText name ++ " of type " ++ quoted type.text ++
      " used in position expecting type " ++ quoted expected.text
  | duplicateSchema => "Must provide only one schema definition"
  | duplicateRoot kind => "There can be only one " ++ kind ++ " type in schema"
  | duplicateType type => "There can only be one type named " ++ quoted type
  | duplicateEnumValue enum value =>
    "Enum value " ++ quoted (enum ++ "." ++ value) ++ " can only be defined once"
  | duplicateFieldDefinition type field =>
    "Field " ++ quoted (type ++ "." ++ field) ++ " can only be defined once"
  | duplicateArgumentDefinition owner argument =>
    "Argument " ++ quoted (owner ++ "(" ++ argument ++ ":)") ++ " can only be defined once"
  | duplicateDirectiveDefinition directive =>
    "There can only be one directive named " ++ quoted ("@" ++ directive)

end Violation

/-- Something wrong, with the places it concerns. -/
structure Fault where
  violation : Violation
  locations : List Position
deriving Repr

/-- What users see of a fault. -/
structure Report where
  locations : List Position
  message : String
deriving DecidableEq, Repr

/-- What users see of a fault. -/
def Fault.report (fault : Fault) : Report :=
  ⟨fault.locations, fault.violation.message⟩

namespace Report

/-- Compares lists of places like words. -/
def compareLocations : List Position → List Position → Ordering
  | [], [] => .eq
  | [], _ :: _ => .lt
  | _ :: _, [] => .gt
  | p :: ps, q :: qs => (p.compare q).then (compareLocations ps qs)

/-- Reports are ordered by their places, then by their texts. -/
def compare (a b : Report) : Ordering :=
  (compareLocations a.locations b.locations).then (Ord.compare a.message b.message)

/-- Puts reports in order. -/
def sort (reports : List Report) : List Report :=
  reports.mergeSort fun a b => (a.compare b).isLE

/-- The whole text of a report. -/
def text (report : Report) : String :=
  report.message ++ ". At " ++ ", ".intercalate (report.locations.map Position.text)

end Report

end GraphQL
