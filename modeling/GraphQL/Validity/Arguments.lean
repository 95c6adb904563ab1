import GraphQL.Validity.Rule

/-!
# Rules on arguments and values

Arguments have to be known, given once, given if they are required, and literals of the right type.
-/

namespace GraphQL.Rules

/-- The arguments as a list. -/
def givenArguments (arguments : Option (Located (List Argument))) : List Argument :=
  (arguments.map Located.item).getD []

/-- The arguments that a directive takes: the document's own definition goes before the schema's. -/
def directiveArguments? (schema : Schema) (document : Document) (name : String) :
    Option (List String) :=
  match document.directive? name with
  | some definition => some (definition.arguments.map (·.item.name.item))
  | none => (schema.directive? name).map fun directive => directive.arguments.map InputValue.name

/-- Literals that are given for arguments are of their types. -/
def argumentValues (schema : Schema) : Rule :=
  .onEnter fun place node =>
    match node with
    | .argument argument =>
      match (place.expected? schema).bind (schema.literalFault? · argument.value.item) with
      | some fault => [⟨.argumentValue argument.name.item fault, [argument.value.span.start]⟩]
      | none => []
    | _ => []

/-- Default values of variables are literals of their types. -/
def defaultValues (schema : Schema) : Rule :=
  .onEnter fun place node =>
    match node with
    | .variableDefinition definition =>
      match definition.default with
      | none => []
      | some value =>
        match (place.expected? schema).bind (schema.literalFault? · value.item) with
        | some fault => [⟨.defaultValue definition.name.item fault, [value.span.start]⟩]
        | none => []
    | _ => []

/-- Arguments that are given are known to the field or directive. -/
def knownArgumentNames (schema : Schema) (document : Document) : Rule :=
  .onEnter fun place node =>
    match node with
    | .field node _ =>
      match place.parent with
      | none => []
      | some parent =>
        match schema.field? parent node.item.name.item with
        | none => []
        | some definition =>
          unknown node.item.arguments (definition.arguments.map InputValue.name) fun argument =>
            .unknownFieldArgument argument node.item.name.item parent.name
    | .directive node =>
      match directiveArguments? schema document node.item.name.item with
      | none => []
      | some known =>
        unknown node.item.arguments known fun argument =>
          .unknownDirectiveArgument argument node.item.name.item
    | _ => []
where
  unknown (arguments : Option (Located (List Argument))) (known : List String)
      (violation : String → Violation) : List Fault :=
    ((givenArguments arguments).filter (!known.contains ·.name.item)).map fun argument =>
      ⟨violation argument.name.item, [argument.name.span.start]⟩

/-- Required arguments are given. -/
def providedArguments (schema : Schema) : Rule :=
  .onEnter fun place node =>
    match node with
    | .field node _ =>
      match place.parent.bind (schema.field? · node.item.name.item) with
      | none => []
      | some definition =>
        missing (.field node.item.name.item) definition.arguments node.item.arguments
          node.span.start
    | .directive node =>
      match schema.directive? node.item.name.item with
      | none => []
      | some definition =>
        missing (.directive node.item.name.item) definition.arguments node.item.arguments
          node.span.start
    | _ => []
where
  missing (owner : ArgumentOwner) (parameters : List InputValue)
      (arguments : Option (Located (List Argument))) (position : Position) : List Fault :=
    (parameters.filter fun parameter => parameter.isRequired &&
      (Argument.find? (givenArguments arguments) parameter.name).isNone).map fun parameter =>
        ⟨.missingArgument owner parameter.name parameter.type, [position]⟩

/-- No argument is given twice. -/
def uniqueArgumentNames : Rule :=
  .onEnter fun _ node =>
    match node with
    | .field node _ => check node.item.arguments
    | .directive node => check node.item.arguments
    | _ => []
where
  check (arguments : Option (Located (List Argument))) : List Fault :=
    repetitions ((givenArguments arguments).map (·.name.start)) .duplicateArgument

/-- No entry of an object is given twice. -/
def uniqueInputFieldNames : Rule :=
  .onEnter fun _ node =>
    match node with
    | .value ⟨_, .object entries⟩ =>
      repetitions (entries.map (·.1.start)) .duplicateInputField
    | _ => []

end GraphQL.Rules
