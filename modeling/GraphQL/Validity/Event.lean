import GraphQL.Schema.Basic

/-!
# Walking through a document

A walk visits the nodes of a document in the order in which they are written, entering each node
before its parts and leaving it after them. Every visit knows what the schema says about its place:
the type of the field, operation or fragment at hand, the type that the selection set at hand
selects from, and the type that is expected of the value at hand. `Document.events` lists all
visits.
-/

namespace GraphQL

/-- What a schema says about a place in a document. -/
structure Surroundings where
  /-- The type of the innermost field, operation or fragment. -/
  output : Option TypeLiteral := none
  /-- The type that the innermost selection set selects from. -/
  parent : Option NamedType := none
  /-- The type that is expected of the innermost value. -/
  input : Option TypeLiteral := none
deriving Repr, Inhabited

/-- A node of a document. -/
inductive Node where
  | document (document : Document)
  | operation (node : Located Operation)
  | fragment (node : Located Fragment)
  | variableDefinition (definition : VariableDefinition)
  | schema (node : Located SchemaDefinition)
  | type (node : Located TypeDefinition)
  | fieldDefinition (node : Located FieldDefinition)
  /-- An argument of a field or directive, as it is defined. -/
  | argumentDefinition (node : Located InputValueDefinition)
  /-- A field of an input object, as it is defined. -/
  | inputFieldDefinition (node : Located InputValueDefinition)
  | enumValueDefinition (node : Located EnumValueDefinition)
  | directiveDefinition (node : Located DirectiveDefinition)
  | directive (node : Located DirectiveUse)
  | argument (argument : Argument)
  | selectionSet (selections : List Selection)
  | field (node : Located FieldHead) (selections : List Selection)
  | spread (node : Located FragmentSpread)
  | inline (node : Located InlineHead) (selections : List Selection)
  | value (value : Located Value)
  /-- An entry of an object. -/
  | entry (key : Name) (value : Located Value)
deriving Repr

/-- Whether a node is entered or left. -/
inductive Phase where
  | enter
  | leave
deriving DecidableEq, Repr

/-- A visit of a node. -/
structure Event where
  phase : Phase
  node : Node
  place : Surroundings
deriving Repr

/-- The type of the innermost field, operation or fragment without its lists. -/
def Surroundings.type? (place : Surroundings) (schema : Schema) : Option NamedType :=
  place.output.bind fun t => schema.type? t.innermost

/-- The type that is expected of the innermost value, looked up. -/
def Surroundings.expected? (place : Surroundings) (schema : Schema) : Option ResolvedType :=
  place.input.bind schema.resolve

/-- Enters a node, does something and leaves it. -/
def Event.around (place : Surroundings) (node : Node) (inner : List Event) : List Event :=
  ⟨.enter, node, place⟩ :: inner ++ [⟨.leave, node, place⟩]

/-- The type that a field of an input object is expected to have, if the type of the object is
written without lists. -/
def Schema.entryType? (schema : Schema) (object : Option TypeLiteral) (key : String) :
    Option TypeLiteral := do
  let name ← (← object).core?
  let t ← schema.type? name
  let field ← t.inputField? key
  return field.type

mutual

/-- The visits of a value and its parts. -/
def Value.events (schema : Schema) (place : Surroundings) (span : Span) : Value → List Event
  | .list items =>
    Event.around place (.value ⟨span, .list items⟩)
      (Value.itemEvents schema { place with input := place.input.bind TypeExpr.item? } items)
  | .object entries =>
    Event.around place (.value ⟨span, .object entries⟩) (Value.entryEvents schema place entries)
  | .null => Event.around place (.value ⟨span, .null⟩) []
  | .int n => Event.around place (.value ⟨span, .int n⟩) []
  | .float x => Event.around place (.value ⟨span, .float x⟩) []
  | .string s => Event.around place (.value ⟨span, .string s⟩) []
  | .boolean b => Event.around place (.value ⟨span, .boolean b⟩) []
  | .enum name => Event.around place (.value ⟨span, .enum name⟩) []
  | .variable name => Event.around place (.value ⟨span, .variable name⟩) []

/-- The visits of the items of a list. -/
def Value.itemEvents (schema : Schema) (place : Surroundings) : List (Located Value) → List Event
  | [] => []
  | ⟨span, v⟩ :: rest =>
    Value.events schema place span v ++ Value.itemEvents schema place rest

/-- The visits of the entries of an object. -/
def Value.entryEvents (schema : Schema) (place : Surroundings) :
    List (Name × Located Value) → List Event
  | [] => []
  | (key, ⟨span, v⟩) :: rest =>
    let inside := { place with input := schema.entryType? place.input key.item }
    Event.around inside (.entry key ⟨span, v⟩) (Value.events schema inside span v) ++
      Value.entryEvents schema place rest

end

/-- The visits of the arguments that are given for some parameters; the parameters are none if the
field or directive is unknown. -/
def argumentEvents (schema : Schema) (place : Surroundings) (parameters : Option (List InputValue))
    (arguments : Option (Located (List Argument))) : List Event :=
  ((arguments.map Located.item).getD []).flatMap fun argument =>
    let parameter := (parameters.getD []).find? (·.name = argument.name.item)
    let inside := { place with input := parameter.map InputValue.type }
    Event.around inside (.argument argument)
      (argument.value.item.events schema inside argument.value.span)

/-- The visits of directives. -/
def directiveEvents (schema : Schema) (place : Surroundings)
    (directives : List (Located DirectiveUse)) : List Event :=
  directives.flatMap fun directive =>
    Event.around place (.directive directive)
      (argumentEvents schema place
        ((schema.directive? directive.item.name.item).map Directive.arguments)
        directive.item.arguments)

/-- The place inside a selection set. -/
def Surroundings.within (place : Surroundings) (schema : Schema) : Surroundings :=
  { place with parent := place.type? schema }

/-- The place of a named type, as for the condition of a fragment. -/
def Surroundings.on (place : Surroundings) (name : String) : Surroundings :=
  { place with output := some (.named name true) }

mutual

/-- The visits of one selection. -/
def Selection.events (schema : Schema) (place : Surroundings) : Selection → List Event
  | .field node selections =>
    let definition := place.parent.bind (schema.field? · node.item.name.item)
    let inside := { place with output := definition.map Field.type }
    Event.around inside (.field node selections) <|
      argumentEvents schema inside (definition.map Field.arguments) node.item.arguments ++
        directiveEvents schema inside node.item.directives ++
        if selections.isEmpty then []
        else
          Event.around (inside.within schema) (.selectionSet selections)
            (Selection.listEvents schema (inside.within schema) selections)
  | .spread node =>
    Event.around place (.spread node) (directiveEvents schema place node.item.directives)
  | .inline node selections =>
    let inside := match node.item.condition with
      | some condition => place.on condition.item
      | none => place
    Event.around inside (.inline node selections) <|
      directiveEvents schema inside node.item.directives ++
        Event.around (inside.within schema) (.selectionSet selections)
          (Selection.listEvents schema (inside.within schema) selections)

/-- The visits of the selections of a selection set. -/
def Selection.listEvents (schema : Schema) (place : Surroundings) : List Selection → List Event
  | [] => []
  | selection :: rest =>
    Selection.events schema place selection ++ Selection.listEvents schema place rest

end

/-- The visits of a selection set. -/
def selectionSetEvents (schema : Schema) (place : Surroundings) (selections : List Selection) :
    List Event :=
  Event.around (place.within schema) (.selectionSet selections)
    (Selection.listEvents schema (place.within schema) selections)

/-- The visits of the variables that an operation defines. -/
def variableEvents (schema : Schema) (place : Surroundings)
    (definitions : List VariableDefinition) : List Event :=
  definitions.flatMap fun definition =>
    let inside := { place with input := some definition.type.item }
    Event.around inside (.variableDefinition definition) <|
      (match definition.default with
        | some value => value.item.events schema inside value.span
        | none => []) ++
        directiveEvents schema inside definition.directives

/-- The visits of arguments or input fields, as they are defined. -/
def inputDefinitionEvents (schema : Schema) (place : Surroundings)
    (node : Located InputValueDefinition → Node)
    (definitions : List (Located InputValueDefinition)) : List Event :=
  definitions.flatMap fun definition =>
    Event.around place (node definition) (directiveEvents schema place definition.item.directives)

/-- The visits of the parts of a type definition. -/
def TypeBody.events (schema : Schema) (place : Surroundings) : TypeBody → List Event
  | .scalar => []
  | .object _ fields => fieldEvents fields
  | .interface _ fields => fieldEvents fields
  | .union _ => []
  | .enum values => values.flatMap fun value =>
    Event.around place (.enumValueDefinition value)
      (directiveEvents schema place value.item.directives)
  | .inputObject fields => inputDefinitionEvents schema place .inputFieldDefinition fields
where
  fieldEvents (fields : List (Located FieldDefinition)) : List Event :=
    fields.flatMap fun field =>
      Event.around place (.fieldDefinition field) <|
        inputDefinitionEvents schema place .argumentDefinition field.item.arguments ++
          directiveEvents schema place field.item.directives

/-- The visits of a definition. -/
def Definition.events (schema : Schema) : Definition → List Event
  | .operation node =>
    let place := { output := (schema.root? node.item.kind).map fun t => .named t.name true }
    Event.around place (.operation node) <|
      variableEvents schema place node.item.definedVariables ++
        directiveEvents schema place node.item.directives ++
        selectionSetEvents schema place node.item.selections
  | .fragment node =>
    let place := ({} : Surroundings).on node.item.condition.item
    Event.around place (.fragment node) <|
      directiveEvents schema place node.item.directives ++
        selectionSetEvents schema place node.item.selections
  | .schema node => Event.around {} (.schema node) (directiveEvents schema {} node.item.directives)
  | .type node =>
    Event.around {} (.type node) <|
      directiveEvents schema {} node.item.directives ++ node.item.body.events schema {}
  | .directive node =>
    Event.around {} (.directiveDefinition node)
      (inputDefinitionEvents schema {} .argumentDefinition node.item.arguments)

/-- All visits of a walk through a document. -/
def Document.events (schema : Schema) (document : Document) : List Event :=
  Event.around {} (.document document) (document.flatMap (Definition.events schema))

end GraphQL
