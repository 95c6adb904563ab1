import GraphQL.Grammar.Selection

/-!
# Reading documents

Operations, fragments, and the definitions of schemas, types and directives. A definition starts at
its description or at the word `extend`.
-/

namespace GraphQL.Parser

/-- Reads a variable that an operation defines. -/
def variableDefinition : Parser VariableDefinition := do
  let name ← located do
    expectMark .dollar
    return (← name).item
  expectMark .colon
  let type ← type
  let default ← if (← skip (.mark .equals)).isSome then some <$> value true else pure none
  return ⟨name, type, default, ← directives⟩

/-- Reads the variables that an operation defines in parentheses, if any. -/
def variableDefinitions : Parser (Option (Located (List VariableDefinition))) := do
  if ← atMark .parenOpen then
    some <$> located (delimitedNonempty (.mark .parenOpen) variableDefinition (.mark .parenClose))
  else return none

/-- Reads the word for a kind of operation. -/
def operationKind : Parser OperationKind := do
  match (← peek).item with
  | .name word =>
    match OperationKind.ofKeyword? word with
    | some kind =>
      expectKeyword word
      return kind
    | none => unexpected
  | _ => unexpected

/-- Reads a name if one comes next. -/
def optionalName : Parser (Option Name) := do
  match (← peek).item with
  | .name _ => some <$> name
  | _ => return none

/-- Reads an operation; a bare selection set is a query. -/
def operation : Parser Operation := do
  if ← atMark .braceOpen then
    return ⟨.query, none, none, [], ← selections⟩
  else
    let kind ← operationKind
    let name ← optionalName
    let definitions ← variableDefinitions
    let directives ← directives
    return ⟨kind, name, definitions, directives, ← selections⟩

/-- Reads the name of a fragment, which cannot be `on`. -/
def fragmentName : Parser Name := do
  let name ← name
  if name.item = "on" then throw (name.map .unexpectedToken) else return name

/-- Reads a fragment with a name. -/
def fragmentDefinition : Parser Fragment := do
  expectKeyword "fragment"
  let fragment ← fragmentName
  expectKeyword "on"
  let condition ← name
  let directives ← directives
  return ⟨fragment, condition, directives, ← selections⟩

/-- Reads a description if one comes next. -/
def description : Parser (Option Name) := do
  match (← peek).item with
  | .quoted _ | .block _ =>
    let text ← located scalar
    return some (text.map fun v => v.string?.getD "")
  | _ => return none

/-- Reads the definition of an argument or of a field of an input object. -/
def inputValueDefinition : Parser (Located InputValueDefinition) :=
  located do
    let description ← description
    let name ← name
    expectMark .colon
    let type ← type
    let default ← if ← acceptMark .equals then some <$> value true else pure none
    return ⟨description, name, type, default, ← directives⟩

/-- Reads the definitions of arguments in parentheses, if any. -/
def argumentDefinitions : Parser (List (Located InputValueDefinition)) :=
  optionalList .parenOpen inputValueDefinition .parenClose

/-- Reads the definition of a field. -/
def fieldDefinition : Parser (Located FieldDefinition) :=
  located do
    let description ← description
    let name ← name
    let arguments ← argumentDefinitions
    expectMark .colon
    let type ← type
    return ⟨description, name, arguments, type, ← directives⟩

/-- Reads the definition of an enum value. -/
def enumValueDefinition : Parser (Located EnumValueDefinition) :=
  located do
    let description ← description
    let name ← name
    return ⟨description, name, ← directives⟩

/-- Reads the root type of one kind of operation. -/
def rootDefinition : Parser (Located RootDefinition) :=
  located do
    let kind ← operationKind
    expectMark .colon
    return ⟨kind, ← name⟩

/-- Reads the names of implemented interfaces, if any. -/
def implemented : Parser (List Name) := do
  if ← acceptKeyword "implements" then separated .ampersand name else return []

/-- Reads the names of the members of a union, if any. -/
def unionMembers : Parser (List Name) := do
  if ← acceptMark .equals then separated .pipe name else return []

/-- Reads a schema behind its description; only an extension may name no root type. -/
def schemaDefinition (extension : Bool) (description : Option Name) : Parser SchemaDefinition := do
  expectKeyword "schema"
  let directives ← directives
  let bare ← if extension then not <$> atMark .braceOpen else pure false
  let roots ←
    if bare then pure []
    else delimitedNonempty (.mark .braceOpen) rootDefinition (.mark .braceClose)
  return ⟨extension, description, directives, roots⟩

/-- The directives and the body of a type definition that starts with the given word; none if it
starts no type definition. -/
def typeBodyOf : String → Option (Parser (List (Located DirectiveUse) × TypeBody))
  | "scalar" => some do
    return (← directives, .scalar)
  | "type" => some do
    let interfaces ← implemented
    let directives ← directives
    return (directives, .object interfaces (← optionalList .braceOpen fieldDefinition .braceClose))
  | "interface" => some do
    let interfaces ← implemented
    let directives ← directives
    return (directives,
      .interface interfaces (← optionalList .braceOpen fieldDefinition .braceClose))
  | "union" => some do
    let directives ← directives
    return (directives, .union (← unionMembers))
  | "enum" => some do
    let directives ← directives
    return (directives, .enum (← optionalList .braceOpen enumValueDefinition .braceClose))
  | "input" => some do
    let directives ← directives
    return (directives, .inputObject (← optionalList .braceOpen inputValueDefinition .braceClose))
  | _ => none

/-- Reads a type behind its description. -/
def typeDefinition (extension : Bool) (description : Option Name)
    (body : Parser (List (Located DirectiveUse) × TypeBody)) : Parser TypeDefinition := do
  let _ ← next
  let name ← name
  let (directives, body) ← body
  return ⟨extension, description, name, directives, body⟩

/-- Reads a place at which a directive may stand. -/
def directiveLocation : Parser (Located DirectiveLocation) := do
  let name ← name
  match DirectiveLocation.ofName? name.item with
  | some location => return ⟨name.span, location⟩
  | none => throw (name.map .unexpectedToken)

/-- Reads the definition of a directive behind its description. -/
def directiveDefinition (description : Option Name) : Parser DirectiveDefinition := do
  expectKeyword "directive"
  expectMark .atSign
  let name ← name
  let arguments ← argumentDefinitions
  let repeatable ← acceptKeyword "repeatable"
  expectKeyword "on"
  return ⟨description, name, arguments, repeatable, ← separated .pipe directiveLocation⟩

/-- What a definition defines, before its place is known. -/
inductive Defined where
  | operation (o : Operation)
  | fragment (f : Fragment)
  | schema (s : SchemaDefinition)
  | type (t : TypeDefinition)
  | directive (d : DirectiveDefinition)

/-- What is defined, at its place. -/
def Defined.at (span : Span) : Defined → Definition
  | operation o => .operation ⟨span, o⟩
  | fragment f => .fragment ⟨span, f⟩
  | schema s => .schema ⟨span, s⟩
  | type t => .type ⟨span, t⟩
  | directive d => .directive ⟨span, d⟩

/-- Reads the definition of a schema, a type or a directive. -/
def typeSystemDefinition (extension : Bool) (description : Option Name) : Parser Defined := do
  match (← peek).item with
  | .name word =>
    if word = "schema" then .schema <$> schemaDefinition extension description
    else if word = "directive" && !extension then .directive <$> directiveDefinition description
    else
      match typeBodyOf word with
      | some body => .type <$> typeDefinition extension description body
      | none => unexpected
  | _ => unexpected

/-- Reads what is defined behind a description. Operations, fragments and extensions have none. -/
def described (description : Option Name) : Parser Defined := do
  if description.isSome then typeSystemDefinition false description
  else
    match (← peek).item with
    | .mark .braceOpen | .name "query" | .name "mutation" | .name "subscription" =>
      .operation <$> operation
    | .name "fragment" => .fragment <$> fragmentDefinition
    | .name "extend" =>
      expectKeyword "extend"
      typeSystemDefinition true none
    | _ => typeSystemDefinition false none

/-- Reads one definition. -/
def definition : Parser Definition := do
  let defined ← located (do described (← description))
  return defined.item.at defined.span

/-- Reads at least one definition, up to the end of the text. -/
def document : Parser Document :=
  fix fun more => do
    let first ← definition
    if (← peek).item = .endOfFile then return [first]
    let rest ← more
    return first :: rest

end GraphQL.Parser

namespace GraphQL

/-- The document that a source text stands for. -/
def Document.parse (source : String) : Except (Located ParseError) Document :=
  Parser.document.runOn source

end GraphQL
