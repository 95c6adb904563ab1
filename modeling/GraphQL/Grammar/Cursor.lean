import GraphQL.Source.Lexer

/-!
# Reading from tokens

A `Cursor` stands before the tokens that are still to be read. The end of the file is not among
them: it is seen when no token is left, and can never be read past. A `Parser` moves a cursor
forward, and what it has read stays read also if it fails.

Parsers that refer to themselves are made by `Parser.fix`, which allows one more nesting than there
are tokens: a parser that reads a token before it comes to itself again never notices the bound.
-/

namespace GraphQL

/-- Why a source text is no document. -/
inductive ParseError where
  /-- A token that cannot stand where it does. -/
  | unexpectedToken (text : String)
  /-- The text ends too early. -/
  | unexpectedEndOfFile
  /-- The text has no tokens to read. -/
  | lexical (error : LexError)
  /-- A literal without a meaning. -/
  | invalidLiteral (text : String)
deriving DecidableEq, Repr

/-- What users are told about an error. -/
def ParseError.message : ParseError → String
  | unexpectedToken text => "Unexpected \"" ++ text ++ "\""
  | unexpectedEndOfFile => "Unexpected end of input"
  | lexical error => error.message
  | invalidLiteral text => "Invalid value literal \"" ++ text ++ "\""

/-- A place between the tokens of a source text. -/
structure Cursor where
  /-- The tokens that are still to be read. -/
  ahead : List (Located Token)
  /-- Where the source text ends. -/
  finish : Position
  /-- Where the token that was read last ends. -/
  last : Option Position
deriving Repr

/-- The place before all tokens of a source text. -/
def Cursor.start (source : String) : Except (Located ParseError) Cursor :=
  let lexed := Lexer.run source
  match lexed.outcome with
  | .ok finish => .ok ⟨lexed.tokens, finish, none⟩
  | .error e => .error (e.map .lexical)

/-- The next token, without reading it. -/
def Cursor.peek (c : Cursor) : Located Token :=
  match c.ahead with
  | [] => ⟨.empty c.finish, .endOfFile⟩
  | token :: _ => token

/-- Where the token that was read last ends; before the first one, where the next one starts. -/
def Cursor.previousEnd (c : Cursor) : Position :=
  c.last.getD c.peek.span.start

/-- A part of the grammar: moves a cursor forward and answers what it has read. -/
abbrev Parser := EStateM (Located ParseError) Cursor

namespace Parser

variable {α : Type}

/-- The next token, without reading it. -/
def peek : Parser (Located Token) :=
  fun c => .ok c.peek c

/-- Reads any token but the end of the file. -/
def next : Parser (Located Token) :=
  fun c =>
    match c.ahead with
    | [] => .error ⟨.empty c.finish, .unexpectedEndOfFile⟩ c
    | token :: rest => .ok token ⟨rest, c.finish, some token.span.stop⟩

/-- Reads the next token and says that it cannot stand here. -/
def unexpected : Parser α := do
  let token ← next
  throw (token.map fun t => .unexpectedToken t.text)

/-- Reads the given token. -/
def expect (token : Token) : Parser (Located Token) := do
  if (← peek).item = token then next else unexpected

/-- Reads a mark. -/
def expectMark (p : Punctuator) : Parser Unit :=
  discard (expect (.mark p))

/-- Reads a keyword. -/
def expectKeyword (word : String) : Parser Unit :=
  discard (expect (.name word))

/-- Reads the given token if it comes next; a text must not end here. -/
def skip (token : Token) : Parser (Option (Located Token)) := do
  let following ← peek
  if following.item = token then some <$> next
  else if following.item = .endOfFile then
    throw ⟨.empty following.span.start, .unexpectedEndOfFile⟩
  else return none

/-- Reads the given token if it comes next. -/
def accept (token : Token) : Parser (Option (Located Token)) := do
  if (← peek).item = token then some <$> next else return none

/-- Reads a mark if it comes next, and answers whether it did. -/
def acceptMark (p : Punctuator) : Parser Bool :=
  Option.isSome <$> accept (.mark p)

/-- Reads a keyword if it comes next, and answers whether it did. -/
def acceptKeyword (word : String) : Parser Bool :=
  Option.isSome <$> accept (.name word)

/-- Whether a mark comes next. -/
def atMark (p : Punctuator) : Parser Bool :=
  return (← peek).item = .mark p

/-- Reads a name. -/
def name : Parser Name := do
  match ← peek with
  | ⟨span, .name text⟩ =>
    let _ ← next
    return ⟨span, text⟩
  | _ => unexpected

/-- Reads something and notes the stretch from its first token to its last one. -/
def located (p : Parser α) : Parser (Located α) := do
  let start := (← peek).span.start
  let item ← p
  let c ← get
  return ⟨⟨start, c.previousEnd⟩, item⟩

/-- A parser that may come to itself again at most as often as the bound says. -/
def bounded (body : Parser α → Parser α) : Nat → Parser α
  | 0 => unexpected
  | bound + 1 => body (bounded body bound)

/-- A parser that refers to itself. -/
def fix (body : Parser α → Parser α) : Parser α :=
  fun c => bounded body (c.ahead.length + 1) c

/-- Reads items up to a closing mark. -/
def itemsUntil (item : Parser α) (closing : Token) : Parser (List α) :=
  fix fun more => do
    if (← skip closing).isSome then return []
    let first ← item
    let rest ← more
    return first :: rest

/-- Reads any number of items between two marks. -/
def delimited (opening : Token) (item : Parser α) (closing : Token) :
    Parser (List α) := do
  let _ ← expect opening
  itemsUntil item closing

/-- Reads at least one item between two marks. -/
def delimitedNonempty (opening : Token) (item : Parser α) (closing : Token) :
    Parser (List α) := do
  let _ ← expect opening
  let first ← item
  let rest ← itemsUntil item closing
  return first :: rest

/-- Reads at least one item between two marks, if the opening one comes next. -/
def optionalList (opening : Punctuator) (item : Parser α) (closing : Punctuator) :
    Parser (List α) := do
  if ← atMark opening then delimitedNonempty (.mark opening) item (.mark closing) else return []

/-- Reads further items, each behind a mark. -/
def separatedRest (separator : Punctuator) (item : Parser α) : Parser (List α) :=
  fix fun more => do
    if ← acceptMark separator then
      let first ← item
      let rest ← more
      return first :: rest
    else return []

/-- Reads at least one item, with a mark between two of them and perhaps before the first. -/
def separated (separator : Punctuator) (item : Parser α) : Parser (List α) := do
  let _ ← acceptMark separator
  let first ← item
  let rest ← separatedRest separator item
  return first :: rest

/-- Runs a parser on a whole source text. -/
def runOn (p : Parser α) (source : String) : Except (Located ParseError) α :=
  match Cursor.start source with
  | .error e => .error e
  | .ok c =>
    match p.run c with
    | .ok a _ => .ok a
    | .error e _ => .error e

/-- Reads something that must be all there is. -/
def whole (p : Parser α) : Parser α := do
  let a ← p
  if (← peek).item = .endOfFile then return a else unexpected

end Parser

end GraphQL
