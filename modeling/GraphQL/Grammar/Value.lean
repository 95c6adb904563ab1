import GraphQL.Grammar.Cursor
import GraphQL.Language.TypeExpr
import GraphQL.Language.Value
import GraphQL.Text.Block

/-!
# Reading values and type expressions

Literals and type expressions are the two small languages inside documents; schemas that are
exchanged as data contain them as texts of their own, so both can be read alone.
-/

namespace GraphQL

/-- The value of a whole number as it is written: out of 32 bits it is a number like any other. -/
def Value.ofIntText? (text : String) : Option Value := do
  let numeral ← Decimal.Numeral.read? text.toList
  let d := numeral.decimal
  let n : Int := if numeral.negative then -d.digits else d.digits
  if -2147483648 ≤ n ∧ n ≤ 2147483647 then return .int n
  else return .float (d.toBinary64 numeral.negative)

/-- The value that a token stands for; names and marks stand for none. -/
def Value.ofToken? : Token → Option Value
  | .int text => ofIntText? text
  | .float text => (Binary64.ofText? text.toList).map .float
  | .quoted content => (Escape.decode? content.toList).map fun s => .string (String.ofList s)
  | .block content => some (.string (String.ofList (Block.value content.toList)))
  | _ => none

namespace Parser

/-- Reads a number or a string. -/
def scalar : Parser Value := do
  let token ← next
  match Value.ofToken? token.item with
  | some value => return value
  | none => throw (token.map fun t => .invalidLiteral t.text)

/-- The value that a bare name stands for. -/
def nameValue : String → Value
  | "true" => .boolean true
  | "false" => .boolean false
  | "null" => .null
  | name => .enum name

/-- Reads an entry of an object. -/
def objectEntry (value : Parser (Located Value)) : Parser (Name × Located Value) := do
  let key ← name
  expectMark .colon
  return (key, ← value)

/-- Reads a value, given how to read the values inside it. -/
def valueBody (constant : Bool) (value : Parser (Located Value)) : Parser (Located Value) :=
  located do
    match (← peek).item with
    | .mark .bracketOpen => .list <$> delimited (.mark .bracketOpen) value (.mark .bracketClose)
    | .mark .braceOpen =>
      .object <$> delimited (.mark .braceOpen) (objectEntry value) (.mark .braceClose)
    | .mark .dollar =>
      if constant then unexpected
      else
        expectMark .dollar
        return .variable (← name).item
    | .int _ | .float _ | .quoted _ | .block _ => scalar
    | .name _ => return nameValue (← name).item
    | _ => unexpected

/-- Reads a value; a constant one has no variables. -/
def value (constant : Bool) : Parser (Located Value) :=
  fix (valueBody constant)

/-- Reads a type expression, given how to read the expression inside it. -/
def typeBody (type : Parser TypeLiteral) : Parser TypeLiteral := do
  let t : TypeLiteral ← do
    if ← acceptMark .bracketOpen then
      let item ← type
      expectMark .bracketClose
      pure (.list item false)
    else pure (.named (← name).item false)
  if ← acceptMark .exclamation then return t.required else return t

/-- Reads a type expression. -/
def type : Parser (Located TypeLiteral) :=
  located (fix typeBody)

end Parser

/-- The value that a whole text stands for; it has no variables. -/
def Value.parse (source : String) : Except (Located ParseError) (Located Value) :=
  (Parser.whole (Parser.value true)).runOn source

/-- The type expression that a whole text stands for. -/
def TypeLiteral.parse (source : String) : Except (Located ParseError) (Located TypeLiteral) :=
  (Parser.whole Parser.type).runOn source

end GraphQL
