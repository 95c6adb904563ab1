import GraphQL.Text.Hex

/-!
# Strings in single quotes

What stands between the quotes of a string: characters that stand for themselves and escape
sequences. `Escape.decode?` gives the string that is meant, `Escape.encode` writes a string so that
it can be put between quotes.
-/

namespace GraphQL.Escape

/-- The characters that may follow a backslash and stand for one character, with that character. -/
def short? : Char → Option Char
  | 'b' => some '\x08'
  | 'f' => some '\x0c'
  | 'n' => some '\n'
  | 'r' => some '\r'
  | 't' => some '\t'
  | '\\' => some '\\'
  | '/' => some '/'
  | '"' => some '"'
  | _ => none

/-- The character that `\u` and four digits stand for. -/
def long? (a b c d : Char) : Option Char :=
  (Hex.four? a b c d).bind Hex.char?

/-- The string that is meant by what stands between quotes; none if an escape sequence in it has no
meaning. -/
def decode? : List Char → Option (List Char)
  | [] => some []
  | '\\' :: 'u' :: a :: b :: c :: d :: cs => do
    let e ← long? a b c d
    let rest ← decode? cs
    return e :: rest
  | '\\' :: c :: cs => do
    let e ← short? c
    let rest ← decode? cs
    return e :: rest
  | c :: cs => do
    if c = '\\' then none
    let rest ← decode? cs
    return c :: rest

/-- How one character is written between quotes. -/
def encodeChar (c : Char) : List Char :=
  match c with
  | '"' => ['\\', '"']
  | '\\' => ['\\', '\\']
  | '\n' => ['\\', 'n']
  | '\r' => ['\\', 'r']
  | '\t' => ['\\', 't']
  | '\x08' => ['\\', 'b']
  | '\x0c' => ['\\', 'f']
  | c =>
    if c.toNat < 0x20 then '\\' :: 'u' :: (Hex.text 4 c.toNat).map Char.toUpper
    else [c]

/-- A string as it is written between quotes. -/
def encode (cs : List Char) : List Char :=
  cs.flatMap encodeChar

/-- A string with its quotes. -/
def quote (s : String) : String :=
  String.ofList ('"' :: encode s.toList ++ ['"'])

end GraphQL.Escape
