import GraphQL.Source.Position

/-!
# Tokens

The words of the language: names, numbers, strings, punctuators and the end of the file. A string
token keeps what stands between its quotes as it was written; `Token.text` adds the quotes again, so
that the text of every token but the end of the file is exactly what was read.
-/

namespace GraphQL

/-- The marks of the language. -/
inductive Punctuator where
  | exclamation
  | dollar
  | ampersand
  | parenOpen
  | parenClose
  | bracketOpen
  | bracketClose
  | braceOpen
  | braceClose
  | ellipsis
  | colon
  | equals
  | atSign
  | pipe
deriving DecidableEq, Repr

namespace Punctuator

/-- How a mark is written. -/
def text : Punctuator → String
  | exclamation => "!"
  | dollar => "$"
  | ampersand => "&"
  | parenOpen => "("
  | parenClose => ")"
  | bracketOpen => "["
  | bracketClose => "]"
  | braceOpen => "\x7b"
  | braceClose => "\x7d"
  | ellipsis => "..."
  | colon => ":"
  | equals => "="
  | atSign => "@"
  | pipe => "|"

/-- The mark that is written as one character. -/
def ofChar? : Char → Option Punctuator
  | '!' => some exclamation
  | '$' => some dollar
  | '&' => some ampersand
  | '(' => some parenOpen
  | ')' => some parenClose
  | '[' => some bracketOpen
  | ']' => some bracketClose
  | '{' => some braceOpen
  | '}' => some braceClose
  | ':' => some colon
  | '=' => some equals
  | '@' => some atSign
  | '|' => some pipe
  | _ => none

end Punctuator

/-- One word of a source text. -/
inductive Token where
  /-- A name or keyword. -/
  | name (text : String)
  /-- A whole number, as written. -/
  | int (text : String)
  /-- A number with a fraction or an exponent, as written. -/
  | float (text : String)
  /-- A string in single quotes, as written between them. -/
  | quoted (content : String)
  /-- A string in triple quotes, as written between them. -/
  | block (content : String)
  /-- A mark. -/
  | mark (p : Punctuator)
  /-- Nothing is left to read. -/
  | endOfFile
deriving DecidableEq, Repr

namespace Token

/-- The text of a token, as it stands in the source. -/
def text : Token → String
  | name text => text
  | int text => text
  | float text => text
  | quoted content => "\"" ++ content ++ "\""
  | block content => "\"\"\"" ++ content ++ "\"\"\""
  | mark p => p.text
  | endOfFile => "End of file"

end Token

end GraphQL
