import GraphQL.Source.Token
import GraphQL.Text.Escape

/-!
# Reading tokens

A scanner looks at the characters in front of it and answers how many of them make up the next
token. It never touches positions: the span of a token, and the place of an error, are found by
walking over the characters that were read. So nothing is lost between two tokens but ignored
characters, and all positions are exact by construction.

* `Lexer.ignored` counts the characters that separate tokens;
* `Lexer.scan` reads one token;
* `Lexer.run` reads a whole text, up to its end or to the first error.
-/

namespace GraphQL

/-- What can be wrong with the characters of a source text. -/
inductive LexError where
  /-- A character that occurs nowhere in the language. -/
  | unknownCharacter (c : Char)
  /-- A known character at a place where it cannot stand. -/
  | unexpectedCharacter (c : Char)
  /-- A quoted string without its closing quote, or broken by a line break. -/
  | unterminatedString
  /-- A block string without its closing quotes. -/
  | unterminatedBlockString
  /-- A control character inside a string. -/
  | unknownCharacterInString (c : Char)
  /-- An escape sequence that the language does not define. -/
  | unknownEscapeSequence (sequence : String)
  /-- The text ends in the middle of a token. -/
  | unexpectedEndOfFile
  /-- A number that runs into a name or a point. -/
  | invalidNumber
deriving DecidableEq, Repr

/-- What users are told about an error. -/
def LexError.message : LexError → String
  | unknownCharacter c => "Unknown character \"" ++ c.toString ++ "\""
  | unexpectedCharacter c => "Unexpected character \"" ++ c.toString ++ "\""
  | unterminatedString => "Unterminated string literal"
  | unterminatedBlockString => "Unterminated block string literal"
  | unknownCharacterInString c => "Unknown character \"" ++ c.toString ++ "\" in string literal"
  | unknownEscapeSequence s => "Unknown escape sequence \"" ++ s ++ "\" in string"
  | unexpectedEndOfFile => "Unexpected end of input"
  | invalidNumber => "Invalid number literal"

namespace Lexer

/-- Characters a string may hold: all but the control characters other than tab and line breaks. -/
def isSourceChar (c : Char) : Bool :=
  c = '\t' || c = '\n' || c = '\r' || ' '.val ≤ c.val

/-- Characters a name may start with. -/
def isNameStart (c : Char) : Bool :=
  c = '_' || c.isAlpha

/-- Characters a name may go on with. -/
def isNameContinue (c : Char) : Bool :=
  isNameStart c || c.isDigit

/-- Characters that stand between tokens and mean nothing. -/
def isIgnored (c : Char) : Bool :=
  c = '\t' || c = ' ' || c = '\n' || c = '\r' || c = ',' || c = '\uFEFF'

/-- The characters that end a line, and a comment with it. -/
def isLineEnd (c : Char) : Bool :=
  c = '\n' || c = '\r'

/-- Number of characters before the next token; `inComment` tells whether a comment is open. -/
def ignored (inComment : Bool) : List Char → Nat
  | [] => 0
  | c :: cs =>
    if inComment then ignored (!isLineEnd c) cs + 1
    else if c = '#' then ignored true cs + 1
    else if isIgnored c then ignored false cs + 1
    else 0

/-- What a scanner answers: what it has read, or an error and how many characters stand before the
place of the error. Characters are counted from the start of the token. -/
abbrev Scan := Except (LexError × Nat)

/-- Where a `\u` escape that lacks its four letters or digits goes wrong: at the end of the text if
nothing follows what there is of it, behind its backslash otherwise. -/
def shortEscape (read : Nat) (following : List Char) : LexError × Nat :=
  let present := following.takeWhile Char.isAlphanum
  if present.length = following.length then (.unterminatedString, read + 2 + present.length)
  else (.unknownEscapeSequence ("\\u" ++ String.ofList present), read + 1)

/-- Length of a quoted string whose first `read` characters are behind; the closing quote counts. -/
def quotedLength (read : Nat) : List Char → Scan Nat
  | [] => .error (.unterminatedString, read)
  | '"' :: _ => .ok (read + 1)
  | '\\' :: [] => .error (.unterminatedString, read + 1)
  | '\\' :: 'u' :: a :: b :: c :: d :: cs =>
    if [a, b, c, d].all Char.isAlphanum then
      match Escape.long? a b c d with
      | some _ => quotedLength (read + 6) cs
      | none => .error (.unknownEscapeSequence (String.ofList ['\\', 'u', a, b, c, d]), read + 1)
    else .error (shortEscape read [a, b, c, d])
  | '\\' :: 'u' :: cs => .error (shortEscape read cs)
  | '\\' :: c :: cs =>
    match Escape.short? c with
    | some _ => quotedLength (read + 2) cs
    | none => .error (.unknownEscapeSequence (String.ofList ['\\', c]), read + 1)
  | c :: cs =>
    if isLineEnd c then .error (.unterminatedString, read)
    else if isSourceChar c then quotedLength (read + 1) cs
    else .error (.unknownCharacterInString c, read)

/-- Length of a block string whose first `read` characters are behind; the closing quotes count. -/
def blockLength (read : Nat) : List Char → Scan Nat
  | [] => .error (.unterminatedBlockString, read)
  | '"' :: '"' :: '"' :: _ => .ok (read + 3)
  | '\\' :: '"' :: '"' :: '"' :: cs => blockLength (read + 4) cs
  | c :: cs =>
    if isSourceChar c then blockLength (read + 1) cs
    else .error (.unknownCharacterInString c, read)

/-- Number of digits a text starts with. -/
def digits (cs : List Char) : Nat :=
  (cs.takeWhile Char.isDigit).length

/-- Reads at least one digit behind the first `read` characters, and answers where the run ends. -/
def digitRun (read : Nat) (cs : List Char) : Scan Nat :=
  match cs with
  | [] => .error (.unexpectedEndOfFile, read)
  | c :: _ => if c.isDigit then .ok (read + digits cs) else .error (.unexpectedCharacter c, read)

/-- Reads a sign, if `signs` has the next character, and answers how many characters it takes. -/
def signLength (signs : List Char) : List Char → Nat
  | [] => 0
  | c :: _ => if c ∈ signs then 1 else 0

/-- Reads the whole part of a number: a zero, or digits that do not start with one. -/
def wholeLength (cs : List Char) : Scan Nat := do
  let start := signLength ['-'] cs
  let stop ← digitRun start (cs.drop start)
  match cs.drop start with
  | '0' :: c :: _ => if c.isDigit then throw (.unexpectedCharacter c, start + 1) else pure stop
  | _ => pure stop

/-- Reads the fraction of a number, if a point stands behind its first `read` characters. -/
def fractionLength (read : Nat) : List Char → Scan Nat
  | '.' :: cs => digitRun (read + 1) cs
  | _ => .ok read

/-- Reads the exponent of a number, if its letter stands behind the first `read` characters. -/
def exponentLength (read : Nat) : List Char → Scan Nat
  | [] => .ok read
  | c :: cs =>
    if c = 'e' || c = 'E' then
      let sign := signLength ['+', '-'] cs
      digitRun (read + 1 + sign) (cs.drop sign)
    else .ok read

/-- Whether a number cannot end where these characters follow. -/
def continuesNumber : List Char → Bool
  | [] => false
  | c :: _ => c = '.' || isNameStart c

/-- Reads a number. -/
def scanNumber (cs : List Char) : Scan (Token × Nat) := do
  let whole ← wholeLength cs
  let fraction ← fractionLength whole (cs.drop whole)
  let stop ← exponentLength fraction (cs.drop fraction)
  if continuesNumber (cs.drop stop) then throw (.invalidNumber, stop)
  let text := String.ofList (cs.take stop)
  pure (if stop = whole then .int text else .float text, stop)

/-- Reads the three points of an ellipsis. -/
def scanEllipsis : List Char → Scan (Token × Nat)
  | '.' :: '.' :: '.' :: _ => .ok (.mark .ellipsis, 3)
  | ['.', '.'] => .error (.unexpectedEndOfFile, 2)
  | ['.'] => .error (.unexpectedEndOfFile, 1)
  | _ => .error (.unexpectedCharacter '.', 0)

/-- Reads a quoted string. -/
def scanQuoted (cs : List Char) : Scan (Token × Nat) := do
  let stop ← quotedLength 1 (cs.drop 1)
  pure (.quoted (String.ofList ((cs.take (stop - 1)).drop 1)), stop)

/-- Reads a block string. -/
def scanBlock (cs : List Char) : Scan (Token × Nat) := do
  let stop ← blockLength 3 (cs.drop 3)
  pure (.block (String.ofList ((cs.take (stop - 3)).drop 3)), stop)

/-- Reads a name. -/
def scanName (cs : List Char) : Scan (Token × Nat) :=
  let text := cs.takeWhile isNameContinue
  .ok (.name (String.ofList text), text.length)

/-- Reads the token that starts with the first character, or the end of the file. -/
def scan : List Char → Scan (Token × Nat)
  | [] => .ok (.endOfFile, 0)
  | c :: cs =>
    if c = '.' then scanEllipsis (c :: cs)
    else if ['"', '"', '"'].isPrefixOf (c :: cs) then scanBlock (c :: cs)
    else if c = '"' then scanQuoted (c :: cs)
    else if c = '-' || c.isDigit then scanNumber (c :: cs)
    else if isNameStart c then scanName (c :: cs)
    else
      match Punctuator.ofChar? c with
      | some p => .ok (.mark p, 1)
      | none => .error (.unknownCharacter c, 0)

end Lexer

/-- The tokens of a text, and what ends them. -/
structure Lexed where
  /-- The tokens before the end of the text or before the error, without the end itself. -/
  tokens : List (Located Token)
  /-- The place of the end of the text, or the error. -/
  outcome : Except (Located LexError) Position

namespace Lexer

/-- Reads tokens from `cs`, whose first character stands at `p`. A token takes at least one
character, so the text gets shorter with every token. -/
def runFrom (p : Position) (cs : List Char) : Lexed :=
  let skip := ignored false cs
  let start := p.after (cs.take skip)
  match _ : cs.drop skip with
  | [] => ⟨[], .ok start⟩
  | c :: rest =>
    match scan (c :: rest) with
    | .error (e, before) => ⟨[], .error ⟨.empty (start.after ((c :: rest).take before)), e⟩⟩
    | .ok (token, length) =>
      let stop := start.after ((c :: rest).take length)
      let following := runFrom stop (rest.drop (length - 1))
      ⟨⟨⟨start, stop⟩, token⟩ :: following.tokens, following.outcome⟩
termination_by cs.length
decreasing_by
  have shorter : (cs.drop skip).length = rest.length + 1 := by
    rw [‹cs.drop skip = c :: rest›, List.length_cons]
  rw [List.length_drop] at shorter
  rw [List.length_drop]
  omega

/-- Reads the tokens of a whole text. -/
def run (source : String) : Lexed :=
  runFrom .origin source.toList

end Lexer

end GraphQL
