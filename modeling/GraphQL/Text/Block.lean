/-!
# Strings in triple quotes

What stands between triple quotes is cut into lines; the indentation that all lines but the first
have in common is taken away, and so are blank lines at both ends. The only escape sequence stands
for triple quotes.
-/

namespace GraphQL.Block

/-- Replaces each escaped triple quote by triple quotes. -/
def unescape : List Char → List Char
  | '\\' :: '"' :: '"' :: '"' :: cs => '"' :: '"' :: '"' :: unescape cs
  | c :: cs => c :: unescape cs
  | [] => []

/-- Puts a character in front of the first line. -/
def addToFirst (c : Char) : List (List Char) → List (List Char)
  | [] => [[c]]
  | line :: lines => (c :: line) :: lines

/-- The lines of a text. A line feed, a carriage return, or both in this order end a line. -/
def lines : List Char → List (List Char)
  | [] => [[]]
  | '\r' :: '\n' :: cs => [] :: lines cs
  | c :: cs => if c = '\n' || c = '\r' then [] :: lines cs else addToFirst c (lines cs)

/-- The characters that indent a line. -/
def isIndent (c : Char) : Bool :=
  c = ' ' || c = '\t'

/-- Number of characters that indent a line. -/
def indent (line : List Char) : Nat :=
  (line.takeWhile isIndent).length

/-- Whether a line holds nothing but indentation. -/
def isBlank (line : List Char) : Bool :=
  line.all isIndent

/-- The indentation that the lines have in common; blank lines do not count. -/
def commonIndent (lines : List (List Char)) : Nat :=
  (((lines.filter (!isBlank ·)).map indent).min?).getD 0

/-- Takes the common indentation from all lines but the first. -/
def dedent : List (List Char) → List (List Char)
  | [] => []
  | first :: rest => first :: rest.map (·.drop (commonIndent rest))

/-- Takes blank lines away from both ends. -/
def trimBlank (lines : List (List Char)) : List (List Char) :=
  ((lines.dropWhile isBlank).reverse.dropWhile isBlank).reverse

/-- The string that is meant by what stands between triple quotes. -/
def value (cs : List Char) : List Char :=
  (['\n'] : List Char).intercalate (trimBlank (dedent (lines (unescape cs))))

end GraphQL.Block
