import GraphQL.Json.Basic

/-!
# Reading JSON text

`Json.ofText?` reads a whole text as one tree. Whole numbers that do not fit into 64 bits, and the
zero with a sign, are read as numbers of double precision, and so are all numbers that have a
fraction or an exponent. A number that is too great for double precision is refused.
-/

namespace GraphQL.Json

/-- Blanks between the parts of a text. -/
def isBlank (c : Char) : Bool :=
  c = ' ' || c = '\t' || c = '\n' || c = '\r'

/-- Drops blanks at the start. -/
def skipBlanks (cs : List Char) : List Char :=
  cs.dropWhile isBlank

/-- The characters that may follow a backslash and stand for one character, with that character. -/
def unescape? : Char → Option Char
  | '"' => some '"'
  | '\\' => some '\\'
  | '/' => some '/'
  | 'b' => some '\x08'
  | 'f' => some '\x0c'
  | 'n' => some '\n'
  | 'r' => some '\r'
  | 't' => some '\t'
  | _ => none

/-- The character of two halves outside the basic plane. -/
def pair? (high low : Nat) : Option Char :=
  if 0xD800 ≤ high ∧ high < 0xDC00 ∧ 0xDC00 ≤ low ∧ low < 0xE000 then
    Hex.char? (0x10000 + (high - 0xD800) * 0x400 + (low - 0xDC00))
  else none

/-- Reads a string behind its opening quote; `read` holds what is read, the last character first. -/
def readString (read : List Char) : List Char → Option (String × List Char)
  | [] => none
  | '"' :: cs => some (String.ofList read.reverse, cs)
  | '\\' :: 'u' :: a :: b :: c :: d :: cs =>
    match Hex.four? a b c d with
    | none => none
    | some n =>
      match Hex.char? n with
      | some e => readString (e :: read) cs
      | none =>
        match cs with
        | '\\' :: 'u' :: a' :: b' :: c' :: d' :: cs' =>
          match (Hex.four? a' b' c' d').bind (pair? n) with
          | some e => readString (e :: read) cs'
          | none => none
        | _ => none
  | '\\' :: c :: cs =>
    match unescape? c with
    | some e => readString (e :: read) cs
    | none => none
  | c :: cs => if c.toNat < 0x20 then none else readString (c :: read) cs

/-- The characters of numbers. -/
def isNumberChar (c : Char) : Bool :=
  c.isDigit || c = '-' || c = '+' || c = '.' || c = 'e' || c = 'E'

/-- The number of a text, if it is not too great. -/
def number? (cs : List Char) : Option Json := do
  let numeral ← Decimal.Numeral.read? cs
  let n := Decimal.natOfDigits numeral.whole
  let fits := if numeral.negative then 0 < n ∧ n ≤ twoTo 63 else n < twoTo 64
  if (cs.all fun c => c.isDigit || c = '-') && fits then
    return .integer (if numeral.negative then -n else n)
  else return .float (← numberOf? numeral)

mutual

/-- Reads one tree; `fuel` bounds its depth and the number of its parts. -/
def readValue : Nat → List Char → Option (Json × List Char)
  | 0, _ => none
  | fuel + 1, cs =>
    match skipBlanks cs with
    | 'n' :: 'u' :: 'l' :: 'l' :: cs => some (.null, cs)
    | 't' :: 'r' :: 'u' :: 'e' :: cs => some (.boolean true, cs)
    | 'f' :: 'a' :: 'l' :: 's' :: 'e' :: cs => some (.boolean false, cs)
    | '"' :: cs => (readString [] cs).map fun (s, cs) => (.string s, cs)
    | '[' :: cs =>
      match skipBlanks cs with
      | ']' :: cs => some (.array [], cs)
      | _ => (readItems fuel [] cs).map fun (items, cs) => (.array items, cs)
    | '{' :: cs =>
      match skipBlanks cs with
      | '}' :: cs => some (.object [], cs)
      | _ => (readEntries fuel [] cs).map fun (entries, cs) => (ofEntries entries, cs)
    | cs =>
      let text := cs.takeWhile isNumberChar
      (number? text).map fun n => (n, cs.drop text.length)

/-- Reads the items of an array up to its end; `read` holds what is read, the last item first. -/
def readItems : Nat → List Json → List Char → Option (List Json × List Char)
  | 0, _, _ => none
  | fuel + 1, read, cs =>
    match readValue fuel cs with
    | none => none
    | some (item, cs) =>
      match skipBlanks cs with
      | ',' :: cs => readItems fuel (item :: read) cs
      | ']' :: cs => some ((item :: read).reverse, cs)
      | _ => none

/-- Reads the entries of an object up to its end; `read` holds what is read, the last entry
first. -/
def readEntries :
    Nat → List (String × Json) → List Char → Option (List (String × Json) × List Char)
  | 0, _, _ => none
  | fuel + 1, read, cs =>
    match skipBlanks cs with
    | '"' :: cs =>
      match readString [] cs with
      | none => none
      | some (key, cs) =>
        match skipBlanks cs with
        | ':' :: cs =>
          match readValue fuel cs with
          | none => none
          | some (value, cs) =>
            match skipBlanks cs with
            | ',' :: cs => readEntries fuel ((key, value) :: read) cs
            | '}' :: cs => some (((key, value) :: read).reverse, cs)
            | _ => none
        | _ => none
    | _ => none

end

/-- The tree that a whole text stands for. -/
def ofText? (text : String) : Option Json :=
  let cs := text.toList
  match readValue (cs.length + 1) cs with
  | some (json, rest) => if (skipBlanks rest).isEmpty then some json else none
  | none => none

end GraphQL.Json
