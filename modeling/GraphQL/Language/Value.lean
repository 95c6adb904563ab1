import GraphQL.Number.Decimal
import GraphQL.Source.Position
import GraphQL.Text.Escape

/-!
# Values

The literals of the language. Lists and objects know where their parts stand in the source text.

* `Value.text` writes a value the way it is read;
* `Value.alike` compares two values without looking at places: the entries of an object may stand in
  any order;
* `Value.variableNames` lists the variables inside a value.
-/

namespace GraphQL

/-- A literal. -/
inductive Value where
  | null
  /-- A whole number of 32 bits. -/
  | int (n : Int)
  /-- Any other number. -/
  | float (x : Binary64)
  | string (s : String)
  | boolean (b : Bool)
  /-- A bare name. -/
  | enum (name : String)
  | variable (name : String)
  | list (items : List (Located Value))
  | object (entries : List (Name × Located Value))
deriving Repr, Inhabited

namespace Value

/-- Numbers are written without an exponent from `0.0001` up to `1e16`, only a negative exponent has
a sign, and the greater of two decimals is taken in a tie. -/
def floatStyle : Decimal.Style := ⟨-3, 16, false, .up⟩

/-- How a number is written. -/
def floatText (x : Binary64) : String :=
  floatStyle.number x

mutual

/-- How a value is written. -/
def text : Value → String
  | .null => "null"
  | .int n => toString n
  | .float x => floatText x
  | .string s => Escape.quote s
  | .boolean true => "true"
  | .boolean false => "false"
  | .enum name => name
  | .variable name => "$" ++ name
  | .list items => "[" ++ ", ".intercalate (itemTexts items) ++ "]"
  | .object entries => "\x7b" ++ ", ".intercalate (entryTexts entries) ++ "\x7d"

/-- The texts of the items of a list. -/
def itemTexts : List (Located Value) → List String
  | [] => []
  | ⟨_, v⟩ :: rest => text v :: itemTexts rest

/-- The texts of the entries of an object. -/
def entryTexts : List (Name × Located Value) → List String
  | [] => []
  | (key, ⟨_, v⟩) :: rest => (key.item ++ ": " ++ text v) :: entryTexts rest

end

mutual

/-- The variables in a value, in the order in which they stand there. -/
def variableNames : Value → List String
  | .variable name => [name]
  | .list items => itemVariables items
  | .object entries => entryVariables entries
  | _ => []

/-- The variables in the items of a list. -/
def itemVariables : List (Located Value) → List String
  | [] => []
  | ⟨_, v⟩ :: rest => variableNames v ++ itemVariables rest

/-- The variables in the entries of an object. -/
def entryVariables : List (Name × Located Value) → List String
  | [] => []
  | (_, ⟨_, v⟩) :: rest => variableNames v ++ entryVariables rest

end

mutual

/-- Whether two values mean the same. Objects do if they have as many entries and each entry of the
left one has its like on the right. -/
def alike : Value → Value → Bool
  | .null, .null => true
  | .int m, .int n => m = n
  | .float x, .float y => x.same y
  | .string s, .string t => s = t
  | .boolean a, .boolean b => a = b
  | .enum a, .enum b => a = b
  | .variable a, .variable b => a = b
  | .list xs, .list ys => itemsAlike xs ys
  | .object xs, .object ys => xs.length = ys.length && entriesAlike xs ys
  | _, _ => false

/-- Whether the items of two lists are alike one by one. -/
def itemsAlike : List (Located Value) → List (Located Value) → Bool
  | [], [] => true
  | ⟨_, v⟩ :: xs, w :: ys => alike v w.item && itemsAlike xs ys
  | _, _ => false

/-- Whether each entry on the left has its like on the right. -/
def entriesAlike : List (Name × Located Value) → List (Name × Located Value) → Bool
  | [], _ => true
  | (key, ⟨_, v⟩) :: xs, ys =>
    ys.any (fun y => key.item = y.1.item && alike v y.2.item) && entriesAlike xs ys

end

mutual

/-- Whether two values are the same and all their parts stand at the same places. -/
def same : Value → Value → Bool
  | .null, .null => true
  | .int m, .int n => m = n
  | .float x, .float y => x.same y
  | .string s, .string t => s = t
  | .boolean a, .boolean b => a = b
  | .enum a, .enum b => a = b
  | .variable a, .variable b => a = b
  | .list xs, .list ys => itemsSame xs ys
  | .object xs, .object ys => entriesSame xs ys
  | _, _ => false

/-- Whether the items of two lists are the same at the same places. -/
def itemsSame : List (Located Value) → List (Located Value) → Bool
  | [], [] => true
  | ⟨span, v⟩ :: xs, w :: ys => span = w.span && same v w.item && itemsSame xs ys
  | _, _ => false

/-- Whether the entries of two objects are the same at the same places. -/
def entriesSame : List (Name × Located Value) → List (Name × Located Value) → Bool
  | [], [] => true
  | (key, ⟨span, v⟩) :: xs, w :: ys =>
    key = w.1 && span = w.2.span && same v w.2.item && entriesSame xs ys
  | _, _ => false

end

/-- Whether a value is the literal for nothing. -/
def isNull : Value → Bool
  | .null => true
  | _ => false

/-- Whether a value is a variable. -/
def isVariable : Value → Bool
  | .variable _ => true
  | _ => false

/-- Whether a value is a number, a string or a truth value. -/
def isScalar : Value → Bool
  | .int _ | .float _ | .string _ | .boolean _ => true
  | _ => false

/-- The name of an enum value. -/
def enum? : Value → Option String
  | .enum name => some name
  | _ => none

/-- The string of a string. -/
def string? : Value → Option String
  | .string s => some s
  | _ => none

/-- The number of a whole number. -/
def int? : Value → Option Int
  | .int n => some n
  | _ => none

/-- The number of a number; every whole number of 32 bits is one exactly. -/
def float? : Value → Option Binary64
  | .int n => some (.ofInt n)
  | .float x => some x
  | _ => none

/-- The truth value of a truth value. -/
def boolean? : Value → Option Bool
  | .boolean b => some b
  | _ => none

/-- The items of a list. -/
def items? : Value → Option (List Value)
  | .list items => some (items.map Located.item)
  | _ => none

/-- The entries of an object. -/
def entries? : Value → Option (List (String × Value))
  | .object entries => some (entries.map fun e => (e.1.item, e.2.item))
  | _ => none

/-- A list that was not read from a text. -/
def ofItems (items : List Value) : Value :=
  .list (items.map Located.unlocated)

/-- An object that was not read from a text. -/
def ofEntries (entries : List (String × Value)) : Value :=
  .object (entries.map fun e => (.unlocated e.1, .unlocated e.2))

end Value

end GraphQL
