import GraphQL.Json.Basic
import GraphQL.Text.Visible

/-!
# Records in JSON

Reads records from JSON trees. A record is written as an object, whose entries are read in their
order and may include unknown ones, or as an array of its fields in the order of their declaration.

Where several things are wrong, the one that is met first counts. Each field of a record is read on
its own, so `Reading` keeps with a mismatch the step at which it is met, and putting two readings
together keeps the earlier mismatch.
-/

namespace GraphQL

namespace Json

/-- Why a tree is not what was expected. -/
inductive Mismatch where
  /-- The tree is of a wrong type. -/
  | type (got : Json) (expected : String)
  /-- A name has to be the only key of an object. -/
  | notOneKey
  /-- A required field is missing. -/
  | missingField (name : String)
  /-- A field is given twice under different names. -/
  | duplicateField (name : String)
  /-- A name is none of the known ones. -/
  | unknownName (name : String) (known : List String)
  /-- An array has a wrong number of items. -/
  | length (given : Nat) (expected : String)
deriving Repr, Inhabited

/-- What a message says was found. -/
def found : Json → String
  | .null => "null"
  | .boolean b => "boolean `" ++ (if b then "true" else "false") ++ "`"
  | .integer n => "integer `" ++ toString n ++ "`"
  | .float x => "floating point `" ++ numberStyle.number x ++ "`"
  | .string s => "string " ++ Visible.quote s
  | .array _ => "sequence"
  | .object _ => "map"

/-- What users are told. -/
def Mismatch.message : Mismatch → String
  | type got expected => "invalid type: " ++ got.found ++ ", expected " ++ expected
  | notOneKey => "invalid value: map, expected map with a single key"
  | missingField name => "missing field `" ++ name ++ "`"
  | duplicateField name => "duplicate field `" ++ name ++ "`"
  | unknownName name known =>
    "unknown variant `" ++ name ++ "`, expected one of " ++
      ", ".intercalate (known.map fun k => "`" ++ k ++ "`")
  | length given expected => "invalid length " ++ toString given ++ ", expected " ++ expected

/-- Reads something from a tree. -/
abbrev Reader (α : Type) := Json → Except Mismatch α

namespace Reader

variable {α : Type}

/-- Reads a string. -/
def string : Reader String
  | .string s => .ok s
  | other => .error (.type other "a string")

/-- Reads a truth value. -/
def boolean : Reader Bool
  | .boolean b => .ok b
  | other => .error (.type other "a boolean")

/-- Reads a list. -/
def list (item : Reader α) : Reader (List α)
  | .array items => items.mapM item
  | other => .error (.type other "a sequence")

/-- Reads something that may be null. -/
def nullable (read : Reader α) : Reader (Option α)
  | .null => .ok none
  | other => (read other).map some

/-- Reads one of some names. It may also be the only key of an object, with null as its value. -/
def oneOf (all : List α) (name : α → String) : Reader α
  | .string s => known s
  | .object [(key, value)] => do
    let a ← known key
    match value with
    | .null => return a
    | other => throw (.type other "unit")
  | .object _ => .error .notOneKey
  | other => .error (.type other "string or map")
where
  known (s : String) : Except Mismatch α :=
    match all.find? (name · = s) with
    | some a => .ok a
    | none => .error (.unknownName s (all.map name))

end Reader

/-- A result, or a mismatch with the step at which it is met. -/
structure Reading (α : Type) where
  outcome : Except (Nat × Mismatch) α

namespace Reading

variable {α β : Type}

/-- Applies a function that is read; of two mismatches the earlier one counts. -/
def apply (f : Reading (α → β)) (a : Reading α) : Reading β :=
  match f.outcome, a.outcome with
  | .ok f, .ok a => ⟨.ok (f a)⟩
  | .ok _, .error e => ⟨.error e⟩
  | .error e, .ok _ => ⟨.error e⟩
  | .error e, .error e' => ⟨.error (if e.1 ≤ e'.1 then e else e')⟩

/-- A value that is read at a step. -/
def atStep (step : Nat) (result : Except Mismatch α) : Reading α :=
  ⟨result.mapError fun m => (step, m)⟩

end Reading

/-- What a record is read from. -/
inductive Content where
  /-- The entries of an object. -/
  | entries (entries : List (String × Json))
  /-- The items of an array, which should be as `expected` says. -/
  | items (expected : String) (items : List Json)

/-- The description of a record: how many fields it has, and how they are read if the first of them
has a given number. -/
structure Record (α : Type) where
  size : Nat
  read : (first : Nat) → Content → Reading α

namespace Record

variable {α β : Type}

instance : Applicative Record where
  pure a := ⟨0, fun _ _ => ⟨.ok a⟩⟩
  seq f a := ⟨f.size + (a ()).size, fun first content =>
    (f.read first content).apply ((a ()).read (first + f.size) content)⟩

/-- One field under any of its names. If it is absent, the given value counts; without one, the
field is required. -/
def field (name : String) (aliases : List String) (read : Reader α) (absent : Option α) :
    Record α where
  size := 1
  read index content :=
    match content with
    | .items expected items =>
      match items[index]?, absent with
      | some item, _ => .atStep index (read item)
      | none, some a => .atStep index (.ok a)
      | none, none => .atStep index (.error (.length index expected))
    | .entries entries =>
      match entries.zipIdx.filter (fun e => (name :: aliases).contains e.1.1), absent with
      | [], some a => .atStep 0 (.ok a)
      | [], none => .atStep (entries.length + index) (.error (.missingField name))
      | ((_, value), step) :: others, _ =>
        match read value, others with
        | .error m, _ => .atStep step (.error m)
        | .ok a, [] => .atStep step (.ok a)
        | .ok _, (_, again) :: _ => .atStep again (.error (.duplicateField name))

/-- A field that has to be there. -/
def required (name : String) (read : Reader α) : Record α :=
  field name [] read none

/-- A field that may be absent or null. -/
def optional (name : String) (read : Reader α) : Record (Option α) :=
  field name [] read.nullable (some none)

/-- A field that has a value even if it is absent or null. -/
def orElse (name : String) (read : Reader α) (default : α) : Record α :=
  (·.getD default) <$> optional name read

/-- A field that may be absent, but not null. -/
def given (name : String) (read : Reader α) (default : α) : Record α :=
  field name [] read (some default)

/-- How many elements an array of all fields has. -/
def elements (title : String) (size : Nat) : String :=
  "struct " ++ title ++ " with " ++ toString size ++ (if size = 1 then " element" else " elements")

/-- Reads a record from an object or array. -/
def reader (title : String) (record : Record α) : Reader α
  | .object entries => (record.read 0 (.entries entries)).outcome.mapError Prod.snd
  | .array items => do
    let a ← (record.read 0 (.items (elements title record.size) items)).outcome.mapError Prod.snd
    if record.size < items.length then
      throw (.length items.length "fewer elements in array")
    return a
  | other => .error (.type other ("struct " ++ title))

end Record

end Json

end GraphQL
