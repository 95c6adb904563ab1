import GraphQL.Schema.Basic

/-!
# Literals of a type

Whether a literal can be given where a type is expected. A single value may stand for a list of it,
and variables may stand anywhere: their types are compared elsewhere.

`Schema.literalFault?` follows the literal: the items of a list and the entries of an object are
checked in their order, and the first fault counts.
-/

namespace GraphQL

/-- Why a literal cannot be given. -/
inductive LiteralFault where
  /-- Null is given for a type that excludes it. -/
  | null (type : ResolvedType)
  /-- Something else than the name of a value is given for an enum. -/
  | notEnumValue (value : Value) (type : String)
  /-- The literal is not one of the type. -/
  | mismatch (value : Value) (type : String)
  /-- A list is given for a type that is none. -/
  | list
  /-- An object is given for a type that is no input object. -/
  | notInputObject (type : String)
  /-- An entry of an object names no field. -/
  | unknownField (type field : String)
  /-- The value of an entry cannot be given. -/
  | inField (type field : String) (fault : LiteralFault)
  /-- Fields that have to be given are not. -/
  | missingFields (type : String) (fields : List String)
deriving Repr, Inhabited

/-- A name between double quotes. -/
def quoted (name : String) : String :=
  "\"" ++ name ++ "\""

/-- Names between double quotes, with commas between them. -/
def quotedList (names : List String) : String :=
  ", ".intercalate (names.map quoted)

/-- What users are told about a fault. -/
def LiteralFault.message : LiteralFault → String
  | null type => "\"null\" specified for not nullable type " ++ quoted type.text
  | notEnumValue value type => "Invalid value " ++ quoted value.text ++ " for enum " ++ quoted type
  | mismatch value type => "Invalid value " ++ quoted value.text ++ " for type " ++ quoted type
  | list => "Input lists are not literals"
  | notInputObject type => quoted type ++ " is not an input object"
  | unknownField type field =>
    "Field " ++ quoted field ++ " does not exist on type " ++ quoted type
  | inField type field fault =>
    "Error on " ++ quoted type ++ " field " ++ quoted field ++ ": " ++ fault.message
  | missingFields type fields => quoted type ++ " is missing fields: " ++ quotedList fields

/-- The outermost layer of a type that excludes null. -/
def TypeExpr.outermostRequired? {α : Type} : TypeExpr α → Option (TypeExpr α)
  | t@(.named _ r) => if r then some t else none
  | t@(.list item r) => if r then some t else item.outermostRequired?

/-- Whether a scalar takes a number, string or truth value. Scalars that are not built in take all
of them. -/
def scalarAccepts (scalar : String) (value : Value) : Bool :=
  match scalar, value with
  | "Int", .int _ => true
  | "Int", _ => false
  | "Float", .int _ => true
  | "Float", .float _ => true
  | "Float", _ => false
  | "String", .string _ => true
  | "String", _ => false
  | "Boolean", .boolean _ => true
  | "Boolean", _ => false
  | "ID", .string _ => true
  | "ID", .int _ => true
  | "ID", _ => false
  | _, _ => true

/-- Whether a type takes a literal that has no parts. -/
def NamedType.leafFault? (t : NamedType) (value : Value) : Option LiteralFault :=
  match t.shape, value with
  | .enum values, .enum name =>
    if values.any (·.name = name) then none else some (.mismatch value t.name)
  | .enum _, _ => some (.notEnumValue value t.name)
  | .scalar _, .enum _ => some (.mismatch value t.name)
  | .scalar _, _ => if scalarAccepts t.name value then none else some (.mismatch value t.name)
  | _, _ => some (.mismatch value t.name)

/-- The fields that have to be given to an input object and are not. -/
def missingFields (fields : List InputValue) (given : List String) : List String :=
  (fields.filter fun f =>
    fields.any (fun g => g.name = f.name && g.isRequired) && !given.contains f.name).map
      InputValue.name

namespace Schema

mutual

/-- The first reason why a literal cannot be given for a type. -/
def literalFault? (schema : Schema) (t : ResolvedType) : Value → Option LiteralFault
  | .null => t.outermostRequired?.map .null
  | .variable _ => none
  | .list items =>
    match t with
    | .list item _ => schema.itemsFault? item items
    | .named _ _ => some .list
  | .object entries =>
    let core := t.innermost
    match core.shape with
    | .inputObject fields =>
      match schema.entriesFault? core fields entries with
      | some fault => some fault
      | none =>
        match missingFields fields (entries.map (·.1.item)) with
        | [] => none
        | missing => some (.missingFields core.name missing)
    | _ => some (.notInputObject core.name)
  | .int n => t.innermost.leafFault? (.int n)
  | .float x => t.innermost.leafFault? (.float x)
  | .string s => t.innermost.leafFault? (.string s)
  | .boolean b => t.innermost.leafFault? (.boolean b)
  | .enum name => t.innermost.leafFault? (.enum name)

/-- The first fault of the items of a list. -/
def itemsFault? (schema : Schema) (t : ResolvedType) : List (Located Value) → Option LiteralFault
  | [] => none
  | ⟨_, v⟩ :: rest => (schema.literalFault? t v).or (schema.itemsFault? t rest)

/-- The first fault of the entries of an object. Fields whose type is unknown take everything. -/
def entriesFault? (schema : Schema) (t : NamedType) (fields : List InputValue) :
    List (Name × Located Value) → Option LiteralFault
  | [] => none
  | (key, ⟨_, v⟩) :: rest =>
    match fields.find? (·.name = key.item) with
    | none => some (.unknownField t.name key.item)
    | some field =>
      match schema.resolve field.type with
      | none => schema.entriesFault? t fields rest
      | some type =>
        match schema.literalFault? type v with
        | some fault => some (.inField t.name key.item fault)
        | none => schema.entriesFault? t fields rest

end

end Schema

end GraphQL
