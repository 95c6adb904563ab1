import GraphQL.Introspection.Record
import GraphQL.Json.Record

/-!
# Descriptions of schemas in JSON

How the records of a description are written as JSON trees and read from them. A record is written
with all its fields, absent ones as null; only two fields are left out if they are absent, the kind
of a root and the interfaces of a type.
-/

namespace GraphQL.Introspection

open Json

/-- Writes an optional string. -/
def stringOrNull (s : Option String) : Json :=
  Json.ofOption .string s

/-- Writes an optional list. -/
def listOrNull {α : Type} (item : α → Json) (items : Option (List α)) : Json :=
  Json.ofOption (fun items => .array (items.map item)) items

/-- Reads a kind. -/
def kindReader : Reader TypeKind :=
  .oneOf TypeKind.all TypeKind.name

namespace TypeRef

/-- Writes a reference to a type. -/
def toJson : TypeRef → Json
  | plain kind name =>
    .ofEntries [("kind", .string kind.name), ("name", stringOrNull name), ("ofType", .null)]
  | wrapping kind name ofType =>
    .ofEntries
      [("kind", .string kind.name), ("name", stringOrNull name), ("ofType", ofType.toJson)]

/-- Reads a reference to a type that wraps fewer than `fuel` others. -/
def readerWithin : (fuel : Nat) → Reader TypeRef
  | 0 => fun json => .error (.type json "struct IntrospectionTypeRef")
  | fuel + 1 => Record.reader "IntrospectionTypeRef" <|
    TypeRef.ofParts <$> .required "kind" kindReader <*> .optional "name" .string <*>
      .optional "ofType" (readerWithin fuel)

/-- Reads a reference to a type; it cannot wrap more others than its tree is deep. -/
def reader : Reader TypeRef := fun json =>
  readerWithin (json.depth + 1) json

end TypeRef

namespace InputValueRecord

/-- Writes the description of an argument or input field. -/
def toJson (r : InputValueRecord) : Json :=
  .ofEntries [
    ("name", .string r.name), ("description", stringOrNull r.description),
    ("type", r.type.toJson), ("defaultValue", stringOrNull r.defaultValue),
    ("isDeprecated", .boolean r.isDeprecated),
    ("deprecationReason", stringOrNull r.deprecationReason)]

/-- Reads the description of an argument or input field. -/
def reader : Reader InputValueRecord :=
  Record.reader "IntrospectionInputValue" <|
    InputValueRecord.mk <$> .required "name" .string <*> .optional "description" .string <*>
      .required "type" TypeRef.reader <*> .optional "defaultValue" .string <*>
      .orElse "isDeprecated" .boolean false <*> .optional "deprecationReason" .string

end InputValueRecord

namespace FieldRecord

/-- Writes the description of a field. -/
def toJson (r : FieldRecord) : Json :=
  .ofEntries [
    ("name", .string r.name), ("description", stringOrNull r.description),
    ("args", listOrNull InputValueRecord.toJson r.args), ("type", r.type.toJson),
    ("isDeprecated", .boolean r.isDeprecated),
    ("deprecationReason", stringOrNull r.deprecationReason)]

/-- Reads the description of a field. -/
def reader : Reader FieldRecord :=
  Record.reader "IntrospectionField" <|
    FieldRecord.mk <$> .required "name" .string <*> .optional "description" .string <*>
      .optional "args" (.list InputValueRecord.reader) <*> .required "type" TypeRef.reader <*>
      .orElse "isDeprecated" .boolean false <*> .optional "deprecationReason" .string

end FieldRecord

namespace EnumValueRecord

/-- Writes the description of an enum value. -/
def toJson (r : EnumValueRecord) : Json :=
  .ofEntries [
    ("name", .string r.name), ("description", stringOrNull r.description),
    ("isDeprecated", .boolean r.isDeprecated),
    ("deprecationReason", stringOrNull r.deprecationReason)]

/-- Reads the description of an enum value. -/
def reader : Reader EnumValueRecord :=
  Record.reader "IntrospectionEnumValue" <|
    EnumValueRecord.mk <$> .required "name" .string <*> .optional "description" .string <*>
      .orElse "isDeprecated" .boolean false <*> .optional "deprecationReason" .string

end EnumValueRecord

namespace TypeRecord

/-- Writes the description of a type. -/
def toJson (r : TypeRecord) : Json :=
  .ofEntries <| [
    ("kind", .string r.kind.name), ("name", .string r.name),
    ("description", stringOrNull r.description), ("specifiedByURL", stringOrNull r.specifiedByURL),
    ("fields", listOrNull FieldRecord.toJson r.fields)] ++
    (r.interfaces.map fun interfaces =>
      ("interfaces", listOrNull TypeRef.toJson interfaces)).toList ++
    [("possibleTypes", listOrNull TypeRef.toJson r.possibleTypes),
    ("enumValues", listOrNull EnumValueRecord.toJson r.enumValues),
    ("inputFields", listOrNull InputValueRecord.toJson r.inputFields)]

/-- Reads the description of a type. -/
def reader : Reader TypeRecord :=
  Record.reader "IntrospectionType" <|
    TypeRecord.mk <$> .required "kind" kindReader <*> .required "name" .string <*>
      .optional "description" .string <*>
      .field "specifiedByURL" ["specifiedByUrl"] (Reader.nullable .string) (some none) <*>
      .optional "fields" (.list FieldRecord.reader) <*>
      .field "interfaces" []
        (fun json => (Reader.nullable (.list TypeRef.reader) json).map some) (some none) <*>
      .optional "possibleTypes" (.list TypeRef.reader) <*>
      .optional "enumValues" (.list EnumValueRecord.reader) <*>
      .optional "inputFields" (.list InputValueRecord.reader)

end TypeRecord

namespace DirectiveRecord

/-- Writes the description of a directive. -/
def toJson (r : DirectiveRecord) : Json :=
  .ofEntries [
    ("name", .string r.name), ("description", stringOrNull r.description),
    ("isRepeatable", .boolean r.isRepeatable),
    ("locations", listOrNull (fun l : DirectiveLocation => .string l.name) r.locations),
    ("args", listOrNull InputValueRecord.toJson r.args)]

/-- Reads the description of a directive. -/
def reader : Reader DirectiveRecord :=
  Record.reader "IntrospectionDirective" <|
    DirectiveRecord.mk <$> .required "name" .string <*> .optional "description" .string <*>
      .orElse "isRepeatable" .boolean false <*>
      .optional "locations" (.list (.oneOf DirectiveLocation.all DirectiveLocation.name)) <*>
      .optional "args" (.list InputValueRecord.reader)

end DirectiveRecord

namespace RootRecord

/-- Writes a reference to a root type. -/
def toJson (r : RootRecord) : Json :=
  .ofEntries <|
    (r.kind.map fun kind => ("kind", Json.string kind.name)).toList ++ [("name", .string r.name)]

/-- Reads a reference to a root type. -/
def reader : Reader RootRecord :=
  Record.reader "IntrospectionNamedTypeRef" <|
    RootRecord.mk <$> .optional "kind" kindReader <*> .required "name" .string

end RootRecord

namespace SchemaRecord

/-- Writes the description of a schema. -/
def toJson (r : SchemaRecord) : Json :=
  .ofEntries [
    ("description", stringOrNull r.description),
    ("queryType", Json.ofOption RootRecord.toJson r.queryType),
    ("mutationType", Json.ofOption RootRecord.toJson r.mutationType),
    ("subscriptionType", Json.ofOption RootRecord.toJson r.subscriptionType),
    ("types", .array (r.types.map TypeRecord.toJson)),
    ("directives", .array (r.directives.map DirectiveRecord.toJson))]

/-- Reads the description of a schema. -/
def reader : Reader SchemaRecord :=
  Record.reader "IntrospectionSchema" <|
    SchemaRecord.mk <$> .optional "description" .string <*>
      .optional "queryType" RootRecord.reader <*> .optional "mutationType" RootRecord.reader <*>
      .optional "subscriptionType" RootRecord.reader <*>
      .required "types" (.list TypeRecord.reader) <*>
      .orElse "directives" (.list DirectiveRecord.reader) []

/-- The answer to an introspection query. -/
def toAnswer (r : SchemaRecord) : Json :=
  .ofEntries [("__schema", r.toJson)]

/-- Reads the answer to an introspection query. -/
def answerReader : Reader SchemaRecord :=
  Record.reader "IntrospectionQuery" (.required "__schema" reader)

end SchemaRecord

end GraphQL.Introspection
