import GraphQL.Schema.Literal
import GraphQL.Proofs.Pruning

/-!
# Which literals are accepted

To accept a literal is to accept each of its parts for the type that is expected of the part. The
type is handed down: a list hands the type of its items to its items, and an object hands the types
of the fields to its entries. Nothing is expected of the value of a field whose type is unknown, nor
of anything inside it.

A value that is no list may be given alone where a list is expected, and then counts as an item. So
an object hands down the types of the fields of whatever stands inside all lists, and null, too,
goes through the lists: it is refused if any of them excludes it, or what is inside.

* `Schema.literalFault?_eq_none_iff`: a literal is accepted exactly if every part of it fits by
  itself (`ResolvedType.Takes`) what is expected of it (`Value.expectations`);
* `Schema.null_by_nullability_iff`: when null is accepted exactly if the type has null.
-/

namespace GraphQL

/-! ## Null -/

namespace TypeExpr

variable {α : Type}

/-- A type and the types of its items, the items of its items and so on, from the outside. -/
def layers : TypeExpr α → List (TypeExpr α)
  | named a r => [named a r]
  | list t r => list t r :: t.layers

/-- A type is its own outermost layer. -/
theorem mem_layers_self (t : TypeExpr α) : t ∈ t.layers := by
  cases t <;> simp [layers]

/-- The outermost layer that excludes null is the first one that does. -/
theorem outermostRequired?_eq_find? (t : TypeExpr α) :
    t.outermostRequired? = t.layers.find? isRequired := by
  induction t with
  | named a r => cases r <;> rfl
  | list t r ih =>
      cases r with
      | true => rfl
      | false => simpa [outermostRequired?, layers, isRequired] using ih

end TypeExpr

namespace Schema

/-- Null is accepted exactly if no layer of the type excludes it. -/
theorem literalFault?_null_eq_none_iff (schema : Schema) (t : ResolvedType) :
    schema.literalFault? t .null = none ↔ ∀ layer ∈ t.layers, layer.isRequired = false := by
  simp [literalFault?, TypeExpr.outermostRequired?_eq_find?]

/-- **Null and nullability.**  Null is accepted exactly if the type has null, unless the type does
have null and the type of its items, of their items or so on excludes it. -/
theorem null_by_nullability_iff (schema : Schema) (t : ResolvedType) :
    (schema.literalFault? t .null = none ↔ t.isRequired = false) ↔
      (t.isRequired = false → ∀ layer ∈ t.layers, layer.isRequired = false) := by
  rw [literalFault?_null_eq_none_iff]
  constructor
  · exact fun h => h.mpr
  · exact fun h => ⟨fun hall => hall t t.mem_layers_self, h⟩

/-- A schema that knows tags. -/
def tagConfig : Config where
  types := [⟨"Tag", none, .scalar none⟩]

/-- A list of tags that may be missing, with tags that may not be missing in it: null is refused. -/
theorem null_refused_for_tags : ∃ t : ResolvedType,
    (ofConfig tagConfig).resolve (.list (.named "Tag" true) false) = some t ∧
      t.isRequired = false ∧ (ofConfig tagConfig).literalFault? t .null ≠ none := by
  have hname : "Tag" ∉ builtinScalarNames := by decide
  have htag : (ofConfig tagConfig).type? "Tag" = some ⟨"Tag", none, .scalar none⟩ :=
    (type?_given rfl).trans (if_neg fun hout => hname hout.1)
  refine ⟨.list (.named ⟨"Tag", none, .scalar none⟩ true) false, ?_, rfl, ?_⟩
  · simp [resolve, TypeExpr.resolve, htag]
  · simp [literalFault?, TypeExpr.outermostRequired?]

end Schema

/-! ## Parts -/

/-- What is expected of a part of a literal. -/
structure Expectation where
  part : Located Value
  /-- The type that the part has to fit, if it is known. -/
  type : Option ResolvedType
  /-- Whether the part stands inside an object that is given alone where a list is expected. -/
  alone : Bool

/-- The type that is expected of the value of a field of an input object. -/
def Schema.inputType? (schema : Schema) (object : NamedType) (field : String) :
    Option ResolvedType :=
  (object.inputField? field).bind fun input => schema.resolve input.type

mutual

/-- The parts of a literal in the order in which they are written, the literal itself first, with
what is expected of them. -/
def Value.expectations (schema : Schema) (type : Option ResolvedType) (alone : Bool) (span : Span) :
    Value → List Expectation
  | .list items =>
    ⟨⟨span, .list items⟩, type, alone⟩ ::
      Value.itemExpectations schema (type.bind TypeExpr.item?) alone items
  | .object entries =>
    ⟨⟨span, .object entries⟩, type, alone⟩ ::
      Value.entryExpectations schema (type.map TypeExpr.innermost)
        (alone || (type.bind TypeExpr.item?).isSome) entries
  | v => [⟨⟨span, v⟩, type, alone⟩]

/-- The parts of the items of a list. -/
def Value.itemExpectations (schema : Schema) (type : Option ResolvedType) (alone : Bool) :
    List (Located Value) → List Expectation
  | [] => []
  | ⟨span, v⟩ :: rest =>
    v.expectations schema type alone span ++ Value.itemExpectations schema type alone rest

/-- The parts of the entries of an object. -/
def Value.entryExpectations (schema : Schema) (object : Option NamedType) (alone : Bool) :
    List (Name × Located Value) → List Expectation
  | [] => []
  | (key, ⟨span, v⟩) :: rest =>
    v.expectations schema (object.bind (schema.inputType? · key.item)) alone span ++
      Value.entryExpectations schema object alone rest

end

/-- A value fits a type as far as it can be seen without looking at its parts. -/
def ResolvedType.Takes (t : ResolvedType) : Value → Prop
  | .null => ∀ layer ∈ TypeExpr.layers t, layer.isRequired = false
  | .variable _ => True
  | .list _ => (TypeExpr.item? t).isSome
  | .object entries =>
    (TypeExpr.innermost t).kind = .inputObject ∧
      (∀ entry ∈ entries, ((TypeExpr.innermost t).inputField? entry.1.item).isSome) ∧
      ∀ field ∈ (TypeExpr.innermost t).inputFields, field.isRequired →
        ∃ entry ∈ entries, entry.1.item = field.name
  | v => (TypeExpr.innermost t).leafFault? v = none

/-- All parts fit what is expected of them. -/
def Met (expectations : List Expectation) : Prop :=
  ∀ e ∈ expectations, ∀ t, e.type = some t → t.Takes e.part.item

@[simp] theorem met_nil : Met [] := by simp [Met]

@[simp] theorem met_cons {e : Expectation} {rest : List Expectation} :
    Met (e :: rest) ↔ (∀ t, e.type = some t → t.Takes e.part.item) ∧ Met rest := by
  simp [Met]

@[simp] theorem met_append {expectations rest : List Expectation} :
    Met (expectations ++ rest) ↔ Met expectations ∧ Met rest := by
  simp [Met, or_imp, forall_and]

section

variable (schema : Schema)

mutual

/-- Nothing is expected inside a value of which nothing is expected. -/
theorem Value.met_of_unknown (alone : Bool) (span : Span) : (v : Value) →
    Met (v.expectations schema none alone span)
  | .list items => by simpa [expectations] using Value.metItems_of_unknown alone items
  | .object entries => by simpa [expectations] using Value.metEntries_of_unknown alone entries
  | .null | .int _ | .float _ | .string _ | .boolean _ | .enum _ | .variable _ => by
      simp [expectations]

theorem Value.metItems_of_unknown (alone : Bool) : (items : List (Located Value)) →
    Met (Value.itemExpectations schema none alone items)
  | [] => by simp [itemExpectations]
  | ⟨span, v⟩ :: rest => by
      simpa [itemExpectations] using
        ⟨Value.met_of_unknown alone span v, Value.metItems_of_unknown alone rest⟩

theorem Value.metEntries_of_unknown (alone : Bool) : (entries : List (Name × Located Value)) →
    Met (Value.entryExpectations schema none alone entries)
  | [] => by simp [entryExpectations]
  | (_, ⟨span, v⟩) :: rest => by
      simpa [entryExpectations] using
        ⟨Value.met_of_unknown alone span v, Value.metEntries_of_unknown alone rest⟩

end

end

/-- No field is missing exactly if every field that has to be given is. -/
theorem missingFields_eq_nil_iff {fields : List InputValue} {given : List String} :
    missingFields fields given = [] ↔ ∀ field ∈ fields, field.isRequired → field.name ∈ given := by
  have hmissing : missingFields fields given = [] ↔ ∀ field ∈ fields,
      (∃ other ∈ fields, other.name = field.name ∧ other.isRequired) → field.name ∈ given := by
    simp [missingFields]
  rw [hmissing]
  constructor
  · exact fun h field hfield hrequired => h field hfield ⟨field, hfield, rfl, hrequired⟩
  · rintro h field hfield ⟨other, hother, hname, hrequired⟩
    exact hname ▸ h other hother hrequired

namespace Schema

variable (schema : Schema)

/-- An object is accepted exactly if an input object is expected, its entries are accepted, and no
field is missing. -/
theorem literalFault?_object_eq_none_iff (t : ResolvedType)
    (entries : List (Name × Located Value)) :
    schema.literalFault? t (.object entries) = none ↔ t.innermost.kind = .inputObject ∧
      schema.entriesFault? t.innermost t.innermost.inputFields entries = none ∧
        missingFields t.innermost.inputFields (entries.map (·.1.item)) = [] := by
  rw [literalFault?]
  cases hshape : t.innermost.shape with
  | inputObject fields =>
      have hfields : t.innermost.inputFields = fields := by simp [NamedType.inputFields, hshape]
      have hkind : t.innermost.kind = .inputObject := by simp [NamedType.kind, hshape, Shape.kind]
      rw [hfields, hkind]
      cases hentries : schema.entriesFault? t.innermost fields entries with
      | some fault => simp [hentries]
      | none =>
          cases hmissing : missingFields fields (entries.map (·.1.item)) <;>
            simp [hentries, hmissing]
  | _ => simp [NamedType.kind, hshape, Shape.kind]

mutual

/-- **Accepted literals.**  A literal is accepted for a type exactly if every part of it fits the
type that is expected of the part. -/
theorem literalFault?_eq_none_iff (t : ResolvedType) (alone : Bool) (span : Span) : (v : Value) →
    (schema.literalFault? t v = none ↔ Met (v.expectations schema (some t) alone span))
  | .null => by
      simp [literalFault?_null_eq_none_iff, Value.expectations, ResolvedType.Takes]
  | .variable _ => by simp [literalFault?, Value.expectations, ResolvedType.Takes]
  | .list items => by
      cases t with
      | named core required =>
          simp [literalFault?, Value.expectations, ResolvedType.Takes, TypeExpr.item?]
      | list item required =>
          simpa [literalFault?, Value.expectations, ResolvedType.Takes, TypeExpr.item?] using
            itemsFault?_eq_none_iff item alone items
  | .object entries => by
      rw [literalFault?_object_eq_none_iff, missingFields_eq_nil_iff,
        entriesFault?_eq_none_iff t.innermost (alone || t.item?.isSome) entries]
      simp only [Value.expectations, met_cons, ResolvedType.Takes, Option.map_some,
        Option.bind_some, Option.some.injEq, forall_eq', List.mem_map]
      tauto
  | .int _ | .float _ | .string _ | .boolean _ | .enum _ => by
      simp [literalFault?, Value.expectations, ResolvedType.Takes]

theorem itemsFault?_eq_none_iff (t : ResolvedType) (alone : Bool) :
    (items : List (Located Value)) →
    (schema.itemsFault? t items = none ↔
      Met (Value.itemExpectations schema (some t) alone items))
  | [] => by simp [itemsFault?, Value.itemExpectations]
  | ⟨span, v⟩ :: rest => by
      simp [itemsFault?, Value.itemExpectations, literalFault?_eq_none_iff t alone span v,
        itemsFault?_eq_none_iff t alone rest]

theorem entriesFault?_eq_none_iff (object : NamedType) (alone : Bool) :
    (entries : List (Name × Located Value)) →
    (schema.entriesFault? object object.inputFields entries = none ↔
      (∀ entry ∈ entries, (object.inputField? entry.1.item).isSome) ∧
        Met (Value.entryExpectations schema (some object) alone entries))
  | [] => by simp [entriesFault?, Value.entryExpectations]
  | (key, ⟨span, v⟩) :: rest => by
      have hrest := entriesFault?_eq_none_iff object alone rest
      rw [entriesFault?, Value.entryExpectations, met_append, Option.bind_some,
        List.forall_mem_cons]
      have hfind : object.inputFields.find? (·.name = key.item) = object.inputField? key.item := rfl
      rw [hfind]
      cases hfield : object.inputField? key.item with
      | none => simp
      | some field =>
          cases htype : schema.resolve field.type with
          | none =>
              have hunknown : schema.inputType? object key.item = none := by
                simp [inputType?, hfield, htype]
              simpa [htype, hunknown, Value.met_of_unknown] using hrest
          | some type =>
              have hknown : schema.inputType? object key.item = some type := by
                simp [inputType?, hfield, htype]
              have hvalue := literalFault?_eq_none_iff type alone span v
              rw [hknown]
              cases hfault : schema.literalFault? type v with
              | none =>
                  have hmet := hvalue.mp hfault
                  simpa [htype, hfault, hmet] using hrest
              | some fault =>
                  have hunmet : ¬ Met (v.expectations schema (some type) alone span) :=
                    fun hmet => by simp [hvalue.mpr hmet] at hfault
                  simp [htype, hfault, hunmet]

end

end Schema

end GraphQL
