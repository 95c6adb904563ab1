import GraphQL.Proofs.Literals
import GraphQL.Schema.Subtype

/-!
# Input coercion

When a literal can be taken for a type, said layer by layer. A layer that excludes null refuses null
and asks for nothing else. A list takes a list whose items are taken for the type of its items, and
it takes anything that is no list as its only item. What stands inside all lists decides about the
rest: null and variables are always taken there and lists never, an enum takes the names of its
values, a scalar takes numbers, strings and truth values, and an input object takes objects.

`Schema.Conforms` is this definition; it follows the type, while the check of a literal follows the
literal.

* `Schema.literalFault?_eq_none_iff_conforms`: the check accepts exactly the literals that conform;
* `Schema.literalFault?_of_isSubtypeOf`: what is accepted for a type is accepted for every type that
  the first one can stand in for.
-/

namespace GraphQL

/-! ## Literals that conform -/

/-- A scalar takes a number, string or truth value. The built-in scalars are choosy, any other one
takes all of them. -/
@[mk_iff]
structure ScalarTakes (scalar : String) (v : Value) : Prop where
  isScalar : v.isScalar
  int : scalar = "Int" → v.int?.isSome
  /-- A whole number is a number, too. -/
  float : scalar = "Float" → v.float?.isSome
  string : scalar = "String" → v.string?.isSome
  boolean : scalar = "Boolean" → v.boolean?.isSome
  id : scalar = "ID" → v.string?.isSome ∨ v.int?.isSome

/-- An item is smaller than its list. -/
theorem Value.sizeOf_item_lt {items : List (Located Value)} {item : Located Value}
    (h : item ∈ items) : sizeOf item.item < sizeOf (Value.list items) := by
  have hitem := List.sizeOf_lt_of_mem h
  have hparts : sizeOf item = 1 + sizeOf item.span + sizeOf item.item := by cases item; rfl
  simp only [list.sizeOf_spec]
  omega

/-- The value of an entry is smaller than its object. -/
theorem Value.sizeOf_entry_lt {entries : List (Name × Located Value)} {entry : Name × Located Value}
    (h : entry ∈ entries) : sizeOf entry.2.item < sizeOf (Value.object entries) := by
  obtain ⟨key, value⟩ := entry
  have hentry := List.sizeOf_lt_of_mem h
  have hparts : sizeOf value = 1 + sizeOf value.span + sizeOf value.item := by cases value; rfl
  simp only [Prod.mk.sizeOf_spec, object.sizeOf_spec] at hentry ⊢
  omega

/-- A literal conforms to a type. -/
def Schema.Conforms (schema : Schema) : ResolvedType → Value → Prop
  | .list item required, v =>
    (required → v ≠ .null) ∧
      match v with
      | .list items => ∀ i, (_ : i ∈ items) → schema.Conforms item i.item
      | v => schema.Conforms item v
  | .named core required, v =>
    (required → v ≠ .null) ∧
      match v with
      | .null => True
      | .variable _ => True
      | .list _ => False
      | .enum name => core.kind = .enum ∧ ∃ value ∈ core.values, value.name = name
      | .object entries =>
        core.kind = .inputObject ∧
          (∀ entry, (_ : entry ∈ entries) → ∃ field, core.inputField? entry.1.item = some field ∧
            ∀ type, schema.resolve field.type = some type → schema.Conforms type entry.2.item) ∧
          ∀ field ∈ core.inputFields, field.type.isRequired → field.default = none →
            ∃ entry ∈ entries, entry.1.item = field.name
      | v => core.kind = .scalar ∧ ScalarTakes core.name v
termination_by t v => (sizeOf v, sizeOf t)
decreasing_by
  · exact Prod.Lex.left _ _ (Value.sizeOf_item_lt ‹_ ∈ items›)
  · exact Prod.Lex.right _ (by simp only [TypeExpr.list.sizeOf_spec]; omega)
  · exact Prod.Lex.left _ _ (Value.sizeOf_entry_lt ‹_ ∈ entries›)

/-! ## The check, layer by layer -/

/-- A scalar accepts the numbers, strings and truth values that it takes. -/
theorem scalarAccepts_iff {scalar : String} {v : Value} (h : v.isScalar) :
    scalarAccepts scalar v ↔ ScalarTakes scalar v := by
  rw [scalarTakes_iff, eq_true h, true_and]
  cases v with
  | int _ | float _ | string _ | boolean _ =>
      unfold scalarAccepts
      split <;> simp_all [Value.int?, Value.float?, Value.string?, Value.boolean?]
  | _ => cases h

/-- A name is accepted by the enums that have it as a value. -/
theorem NamedType.leafFault?_enum_eq_none_iff (t : NamedType) (name : String) :
    t.leafFault? (.enum name) = none ↔ t.kind = .enum ∧ ∃ value ∈ t.values, value.name = name := by
  cases hshape : t.shape <;>
    simp [leafFault?, kind, values, hshape, Shape.kind]

/-- A number, string or truth value is accepted by the scalars that take it. -/
theorem NamedType.leafFault?_eq_none_iff_of_isScalar (t : NamedType) {v : Value}
    (h : v.isScalar) : t.leafFault? v = none ↔ t.kind = .scalar ∧ ScalarTakes t.name v := by
  rw [← scalarAccepts_iff h]
  cases hshape : t.shape <;> cases v <;>
    simp_all [leafFault?, kind, Shape.kind, Value.isScalar]

namespace Schema

variable (schema : Schema)

/-- A layer that excludes null refuses null and asks for nothing else. -/
theorem literalFault?_eq_none_iff_nullable (t : ResolvedType) (v : Value) :
    schema.literalFault? t v = none ↔
      (t.isRequired → v ≠ .null) ∧ schema.literalFault? t.nullable v = none := by
  cases t with
  | named core required =>
      cases required <;> cases v <;>
        simp [literalFault?, TypeExpr.isRequired, TypeExpr.nullable, TypeExpr.innermost,
          TypeExpr.outermostRequired?]
  | list item required =>
      cases required <;> cases v <;>
        simp [literalFault?, TypeExpr.isRequired, TypeExpr.nullable, TypeExpr.innermost,
          TypeExpr.outermostRequired?]

/-- What is no list is checked like an item. -/
theorem literalFault?_alone (t : ResolvedType) {v : Value} (h : ∀ items, v ≠ .list items) :
    schema.literalFault? (.list t false) v = schema.literalFault? t v := by
  cases v with
  | list items => exact absurd rfl (h items)
  | null => simp [literalFault?, TypeExpr.outermostRequired?]
  | _ => simp [literalFault?, TypeExpr.innermost]

/-- Items are accepted if each one is. -/
theorem itemsFault?_eq_none_iff_forall (t : ResolvedType) (items : List (Located Value)) :
    schema.itemsFault? t items = none ↔
      ∀ item ∈ items, schema.literalFault? t item.item = none := by
  induction items with
  | nil => simp [itemsFault?]
  | cons item rest ih => simp [itemsFault?, ih]

/-- Entries are accepted if each one names a field and has a value that is accepted for the type of
the field, as far as it is known. -/
theorem entriesFault?_eq_none_iff_forall (object : NamedType)
    (entries : List (Name × Located Value)) :
    schema.entriesFault? object object.inputFields entries = none ↔
      ∀ entry ∈ entries, ∃ field, object.inputField? entry.1.item = some field ∧
        ∀ type, schema.resolve field.type = some type →
          schema.literalFault? type entry.2.item = none := by
  induction entries with
  | nil => simp [entriesFault?]
  | cons entry rest ih =>
      obtain ⟨key, span, v⟩ := entry
      have hfind : object.inputFields.find? (·.name = key.item) = object.inputField? key.item := rfl
      rw [entriesFault?, hfind, List.forall_mem_cons, ← ih]
      cases hfield : object.inputField? key.item with
      | none => simp
      | some field =>
          cases htype : schema.resolve field.type with
          | none => simp [htype]
          | some type =>
              cases hfault : schema.literalFault? type v <;> simp [htype, hfault]

/-- What is no list is accepted for a list if it is accepted for the items, and if null is not given
where it is excluded. -/
theorem literalFault?_list_eq_none_iff (t : ResolvedType) (required : Bool) {v : Value}
    (h : ∀ items, v ≠ .list items) :
    schema.literalFault? (.list t required) v = none ↔
      (required → v ≠ .null) ∧ schema.literalFault? t v = none := by
  rw [literalFault?_eq_none_iff_nullable, TypeExpr.nullable, literalFault?_alone schema t h]
  rfl

/-- **Literals that conform.**  The check of a literal finds nothing wrong with it exactly if the
literal conforms to the type. -/
theorem literalFault?_eq_none_iff_conforms (t : ResolvedType) (v : Value) :
    schema.literalFault? t v = none ↔ schema.Conforms t v := by
  -- Parts of a literal are smaller than it; a literal that is given alone stays the same, while the
  -- type loses a layer.
  induction hsize : sizeOf v using Nat.strongRecOn generalizing t v with
  | ind size ihparts =>
  subst hsize
  induction t with
  | list item required ihitem =>
      cases v with
      | list items =>
          have hitems : ∀ i ∈ items, schema.literalFault? item i.item = none ↔
              schema.Conforms item i.item :=
            fun i hi => ihparts _ (Value.sizeOf_item_lt hi) item i.item rfl
          rw [literalFault?, itemsFault?_eq_none_iff_forall, Conforms]
          simpa using forall₂_congr hitems
      | _ =>
          rw [literalFault?_list_eq_none_iff schema item required (by simp), ihitem]
          simp [Conforms]
  | named core required =>
      match v with
      | .null => simp [literalFault?, TypeExpr.outermostRequired?, Conforms]
      | .variable name => simp [literalFault?, Conforms]
      | .list items => simp [literalFault?, Conforms]
      | .enum name =>
          rw [literalFault?, TypeExpr.innermost, NamedType.leafFault?_enum_eq_none_iff]
          simp [Conforms]
      | .object entries =>
          have hentries : (∀ entry ∈ entries, ∃ field, core.inputField? entry.1.item = some field ∧
              ∀ type, schema.resolve field.type = some type →
                schema.literalFault? type entry.2.item = none) ↔
              ∀ entry ∈ entries, ∃ field, core.inputField? entry.1.item = some field ∧
                ∀ type, schema.resolve field.type = some type →
                  schema.Conforms type entry.2.item :=
            forall₂_congr fun entry hentry => by
              simp only [fun type => ihparts _ (Value.sizeOf_entry_lt hentry) type _ rfl]
          rw [literalFault?_object_eq_none_iff, entriesFault?_eq_none_iff_forall,
            missingFields_eq_nil_iff, Conforms]
          simp only [TypeExpr.innermost]
          rw [hentries]
          simp [InputValue.isRequired]
      | .int _ | .float _ | .string _ | .boolean _ =>
          rw [literalFault?, TypeExpr.innermost,
            NamedType.leafFault?_eq_none_iff_of_isScalar core rfl]
          simp [Conforms]

/-! ## Types that stand in for others -/

variable {schema}

/-- What a type expression names is known by its own name once it has been looked up. -/
theorem type?_innermost_of_resolve {type : TypeLiteral} {t : ResolvedType}
    (h : schema.resolve type = some t) :
    schema.type? (TypeExpr.innermost t).name = some (TypeExpr.innermost t) := by
  unfold resolve at h
  induction type generalizing t with
  | named name required =>
      obtain ⟨core, hcore, rfl⟩ := Option.map_eq_some_iff.mp h
      rw [TypeExpr.innermost, (mem_of_type? hcore).2, hcore]
  | list item required ih =>
      obtain ⟨inner, hinner, rfl⟩ := Option.map_eq_some_iff.mp h
      exact ih (t := inner) hinner

/-- A type of which no values can be given takes null and variables only. -/
theorem literalFault?_of_not_isInput {core : NamedType} (h : core.kind.isInput = false)
    (v : Value) :
    schema.literalFault? (.named core false) v = none ↔ v.isNull ∨ v.isVariable := by
  have hkind (kind : TypeKind) (hinput : kind.isInput = true) : core.kind ≠ kind := by
    rintro rfl
    simp [h] at hinput
  match v with
  | .null => simp [literalFault?, TypeExpr.outermostRequired?, Value.isNull]
  | .variable _ => simp [literalFault?, Value.isVariable]
  | .list _ => simp [literalFault?, Value.isNull, Value.isVariable]
  | .object _ =>
      rw [literalFault?_object_eq_none_iff]
      simp [TypeExpr.innermost, hkind .inputObject rfl, Value.isNull, Value.isVariable]
  | .enum _ =>
      rw [literalFault?, TypeExpr.innermost, NamedType.leafFault?_enum_eq_none_iff]
      simp [hkind .enum rfl, Value.isNull, Value.isVariable]
  | .int _ | .float _ | .string _ | .boolean _ =>
      rw [literalFault?, TypeExpr.innermost,
        NamedType.leafFault?_eq_none_iff_of_isScalar core rfl]
      simp [hkind .scalar rfl, Value.isNull, Value.isVariable]

/-- Between named types: either they are the same, or no values of either can be given. -/
theorem literalFault?_of_isSubtypeOf_named {a b : NamedType} {r s : Bool}
    (ha : schema.type? a.name = some a) (hb : schema.type? b.name = some b)
    (h : schema.isSubtypeOf (.named a r) (.named b s)) {v : Value}
    (hv : schema.literalFault? (.named a false) v = none) :
    schema.literalFault? (.named b false) v = none := by
  simp only [isSubtypeOf, Bool.or_eq_true, Bool.and_eq_true, decide_eq_true_eq] at h
  rcases h.2 with hname | ⟨⟨habstract, hkind⟩, _⟩
  · rw [hname, hb] at ha
    cases ha
    exact hv
  · have hsub : a.kind.isInput = false := by
      rcases hkind with hkind | hkind <;>
        simp_all [NamedType.isObject, NamedType.isInterface, TypeKind.isInput]
    have hsup : b.kind.isInput = false := by
      cases hkind : b.kind <;> simp_all [TypeKind.isAbstract, TypeKind.isInput]
    exact (literalFault?_of_not_isInput hsup v).mpr ((literalFault?_of_not_isInput hsub v).mp hv)

/-- If a type stands in for another one and what is accepted for the first without its outermost
exclusion of null is accepted for the second without its, then what is accepted for the first is
accepted for the second. -/
theorem literalFault?_of_nullable {t u : ResolvedType} (h : schema.isSubtypeOf t u)
    {v : Value} (hnullable : schema.literalFault? t.nullable v = none →
      schema.literalFault? u.nullable v = none)
    (hv : schema.literalFault? t v = none) : schema.literalFault? u v = none := by
  have hrequired : u.isRequired → t.isRequired := by
    intro hu
    cases t <;> cases u <;> simp_all [isSubtypeOf, TypeExpr.isRequired]
  rw [literalFault?_eq_none_iff_nullable] at hv ⊢
  exact ⟨fun hu => hv.1 (hrequired hu), hnullable hv.2⟩

/-- What is accepted for a type is accepted for every type that it stands in for, if both are known
to the schema. -/
theorem accepted_of_isSubtypeOf {t u : ResolvedType}
    (ht : schema.type? (TypeExpr.innermost t).name = some (TypeExpr.innermost t))
    (hu : schema.type? (TypeExpr.innermost u).name = some (TypeExpr.innermost u))
    (h : schema.isSubtypeOf t u) {v : Value} (hv : schema.literalFault? t v = none) :
    schema.literalFault? u v = none := by
  induction t generalizing u v with
  | named a r =>
      cases u with
      | list _ _ => simp [isSubtypeOf] at h
      | named b s =>
          exact literalFault?_of_nullable h (literalFault?_of_isSubtypeOf_named ht hu h) hv
  | list item r ih =>
      cases u with
      | named _ _ => simp [isSubtypeOf] at h
      | list other s =>
          have hitems : schema.isSubtypeOf item other := by
            simp only [isSubtypeOf, Bool.and_eq_true] at h
            exact h.2
          refine literalFault?_of_nullable h (fun hlist => ?_) hv
          simp only [TypeExpr.nullable] at hlist ⊢
          cases v with
          | list items =>
              rw [literalFault?, itemsFault?_eq_none_iff_forall] at hlist ⊢
              exact fun i hi => ih (u := other) ht hu hitems (hlist i hi)
          | _ =>
              rw [literalFault?_alone schema _ (by simp)] at hlist ⊢
              exact ih (u := other) ht hu hitems hlist

/-- **Literals and subtypes.**  A literal that is accepted for a type is accepted for every type
that the first one can stand in for. -/
theorem literalFault?_of_isSubtypeOf {t u : TypeLiteral} {sub sup : ResolvedType}
    (hsub : schema.resolve t = some sub) (hsup : schema.resolve u = some sup)
    (h : schema.isSubtypeOf sub sup) (v : Value) (hv : schema.literalFault? sub v = none) :
    schema.literalFault? sup v = none :=
  accepted_of_isSubtypeOf (type?_innermost_of_resolve hsub) (type?_innermost_of_resolve hsup) h hv

/-- A line of an order: what is ordered has to be said, how many need not. -/
def orderLine : NamedType :=
  ⟨"Line", none, .inputObject
    [{ name := "item", type := .named "Code" true },
      { name := "count", type := .named "Code" false }]⟩

/-- A schema of orders. -/
def orderConfig : Config where
  types := [orderLine, ⟨"Code", none, .scalar none⟩]

/-- A single line is accepted for a list without null, and so for a list with null. -/
theorem single_line_accepted : ∃ sub sup : ResolvedType,
    (ofConfig orderConfig).resolve (.list (.named "Line" true) true) = some sub ∧
      (ofConfig orderConfig).resolve (.list (.named "Line" false) false) = some sup ∧
      (ofConfig orderConfig).isSubtypeOf sub sup ∧
      (ofConfig orderConfig).literalFault? sub (.ofEntries [("item", .string "A4")]) = none ∧
      (ofConfig orderConfig).literalFault? sup (.ofEntries [("item", .string "A4")]) = none := by
  have hline : (ofConfig orderConfig).type? "Line" = some orderLine :=
    (type?_given rfl).trans (if_neg fun hout => absurd hout.1 (by decide))
  have hcode : (ofConfig orderConfig).type? "Code" = some ⟨"Code", none, .scalar none⟩ :=
    (type?_given rfl).trans (if_neg fun hout => absurd hout.1 (by decide))
  have hsub : (ofConfig orderConfig).resolve (.list (.named "Line" true) true) =
      some (.list (.named orderLine true) true) := by
    simp [resolve, TypeExpr.resolve, hline]
  have hsup : (ofConfig orderConfig).resolve (.list (.named "Line" false) false) =
      some (.list (.named orderLine false) false) := by
    simp [resolve, TypeExpr.resolve, hline]
  have hsubtype : (ofConfig orderConfig).isSubtypeOf (.list (.named orderLine true) true)
      (.list (.named orderLine false) false) := by
    simp [isSubtypeOf]
  have haccepted : (ofConfig orderConfig).literalFault? (.list (.named orderLine true) true)
      (.ofEntries [("item", .string "A4")]) = none := by
    simp [Value.ofEntries, Located.unlocated, literalFault?, TypeExpr.innermost, orderLine,
      entriesFault?, resolve, TypeExpr.resolve, hcode, NamedType.leafFault?, scalarAccepts,
      missingFields, InputValue.isRequired, TypeExpr.isRequired]
  exact ⟨_, _, hsub, hsup, hsubtype, haccepted,
    literalFault?_of_isSubtypeOf hsub hsup hsubtype _ haccepted⟩

end Schema

end GraphQL
