import GraphQL.Introspection.Build
import GraphQL.Proofs.Rereading

/-!
# Making a schema from its description

Each part of a consistent schema is made again from its description: references lead back to the
types they were made for, since the names in them are registered and no type is wrapped too often,
and default values come back as they are read from their texts. One lemma for each part says so; the
parts are put together in `buildConfig_describe`.
-/

namespace GraphQL

/-- The types of the fields, arguments and input fields of a schema. -/
def Schema.valueTypes (schema : Schema) : List TypeLiteral :=
  (schema.types.flatMap fun t => t.fields.map Field.type) ++ schema.inputs.map InputValue.type

/-- A schema that can be made again from its description: nothing is wrong with it, no type is
wrapped too often, and all default values can be read back. -/
structure Schema.Describable (schema : Schema) : Prop where
  nodup : (Registry.names schema.types).Nodup
  consistent : schema.inconsistencies = []
  shallow : ∀ type ∈ schema.valueTypes, type.depth ≤ 7
  defaults : ∀ input ∈ schema.inputs, ∀ v ∈ input.default, schema.Readable input v

namespace Introspection

variable {schema : Schema}

/-! ## Records by name -/

theorem putsByName_record : Registry.PutsByName putRecord TypeRecord.name :=
  ⟨fun _ => rfl, fun _ _ _ => rfl⟩

@[simp] theorem name_describeType (schema : Schema) (t : NamedType) :
    (schema.describeType t).name = t.name := by
  cases h : t.shape <;> simp [Schema.describeType, h]

@[simp] theorem kind_describeType (schema : Schema) (t : NamedType) :
    (schema.describeType t).kind = t.kind := by
  cases h : t.shape <;> simp [Schema.describeType, h]

/-- The records of the types of a schema are distinct. -/
theorem distinctRecords_describe (h : (Registry.names schema.types).Nodup) :
    distinctRecords (schema.types.map schema.describeType) =
      schema.types.map schema.describeType := by
  refine putsByName_record.foldl_eq_self ?_
  simpa [Registry.names, Function.comp_def] using h

/-- The record of a registered type tells its kind. -/
theorem kindOf_describe {name : String} {t : NamedType} (h : schema.type? name = some t) :
    kindOf (schema.types.map schema.describeType) name = .ok t.kind := by
  have hfind : (schema.types.map schema.describeType).find? (·.name = name) =
      some (schema.describeType t) := by
    rw [List.find?_map]
    simp only [Function.comp_def, name_describeType]
    exact congrArg (Option.map schema.describeType) h
  rw [kindOf, hfind]
  simp

/-! ## References -/

/-- The wrappers of a type from the outside. -/
def wrappers : TypeLiteral → List TypeKind
  | .named _ r => if r then [.nonNull] else []
  | .list item r => (if r then [.nonNull] else []) ++ .list :: wrappers item

theorem unwrap_named (budget : Nat) (name : String) :
    unwrap budget (schema.namedRef name) = .ok ([], schema.namedRef name) := by
  have hkind : (((schema.type? name).map NamedType.kind).getD .scalar).isWrapper = false := by
    cases schema.type? name with
    | none => rfl
    | some t =>
        simp only [Option.map_some, Option.getD_some, NamedType.kind]
        cases t.shape <;> rfl
  simp [Schema.namedRef, TypeRef.named, unwrap, hkind]

theorem unwrap_wrapping {kind : TypeKind} (hkind : kind.isWrapper = true) {budget : Nat}
    {reference inner : TypeRef} {found : List TypeKind}
    (h : unwrap budget reference = .ok (found, inner)) :
    unwrap (budget + 1) (.wrapping kind none reference) = .ok (kind :: found, inner) := by
  simp only [unwrap, hkind, h]
  rfl

/-- Removing the wrappers of the reference to a type leads to its name. -/
theorem unwrap_typeRef (type : TypeLiteral) {budget : Nat} (h : type.depth ≤ budget) :
    unwrap budget (schema.typeRef type) =
      .ok (wrappers type, schema.namedRef type.innermost) := by
  induction type generalizing budget with
  | named name required =>
      cases required with
      | false => exact unwrap_named budget name
      | true =>
          obtain ⟨budget, rfl⟩ := Nat.exists_eq_add_of_le' h
          exact unwrap_wrapping rfl (unwrap_named budget name)
  | list item required ih =>
      cases required with
      | false =>
          obtain ⟨budget, rfl⟩ := Nat.exists_eq_add_of_le' h
          exact unwrap_wrapping rfl (ih (Nat.le_add_left _ budget))
      | true =>
          obtain ⟨budget, rfl⟩ := Nat.exists_eq_add_of_le' h
          have hlist : unwrap (item.depth + budget + 1) (.list (schema.typeRef item)) =
              .ok (.list :: wrappers item, schema.namedRef item.innermost) :=
            unwrap_wrapping rfl (ih (Nat.le_add_right _ budget))
          have hbudget : budget + (item.depth + 1 + 1) = item.depth + budget + 1 + 1 := by omega
          rw [TypeExpr.depth, Bool.toNat_true, hbudget]
          exact unwrap_wrapping rfl hlist

/-- Wrapping the name of a type again gives the type. -/
theorem rewrap_wrappers (type : TypeLiteral) :
    rewrap (.named type.innermost false) (wrappers type) = .ok type := by
  induction type with
  | named name required => cases required <;> rfl
  | list item required ih =>
      have hlist : rewrap (.named item.innermost false) (.list :: wrappers item) =
          .ok (.list item false) := by
        rw [rewrap, ih]
        rfl
      cases required with
      | false => exact hlist
      | true =>
          have hmore : rewrap (.named item.innermost false)
              (.nonNull :: .list :: wrappers item) = .ok (.list item true) := by
            rw [rewrap, hlist]
            rfl
          exact hmore

/-- **References are followed.**  The reference to a registered type leads back to it. -/
theorem decode_typeRef {type : TypeLiteral} {t : NamedType}
    (h : schema.type? type.innermost = some t) (hdepth : type.depth ≤ 7) :
    decode (schema.types.map schema.describeType) (schema.typeRef type) = .ok (type, t.kind) := by
  rw [decode, maxWrappers, unwrap_typeRef type hdepth]
  have hkind := kindOf_describe h
  have hwrap := rewrap_wrappers type
  simp only [Schema.namedRef, TypeRef.named, TypeRef.name, bind, Except.bind, hkind, hwrap]
  rfl

theorem outputType_typeRef {type : TypeLiteral} {t : NamedType}
    (h : schema.type? type.innermost = some t) (hkind : t.kind.isOutput)
    (hdepth : type.depth ≤ 7) :
    outputType (schema.types.map schema.describeType) (schema.typeRef type) = .ok type := by
  rw [outputType, decode_typeRef h hdepth]
  exact if_pos hkind

theorem inputType_typeRef {type : TypeLiteral} {t : NamedType}
    (h : schema.type? type.innermost = some t) (hkind : t.kind.isInput)
    (hdepth : type.depth ≤ 7) :
    inputType (schema.types.map schema.describeType) (schema.typeRef type) = .ok type := by
  rw [inputType, decode_typeRef h hdepth]
  exact if_pos hkind

theorem namedOfKind_namedRef {name : String} {t : NamedType} (h : schema.type? name = some t)
    (error : TypeLiteral → BuildError) :
    namedOfKind (schema.types.map schema.describeType) t.kind error (schema.namedRef name) =
      .ok name := by
  have hdepth : (TypeExpr.named name false).depth ≤ 7 := Nat.zero_le 7
  have hdecode : decode (schema.types.map schema.describeType) (schema.namedRef name) =
      .ok (.named name false, t.kind) :=
    decode_typeRef h hdepth
  rw [namedOfKind, hdecode]
  exact if_pos rfl

/-! ## Parts -/

/-- If each part is made again from its description, so are all in a list. -/
theorem mapM_describe {α β γ : Type} {describe : α → β} {make : β → Build γ} {result : α → γ}
    {parts : List α} (h : ∀ a ∈ parts, make (describe a) = .ok (result a)) :
    (parts.map describe).mapM make = .ok (parts.map result) := by
  induction parts with
  | nil => rfl
  | cons a parts ih =>
      have ha := h a List.mem_cons_self
      have hparts := ih fun b hb => h b (List.mem_cons_of_mem _ hb)
      rw [List.map_cons, List.mapM_cons, ha, hparts]
      rfl

theorem mapM_describe_self {α β : Type} {describe : α → β} {make : β → Build α} {parts : List α}
    (h : ∀ a ∈ parts, make (describe a) = .ok a) :
    (parts.map describe).mapM make = .ok parts :=
  (mapM_describe h).trans (congrArg Except.ok (List.map_id' parts))

theorem deprecation_describe (d : Deprecation) : deprecation d.isDeprecated d.reason? = d := by
  cases d <;> rfl

theorem buildValue_describe (value : EnumValue) :
    buildValue (Schema.describeValue value) = value := by
  simp only [buildValue, Schema.describeValue, deprecation_describe]

section

variable (h : schema.Describable)

include h

/-- What can be given is of a registered type that can be given. -/
theorem input_registered {input : InputValue} (hinput : input ∈ schema.inputs) :
    ∃ t, schema.type? input.type.innermost = some t ∧ t.kind.isInput := by
  rcases List.mem_append.mp hinput with htypes | hdirectives
  · obtain ⟨t, ht, hmem⟩ := List.mem_flatMap.mp htypes
    rcases List.mem_append.mp hmem with hfields | hinputs
    · obtain ⟨field, hfield, hargument⟩ := List.mem_flatMap.mp hfields
      exact Schema.fieldArgument_registered h.consistent ht hfield hargument
    · exact Schema.inputField_registered h.consistent ht hinputs
  · obtain ⟨directive, hdirective, hargument⟩ := List.mem_flatMap.mp hdirectives
    exact Schema.directiveArgument_registered h.consistent hdirective hargument

theorem readable_of_default {input : InputValue} (hinput : input ∈ schema.inputs) {v : Value}
    (hv : input.default = some v) :
    (∃ t, schema.type? input.type.innermost = some t) ∧ schema.Readable input v := by
  obtain ⟨t, ht, _⟩ := input_registered h hinput
  exact ⟨⟨t, ht⟩, h.defaults input hinput v hv⟩

theorem defaultValue_describe {input : InputValue} (hinput : input ∈ schema.inputs) :
    (input.default.map Value.text).mapM (defaultValue input.name) =
      .ok (input.default.map Value.reread) := by
  cases hv : input.default with
  | none => rfl
  | some v =>
      obtain ⟨hregistered, hreadable⟩ := readable_of_default h hinput hv
      obtain ⟨l, hparse, hl⟩ := hreadable.parse_eq_reread h.consistent hregistered
      have hvalue : defaultValue input.name v.text = .ok v.reread := by
        rw [defaultValue, hparse, ← hl]
      simp only [Option.map_some, Option.mapM_some, hvalue]
      rfl

/-- An argument or input field is made again, with its default value as it is read. -/
theorem buildInput_describe {input : InputValue} (hinput : input ∈ schema.inputs) :
    buildInput (schema.types.map schema.describeType) (schema.describeInput input) =
      .ok (input.mapDefault Value.reread) := by
  obtain ⟨t, ht, hkind⟩ := input_registered h hinput
  have hdepth := h.shallow input.type
    (List.mem_append_right _ (List.mem_map_of_mem hinput))
  have htype := inputType_typeRef ht hkind hdepth
  have hdefault := defaultValue_describe h hinput
  have hdeprecation := deprecation_describe input.deprecation
  simp only [buildInput, Schema.describeInput, htype, hdefault, hdeprecation, bind, Except.bind,
    pure, Except.pure]
  rfl

theorem buildInputs_describe {inputs : List InputValue}
    (hinputs : ∀ input ∈ inputs, input ∈ schema.inputs) :
    (inputs.map schema.describeInput).mapM (buildInput (schema.types.map schema.describeType)) =
      .ok (inputs.map (·.mapDefault Value.reread)) :=
  mapM_describe fun input hinput => buildInput_describe h (hinputs input hinput)

/-- A field is made again. -/
theorem buildField_describe {t : NamedType} (ht : t ∈ schema.types) {field : Field}
    (hfield : field ∈ t.fields) :
    buildField (schema.types.map schema.describeType) (schema.describeField field) =
      .ok (field.mapDefaults Value.reread) := by
  obtain ⟨u, hu, hkind⟩ := Schema.field_registered h.consistent ht hfield
  have hdepth := h.shallow field.type
    (List.mem_append_left _ (List.mem_flatMap_of_mem ht (List.mem_map_of_mem hfield)))
  have htype := outputType_typeRef hu hkind hdepth
  have harguments := buildInputs_describe h fun input hinput =>
    Schema.mem_inputs_of_mem_types ht
      (List.mem_append_left _ (List.mem_flatMap_of_mem hfield hinput))
  have hdeprecation := deprecation_describe field.deprecation
  simp only [buildField, Schema.describeField, htype, part, harguments, hdeprecation, bind,
    Except.bind, pure, Except.pure]
  rfl

theorem buildFields_describe {t : NamedType} (ht : t ∈ schema.types) :
    (t.fields.map schema.describeField).mapM (buildField (schema.types.map schema.describeType)) =
      .ok (t.fields.map (·.mapDefaults Value.reread)) :=
  mapM_describe fun _ hfield => buildField_describe h ht hfield

/-- The interfaces of a type are found again. -/
theorem buildInterfaces_describe {t : NamedType} (ht : t ∈ schema.types) {record : TypeRecord}
    (hname : record.name = t.name)
    (hrecord : record.interfaces = some (some (t.interfaces.map schema.namedRef))) :
    buildInterfaces (schema.types.map schema.describeType) record = .ok t.interfaces := by
  rw [buildInterfaces, hrecord, hname]
  refine mapM_describe_self fun name hmem => ?_
  obtain ⟨u, hu, hkind, hself⟩ := Schema.interface_registered h.consistent ht hmem
  have hinterface : u.kind = .interface := by simpa [NamedType.isInterface] using hkind
  have hfound := namedOfKind_namedRef hu .interfaceTypeExpected
  rw [hinterface] at hfound
  simp only [hfound, bind, Except.bind, if_neg hself]
  rfl

/-- The members of a union are found again. -/
theorem buildMembers_describe {t : NamedType} (ht : t ∈ schema.types) :
    (t.members.map schema.namedRef).mapM (namedOfKind (schema.types.map schema.describeType)
      .object .objectTypeExpected) = .ok t.members := by
  refine mapM_describe_self fun name hmem => ?_
  obtain ⟨u, hu, hkind⟩ := Schema.member_registered h.consistent ht hmem
  have hobject : u.kind = .object := by simpa [NamedType.isObject] using hkind
  have hfound := namedOfKind_namedRef hu .objectTypeExpected
  rwa [hobject] at hfound

/-- The shape of a type is made again. -/
theorem buildShape_describe {t : NamedType} (ht : t ∈ schema.types) :
    buildShape (schema.types.map schema.describeType) (schema.describeType t) =
      .ok (t.shape.mapDefaults Value.reread) := by
  have hkind := kind_describeType schema t
  have hinterfaces := buildInterfaces_describe h ht (name_describeType schema t)
  have hfields := buildFields_describe h ht
  have hmembers := buildMembers_describe h ht
  have hinputs := buildInputs_describe h fun input hinput =>
    Schema.mem_inputs_of_mem_types ht (List.mem_append_right _ hinput)
  unfold NamedType.kind at hkind
  unfold NamedType.interfaces at hinterfaces
  unfold NamedType.fields at hfields
  unfold NamedType.members at hmembers
  unfold NamedType.inputFields at hinputs
  cases hshape : t.shape with
  | scalar specifiedBy =>
      have hurl : (schema.describeType t).specifiedByURL = specifiedBy := by
        simp [Schema.describeType, hshape, NamedType.specifiedBy?]
      simp only [hshape] at hkind
      simp only [buildShape, hkind, Shape.kind, hurl]
      rfl
  | object interfaces fields =>
      have hrecord : (schema.describeType t).fields = some (fields.map schema.describeField) := by
        simp [Schema.describeType, hshape]
      have hlist := hinterfaces (by simp [Schema.describeType, hshape])
      simp only [hshape] at hkind hlist hfields
      simp only [buildShape, hkind, Shape.kind, hlist, hrecord, part, hfields, bind, Except.bind]
      rfl
  | interface interfaces fields =>
      have hrecord : (schema.describeType t).fields = some (fields.map schema.describeField) := by
        simp [Schema.describeType, hshape]
      have hlist := hinterfaces (by simp [Schema.describeType, hshape])
      simp only [hshape] at hkind hlist hfields
      simp only [buildShape, hkind, Shape.kind, hlist, hrecord, part, hfields, bind, Except.bind]
      rfl
  | union members =>
      have hrecord : (schema.describeType t).possibleTypes =
          some (members.map schema.namedRef) := by
        simp [Schema.describeType, hshape]
      simp only [hshape] at hkind hmembers
      simp only [buildShape, hkind, Shape.kind, hrecord, part, hmembers, bind, Except.bind]
      rfl
  | enum values =>
      have hrecord : (schema.describeType t).enumValues =
          some (values.map Schema.describeValue) := by
        simp [Schema.describeType, hshape]
      have hvalues : (values.map Schema.describeValue).map buildValue = values := by
        simp [Function.comp_def, buildValue_describe]
      simp only [hshape] at hkind
      simp only [buildShape, hkind, Shape.kind, hrecord, part, hvalues, bind, Except.bind]
      rfl
  | inputObject fields =>
      have hrecord : (schema.describeType t).inputFields =
          some (fields.map schema.describeInput) := by
        simp [Schema.describeType, hshape]
      simp only [hshape] at hkind hinputs
      simp only [buildShape, hkind, Shape.kind, hrecord, part, hinputs, bind, Except.bind]
      rfl

/-- **Types are made again.**  The description of a type is made into that type. -/
theorem buildType_describe {t : NamedType} (ht : t ∈ schema.types)
    (hshared : Registry.shared t = t) :
    buildType (schema.types.map schema.describeType) (schema.describeType t) =
      .ok (t.mapDefaults Value.reread) := by
  have hstandard : (Standard.type? (schema.describeType t).name).filter
      (·.kind = (schema.describeType t).kind) = Standard.of? t := by
    simp [Standard.of?]
  rw [buildType, hstandard]
  cases hof : Standard.of? t with
  | some standard =>
      obtain ⟨hself, hmem⟩ := Registry.mem_standard_of_shared hshared hof
      rw [Standard.mapDefaults_reread hmem, hself]
  | none =>
      have hdescription : (schema.describeType t).description = t.description := by
        cases hshape : t.shape <;> simp [Schema.describeType, hshape]
      simp only [buildShape_describe h ht, name_describeType, hdescription, bind, Except.bind]
      rfl

/-- A directive is made again. -/
theorem buildDirective_describe {directive : Directive} (hd : directive ∈ schema.directives) :
    buildDirective (schema.types.map schema.describeType) (schema.describeDirective directive) =
      .ok (directive.mapDefaults Value.reread) := by
  have harguments := buildInputs_describe h fun input hinput =>
    Schema.mem_inputs_of_mem_directives hd hinput
  simp only [buildDirective, Schema.describeDirective, part, harguments, bind, Except.bind]
  rfl

/-- Root types are found again. -/
theorem buildRoot_describe (kind : OperationKind) :
    ((schema.rootName? kind).map schema.describeRoot).mapM
      (buildRoot (schema.types.map schema.describeType)) = .ok (schema.rootName? kind) := by
  cases hroot : schema.rootName? kind with
  | none => rfl
  | some name =>
      obtain ⟨t, ht, hobject⟩ := Schema.root_registered h.consistent hroot
      have hkind : t.kind = .object := by simpa [NamedType.isObject] using hobject
      have hbuild : buildRoot (schema.types.map schema.describeType) (schema.describeRoot name) =
          .ok name := by
        simp only [buildRoot, Schema.describeRoot, kindOf_describe ht, hkind, bind, Except.bind]
        rfl
      simp only [Option.map_some, Option.mapM_some, hbuild]
      rfl

/-- **Descriptions hold everything.**  What a schema is made from is found in its description, with
default values as they are read. -/
theorem buildConfig_describe (hshared : ∀ t ∈ schema.types, Registry.shared t = t)
    (options : BuildOptions) :
    buildConfig schema.describe options = .ok
      { description := schema.description
        query := schema.query
        mutation := schema.mutation
        subscription := schema.subscription
        types := schema.types.map (·.mapDefaults Value.reread)
        directives := some (schema.directives.map (·.mapDefaults Value.reread))
        assumeValid := options.assumeValid } := by
  have htypes := mapM_describe fun t ht => buildType_describe h ht (hshared t ht)
  have hdirectives := mapM_describe fun directive hd => buildDirective_describe h hd
  have hquery := buildRoot_describe h .query
  have hmutation := buildRoot_describe h .mutation
  have hsubscription := buildRoot_describe h .subscription
  simp only [Schema.rootName?] at hquery hmutation hsubscription
  simp only [buildConfig, Schema.describe, distinctRecords_describe h.nodup, htypes, hdirectives,
    hquery, hmutation, hsubscription, bind, Except.bind]
  rfl

end

end Introspection

end GraphQL
