import Mathlib
import GraphQL.Proofs.Building
import GraphQL.Proofs.Collecting

/-!
# What is checked of trusted descriptions

A client may trust a server to describe a consistent schema. The parts of the description still have
to fit together: whatever the options say, a schema is only made if its types, roots and directives
refer to registered types of the right kinds and the default values fit.

Building looks at the kinds that records tell, while the registry decides which types the schema
has. That types are grounded is carried from the records to the given types, from these to all types
that are collected, and from these to the ones that are registered.
-/

namespace GraphQL

namespace Introspection

/-- No record has the name of a standard type of another kind. -/
def SchemaRecord.KeepsStandardKinds (record : SchemaRecord) : Prop :=
  ∀ described ∈ record.types, ∀ t ∈ Standard.type? described.name, t.kind = described.kind

instance (record : SchemaRecord) : Decidable record.KeepsStandardKinds :=
  inferInstanceAs (Decidable (∀ described ∈ record.types, _))

end Introspection

/-! ## What the registry keeps -/

/-- Some types include one of a name and kind. -/
def Registry.Includes (types : List NamedType) (name : String) (kind : TypeKind) : Prop :=
  ∃ t ∈ types, t.name = name ∧ t.kind = kind

/-- Every standard type is found under its name. -/
theorem Standard.type?_of_mem {t : NamedType} (h : t ∈ types) : type? t.name = some t := by
  have hnodup : (types.map NamedType.name).Nodup := by decide
  exact (find?_key_iff hnodup).mpr ⟨h, rfl⟩

/-- Standard types refer to each other only. -/
theorem Standard.grounded {t : NamedType} (h : t ∈ types) :
    t.Grounded (Registry.Includes types) := by
  have hfields : ∀ t ∈ types, ∀ field ∈ t.fields,
      ∃ u ∈ types, u.name = field.type.innermost ∧ u.kind.isOutput = true := by decide +kernel
  have hinputs : ∀ t ∈ types, ∀ input ∈ t.inputs,
      ∃ u ∈ types, u.name = input.type.innermost ∧ u.kind.isInput = true := by decide +kernel
  have hothers : ∀ t ∈ types, t.members = [] ∧ t.interfaces = [] := by decide +kernel
  refine ⟨fun field hfield => ?_, fun input hinput => ?_, fun name hname => ?_,
    fun name hname => ?_⟩
  · obtain ⟨u, hu, hname, hkind⟩ := hfields t h field hfield
    exact ⟨u.kind, ⟨u, hu, hname, rfl⟩, hkind⟩
  · obtain ⟨u, hu, hname, hkind⟩ := hinputs t h input hinput
    exact ⟨u.kind, ⟨u, hu, hname, rfl⟩, hkind⟩
  · rw [(hothers t h).1] at hname
    cases hname
  · rw [(hothers t h).2] at hname
    cases hname

namespace Introspection.Built

open Schema

variable {record : SchemaRecord} {config : Config} (h : Built record config)

include h

/-- The types that are given are those of the records, in the same order. -/
theorem names_types :
    Registry.names config.types = (distinctRecords record.types).map TypeRecord.name := by
  rw [Registry.names, eq_comm, ← List.forall₂_eq_eq_eq, List.forall₂_map_left_iff,
    List.forall₂_map_right_iff]
  exact h.types.imp fun _ _ hmade => hmade.name.symm

/-- All types are collected as they are made. -/
theorem givenTypes_eq : givenTypes config = config.types := by
  have hshared : config.types.map Registry.shared = config.types := by
    conv => rhs; rw [← List.map_id config.types]
    refine List.map_congr_left fun t ht => ?_
    obtain ⟨_, _, hmade⟩ := exists_of_mem_right h.types ht
    exact hmade.shared
  have hnodup : (Registry.names config.types).Nodup := by
    rw [h.names_types]
    exact (putsByName_record.distinct_foldl record.types).nodup
  rw [givenTypes, hshared, Registry.firsts_eq_self hnodup]

/-- What the records promise is given. -/
theorem included_of_described {name : String} {kind : TypeKind}
    (hdescribed : Described (distinctRecords record.types) name kind) :
    Registry.Includes (collected config) name kind := by
  obtain ⟨described, hmem, rfl, rfl⟩ := hdescribed
  obtain ⟨t, ht, hmade⟩ := exists_of_mem_right (List.Forall₂.flip h.types) hmem
  have hgiven : t ∈ givenTypes config := by
    rw [h.givenTypes_eq]
    exact ht
  exact ⟨t, givenTypes_sublist.subset hgiven, hmade.name, hmade.kind⟩

section

variable (hkinds : record.KeepsStandardKinds)

include hkinds

/-- What is collected under the name of a standard type is that type. -/
theorem eq_standard {t u : NamedType} (ht : t ∈ collected config)
    (hu : Standard.type? t.name = some u) : t = u := by
  rcases (Registry.collects_all (Registry.nodup_names_firsts _) _).added t ht with
    hgiven | ⟨hself, _⟩
  · rw [← givenTypes, h.givenTypes_eq] at hgiven
    obtain ⟨described, hdescribed, hmade⟩ := exists_of_mem_right h.types hgiven
    have hmem := (putsByName_record.distinct_foldl record.types).passed described hdescribed
    refine Registry.eq_of_shared_eq hmade.shared hu ?_
    rw [hmade.kind]
    exact hkinds described hmem u (by rw [← hmade.name, hu]; rfl)
  · rw [hself] at hu
    exact Option.some.inj hu

/-- All types that are collected are grounded in each other. -/
theorem grounded_collected {t : NamedType} (ht : t ∈ collected config) :
    t.Grounded (Registry.Includes (collected config)) := by
  have hstandard (hself : Standard.type? t.name = some t) :
      t.Grounded (Registry.Includes (collected config)) := by
    have hkeep : ∀ name ∈ t.references, ∀ kind, Registry.Includes Standard.types name kind →
        Registry.Includes (collected config) name kind := by
      rintro name hname kind ⟨u, hu, rfl, rfl⟩
      have hfound := Standard.type?_of_mem hu
      obtain ⟨v, hv, hsame⟩ := List.mem_map.mp
        (collected_closed ht hname (Option.isSome_of_mem hfound))
      have heq : v = u := h.eq_standard hkinds hv (by rw [hsame, hfound])
      exact ⟨v, hv, hsame, by rw [heq]⟩
    exact (Standard.grounded (List.mem_of_find?_eq_some hself)).imp
      (fun name hname => hkeep name (List.mem_append_right _ hname))
      (fun name hname kind _ => hkeep name hname kind)
  rcases (Registry.collects_all (Registry.nodup_names_firsts _) _).added t ht with
    hgiven | ⟨hself, _⟩
  · rw [← givenTypes, h.givenTypes_eq] at hgiven
    obtain ⟨described, _, hmade⟩ := exists_of_mem_right h.types hgiven
    rcases hmade.grounded with hself | hgrounded
    · exact hstandard hself
    · exact hgrounded.imp (fun _ _ _ => h.included_of_described)
        (fun _ _ _ _ => h.included_of_described)
  · exact hstandard hself

/-- Only scalars are collected under the names of built-in scalars. -/
theorem kind_of_builtinScalar {t : NamedType} (ht : t ∈ collected config)
    (hname : t.name ∈ builtinScalarNames) : t.kind = .scalar := by
  have hall : ∀ name ∈ builtinScalarNames, (Standard.type? name).isSome := by decide
  obtain ⟨u, hu⟩ := Option.isSome_iff_exists.mp (hall t.name hname)
  rw [h.eq_standard hkinds ht hu]
  refine Standard.kind_of_builtinScalar (List.mem_of_find?_eq_some hu) ?_
  rw [Standard.name_of_type? hu]
  exact hname

end

end Introspection.Built

namespace Schema

/-- A type of a name and kind is registered. -/
def Knows (schema : Schema) (name : String) (kind : TypeKind) : Prop :=
  ∃ t, schema.type? name = some t ∧ t.kind = kind

/-- The default value of an argument or input field is a literal of its type. -/
def AcceptsDefault (schema : Schema) (input : InputValue) : Prop :=
  ∀ value, input.default = some value →
    ∃ type, schema.resolve input.type = some type ∧ schema.literalFault? type value = none

/-- A schema whose parts fit together: all types that it refers to are registered and of the right
kinds, and all default values that are not its own fit. -/
structure Grounded (schema : Schema) : Prop where
  roots : ∀ kind name, schema.rootName? kind = some name → schema.Knows name .object
  types : ∀ t ∈ schema.types, t.Grounded schema.Knows
  directives : ∀ directive ∈ schema.directives, ∀ argument ∈ directive.arguments,
    ∃ kind, schema.Knows argument.type.innermost kind ∧ kind.isInput
  typeDefaults : ∀ t ∈ schema.types, isReservedName t.name = false → ∀ input ∈ t.inputs,
    schema.AcceptsDefault input
  directiveDefaults : ∀ directive ∈ schema.directives, ∀ argument ∈ directive.arguments,
    schema.AcceptsDefault argument

variable {config : Config}

/-- What is collected is registered, unless it is a built-in scalar that nothing refers to. -/
theorem knows_of_includes {name : String} {kind : TypeKind}
    (h : Registry.Includes (collected config) name kind)
    (hscalar : name ∈ builtinScalarNames →
      name ∈ Registry.valueReferences (ofConfig config).types (ofConfig config).directives) :
    (ofConfig config).Knows name kind := by
  obtain ⟨t, ht, rfl, rfl⟩ := h
  have hregistered : t ∈ (ofConfig config).types := by
    refine mem_types_iff.mpr ⟨ht, fun hname => ?_⟩
    rcases List.mem_append.mp (hscalar hname) with htypes | hdirectives
    · obtain ⟨u, hu, hreference⟩ := List.mem_flatMap.mp htypes
      exact List.mem_append_left _ (List.mem_flatMap_of_mem (mem_types_iff.mp hu).1 hreference)
    · exact List.mem_append_right _ hdirectives
  exact ⟨t, type?_of_mem (nodup_names_types config) hregistered, rfl⟩

/-- The same for what is no scalar. -/
theorem knows_of_includes_of_ne {record : Introspection.SchemaRecord}
    (hbuilt : Introspection.Built record config) (hkinds : record.KeepsStandardKinds)
    {name : String} {kind : TypeKind} (hkind : kind ≠ .scalar)
    (h : Registry.Includes (collected config) name kind) : (ofConfig config).Knows name kind := by
  refine knows_of_includes h fun hname => ?_
  obtain ⟨t, ht, rfl, rfl⟩ := h
  exact (hkind (hbuilt.kind_of_builtinScalar hkinds ht hname)).elim

end Schema

namespace Introspection

/-! ## Default values -/

/-- Arguments and input fields have coordinates, except those of introspection types. -/
theorem exists_coordinate_of_type {schema : Schema} {t : NamedType} (ht : t ∈ schema.types)
    (hname : isReservedName t.name = false) {input : InputValue} (h : input ∈ t.inputs) :
    ∃ coordinate, (coordinate, input) ∈ inputCoordinates schema := by
  have hbuiltin : t.isBuiltin = false := by
    by_contra hbuiltin
    have hscalar : t.kind = .scalar ∧ t.name ∈ builtinScalarNames := by
      simpa [NamedType.isBuiltin, hname] using hbuiltin
    have href := NamedType.innermost_mem_of_input h
    rw [NamedType.valueReferences_scalar hscalar.1] at href
    cases href
  have hmem : t ∈ schema.types.filter (!·.isBuiltin) :=
    List.mem_filter.mpr ⟨ht, by rw [hbuiltin]; rfl⟩
  rcases List.mem_append.mp h with hfields | hinputs
  · obtain ⟨field, hfield, hargument⟩ := List.mem_flatMap.mp hfields
    exact ⟨_, List.mem_append_left _ (List.mem_flatMap_of_mem hmem (List.mem_append_left _
      (List.mem_flatMap_of_mem hfield (List.mem_map_of_mem hargument))))⟩
  · exact ⟨_, List.mem_append_left _ (List.mem_flatMap_of_mem hmem (List.mem_append_right _
      (List.mem_map_of_mem hinputs)))⟩

theorem exists_coordinate_of_directive {schema : Schema} {directive : Directive}
    (hdirective : directive ∈ schema.directives) {input : InputValue}
    (h : input ∈ directive.arguments) :
    ∃ coordinate, (coordinate, input) ∈ inputCoordinates schema :=
  ⟨_, List.mem_append_right _ (List.mem_flatMap_of_mem hdirective (List.mem_map_of_mem h))⟩

/-- A default value that has been checked fits, if its type is registered. -/
theorem acceptsDefault_of_checkDefault {schema : Schema} {coordinate : String} {input : InputValue}
    (h : checkDefault schema coordinate input = .ok ())
    (hknown : ∃ kind, schema.Knows input.type.innermost kind ∧ kind.isInput) :
    schema.AcceptsDefault input := by
  intro value hvalue
  obtain ⟨_, ⟨t, ht, _⟩, _⟩ := hknown
  obtain ⟨type, htype, _⟩ := Schema.resolve_of_innermost ht
  refine ⟨type, htype, ?_⟩
  cases hfault : schema.literalFault? type value with
  | none => rfl
  | some fault => simp [checkDefault, hvalue, htype, hfault] at h

/-! ## Whole descriptions -/

namespace Built

variable {record : SchemaRecord} {config : Schema.Config} (h : Built record config)

include h

theorem grounded_directives {directive : Directive}
    (hdirective : directive ∈ (Schema.ofConfig config).directives) {argument : InputValue}
    (hargument : argument ∈ directive.arguments) :
    ∃ kind, (Schema.ofConfig config).Knows argument.type.innermost kind ∧ kind.isInput := by
  obtain ⟨kind, hdescribed, hkind⟩ := h.directives directive hdirective argument hargument
  refine ⟨kind, ?_, hkind⟩
  refine Schema.knows_of_includes (h.included_of_described hdescribed) fun _ => ?_
  exact List.mem_append_right _
    (List.mem_flatMap_of_mem hdirective (List.mem_map_of_mem hargument))

/-- The names of the records are registered, except for built-in scalars that nothing needs. -/
theorem record_registered {described : TypeRecord} (hdescribed : described ∈ record.types) :
    ((Schema.ofConfig config).type? described.name).isSome ∨
      described.name ∈ builtinScalarNames ∧
        described.name ∉ Registry.valueReferences (Schema.ofConfig config).types
          (Schema.ofConfig config).directives := by
  by_cases hunused : described.name ∈ builtinScalarNames ∧
      described.name ∉ Registry.valueReferences (Schema.ofConfig config).types
        (Schema.ofConfig config).directives
  · exact .inr hunused
  · have hname := ((putsByName_record.distinct_foldl record.types).names described.name).mpr
      (List.mem_map_of_mem hdescribed)
    obtain ⟨other, hother, hsame⟩ := List.mem_map.mp hname
    have hincluded := h.included_of_described ⟨other, hother, hsame, rfl⟩
    obtain ⟨t, ht, _⟩ := Schema.knows_of_includes hincluded fun hbuiltin => by
      by_contra hreference
      exact hunused ⟨hbuiltin, hreference⟩
    exact .inl (Option.isSome_of_mem ht)

section

variable (hkinds : record.KeepsStandardKinds)

include hkinds

theorem grounded_roots {kind : OperationKind} {name : String}
    (hroot : (Schema.ofConfig config).rootName? kind = some name) :
    (Schema.ofConfig config).Knows name .object := by
  have hdescribed := h.roots name (Schema.mem_roots_of_rootName? hroot)
  exact Schema.knows_of_includes_of_ne h hkinds (by decide) (h.included_of_described hdescribed)

/-- The registered types are grounded in each other: what fields and inputs refer to is kept. -/
theorem grounded_types {t : NamedType} (ht : t ∈ (Schema.ofConfig config).types) :
    t.Grounded (Schema.ofConfig config).Knows := by
  refine (h.grounded_collected hkinds (Schema.mem_types_iff.mp ht).1).imp ?_ ?_
  · intro name hname kind hknown
    exact Schema.knows_of_includes hknown fun _ =>
      List.mem_append_left _ (List.mem_flatMap_of_mem ht hname)
  · intro name _ kind hkind hknown
    exact Schema.knows_of_includes_of_ne h hkinds hkind hknown

/-- If all default values have been checked, the schema fits together. -/
theorem grounded (hdefaults : ∀ entry ∈ inputCoordinates (Schema.ofConfig config),
    checkDefault (Schema.ofConfig config) entry.1 entry.2 = .ok ()) :
    (Schema.ofConfig config).Grounded where
  roots _ _ hroot := h.grounded_roots hkinds hroot
  types _ ht := h.grounded_types hkinds ht
  directives _ hdirective _ hargument := h.grounded_directives hdirective hargument
  typeDefaults t ht hname input hinput := by
    obtain ⟨coordinate, hmem⟩ := exists_coordinate_of_type ht hname hinput
    exact acceptsDefault_of_checkDefault (hdefaults _ hmem)
      ((h.grounded_types hkinds ht).inputs input hinput)
  directiveDefaults directive hdirective argument hargument := by
    obtain ⟨coordinate, hmem⟩ := exists_coordinate_of_directive hdirective hargument
    exact acceptsDefault_of_checkDefault (hdefaults _ hmem)
      (h.grounded_directives hdirective hargument)

end

end Built

/-- **Trust does not replace checks.**  Whatever the options say, a schema that is made of a
description fits together and has all types of the description, except for built-in scalars that it
does not need, if no type takes the name of a standard type of another kind. -/
theorem buildAnswer_grounded {answer : Json} {options : BuildOptions} {schema : Schema}
    (h : buildAnswer answer options = .ok schema)
    (hkinds : ∀ record ∈ described? answer, record.KeepsStandardKinds) :
    schema.Grounded ∧ ∃ record, described? answer = some record ∧
      ∀ described ∈ record.types, (schema.type? described.name).isSome ∨
        described.name ∈ builtinScalarNames ∧
          described.name ∉ Registry.valueReferences schema.types schema.directives := by
  obtain ⟨record, hrecord, hbuild⟩ := buildAnswer_eq_ok_iff.mp h
  obtain ⟨config, hbuilt, rfl, hdefaults⟩ := build_eq_ok hbuild
  refine ⟨hbuilt.grounded (hkinds record hrecord) hdefaults, record, hrecord, ?_⟩
  intro described hdescribed
  exact hbuilt.record_registered hdescribed

/-- A record that only tells the kind of a type. -/
def bareRecord (kind : TypeKind) (name : String) : TypeRecord :=
  ⟨kind, name, none, none, none, none, none, none, none⟩

/-- Describes the floor of a room, which is the seventh unless something else is said. -/
def floorRecord : InputValueRecord :=
  ⟨"floor", none, .nonNull (.named .scalar "Int"), some "7", false, none⟩

/-- Describes what can be asked about a hotel. -/
def hotelQueryRecord : TypeRecord :=
  { bareRecord .object "Query" with
    interfaces := some (some [.named .interface "Room"])
    fields := some [
      ⟨"rooms", none, some [floorRecord], .list (.named .interface "Room"), false, none⟩] }

/-- Describes a hotel. The schema is not consistent: its interface has no fields. One type is
described twice, and most of what can be said about standard types is left out. -/
def hotelRecord : SchemaRecord where
  description := none
  queryType := some ⟨none, "Query"⟩
  mutationType := none
  subscriptionType := none
  types := [
    bareRecord .scalar "Query",
    { bareRecord .interface "Room" with interfaces := some none, fields := some [] },
    hotelQueryRecord,
    bareRecord .scalar "Int", bareRecord .scalar "String", bareRecord .scalar "Boolean"] ++
    Standard.introspection.map fun t => bareRecord t.kind t.name
  directives := []

/-- What can be asked about a hotel. -/
def hotelQuery : NamedType where
  name := "Query"
  shape := .object ["Room"] [
    { name := "rooms", type := .list (.named "Room" false) false,
      arguments := [{ name := "floor", type := .named "Int" true, default := some (.int 7) }] }]

/-- What the schema of the hotel is made from. -/
def hotelConfig : Schema.Config where
  query := some "Query"
  types := [hotelQuery, { name := "Room", shape := .interface [] [] }] ++
    (Standard.scalars.filter fun t => ["Int", "String", "Boolean"].contains t.name) ++
    Standard.introspection
  directives := some []
  assumeValid := true

theorem hotelConfig_closed : hotelConfig.Closed where
  shared := Registry.shared_of_map_shared rfl
  nodup := by decide +kernel
  references := by decide +kernel
  others := by decide +kernel
  scalars := by decide +kernel

theorem buildType_hotelQueryRecord :
    buildType (distinctRecords hotelRecord.types) hotelQueryRecord = .ok hotelQuery := by
  have hdefault : defaultValue "floor" "7" = .ok (.int 7) := by cbv
  have hinput : inputType (distinctRecords hotelRecord.types) floorRecord.type =
      .ok (.named "Int" true) := rfl
  have hfloor : buildInput (distinctRecords hotelRecord.types) floorRecord =
      .ok { name := "floor", type := .named "Int" true, default := some (.int 7) } := by
    rw [buildInput, hinput]
    simp only [floorRecord, Option.mapM_some, hdefault, bind, Except.bind, Functor.map, Except.map]
    rfl
  have hinterfaces : buildInterfaces (distinctRecords hotelRecord.types) hotelQueryRecord =
      .ok ["Room"] := rfl
  have houtput : outputType (distinctRecords hotelRecord.types) (.list (.named .interface "Room")) =
      .ok (.list (.named "Room" false) false) := rfl
  have hkind : hotelQueryRecord.kind = .object := rfl
  simp only [buildType, buildShape, hkind, hinterfaces]
  simp only [hotelQueryRecord, bareRecord, part, bind, Except.bind, List.mapM_cons, buildField,
    houtput, hfloor]
  rfl

theorem build_hotelRecord :
    build hotelRecord { assumeValid := true } = .ok (Schema.ofConfig hotelConfig) := by
  have hrest : ((distinctRecords hotelRecord.types).drop 1).mapM
      (buildType (distinctRecords hotelRecord.types)) = .ok (hotelConfig.types.drop 1) := rfl
  have htypes : (distinctRecords hotelRecord.types).mapM
      (buildType (distinctRecords hotelRecord.types)) = .ok hotelConfig.types := by
    calc (distinctRecords hotelRecord.types).mapM (buildType (distinctRecords hotelRecord.types))
      _ = (hotelQueryRecord :: (distinctRecords hotelRecord.types).drop 1).mapM
          (buildType (distinctRecords hotelRecord.types)) := rfl
      _ = .ok hotelConfig.types := by
          rw [List.mapM_cons, buildType_hotelQueryRecord, hrest]
          rfl
  have hconfig : buildConfig hotelRecord { assumeValid := true } = .ok hotelConfig := by
    rw [buildConfig, htypes]
    rfl
  rw [build, hconfig]
  simp only [bind, Except.bind]
  rw [Schema.ofConfig_of_closed hotelConfig_closed]
  rfl

/-- The schema of the hotel is made once its description is trusted, and fits together. -/
theorem hotelRecord_grounded :
    buildAnswer hotelRecord.toAnswer { assumeValid := true } = .ok (Schema.ofConfig hotelConfig) ∧
      hotelRecord.KeepsStandardKinds ∧ (Schema.ofConfig hotelConfig).Grounded := by
  have hdescribed := described?_toAnswer hotelRecord
  have hkinds : hotelRecord.KeepsStandardKinds := by decide +kernel
  have hbuild := buildAnswer_eq_ok_iff.mpr ⟨hotelRecord, hdescribed, build_hotelRecord⟩
  refine ⟨hbuild, hkinds, (buildAnswer_grounded hbuild fun record hrecord => ?_).1⟩
  rw [hdescribed] at hrecord
  exact Option.some.inj hrecord ▸ hkinds

end Introspection

end GraphQL
