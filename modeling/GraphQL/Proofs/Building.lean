import GraphQL.Proofs.Rebuilding
import GraphQL.Proofs.Wire
import Mathlib.Data.List.Forall2

/-!
# What making a schema looks up

Building refers types to each other by name, and looks at the kinds that the records of a
description tell. `NamedType.Grounded` says that a type refers to known types of the right kinds, for
any notion of what is known. One lemma for each part says what has been looked up once the part is
made; `Built` puts them together for the configuration that a schema is made from.
-/

namespace GraphQL

/-- What a type refers to is known and of the right kind, and it does not list itself. -/
structure NamedType.Grounded (known : String → TypeKind → Prop) (t : NamedType) : Prop where
  fields : ∀ field ∈ t.fields, ∃ kind, known field.type.innermost kind ∧ kind.isOutput
  inputs : ∀ input ∈ t.inputs, ∃ kind, known input.type.innermost kind ∧ kind.isInput
  members : ∀ name ∈ t.members, known name .object
  interfaces : ∀ name ∈ t.interfaces, name ≠ t.name ∧ known name .interface

namespace NamedType

theorem innermost_mem_of_field {t : NamedType} {field : Field} (h : field ∈ t.fields) :
    field.type.innermost ∈ t.valueReferences :=
  List.mem_append_left _ (List.mem_flatMap_of_mem h List.mem_cons_self)

theorem innermost_mem_of_input {t : NamedType} {input : InputValue} (h : input ∈ t.inputs) :
    input.type.innermost ∈ t.valueReferences := by
  rcases List.mem_append.mp h with hfields | hinputs
  · obtain ⟨field, hfield, hargument⟩ := List.mem_flatMap.mp hfields
    exact List.mem_append_left _ (List.mem_flatMap_of_mem hfield
      (List.mem_cons_of_mem _ (List.mem_map_of_mem hargument)))
  · exact List.mem_append_right _ (List.mem_map_of_mem hinputs)

/-- A type that refers to nothing is grounded. -/
theorem grounded_of_references_eq_nil {known : String → TypeKind → Prop} {t : NamedType}
    (h : t.references = []) : t.Grounded known := by
  have hreferences : ∀ name, name ∉ t.references := by simp [h]
  refine ⟨fun field hfield => ?_, fun input hinput => ?_, fun name hname => ?_,
    fun name hname => ?_⟩
  · exact (hreferences _ (List.mem_append_right _ (innermost_mem_of_field hfield))).elim
  · exact (hreferences _ (List.mem_append_right _ (innermost_mem_of_input hinput))).elim
  · exact (hreferences name (List.mem_append_left _ (List.mem_append_left _ hname))).elim
  · exact (hreferences name (List.mem_append_left _ (List.mem_append_right _ hname))).elim

/-- A type stays grounded if what it refers to stays known. Built-in scalars only have to stay known
if fields or inputs have them: nothing else can refer to them. -/
theorem Grounded.imp {known known' : String → TypeKind → Prop} {t : NamedType}
    (h : t.Grounded known)
    (hvalue : ∀ name ∈ t.valueReferences, ∀ kind, known name kind → known' name kind)
    (hother : ∀ name ∈ t.references, ∀ kind, kind ≠ .scalar → known name kind →
      known' name kind) : t.Grounded known' where
  fields field hfield := by
    obtain ⟨kind, hknown, hkind⟩ := h.fields field hfield
    exact ⟨kind, hvalue _ (innermost_mem_of_field hfield) kind hknown, hkind⟩
  inputs input hinput := by
    obtain ⟨kind, hknown, hkind⟩ := h.inputs input hinput
    exact ⟨kind, hvalue _ (innermost_mem_of_input hinput) kind hknown, hkind⟩
  members name hname := by
    refine hother name ?_ _ (by decide) (h.members name hname)
    exact List.mem_append_left _ (List.mem_append_left _ hname)
  interfaces name hname := by
    obtain ⟨hself, hknown⟩ := h.interfaces name hname
    refine ⟨hself, hother name ?_ _ (by decide) hknown⟩
    exact List.mem_append_left _ (List.mem_append_right _ hname)

end NamedType

namespace Introspection

/-! ## What the records promise -/

/-- Some records tell the kind of the type of a name. -/
def Described (records : List TypeRecord) (name : String) (kind : TypeKind) : Prop :=
  ∃ record ∈ records, record.name = name ∧ record.kind = kind

theorem bind_eq_ok {α β : Type} {x : Build α} {f : α → Build β} {b : β}
    (h : (x >>= f) = .ok b) : ∃ a, x = .ok a ∧ f a = .ok b := by
  cases x with
  | error e => cases h
  | ok a => exact ⟨a, rfl, h⟩

/-- Items are made of other items one by one. -/
theorem forall₂_of_mapM {α β : Type} {make : α → Build β} {items : List α} {made : List β}
    (h : items.mapM make = .ok made) : List.Forall₂ (fun a b => make a = .ok b) items made := by
  induction items generalizing made with
  | nil =>
      cases h
      exact .nil
  | cons a items ih =>
      rw [List.mapM_cons] at h
      obtain ⟨b, hb, h⟩ := bind_eq_ok h
      obtain ⟨rest, hrest, h⟩ := bind_eq_ok h
      cases h
      exact .cons hb (ih hrest)

theorem exists_of_mem_right {α β : Type} {related : α → β → Prop} {items : List α}
    {others : List β} (h : List.Forall₂ related items others) {b : β} (hb : b ∈ others) :
    ∃ a ∈ items, related a b := by
  induction h with
  | nil => cases hb
  | @cons a c items others hhead _ ih =>
      rcases List.mem_cons.mp hb with rfl | hrest
      · exact ⟨a, List.mem_cons_self, hhead⟩
      · obtain ⟨d, hd, hrelated⟩ := ih hrest
        exact ⟨d, List.mem_cons_of_mem _ hd, hrelated⟩

/-- What is made is made of one of the items. -/
theorem made_of_mem {α β : Type} {make : α → Build β} {items : List α} {made : List β}
    (h : items.mapM make = .ok made) {b : β} (hb : b ∈ made) : ∃ a ∈ items, make a = .ok b :=
  exists_of_mem_right (forall₂_of_mapM h) hb

section

variable {records : List TypeRecord}

theorem kindOf_eq_ok {name : String} {kind : TypeKind} (h : kindOf records name = .ok kind) :
    Described records name kind := by
  unfold kindOf at h
  split at h
  · rename_i record hfind
    cases h
    exact ⟨record, List.mem_of_find?_eq_some hfind, by simpa using List.find?_some hfind, rfl⟩
  · cases h

/-- Wrapping keeps what is wrapped. -/
theorem innermost_rewrap {t u : TypeLiteral} {wrappers : List TypeKind}
    (h : rewrap t wrappers = .ok u) : u.innermost = t.innermost := by
  induction wrappers generalizing u with
  | nil =>
      cases h
      rfl
  | cons kind inner ih =>
      obtain ⟨v, hv, h⟩ := bind_eq_ok h
      split at h
      · split at h
        · cases h
        · cases h
          rw [← ih hv]
          cases v <;> rfl
      · cases h
        exact (ih hv :)

/-- A reference leads to a record, which tells the kind of the type inside. -/
theorem decode_eq_ok {reference : TypeRef} {t : TypeLiteral} {kind : TypeKind}
    (h : decode records reference = .ok (t, kind)) : Described records t.innermost kind := by
  obtain ⟨⟨wrappers, inner⟩, _, h⟩ := bind_eq_ok h
  cases hname : inner.name with
  | none => simp [hname, throw, throwThe, MonadExceptOf.throw] at h
  | some name =>
      simp only [hname] at h
      obtain ⟨found, hfound, h⟩ := bind_eq_ok h
      obtain ⟨u, hu, h⟩ := bind_eq_ok h
      cases h
      rw [innermost_rewrap hu]
      exact kindOf_eq_ok hfound

theorem outputType_eq_ok {reference : TypeRef} {t : TypeLiteral}
    (h : outputType records reference = .ok t) :
    ∃ kind, Described records t.innermost kind ∧ kind.isOutput := by
  obtain ⟨⟨u, kind⟩, hdecode, h⟩ := bind_eq_ok h
  dsimp only at h
  split at h
  · rename_i hkind
    cases h
    exact ⟨kind, decode_eq_ok hdecode, hkind⟩
  · cases h

theorem inputType_eq_ok {reference : TypeRef} {t : TypeLiteral}
    (h : inputType records reference = .ok t) :
    ∃ kind, Described records t.innermost kind ∧ kind.isInput := by
  obtain ⟨⟨u, kind⟩, hdecode, h⟩ := bind_eq_ok h
  dsimp only at h
  split at h
  · rename_i hkind
    cases h
    exact ⟨kind, decode_eq_ok hdecode, hkind⟩
  · cases h

theorem namedOfKind_eq_ok {expected : TypeKind} {error : TypeLiteral → BuildError}
    {reference : TypeRef} {name : String}
    (h : namedOfKind records expected error reference = .ok name) :
    Described records name expected := by
  obtain ⟨⟨u, kind⟩, hdecode, h⟩ := bind_eq_ok h
  dsimp only at h
  split at h
  · rename_i other _
    split at h
    · rename_i hkind
      cases h
      subst hkind
      exact decode_eq_ok hdecode
    · cases h
  · cases h

theorem buildInput_eq_ok {record : InputValueRecord} {input : InputValue}
    (h : buildInput records record = .ok input) :
    ∃ kind, Described records input.type.innermost kind ∧ kind.isInput := by
  obtain ⟨type, htype, h⟩ := bind_eq_ok h
  obtain ⟨default, _, h⟩ := bind_eq_ok h
  cases h
  exact inputType_eq_ok htype

theorem buildInputs_eq_ok {parts : List InputValueRecord} {inputs : List InputValue}
    (h : parts.mapM (buildInput records) = .ok inputs) :
    ∀ input ∈ inputs, ∃ kind, Described records input.type.innermost kind ∧ kind.isInput := by
  intro input hinput
  obtain ⟨record, _, hrecord⟩ := made_of_mem h hinput
  exact buildInput_eq_ok hrecord

theorem buildField_eq_ok {record : FieldRecord} {field : Field}
    (h : buildField records record = .ok field) :
    (∃ kind, Described records field.type.innermost kind ∧ kind.isOutput) ∧
      ∀ argument ∈ field.arguments,
        ∃ kind, Described records argument.type.innermost kind ∧ kind.isInput := by
  obtain ⟨type, htype, h⟩ := bind_eq_ok h
  obtain ⟨parts, _, h⟩ := bind_eq_ok h
  obtain ⟨arguments, harguments, h⟩ := bind_eq_ok h
  cases h
  exact ⟨outputType_eq_ok htype, buildInputs_eq_ok harguments⟩

theorem buildInterfaces_eq_ok {record : TypeRecord} {names : List String}
    (h : buildInterfaces records record = .ok names) :
    ∀ name ∈ names, name ≠ record.name ∧ Described records name .interface := by
  intro name hname
  have hlisted (references : List TypeRef)
      (hmade : (references.mapM fun reference => do
        let name ← namedOfKind records .interface .interfaceTypeExpected reference
        if name = record.name then throw (BuildError.interfaceTypeExpected (.named name false))
        return name) = Except.ok names) :
      name ≠ record.name ∧ Described records name .interface := by
    obtain ⟨reference, _, hname⟩ := made_of_mem hmade hname
    obtain ⟨found, hfound, hname⟩ := bind_eq_ok hname
    dsimp only at hname
    split at hname
    · cases hname
    · rename_i hother
      cases hname
      exact ⟨hother, namedOfKind_eq_ok hfound⟩
  unfold buildInterfaces at h
  dsimp only at h
  split at h
  · exact hlisted _ h
  · split at h
    · exact hlisted _ h
    · cases h
  · cases h

/-- What an object or interface refers to has been looked up. -/
theorem grounded_of_fields {record : TypeRecord} {t : NamedType} {parts : List FieldRecord}
    (hname : t.name = record.name)
    (hinterfaces : buildInterfaces records record = .ok t.interfaces)
    (hfields : parts.mapM (buildField records) = .ok t.fields)
    (hmembers : t.members = []) (hinputs : t.inputFields = []) :
    t.Grounded (Described records) where
  fields field hfield := by
    obtain ⟨part, _, hpart⟩ := made_of_mem hfields hfield
    exact (buildField_eq_ok hpart).1
  inputs input hinput := by
    rw [NamedType.inputs, hinputs, List.append_nil] at hinput
    obtain ⟨field, hfield, hargument⟩ := List.mem_flatMap.mp hinput
    obtain ⟨part, _, hpart⟩ := made_of_mem hfields hfield
    exact (buildField_eq_ok hpart).2 input hargument
  members name hmember := by
    rw [hmembers] at hmember
    cases hmember
  interfaces name hinterface := by
    rw [hname]
    exact buildInterfaces_eq_ok hinterfaces name hinterface

/-- The shape of a type is of the kind that its record tells, and what it refers to has been looked
up. -/
theorem buildShape_eq_ok {record : TypeRecord} {shape : Shape}
    (h : buildShape records record = .ok shape) :
    shape.kind = record.kind ∧
      (⟨record.name, record.description, shape⟩ : NamedType).Grounded (Described records) := by
  unfold buildShape at h
  cases hkind : record.kind with
  | scalar =>
      simp only [hkind] at h
      cases h
      exact ⟨rfl, NamedType.grounded_of_references_eq_nil rfl⟩
  | object =>
      simp only [hkind] at h
      obtain ⟨interfaces, hinterfaces, h⟩ := bind_eq_ok h
      obtain ⟨parts, _, h⟩ := bind_eq_ok h
      obtain ⟨fields, hfields, h⟩ := bind_eq_ok h
      cases h
      exact ⟨rfl, grounded_of_fields rfl hinterfaces hfields rfl rfl⟩
  | interface =>
      simp only [hkind] at h
      obtain ⟨interfaces, hinterfaces, h⟩ := bind_eq_ok h
      obtain ⟨parts, _, h⟩ := bind_eq_ok h
      obtain ⟨fields, hfields, h⟩ := bind_eq_ok h
      cases h
      exact ⟨rfl, grounded_of_fields rfl hinterfaces hfields rfl rfl⟩
  | union =>
      simp only [hkind] at h
      obtain ⟨parts, _, h⟩ := bind_eq_ok h
      obtain ⟨members, hmembers, h⟩ := bind_eq_ok h
      cases h
      refine ⟨rfl, ⟨?_, ?_, fun name hname => ?_, ?_⟩⟩
      case refine_3 =>
        obtain ⟨part, _, hpart⟩ := made_of_mem hmembers hname
        exact namedOfKind_eq_ok hpart
      all_goals simp [NamedType.fields, NamedType.inputs, NamedType.inputFields,
        NamedType.interfaces]
  | enum =>
      simp only [hkind] at h
      obtain ⟨parts, _, h⟩ := bind_eq_ok h
      cases h
      exact ⟨rfl, NamedType.grounded_of_references_eq_nil rfl⟩
  | inputObject =>
      simp only [hkind] at h
      obtain ⟨parts, _, h⟩ := bind_eq_ok h
      obtain ⟨fields, hfields, h⟩ := bind_eq_ok h
      cases h
      refine ⟨rfl, ⟨?_, fun input hinput => ?_, ?_, ?_⟩⟩
      case refine_2 => exact buildInputs_eq_ok hfields input hinput
      all_goals simp [NamedType.fields, NamedType.members, NamedType.interfaces]
  | list =>
      simp only [hkind] at h
      cases h
  | nonNull =>
      simp only [hkind] at h
      cases h

/-- What is known of the type that is made of a record: it is a standard type, or what it refers to
has been looked up. -/
structure MadeOf (records : List TypeRecord) (record : TypeRecord) (t : NamedType) : Prop where
  name : t.name = record.name
  kind : t.kind = record.kind
  shared : Registry.shared t = t
  grounded : Standard.type? t.name = some t ∨ t.Grounded (Described records)

theorem buildType_eq_ok {record : TypeRecord} {t : NamedType}
    (h : buildType records record = .ok t) : MadeOf records record t := by
  unfold buildType at h
  split at h
  · rename_i standard hstandard
    cases h
    obtain ⟨hfound, hkind⟩ := Option.filter_eq_some_iff.mp hstandard
    refine ⟨Standard.name_of_type? hfound, by simpa using hkind, ?_,
      .inl (Standard.type?_name hfound)⟩
    simp [Registry.shared, Standard.of?_self hfound]
  · rename_i hnone
    obtain ⟨shape, hshape, h⟩ := bind_eq_ok h
    cases h
    obtain ⟨hkind, hgrounded⟩ := buildShape_eq_ok hshape
    refine ⟨rfl, hkind, ?_, .inr hgrounded⟩
    have hof : Standard.of? ⟨record.name, record.description, shape⟩ = none := by
      rw [Standard.of?, ← hnone]
      exact congrArg (fun kind => (Standard.type? record.name).filter (·.kind = kind)) hkind
    simp [Registry.shared, hof]

theorem buildDirective_eq_ok {record : DirectiveRecord} {directive : Directive}
    (h : buildDirective records record = .ok directive) :
    ∀ argument ∈ directive.arguments,
      ∃ kind, Described records argument.type.innermost kind ∧ kind.isInput := by
  obtain ⟨parts, _, h⟩ := bind_eq_ok h
  obtain ⟨arguments, harguments, h⟩ := bind_eq_ok h
  obtain ⟨locations, _, h⟩ := bind_eq_ok h
  cases h
  exact buildInputs_eq_ok harguments

theorem buildRoot_eq_ok {root : Option RootRecord} {name : String}
    (h : root.mapM (buildRoot records) = .ok (some name)) : Described records name .object := by
  cases root with
  | none => cases h
  | some root =>
      obtain ⟨found, hfound, h⟩ := bind_eq_ok h
      cases h
      obtain ⟨kind, hkind, hfound⟩ := bind_eq_ok hfound
      split at hfound
      · rename_i hobject
        cases hfound
        exact hobject ▸ kindOf_eq_ok hkind
      · cases hfound

end

/-- What is known of a configuration that is made of a description. -/
structure Built (record : SchemaRecord) (config : Schema.Config) : Prop where
  types : List.Forall₂ (MadeOf (distinctRecords record.types)) (distinctRecords record.types)
    config.types
  roots : ∀ name ∈ config.roots, Described (distinctRecords record.types) name .object
  directives : ∀ directive ∈ config.distinctDirectives, ∀ argument ∈ directive.arguments,
    ∃ kind, Described (distinctRecords record.types) argument.type.innermost kind ∧ kind.isInput

theorem buildConfig_eq_ok {record : SchemaRecord} {options : BuildOptions}
    {config : Schema.Config} (h : buildConfig record options = .ok config) :
    Built record config := by
  obtain ⟨types, htypes, h⟩ := bind_eq_ok h
  obtain ⟨query, hquery, h⟩ := bind_eq_ok h
  obtain ⟨mutation, hmutation, h⟩ := bind_eq_ok h
  obtain ⟨subscription, hsubscription, h⟩ := bind_eq_ok h
  obtain ⟨directives, hdirectives, h⟩ := bind_eq_ok h
  cases h
  refine ⟨(forall₂_of_mapM htypes).imp fun _ _ => buildType_eq_ok, fun name hname => ?_,
    fun directive hdirective => ?_⟩
  · have hcases : some name = query ∨ some name = mutation ∨ some name = subscription := by
      simpa [Schema.Config.roots] using hname
    rcases hcases with rfl | rfl | rfl
    · exact buildRoot_eq_ok hquery
    · exact buildRoot_eq_ok hmutation
    · exact buildRoot_eq_ok hsubscription
  · have hgiven := (Registry.putsByName_directive.distinct_foldl directives).passed directive
      hdirective
    obtain ⟨part, _, hpart⟩ := made_of_mem hdirectives hgiven
    exact buildDirective_eq_ok hpart

theorem eq_ok_of_forM {α : Type} {check : α → Build Unit} {items : List α}
    (h : items.forM check = .ok ()) : ∀ a ∈ items, check a = .ok () := by
  induction items with
  | nil =>
      intro a ha
      cases ha
  | cons b items ih =>
      obtain ⟨_, hb, hrest⟩ := bind_eq_ok h
      intro a ha
      rcases List.mem_cons.mp ha with rfl | hmem
      · exact hb
      · exact ih hrest a hmem

/-- Once a schema is made, all its default values have been checked. -/
theorem build_eq_ok {record : SchemaRecord} {options : BuildOptions} {schema : Schema}
    (h : build record options = .ok schema) :
    ∃ config, Built record config ∧ schema = Schema.ofConfig config ∧
      ∀ entry ∈ inputCoordinates schema, checkDefault schema entry.1 entry.2 = .ok () := by
  obtain ⟨config, hconfig, h⟩ := bind_eq_ok h
  obtain ⟨_, hdefaults, h⟩ := bind_eq_ok h
  dsimp only at h
  split at h
  · cases h
  · cases h
    exact ⟨config, buildConfig_eq_ok hconfig, rfl, eq_ok_of_forM hdefaults⟩

/-- The description that an answer holds. -/
def described? (answer : Json) : Option SchemaRecord :=
  match answer.get? "__schema" with
  | some (.object entries) => (SchemaRecord.reader (.object entries)).toOption
  | _ => none

theorem described?_toAnswer (record : SchemaRecord) :
    described? record.toAnswer = some record := by
  obtain ⟨entries, hschema, hread⟩ := record.reader_toAnswer
  simp only [described?, hschema, hread, Except.toOption]

/-- A schema is made of an answer exactly if it is made of the description in it. -/
theorem buildAnswer_eq_ok_iff {answer : Json} {options : BuildOptions} {schema : Schema} :
    buildAnswer answer options = .ok schema ↔
      ∃ record, described? answer = some record ∧ build record options = .ok schema := by
  unfold buildAnswer described?
  cases answer.get? "__schema" with
  | none => simp
  | some found =>
      cases found with
      | object entries =>
          dsimp only
          cases SchemaRecord.reader (.object entries) with
          | ok record => simp [Except.toOption]
          | error mismatch => simp [Except.toOption]
      | _ => simp

end Introspection

end GraphQL
