import GraphQL.Proofs.Definitions
import GraphQL.Proofs.Registry

/-!
# Sound type systems

What has to hold of a document that defines a schema, said without rules and walks, and the theorem
that the check for such documents reports nothing exactly if it holds.

Each rule says its part of the conditions. Three of them look directives up, and of several
definitions of one directive they take the last one; since defining a directive twice is a fault of
its own, it does not matter which. The types that are known without being defined are those of the
standard schema and the built-in scalars, and the standard schema has all types of introspection
because they refer to each other, beginning with the type that describes schemas.
-/

namespace GraphQL

/-! ## What the standard schema knows -/

namespace Schema

/-- The types of the standard schema are standard types. -/
theorem standard_types_subset {t : NamedType} (h : t ∈ standard.types) :
    Standard.type? t.name = some t := by
  rcases mem_types_ofConfig h with hgiven | ⟨hstandard, _⟩
  · cases hgiven
  · exact hstandard

/-- The names that are registered for the standard schema before built-in scalars are left out. -/
def standardNames : List String :=
  Registry.names (Registry.addStandard []
    (Directive.specified.flatMap Directive.references ++ [Standard.schema.name]) [])

/-- The standard types that a registered standard type refers to are registered. -/
theorem standardNames_closed {t : NamedType} (ht : Standard.type? t.name = some t)
    (hregistered : t.name ∈ standardNames) {name : String} (hname : name ∈ t.references)
    (hstandard : (Standard.type? name).isSome) : name ∈ standardNames := by
  obtain ⟨u, hu, heq⟩ := List.mem_map.mp hregistered
  have hadded := Registry.addStandard_extends []
    (Directive.specified.flatMap Directive.references ++ [Standard.schema.name]) []
  have hself : Standard.type? u.name = some u := by
    rcases hadded.added u hu with hold | hnew
    · cases hold
    · exact hnew.1
  rw [heq, ht] at hself
  obtain rfl : t = u := Option.some.inj hself
  rcases Registry.addStandard_closed _ _ _ t hu with hold | hclosed
  · cases hold
  · rcases hclosed name hname hstandard with hgiven | hthere
    · cases hgiven
    · exact hthere

/-- The types of introspection are registered: they refer to each other, beginning with the one that
describes schemas. -/
theorem introspection_mem_standardNames {t : NamedType} (ht : t ∈ Standard.introspection) :
    t.name ∈ standardNames := by
  have hschema : Standard.schema.name ∈ standardNames := by
    rcases Registry.mem_addStandard_of_waiting []
      (Directive.specified.flatMap Directive.references ++ [Standard.schema.name]) []
      Standard.schema.name (by simp) (by decide) with hgiven | hthere
    · cases hgiven
    · exact hthere
  have htype : Standard.type.name ∈ standardNames :=
    standardNames_closed rfl hschema (by decide) (by decide)
  have hdirective : Standard.directive.name ∈ standardNames :=
    standardNames_closed rfl hschema (by decide) (by decide)
  have hlocation : Standard.directiveLocation.name ∈ standardNames :=
    standardNames_closed rfl hdirective (by decide) (by decide)
  have hparts : ∀ u ∈ [Standard.typeKind, Standard.field, Standard.inputValue,
      Standard.enumValue], u.name ∈ standardNames := by
    intro u hu
    have hreferred : u.name ∈ Standard.type.references ∧ (Standard.type? u.name).isSome := by
      revert u
      decide
    exact standardNames_closed rfl htype hreferred.1 hreferred.2
  simp only [Standard.introspection, List.mem_cons, List.not_mem_nil, or_false] at ht
  rcases ht with rfl | rfl | rfl | rfl | rfl | rfl | rfl | rfl
  · exact hschema
  · exact hdirective
  · exact hlocation
  · exact htype
  · exact hparts _ (by simp)
  · exact hparts _ (by simp)
  · exact hparts _ (by simp)
  · exact hparts _ (by simp)

/-- The standard schema has the specified directives. -/
theorem standard_directives : standard.directives = Directive.specified :=
  Registry.directives_eq_self (by decide)

/-- What is registered for the standard schema and is no built-in scalar is a type of it. -/
theorem standard_type?_of_registered {name : String} (h : name ∈ standardNames)
    (hscalar : name ∉ builtinScalarNames) : (standard.type? name).isSome := by
  rw [isSome_type?_iff]
  obtain ⟨t, ht, rfl⟩ := List.mem_map.mp h
  refine List.mem_map.mpr ⟨t, List.mem_filter.mpr ⟨?_, by simp [hscalar]⟩, rfl⟩
  have hdirectives : Registry.directives Directive.specified = Directive.specified :=
    standard_directives
  simpa [Registry.firsts, Registry.names, Registry.collect, hdirectives] using ht

/-- Known without being defined are the built-in scalars and the types of introspection. -/
theorem standard_known_iff {name : String} :
    name ∈ builtinScalarNames ∨ (standard.type? name).isSome ↔
      name ∈ builtinScalarNames ∨ (Standard.introspection? name).isSome := by
  constructor
  · rintro (hscalar | hknown)
    · exact .inl hscalar
    · obtain ⟨t, ht⟩ := Option.isSome_iff_exists.mp hknown
      obtain ⟨hmem, rfl⟩ := mem_of_type? ht
      have hstandard : t ∈ Standard.scalars ++ Standard.introspection :=
        List.mem_of_find?_eq_some (standard_types_subset hmem)
      rcases List.mem_append.mp hstandard with hscalar | hintrospection
      · left
        have hscalars : ∀ t ∈ Standard.scalars, t.name ∈ builtinScalarNames := by decide
        exact hscalars t hscalar
      · right
        rw [Standard.introspection?, List.find?_isSome]
        exact ⟨t, hintrospection, by simp⟩
  · rintro (hscalar | hintrospection)
    · exact .inl hscalar
    · right
      rw [Standard.introspection?, List.find?_isSome] at hintrospection
      obtain ⟨t, ht, hname⟩ := hintrospection
      obtain rfl : t.name = name := by simpa using hname
      have hscalars : ∀ t ∈ Standard.introspection, t.name ∉ builtinScalarNames := by decide
      exact standard_type?_of_registered (introspection_mem_standardNames ht) (hscalars t ht)

end Schema

/-! ## The conditions -/

/-- What a directive allows its uses: where they stand, what they are given, and whether they are
repeated. -/
structure DirectiveSignature where
  locations : List DirectiveLocation
  arguments : List String
  repeatable : Bool

/-- The signature of a directive, as it is defined. -/
def DirectiveDefinition.signature (definition : DirectiveDefinition) : DirectiveSignature where
  locations := definition.locations.map Located.item
  arguments := definition.arguments.map (·.item.name.item)
  repeatable := definition.repeatable

/-- The signature of a directive of a schema. -/
def Directive.signature (directive : Directive) : DirectiveSignature where
  locations := directive.locations
  arguments := directive.arguments.map InputValue.name
  repeatable := directive.repeatable

namespace Document

/-- A name stands for a directive with some signature: one that the document defines or, if it
defines none of that name, a specified one. -/
def Declares (document : Document) (name : String) (signature : DirectiveSignature) : Prop :=
  (∃ node ∈ document.directives, node.item.name.item = name ∧ node.item.signature = signature) ∨
    (∀ node ∈ document.directives, node.item.name.item ≠ name) ∧
      ∃ directive ∈ Directive.specified, directive.name = name ∧ directive.signature = signature

/-- The definitions and extensions of a type. -/
def typesNamed (document : Document) (name : String) : List (Located TypeDefinition) :=
  document.types.filter (·.item.name.item = name)

/-- The types that the definitions of a document refer to. -/
def typeReferences (document : Document) : List String :=
  document.schemas.flatMap (fun node => node.item.roots.map (·.item.type.item)) ++
    document.types.flatMap (fun node => node.item.body.references.map Located.item) ++
    document.fieldDefinitions.map (·.item.type.item.innermost) ++
    document.argumentDefinitions.map (·.item.type.item.innermost) ++
    document.inputFieldDefinitions.map (·.item.type.item.innermost)

/-- The directives on fields, arguments, input fields and enum values, with what they stand on. -/
def innerSites (document : Document) : List (DirectiveLocation × List (Located DirectiveUse)) :=
  document.fieldDefinitions.map (fun node => (.fieldDefinition, node.item.directives)) ++
    document.argumentDefinitions.map (fun node => (.argumentDefinition, node.item.directives)) ++
    document.inputFieldDefinitions.map
      (fun node => (.inputFieldDefinition, node.item.directives)) ++
    document.enumValueDefinitions.map (fun node => (.enumValue, node.item.directives))

/-- All directives on definitions, with what they stand on. -/
def directiveSites (document : Document) :
    List (DirectiveLocation × List (Located DirectiveUse)) :=
  document.schemas.map (fun node => (.schema, node.item.directives)) ++
    document.types.map (fun node => (node.item.body.location, node.item.directives)) ++
    document.innerSites

/-- Of some uses of directives at one place, those that may not be repeated are not. -/
def UsedOnce (document : Document) (uses : List (Located DirectiveUse)) : Prop :=
  ∀ name signature, document.Declares name signature → signature.repeatable = false →
    (uses.filter (·.item.name.item = name)).length ≤ 1

/-- Everything that has to hold of a document that defines a schema. The definitions and extensions
of one type are one place for directives, and so are those of the schema. -/
structure SoundTypeSystem (document : Document) : Prop where
  loneSchema : (document.schemas.filter (!·.item.extension)).length ≤ 1
  roots : (document.schemas.flatMap fun node => node.item.roots.map (·.item.kind)).Nodup
  types : (Rules.definedTypes document).Nodup
  directives : (document.directives.map (·.item.name.item)).Nodup
  enumValues : ∀ name, ((document.typesNamed name).flatMap fun node =>
    node.item.body.enumValues.map (·.item.name.item)).Nodup
  fields : ∀ name, ((document.typesNamed name).flatMap fun node =>
    node.item.body.fields.map (·.item.name.item) ++
      node.item.body.inputFields.map (·.item.name.item)).Nodup
  fieldArguments : ∀ field ∈ document.fieldDefinitions,
    (field.item.arguments.map (·.item.name.item)).Nodup
  directiveArguments : ∀ directive ∈ document.directives,
    (directive.item.arguments.map (·.item.name.item)).Nodup
  references : ∀ name ∈ document.typeReferences, name ∈ Rules.definedTypes document ∨
    name ∈ builtinScalarNames ∨ (Standard.introspection? name).isSome
  uses : ∀ site ∈ document.directiveSites, ∀ use ∈ site.2, ∃ signature,
    document.Declares use.item.name.item signature ∧ site.1 ∈ signature.locations
  givenArguments : ∀ site ∈ document.directiveSites, ∀ use ∈ site.2, ∀ signature,
    document.Declares use.item.name.item signature →
      ∀ argument ∈ Rules.givenArguments use.item.arguments,
        argument.name.item ∈ signature.arguments
  schemaDirectives : document.UsedOnce (document.schemas.flatMap (·.item.directives))
  typeDirectives : ∀ name,
    document.UsedOnce ((document.typesNamed name).flatMap (·.item.directives))
  innerDirectives : ∀ site ∈ document.innerSites, document.UsedOnce site.2

/-! ## Parts and what stands in them -/

section

variable {document : Document}

/-- The types that a document refers to are those that its parts name. -/
theorem mem_typeReferences_iff {name : String} :
    name ∈ document.typeReferences ↔
      ∃ node, document.Part node ∧ name ∈ node.typeNames.map Prod.fst := by
  simp only [typeReferences, List.mem_append, List.mem_flatMap, List.mem_map]
  constructor
  · rintro ((((⟨node, hmem, root, hroot, rfl⟩ | ⟨node, hmem, reference, hreference, rfl⟩) |
      ⟨node, hmem, rfl⟩) | ⟨node, hmem, rfl⟩) | ⟨node, hmem, rfl⟩)
    · exact ⟨_, .schema hmem, root.item.type.start, List.mem_map_of_mem hroot, rfl⟩
    · exact ⟨_, .type hmem, reference.start, List.mem_map_of_mem hreference, rfl⟩
    · exact ⟨_, .field hmem, _, List.mem_singleton_self _, rfl⟩
    · exact ⟨_, .argument hmem, _, List.mem_singleton_self _, rfl⟩
    · exact ⟨_, .inputField hmem, _, List.mem_singleton_self _, rfl⟩
  · rintro ⟨node, hpart, named, hnamed, rfl⟩
    cases hpart with
    | schema hmem =>
        obtain ⟨root, hroot, rfl⟩ := List.mem_map.mp hnamed
        exact .inl (.inl (.inl (.inl ⟨_, hmem, root, hroot, rfl⟩)))
    | type hmem =>
        obtain ⟨reference, hreference, rfl⟩ := List.mem_map.mp hnamed
        exact .inl (.inl (.inl (.inr ⟨_, hmem, reference, hreference, rfl⟩)))
    | field hmem =>
        obtain rfl := List.mem_singleton.mp hnamed
        exact .inl (.inl (.inr ⟨_, hmem, rfl⟩))
    | argument hmem =>
        obtain rfl := List.mem_singleton.mp hnamed
        exact .inl (.inr ⟨_, hmem, rfl⟩)
    | inputField hmem =>
        obtain rfl := List.mem_singleton.mp hnamed
        exact .inr ⟨_, hmem, rfl⟩
    | enumValue hmem => cases hnamed
    | directive hmem => cases hnamed

/-- The directives on the definitions of a document are those on its parts. -/
theorem mem_directiveSites_iff {site : DirectiveLocation × List (Located DirectiveUse)} :
    site ∈ document.directiveSites ↔
      ∃ node, document.Part node ∧ node.directiveSite? = some site := by
  simp only [directiveSites, innerSites, List.mem_append, List.mem_map]
  constructor
  · rintro ((⟨node, hmem, rfl⟩ | ⟨node, hmem, rfl⟩) |
      (((⟨node, hmem, rfl⟩ | ⟨node, hmem, rfl⟩) | ⟨node, hmem, rfl⟩) | ⟨node, hmem, rfl⟩))
    · exact ⟨_, .schema hmem, rfl⟩
    · exact ⟨_, .type hmem, rfl⟩
    · exact ⟨_, .field hmem, rfl⟩
    · exact ⟨_, .argument hmem, rfl⟩
    · exact ⟨_, .inputField hmem, rfl⟩
    · exact ⟨_, .enumValue hmem, rfl⟩
  · rintro ⟨node, hpart, hsite⟩
    cases hpart with
    | schema hmem => exact .inl (.inl ⟨_, hmem, Option.some.inj hsite⟩)
    | type hmem => exact .inl (.inr ⟨_, hmem, Option.some.inj hsite⟩)
    | field hmem => exact .inr (.inl (.inl (.inl ⟨_, hmem, Option.some.inj hsite⟩)))
    | argument hmem => exact .inr (.inl (.inl (.inr ⟨_, hmem, Option.some.inj hsite⟩)))
    | inputField hmem => exact .inr (.inl (.inr ⟨_, hmem, Option.some.inj hsite⟩))
    | enumValue hmem => exact .inr (.inr ⟨_, hmem, Option.some.inj hsite⟩)
    | directive hmem => cases hsite

/-- The directives on the parts of a document, one by one. -/
theorem forall_use_iff {P : Located DirectiveUse → Prop} :
    (∀ site ∈ document.directiveSites, ∀ use ∈ site.2, P use) ↔
      ∀ node, document.Part node → ∀ use ∈ node.directives, P use := by
  constructor
  · intro h node hpart use huse
    unfold Node.directives at huse
    cases hsite : node.directiveSite? with
    | none => simp [hsite] at huse
    | some site =>
        simp only [hsite, Option.map_some, Option.getD_some] at huse
        exact h site (mem_directiveSites_iff.mpr ⟨node, hpart, hsite⟩) use huse
  · intro h site hmem use huse
    obtain ⟨node, hpart, hsite⟩ := mem_directiveSites_iff.mp hmem
    apply h node hpart use
    simpa [Node.directives, hsite] using huse

end

end Document

/-! ## Rule by rule -/

namespace Rules

/-- The signature of a directive: the document's own definition goes before the schema's. -/
def signature? (schema : Schema) (document : Document) (name : String) :
    Option DirectiveSignature :=
  match document.directive? name with
  | some definition => some definition.signature
  | none => (schema.directive? name).map Directive.signature

theorem directiveLocations?_eq (schema : Schema) (document : Document) (name : String) :
    directiveLocations? schema document name =
      (signature? schema document name).map DirectiveSignature.locations := by
  unfold directiveLocations? signature?
  cases document.directive? name with
  | none => rw [Option.map_map]; rfl
  | some definition => rfl

theorem directiveArguments?_eq (schema : Schema) (document : Document) (name : String) :
    directiveArguments? schema document name =
      (signature? schema document name).map DirectiveSignature.arguments := by
  unfold directiveArguments? signature?
  cases document.directive? name with
  | none => rw [Option.map_map]; rfl
  | some definition => rfl

theorem isUnique_eq (schema : Schema) (document : Document) (name : String) :
    isUnique schema document name =
      (signature? schema document name).any (!·.repeatable) := by
  unfold isUnique signature?
  cases document.directive? name with
  | none => rw [Option.any_map]; rfl
  | some definition => rfl

/-- Among the names that are kept, a name occurs as often as among all, or not at all. -/
theorem count_map_filter {α : Type} (name : α → String) (kept : String → Bool) (items : List α)
    (wanted : String) :
    ((items.filter fun item => kept (name item)).map name).count wanted =
      if kept wanted then (items.filter (name · = wanted)).length else 0 := by
  rw [List.count_eq_countP, List.countP_map, List.countP_filter]
  by_cases hkept : kept wanted
  · rw [if_pos hkept, ← List.countP_eq_length_filter]
    refine List.countP_congr fun item _ => ?_
    simp only [Function.comp_apply, Bool.and_eq_true, beq_iff_eq, decide_eq_true_eq]
    exact and_iff_left_of_imp fun heq => heq ▸ hkept
  · rw [if_neg hkept, List.countP_eq_zero]
    intro item _
    simp only [Function.comp_apply, Bool.and_eq_true, beq_iff_eq, not_and]
    exact fun heq => heq ▸ hkept

/-- If no directive is defined twice, the signature found is the one that is declared. -/
theorem signature?_eq_some_iff {document : Document}
    (hnodup : (document.directives.map (·.item.name.item)).Nodup) {name : String}
    {signature : DirectiveSignature} :
    signature? .standard document name = some signature ↔ document.Declares name signature := by
  have hreverse : (document.directives.reverse.map (·.item.name.item)).Nodup := by
    rw [List.map_reverse]
    exact List.nodup_reverse.mpr hnodup
  have hspecified : (Directive.specified.map Directive.name).Nodup := by decide
  unfold signature? Document.directive? Document.Declares
  cases hfind : document.directives.reverse.find? (·.item.name.item = name) with
  | none =>
      have hnone : ∀ node ∈ document.directives, node.item.name.item ≠ name := by
        simpa using hfind
      simp only [Option.map_none, Option.map_eq_some_iff, Schema.directive?,
        Schema.standard_directives, find?_key_iff hspecified]
      grind
  | some node =>
      obtain ⟨hmem, hname⟩ := (find?_key_iff hreverse).mp hfind
      rw [List.mem_reverse] at hmem
      simp only [Option.map_some, Option.some.injEq]
      constructor
      · rintro rfl
        exact .inl ⟨node, hmem, hname, rfl⟩
      · rintro (⟨other, hother, hsame, rfl⟩ | ⟨habsent, _⟩)
        · have hequal : node = other :=
            List.inj_on_of_nodup_map hnodup hmem hother (hname.trans hsame.symm)
          rw [hequal]
        · exact absurd hname (habsent node hmem)

section

variable {document : Document} (hsystem : document.IsTypeSystem)

include hsystem

/-- A rule on the document is silent exactly if it has nothing to say about the document. -/
theorem run_onDocument_eq_nil_iff (check : Document → List Fault) (schema : Schema) :
    (Rule.onDocument check).run (document.events schema) = [] ↔ check document = [] := by
  unfold Rule.onDocument
  rw [run_typeSystem_eq_nil_iff
    (.of_each (fun _ _ => rfl) (fun _ _ => rfl) (fun _ _ _ => rfl)) schema hsystem]
  refine and_iff_left fun node hpart => ?_
  cases hpart <;> exact ⟨rfl, fun _ _ => rfl⟩

theorem loneSchemaDefinition_silent_iff (schema : Schema) :
    loneSchemaDefinition.run (document.events schema) = [] ↔
      (document.schemas.filter (!·.item.extension)).length ≤ 1 := by
  unfold loneSchemaDefinition
  rw [run_onDocument_eq_nil_iff hsystem, List.map_eq_nil_iff, List.drop_eq_nil_iff]

theorem uniqueOperationTypes_silent_iff (schema : Schema) :
    uniqueOperationTypes.run (document.events schema) = [] ↔
      (document.schemas.flatMap fun node => node.item.roots.map (·.item.kind)).Nodup := by
  have hinjective : Function.Injective OperationKind.keyword := by
    intro kind other hsame
    cases kind <;> cases other <;> simp_all [OperationKind.keyword]
  unfold uniqueOperationTypes
  rw [run_onDocument_eq_nil_iff hsystem, repetitions_eq_nil_iff,
    ← List.nodup_map_iff hinjective]
  simp [List.map_flatMap, Function.comp_def]

theorem uniqueTypeNames_silent_iff (schema : Schema) :
    uniqueTypeNames.run (document.events schema) = [] ↔ (definedTypes document).Nodup := by
  unfold uniqueTypeNames
  rw [run_onDocument_eq_nil_iff hsystem, repetitions_eq_nil_iff, List.map_map]
  exact Iff.rfl

theorem uniqueDirectiveNames_silent_iff (schema : Schema) :
    uniqueDirectiveNames.run (document.events schema) = [] ↔
      (document.directives.map (·.item.name.item)).Nodup := by
  unfold uniqueDirectiveNames
  rw [run_onDocument_eq_nil_iff hsystem, repetitions_eq_nil_iff, List.map_map]
  exact Iff.rfl

omit hsystem in
/-- What holds of nothing holds of the definitions and extensions of every type that the document
defines or extends exactly if it holds of those under any name. -/
theorem forall_typesNamed_iff {p : List (Located TypeDefinition) → Prop} (hnil : p []) :
    (∀ name ∈ (document.types.map (·.item.name.item)).eraseDups, p (document.typesNamed name)) ↔
      ∀ name, p (document.typesNamed name) := by
  constructor
  · intro h name
    by_cases hmem : name ∈ document.types.map (·.item.name.item)
    · exact h name (by simpa using hmem)
    · have hnone : document.typesNamed name = [] := by
        simpa [Document.typesNamed] using hmem
      rw [hnone]
      exact hnil
  · exact fun h name _ => h name

omit hsystem in
/-- Asking something of the parts of each type is asking it for every name. -/
theorem forall_partsByType_iff {parts : TypeBody → List (String × Position)}
    {violation : String → String → Violation} :
    ((partsByType document parts).flatMap fun (type, names) =>
        repetitions names (violation type)) = [] ↔
      ∀ name, ((document.typesNamed name).flatMap fun node =>
        (parts node.item.body).map Prod.fst).Nodup := by
  simp only [partsByType, List.flatMap_map, List.flatMap_eq_nil_iff, repetitions_eq_nil_iff,
    List.map_flatMap]
  exact forall_typesNamed_iff (p := fun nodes =>
    (nodes.flatMap fun node => (parts node.item.body).map Prod.fst).Nodup) List.nodup_nil

omit hsystem in
theorem map_valueNames (body : TypeBody) :
    body.valueNames.map Prod.fst = body.enumValues.map (·.item.name.item) := by
  cases body <;> simp [TypeBody.valueNames, TypeBody.enumValues, Located.start]

omit hsystem in
theorem map_fieldNames (body : TypeBody) :
    body.fieldNames.map Prod.fst =
      body.fields.map (·.item.name.item) ++ body.inputFields.map (·.item.name.item) := by
  cases body <;>
    simp [TypeBody.fieldNames, TypeBody.fields, TypeBody.inputFields, Located.start]

theorem uniqueEnumValueNames_silent_iff (schema : Schema) :
    uniqueEnumValueNames.run (document.events schema) = [] ↔
      ∀ name, ((document.typesNamed name).flatMap fun node =>
        node.item.body.enumValues.map (·.item.name.item)).Nodup := by
  unfold uniqueEnumValueNames
  rw [run_onDocument_eq_nil_iff hsystem, forall_partsByType_iff]
  simp only [map_valueNames]

theorem uniqueFieldDefinitionNames_silent_iff (schema : Schema) :
    uniqueFieldDefinitionNames.run (document.events schema) = [] ↔
      ∀ name, ((document.typesNamed name).flatMap fun node =>
        node.item.body.fields.map (·.item.name.item) ++
          node.item.body.inputFields.map (·.item.name.item)).Nodup := by
  unfold uniqueFieldDefinitionNames
  rw [run_onDocument_eq_nil_iff hsystem, forall_partsByType_iff]
  simp only [map_fieldNames]

theorem uniqueArgumentDefinitionNames_silent_iff (schema : Schema) :
    uniqueArgumentDefinitionNames.run (document.events schema) = [] ↔
      (∀ field ∈ document.fieldDefinitions,
        (field.item.arguments.map (·.item.name.item)).Nodup) ∧
      ∀ directive ∈ document.directives,
        (directive.item.arguments.map (·.item.name.item)).Nodup := by
  have hcheck (owner : String) (arguments : List (Located InputValueDefinition)) :
      uniqueArgumentDefinitionNames.check owner arguments = [] ↔
        (arguments.map (·.item.name.item)).Nodup := by
    unfold uniqueArgumentDefinitionNames.check
    rw [repetitions_eq_nil_iff, List.map_map]
    exact Iff.rfl
  unfold uniqueArgumentDefinitionNames
  rw [run_typeSystem_eq_nil_iff
    (.of_each (fun _ _ => rfl) (fun _ _ => rfl) (fun _ _ _ => rfl)) schema hsystem]
  constructor
  · rintro ⟨_, h⟩
    constructor
    · intro field hfield
      obtain ⟨node, hnode, hfield⟩ := List.mem_flatMap.mp hfield
      have hsilent := (h _ (.type hnode)).1
      exact (hcheck _ _).mp (List.flatMap_eq_nil_iff.mp hsilent field hfield)
    · intro directive hdirective
      exact (hcheck _ _).mp (h _ (.directive hdirective)).1
  · rintro ⟨hfields, hdirectives⟩
    refine ⟨rfl, fun node hpart => ?_⟩
    cases hpart with
    | type hmem =>
        refine ⟨List.flatMap_eq_nil_iff.mpr fun field hfield => ?_, fun _ _ => rfl⟩
        exact (hcheck _ _).mpr (hfields field (List.mem_flatMap.mpr ⟨_, hmem, hfield⟩))
    | directive hmem => exact ⟨(hcheck _ _).mpr (hdirectives _ hmem), fun _ _ => rfl⟩
    | _ => exact ⟨rfl, fun _ _ => rfl⟩

theorem knownTypeNames_silent_iff :
    (knownTypeNames builtinScalarNames .standard document).run
        (document.events .standard) = [] ↔
      ∀ name ∈ document.typeReferences, name ∈ definedTypes document ∨
        name ∈ builtinScalarNames ∨ (Standard.introspection? name).isSome := by
  have hcheck (node : Node) :
      (node.typeNames.filter fun named =>
        !((definedTypes document ++ builtinScalarNames).contains named.1 ||
          (Schema.standard.type? named.1).isSome)) = [] ↔
        ∀ name ∈ node.typeNames.map Prod.fst, name ∈ definedTypes document ∨
          name ∈ builtinScalarNames ∨ (Standard.introspection? name).isSome := by
    rw [List.filter_eq_nil_iff, List.forall_mem_map]
    refine forall₂_congr fun named _ => ?_
    rw [← Schema.standard_known_iff]
    simp only [List.contains_eq_mem, List.mem_append]
    grind
  simp only [knownTypeNames]
  rw [run_typeSystem_eq_nil_iff
    (.of_each (fun _ _ => rfl) (fun _ _ => rfl) (fun _ _ _ => rfl)) .standard hsystem]
  constructor
  · rintro ⟨_, h⟩ name hname
    obtain ⟨node, hpart, hnamed⟩ := Document.mem_typeReferences_iff.mp hname
    exact (hcheck node).mp (List.map_eq_nil_iff.mp (h node hpart).1) name hnamed
  · intro h
    refine ⟨rfl, fun node hpart => ⟨List.map_eq_nil_iff.mpr ((hcheck node).mpr ?_), fun _ _ => rfl⟩⟩
    exact fun name hnamed => h name (Document.mem_typeReferences_iff.mpr ⟨node, hpart, hnamed⟩)

variable (hnodup : (document.directives.map (·.item.name.item)).Nodup)

include hnodup

theorem knownDirectives_silent_iff :
    (knownDirectives .standard document).run (document.events .standard) = [] ↔
      ∀ site ∈ document.directiveSites, ∀ use ∈ site.2, ∃ signature,
        document.Declares use.item.name.item signature ∧ site.1 ∈ signature.locations := by
  unfold knownDirectives
  rw [run_typeSystem_eq_nil_iff
    (.of_each (fun _ _ => rfl) (fun _ _ => rfl) (fun _ _ _ => rfl)) .standard hsystem]
  constructor
  · rintro ⟨_, h⟩ site hsite use hmem
    obtain ⟨node, hpart, hnode⟩ := Document.mem_directiveSites_iff.mp hsite
    have hsilent := (h node hpart).1
    simp only [hnode, directiveLocations?_eq] at hsilent
    have hone := List.filterMap_eq_nil_iff.mp hsilent use hmem
    cases hsignature : signature? .standard document use.item.name.item with
    | none => simp [hsignature] at hone
    | some signature =>
        refine ⟨signature, (signature?_eq_some_iff hnodup).mp hsignature, ?_⟩
        simpa [hsignature] using hone
  · intro h
    refine ⟨rfl, fun node hpart => ⟨?_, fun _ _ => rfl⟩⟩
    cases hnode : node.directiveSite? with
    | none => simp only [hnode]
    | some site =>
        simp only [hnode, directiveLocations?_eq]
        refine List.filterMap_eq_nil_iff.mpr fun use hmem => ?_
        obtain ⟨signature, hdeclared, hlocation⟩ :=
          h site (Document.mem_directiveSites_iff.mpr ⟨node, hpart, hnode⟩) use hmem
        simp [(signature?_eq_some_iff hnodup).mpr hdeclared, hlocation]

theorem knownArgumentNames_silent_iff :
    (knownArgumentNames .standard document).run (document.events .standard) = [] ↔
      ∀ site ∈ document.directiveSites, ∀ use ∈ site.2, ∀ signature,
        document.Declares use.item.name.item signature →
          ∀ argument ∈ givenArguments use.item.arguments,
            argument.name.item ∈ signature.arguments := by
  have hunknown (arguments : Option (Located (List Argument))) (known : List String)
      (violation : String → Violation) :
      knownArgumentNames.unknown arguments known violation = [] ↔
        ∀ argument ∈ givenArguments arguments, argument.name.item ∈ known := by
    simp [knownArgumentNames.unknown]
  simp only [Document.forall_use_iff, ← signature?_eq_some_iff hnodup]
  unfold knownArgumentNames
  rw [run_typeSystem_eq_nil_iff
    (.of_each (fun _ _ => rfl) (fun _ _ => rfl) (fun _ _ _ => rfl)) .standard hsystem]
  constructor
  · rintro ⟨_, h⟩ node hpart use hmem signature hsignature
    have hsilent := (h node hpart).2 use hmem
    simp only [directiveArguments?_eq, hsignature, Option.map_some] at hsilent
    exact (hunknown _ _ _).mp hsilent
  · intro h
    refine ⟨rfl, fun node hpart => ⟨by cases hpart <;> rfl, fun use hmem => ?_⟩⟩
    cases hsignature : signature? .standard document use.item.name.item with
    | none => simp only [directiveArguments?_eq, hsignature, Option.map_none]
    | some signature =>
        simp only [directiveArguments?_eq, hsignature, Option.map_some]
        exact (hunknown _ _ _).mpr (h node hpart use hmem signature hsignature)

omit hsystem in
/-- The uses of directives at one place are checked as `UsedOnce` says. -/
theorem usedOnce_iff (uses : List (Located DirectiveUse)) :
    uniqueDirectivesPerLocation.check .standard document uses = [] ↔ document.UsedOnce uses := by
  have hunique (name : String) : isUnique .standard document name = true ↔
      ∃ signature, document.Declares name signature ∧ signature.repeatable = false := by
    simp [isUnique_eq, Option.any_eq_true, signature?_eq_some_iff hnodup]
  unfold uniqueDirectivesPerLocation.check uniqueDirectives
  rw [repetitions_eq_nil_iff, List.map_map, List.nodup_iff_count]
  change (∀ name, ((uses.filter fun use => isUnique .standard document use.item.name.item).map
    (·.item.name.item)).count name ≤ 1) ↔ _
  simp only [count_map_filter (fun use : Located DirectiveUse => use.item.name.item)
    (isUnique .standard document)]
  constructor
  · intro h name signature hdeclared hrepeatable
    have hone := h name
    rwa [if_pos ((hunique name).mpr ⟨signature, hdeclared, hrepeatable⟩)] at hone
  · intro h name
    split
    · rename_i hname
      obtain ⟨signature, hdeclared, hrepeatable⟩ := (hunique name).mp hname
      exact h name signature hdeclared hrepeatable
    · exact Nat.zero_le 1

theorem uniqueDirectivesPerLocation_silent_iff :
    (uniqueDirectivesPerLocation .standard document).run (document.events .standard) = [] ↔
      document.UsedOnce (document.schemas.flatMap (·.item.directives)) ∧
      (∀ name, document.UsedOnce ((document.typesNamed name).flatMap (·.item.directives))) ∧
      ∀ site ∈ document.innerSites, document.UsedOnce site.2 := by
  have hnames : ((document.types.map (·.item.name.item)).eraseDups.flatMap fun name =>
      uniqueDirectivesPerLocation.check .standard document
        ((document.typesNamed name).flatMap (·.item.directives))) = [] ↔
      ∀ name, document.UsedOnce ((document.typesNamed name).flatMap (·.item.directives)) := by
    simp only [List.flatMap_eq_nil_iff, usedOnce_iff hnodup]
    exact forall_typesNamed_iff (p := fun nodes =>
      document.UsedOnce (nodes.flatMap (·.item.directives))) fun _ _ _ _ => Nat.zero_le 1
  unfold uniqueDirectivesPerLocation
  rw [run_typeSystem_eq_nil_iff
    (.of_each (fun _ _ => rfl) (fun _ _ => rfl) (fun _ _ _ => rfl)) .standard hsystem,
    ← and_assoc]
  refine and_congr ?_ ?_
  · rw [List.append_eq_nil_iff, usedOnce_iff hnodup]
    exact and_congr_right fun _ => hnames
  · simp only [Document.innerSites, List.mem_append, List.mem_map]
    constructor
    · rintro h site (((⟨node, hmem, rfl⟩ | ⟨node, hmem, rfl⟩) | ⟨node, hmem, rfl⟩) |
        ⟨node, hmem, rfl⟩)
      · exact (usedOnce_iff hnodup _).mp (h _ (.field hmem)).1
      · exact (usedOnce_iff hnodup _).mp (h _ (.argument hmem)).1
      · exact (usedOnce_iff hnodup _).mp (h _ (.inputField hmem)).1
      · exact (usedOnce_iff hnodup _).mp (h _ (.enumValue hmem)).1
    · intro h node hpart
      refine ⟨?_, fun _ _ => rfl⟩
      cases hpart with
      | schema _ => rfl
      | type _ => rfl
      | field hmem =>
          exact (usedOnce_iff hnodup _).mpr (h _ (.inl (.inl (.inl ⟨_, hmem, rfl⟩))))
      | argument hmem =>
          exact (usedOnce_iff hnodup _).mpr (h _ (.inl (.inl (.inr ⟨_, hmem, rfl⟩))))
      | inputField hmem =>
          exact (usedOnce_iff hnodup _).mpr (h _ (.inl (.inr ⟨_, hmem, rfl⟩)))
      | enumValue hmem =>
          exact (usedOnce_iff hnodup _).mpr (h _ (.inr ⟨_, hmem, rfl⟩))
      | directive _ => rfl

end

end Rules

/-- A shop: a schema that is extended, an enum that is extended, and a directive that may be
repeated on a type and its extensions. -/
def shopDocument : Document := [
  .directive (.unlocated ⟨none, .unlocated "tag", [
      .unlocated ⟨none, .unlocated "name", .unlocated (.named "String" true), none, []⟩],
    true, [.unlocated .object, .unlocated .enum]⟩),
  .schema (.unlocated ⟨false, none, [], [.unlocated ⟨.query, .unlocated "Query"⟩]⟩),
  .schema (.unlocated ⟨true, none, [], [.unlocated ⟨.mutation, .unlocated "Query"⟩]⟩),
  .type (.unlocated ⟨false, none, .unlocated "Query", [
      .unlocated ⟨.unlocated "tag", some (.unlocated [
        ⟨.unlocated "name", .unlocated (.string "root")⟩])⟩,
      .unlocated ⟨.unlocated "tag", none⟩],
    .object [] [
      .unlocated ⟨none, .unlocated "price", [
          .unlocated ⟨none, .unlocated "currency", .unlocated (.named "Currency" false), none, []⟩],
        .unlocated (.named "Float" true), [.unlocated ⟨.unlocated "deprecated", none⟩]⟩]⟩),
  .type (.unlocated ⟨false, none, .unlocated "Currency", [],
    .enum [.unlocated ⟨none, .unlocated "EUR", []⟩]⟩),
  .type (.unlocated ⟨true, none, .unlocated "Currency", [.unlocated ⟨.unlocated "tag", none⟩],
    .enum [.unlocated ⟨none, .unlocated "USD", []⟩]⟩)]

end GraphQL
