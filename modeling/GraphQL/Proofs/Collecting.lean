import GraphQL.Proofs.Registry

/-!
# Exactly the types that a schema needs

Which types a schema has, for configurations in which only scalars have the names of built-in
scalars: all types that are given, in their order, and of the standard types those that something
refers to. Built-in scalars are only kept for fields, arguments and input fields.

The registry is closed in the sense that a standard type to which one of its types refers is given
or registered. This holds of every run of additions in which the references of a type wait once it
is added (`Registry.closed_addStandard`), and so of going through the given types one by one.
-/

namespace GraphQL

/-! ## Built-in scalars -/

theorem Standard.kind_of_builtinScalar {t : NamedType} (h : t ∈ types)
    (hname : t.name ∈ builtinScalarNames) : t.kind = .scalar := by
  have hall : types.all (fun t =>
      !builtinScalarNames.contains t.name || t.kind = .scalar) = true := by decide
  have ht := List.all_eq_true.mp hall t h
  simpa [hname] using ht

/-- The standard types under other names than those of built-in scalars are those of
introspection. -/
theorem Standard.type?_eq_introspection? {name : String} (h : name ∉ builtinScalarNames) :
    type? name = introspection? name := by
  have hnone : scalars.find? (·.name = name) = none := by
    rw [List.find?_eq_none]
    intro t ht hname
    have hscalars : ∀ t ∈ scalars, t.name ∈ builtinScalarNames := by decide
    obtain rfl : t.name = name := by simpa using hname
    exact h (hscalars t ht)
  rw [type?, types, List.find?_append, hnone]
  rfl

/-- The standard types under the names of built-in scalars are the built-in scalars. -/
theorem Standard.type?_eq_scalar? {name : String} (h : name ∈ builtinScalarNames) :
    type? name = scalar? name := by
  have hall : ∀ name ∈ builtinScalarNames, (scalar? name).isSome := by decide
  obtain ⟨t, ht⟩ := Option.isSome_iff_exists.mp (hall name h)
  have hfound : scalars.find? (·.name = name) = some t := ht
  rw [type?, types, List.find?_append, ht, hfound]
  rfl

theorem NamedType.valueReferences_scalar {t : NamedType} (h : t.kind = .scalar) :
    t.valueReferences = [] := by
  unfold kind at h
  cases hshape : t.shape with
  | scalar specifiedBy => simp [valueReferences, fields, inputFields, hshape]
  | _ => simp [hshape, Shape.kind] at h

namespace Registry

/-- If only scalars are given under the names of built-in scalars, those that are registered are
types of fields or inputs of registered types: the ones left out refer to nothing. -/
theorem builtinScalar_referenced {given : List NamedType} (hnodup : (names given).Nodup)
    (hscalars : ∀ t ∈ given, t.name ∈ builtinScalarNames → t.kind = .scalar)
    {roots : List String} {directives : List Directive} {t : NamedType}
    (ht : t ∈ types given roots directives) (hname : t.name ∈ builtinScalarNames) :
    t.name ∈ valueReferences (types given roots directives) directives := by
  obtain ⟨_, hkept⟩ := List.mem_filter.mp ht
  rw [List.contains_iff_mem.mpr hname, Bool.not_true, Bool.false_or, List.contains_iff_mem] at hkept
  rcases List.mem_append.mp hkept with htypes | hdirectives
  · obtain ⟨u, hu, href⟩ := List.mem_flatMap.mp htypes
    have hother : u.name ∉ builtinScalarNames := by
      intro hbuiltin
      have hkind : u.kind = .scalar := by
        rcases (collects_all hnodup _).added u hu with hgiven | ⟨hstandard, _⟩
        · exact hscalars u hgiven hbuiltin
        · exact Standard.kind_of_builtinScalar (List.mem_of_find?_eq_some hstandard) hbuiltin
      rw [NamedType.valueReferences_scalar hkind] at href
      cases href
    have hmem : u ∈ types given roots directives := List.mem_filter.mpr ⟨hu, by simp [hother]⟩
    exact List.mem_append_left _ (List.mem_flatMap_of_mem hmem href)
  · exact List.mem_append_right _ hdirectives

/-! ## The first types -/

/-- The first types are those that are found under their names. -/
theorem mem_firsts_iff {types : List NamedType} {t : NamedType} :
    t ∈ firsts types ↔ types.find? (·.name = t.name) = some t := by
  induction types with
  | nil => simp [firsts]
  | cons first rest ih =>
      by_cases hname : first.name = t.name
      · simp [firsts, hname, eq_comm]
      · have hother : t ≠ first := fun heq => hname (by rw [heq])
        simp [firsts, hname, hother, Ne.symm hname, ih]

/-- Sharing types shares the first ones. -/
theorem firsts_map_shared (types : List NamedType) :
    firsts (types.map shared) = (firsts types).map shared := by
  induction types with
  | nil => rfl
  | cons t rest ih =>
      rw [List.map_cons, firsts, firsts, List.map_cons, ih, List.filter_map]
      simp [Function.comp_def]

/-! ## The order of the given types -/

/-- Additions are made at the end. -/
theorem prefix_addStandard (given waiting : List String) (registry : List NamedType) :
    registry <+: addStandard given waiting registry := by
  fun_induction addStandard given waiting registry with
  | case1 registry => exact List.prefix_refl registry
  | case2 registry name waiting h ih => exact ih
  | case3 registry name waiting h hnone ih => exact ih
  | case4 registry name waiting h t ht ih => exact (List.prefix_append registry [t]).trans ih

/-- The given types are registered in their order. -/
theorem sublist_collect (given : List NamedType) : given.Sublist (collect given) := by
  have hrun : ∀ rest passed registry : List NamedType, passed.Sublist registry →
      (passed ++ rest).Sublist
        (rest.foldl (fun registry t => addStandard (names given) t.references (registry ++ [t]))
          registry) := by
    intro rest
    induction rest with
    | nil =>
        intro passed registry h
        simpa using h
    | cons t rest ih =>
        intro passed registry h
        have hnext := ih (passed ++ [t]) _ ((h.append (List.Sublist.refl [t])).trans
          (prefix_addStandard (names given) t.references (registry ++ [t])).sublist)
        simpa using hnext
  exact hrun given [] [] (List.Sublist.refl [])

/-! ## References -/

/-- The standard types that the types of a registry refer to are registered, or their names are
among the given ones. -/
def Closed (given : List String) (registry : List NamedType) : Prop :=
  ∀ t ∈ registry, ∀ name ∈ t.references, (Standard.type? name).isSome →
    name ∈ given ∨ name ∈ names registry

/-- Names stay registered. -/
theorem names_subset_addStandard {given waiting : List String} {registry : List NamedType}
    {name : String} (h : name ∈ names registry) :
    name ∈ names (addStandard given waiting registry) :=
  List.map_subset _ (prefix_addStandard given waiting registry).subset h

/-- If what the types of a registry refer to waits, unless it is given or registered already, then
additions make the registry closed. -/
theorem closed_addStandard {given waiting : List String} {registry : List NamedType}
    (h : ∀ t ∈ registry, ∀ name ∈ t.references, (Standard.type? name).isSome →
      name ∈ given ∨ name ∈ names registry ∨ name ∈ waiting) :
    Closed given (addStandard given waiting registry) := by
  intro t ht name hname hstandard
  rcases addStandard_closed given waiting registry t ht with hold | hclosed
  · rcases h t hold name hname hstandard with hgiven | hthere | hwaiting
    · exact .inl hgiven
    · exact .inr (names_subset_addStandard hthere)
    · exact mem_addStandard_of_waiting given waiting registry name hwaiting hstandard
  · exact hclosed name hname hstandard

/-- Going through the given types makes the registry closed: when a type is registered, what it
refers to waits. -/
theorem closed_collect (given : List NamedType) : Closed (names given) (collect given) := by
  have hrun : ∀ rest registry : List NamedType, Closed (names given) registry →
      Closed (names given)
        (rest.foldl (fun registry t => addStandard (names given) t.references (registry ++ [t]))
          registry) := by
    intro rest
    induction rest with
    | nil => exact fun registry h => h
    | cons t rest ih =>
        intro registry h
        refine ih _ (closed_addStandard fun u hu name hname hstandard => ?_)
        rcases List.mem_append.mp hu with hold | hlast
        · rcases h u hold name hname hstandard with hgiven | hthere
          · exact .inl hgiven
          · exact .inr (.inl (List.map_subset _ (List.subset_append_left _ _) hthere))
        · obtain rfl : u = t := by simpa using hlast
          exact .inr (.inr hname)
  exact hrun given [] (by simp [Closed])

end Registry

/-- Whether a type is one of the scalars that every schema knows. -/
def NamedType.isBuiltinScalar (t : NamedType) : Bool :=
  t.kind = .scalar && builtinScalarNames.contains t.name

namespace Schema

variable {config : Config}

/-- Types are only called like built-in scalars if they are scalars. -/
def Config.ScalarsOnly (config : Config) : Prop :=
  ∀ t ∈ config.types, t.name ∈ builtinScalarNames → t.kind = .scalar

instance (config : Config) : Decidable config.ScalarsOnly :=
  inferInstanceAs (Decidable (∀ t ∈ config.types, _))

/-- The types that a schema would have if no built-in scalar were left out. -/
def collected (config : Config) : List NamedType :=
  Registry.addStandard (Registry.names (givenTypes config))
    (config.roots ++ config.distinctDirectives.flatMap Directive.references ++
      [Standard.schema.name])
    (Registry.collect (givenTypes config))

/-- Of these types, only built-in scalars are left out. -/
theorem types_ofConfig (config : Config) : (ofConfig config).types =
    (collected config).filter fun t => !builtinScalarNames.contains t.name ||
      (Registry.valueReferences (collected config) config.distinctDirectives).contains t.name :=
  rfl

theorem mem_types_iff {t : NamedType} :
    t ∈ (ofConfig config).types ↔ t ∈ collected config ∧
      (t.name ∈ builtinScalarNames →
        t.name ∈ Registry.valueReferences (collected config) config.distinctDirectives) := by
  rw [types_ofConfig, List.mem_filter]
  by_cases hname : t.name ∈ builtinScalarNames <;> simp [hname]

/-- A name of these types is registered, unless it is one of a built-in scalar that nothing refers
to. -/
theorem registered_of_collected {name : String} (h : name ∈ Registry.names (collected config))
    (hscalar : name ∈ builtinScalarNames →
      name ∈ Registry.valueReferences (collected config) config.distinctDirectives) :
    ((ofConfig config).type? name).isSome := by
  obtain ⟨t, ht, rfl⟩ := List.mem_map.mp h
  exact isSome_type?_iff.mpr (List.mem_map_of_mem (mem_types_iff.mpr ⟨ht, hscalar⟩))

/-- The given types are among these types. -/
theorem givenTypes_sublist : (givenTypes config).Sublist (collected config) :=
  (Registry.sublist_collect _).trans (Registry.prefix_addStandard _ _ _).sublist

/-- A standard type that waits for the given types is among these types. -/
theorem collected_of_waiting {name : String}
    (h : name ∈ config.roots ++ config.distinctDirectives.flatMap Directive.references ++
      [Standard.schema.name])
    (hstandard : (Standard.type? name).isSome) : name ∈ Registry.names (collected config) := by
  rcases Registry.mem_addStandard_of_waiting (Registry.names (givenTypes config)) _
      (Registry.collect (givenTypes config)) name h hstandard with hgiven | hthere
  · exact List.map_subset _ givenTypes_sublist.subset hgiven
  · exact hthere

/-- A standard type that one of these types refers to is among them. -/
theorem collected_closed {t : NamedType} (ht : t ∈ collected config) {name : String}
    (hname : name ∈ t.references) (hstandard : (Standard.type? name).isSome) :
    name ∈ Registry.names (collected config) := by
  have hclosed : Registry.Closed (Registry.names (givenTypes config)) (collected config) := by
    refine Registry.closed_addStandard fun u hu other hother hknown => ?_
    rcases Registry.closed_collect (givenTypes config) u hu other hother hknown with hgiven | hthere
    · exact .inl hgiven
    · exact .inr (.inl hthere)
  rcases hclosed t ht name hname hstandard with hgiven | hthere
  · exact List.map_subset _ givenTypes_sublist.subset hgiven
  · exact hthere

/-- Something in a schema refers to a type of a name: a type, a root or an argument of a
directive. -/
def Mentions (schema : Schema) (name : String) : Prop :=
  (∃ t ∈ schema.types, name ∈ t.references) ∨ (∃ kind, schema.rootName? kind = some name) ∨
    ∃ directive ∈ schema.directives, name ∈ directive.references

/-- What a schema has to know about the types of its configuration and about standard types. -/
structure RegistryExact (config : Config) (schema : Schema) : Prop where
  keyed : ∀ name t, schema.type? name = some t ↔ t ∈ schema.types ∧ t.name = name
  nodup : (Registry.names schema.types).Nodup
  /-- A given type is registered as it is given first, or as the type of introspection that has its
  name and kind. -/
  given : ∀ t ∈ config.types, t.isBuiltinScalar = false → ∃ first,
    config.types.find? (·.name = t.name) = some first ∧
      schema.type? t.name =
        some (((Standard.introspection? t.name).filter (·.kind = first.kind)).getD first)
  order : (((Registry.firsts config.types).filter (!·.isBuiltinScalar)).map NamedType.name).Sublist
    (Registry.names schema.types)
  references : ∀ name, schema.Mentions name → name ∉ builtinScalarNames →
    name ∈ Registry.names config.types ∨ (Standard.introspection? name).isSome →
      (schema.type? name).isSome
  scalars : ∀ name ∈ builtinScalarNames,
    ((schema.type? name).isSome ↔ name ∈ Registry.valueReferences schema.types schema.directives) ∧
      ∀ t, schema.type? name = some t → Standard.scalar? name = some t

/-- The name of a root is one of the given ones. -/
theorem mem_roots_of_rootName? {kind : OperationKind} {name : String}
    (h : (ofConfig config).rootName? kind = some name) : name ∈ config.roots := by
  cases kind <;> simp_all [rootName?, ofConfig, Config.roots]

/-- What something in a schema refers to is registered, if it is given or a type of
introspection. -/
theorem registered_of_mentions {name : String} (h : (ofConfig config).Mentions name)
    (hscalar : name ∉ builtinScalarNames)
    (hknown : name ∈ Registry.names config.types ∨ (Standard.introspection? name).isSome) :
    ((ofConfig config).type? name).isSome := by
  refine registered_of_collected ?_ fun hbuiltin => absurd hbuiltin hscalar
  rcases hknown with hgiven | hintrospection
  · have hnames : name ∈ Registry.names (givenTypes config) := by
      rw [givenTypes, Registry.mem_names_firsts]
      simpa [Registry.names] using hgiven
    exact List.map_subset _ givenTypes_sublist.subset hnames
  · rw [← Standard.type?_eq_introspection? hscalar] at hintrospection
    rcases h with ⟨t, ht, hname⟩ | ⟨kind, hroot⟩ | ⟨directive, hdirective, hname⟩
    · exact collected_closed (mem_types_iff.mp ht).1 hname hintrospection
    · refine collected_of_waiting ?_ hintrospection
      simp [mem_roots_of_rootName? hroot]
    · refine collected_of_waiting ?_ hintrospection
      have hmem : name ∈ config.distinctDirectives.flatMap Directive.references :=
        List.mem_flatMap.mpr ⟨directive, hdirective, hname⟩
      simp [hmem]

section

variable (hscalars : config.ScalarsOnly)

include hscalars

/-- Given types are only called like built-in scalars if they are scalars, also once they are
shared. -/
theorem givenTypes_scalarsOnly :
    ∀ t ∈ givenTypes config, t.name ∈ builtinScalarNames → t.kind = .scalar := by
  intro t ht hname
  obtain ⟨u, hu, rfl⟩ := List.mem_map.mp (Registry.mem_of_mem_firsts ht)
  rw [Registry.kind_shared]
  exact hscalars u hu (by simpa using hname)

/-- A type that is not a built-in scalar has another name. -/
theorem not_mem_of_isBuiltinScalar {t : NamedType} (ht : t ∈ config.types)
    (h : t.isBuiltinScalar = false) : t.name ∉ builtinScalarNames := by
  intro hname
  simp [NamedType.isBuiltinScalar, hscalars t ht hname, hname] at h

/-- The first type that is given under a name is registered, or the type of introspection that it
stands for. -/
theorem type?_of_given {t : NamedType} (ht : t ∈ config.types) (hother : t.isBuiltinScalar = false) :
    ∃ first, config.types.find? (·.name = t.name) = some first ∧
      (ofConfig config).type? t.name =
        some (((Standard.introspection? t.name).filter (·.kind = first.kind)).getD first) := by
  have hname := not_mem_of_isBuiltinScalar hscalars ht hother
  have hsome : (config.types.find? (·.name = t.name)).isSome :=
    List.find?_isSome.mpr ⟨t, ht, by simp⟩
  obtain ⟨first, hfirst⟩ := Option.isSome_iff_exists.mp hsome
  have hsame : first.name = t.name := by simpa using List.find?_some hfirst
  refine ⟨first, hfirst, ?_⟩
  have hgiven : Registry.shared first ∈ givenTypes config := by
    rw [givenTypes, Registry.firsts_map_shared]
    exact List.mem_map_of_mem (Registry.mem_firsts_iff.mpr (by rw [hsame, hfirst]))
  have hregistered : Registry.shared first ∈ (ofConfig config).types := by
    refine mem_types_iff.mpr ⟨givenTypes_sublist.subset hgiven, fun hbuiltin => ?_⟩
    rw [Registry.name_shared, hsame] at hbuiltin
    exact absurd hbuiltin hname
  have hfound := type?_of_mem (nodup_names_types config) hregistered
  rw [Registry.name_shared, hsame] at hfound
  rw [hfound, Registry.shared, Standard.of?, hsame, Standard.type?_eq_introspection? hname]

/-- The given types keep their order. -/
theorem order_of_given :
    (((Registry.firsts config.types).filter (!·.isBuiltinScalar)).map NamedType.name).Sublist
      (Registry.names (ofConfig config).types) := by
  have hshared : (Registry.firsts config.types).map Registry.shared = givenTypes config :=
    (Registry.firsts_map_shared config.types).symm
  have hnames : ((Registry.firsts config.types).filter (!·.isBuiltinScalar)).map NamedType.name =
      Registry.names ((givenTypes config).filter (!builtinScalarNames.contains ·.name)) := by
    rw [← hshared, List.filter_map, Registry.names, List.map_map]
    have hfilter : (Registry.firsts config.types).filter (!·.isBuiltinScalar) =
        (Registry.firsts config.types).filter
          ((!builtinScalarNames.contains ·.name) ∘ Registry.shared) := by
      refine List.filter_congr fun t ht => ?_
      have hkind := hscalars t (Registry.mem_of_mem_firsts ht)
      by_cases hname : t.name ∈ builtinScalarNames
      · simp [NamedType.isBuiltinScalar, hname, hkind hname]
      · simp [NamedType.isBuiltinScalar, hname]
    rw [hfilter]
    simp [Function.comp_def]
  have hkept : ((collected config).filter (!builtinScalarNames.contains ·.name)).Sublist
      (ofConfig config).types := by
    rw [types_ofConfig]
    exact List.monotone_filter_right _ fun t ht => by simp_all
  rw [hnames]
  exact ((givenTypes_sublist.filter _).trans hkept).map _

/-- Built-in scalars are registered exactly if they are types of fields or inputs, and then they are
the shared ones. -/
theorem builtinScalar_registered_iff {name : String} (hname : name ∈ builtinScalarNames) :
    (((ofConfig config).type? name).isSome ↔
        name ∈ Registry.valueReferences (ofConfig config).types (ofConfig config).directives) ∧
      ∀ t, (ofConfig config).type? name = some t → Standard.scalar? name = some t := by
  have hstandard : (Standard.type? name).isSome := by
    revert name
    decide
  refine ⟨⟨fun hregistered => ?_, fun hreferenced => ?_⟩, fun t ht => ?_⟩
  · obtain ⟨t, ht, rfl⟩ := List.mem_map.mp (isSome_type?_iff.mp hregistered)
    exact Registry.builtinScalar_referenced (Registry.nodup_names_firsts _)
      (givenTypes_scalarsOnly hscalars) ht hname
  · rcases List.mem_append.mp hreferenced with htypes | hdirectives
    · obtain ⟨t, ht, hreference⟩ := List.mem_flatMap.mp htypes
      have hcollected := (mem_types_iff.mp ht).1
      refine registered_of_collected ?_ fun _ => ?_
      · exact collected_closed hcollected (List.mem_append_right _ hreference) hstandard
      · exact List.mem_append_left _ (List.mem_flatMap_of_mem hcollected hreference)
    · refine registered_of_collected ?_ fun _ => List.mem_append_right _ hdirectives
      exact collected_of_waiting (by simp_all [ofConfig, Config.distinctDirectives]) hstandard
  · obtain ⟨hmem, rfl⟩ := mem_of_type? ht
    rw [← Standard.type?_eq_scalar? hname]
    rcases mem_types_ofConfig hmem with hgiven | ⟨hself, _⟩
    · obtain ⟨u, hu⟩ := Option.isSome_iff_exists.mp hstandard
      have hkind := givenTypes_scalarsOnly hscalars t hgiven hname
      have hkind' : u.kind = .scalar :=
        Standard.kind_of_builtinScalar (List.mem_of_find?_eq_some hu) (by
          rw [Standard.name_of_type? hu]
          exact hname)
      rw [hu, Registry.eq_of_shared_eq (shared_of_mem_types hmem) hu (hkind'.trans hkind.symm)]
    · exact hself

/-- **The types of a schema.**  If only scalars are called like built-in scalars, then the types of
a schema are the given ones and those standard ones that are needed. -/
theorem registryExact_ofConfig : RegistryExact config (ofConfig config) where
  keyed _ _ := find?_key_iff (nodup_names_types config)
  nodup := nodup_names_types config
  given _ ht hother := type?_of_given hscalars ht hother
  order := order_of_given hscalars
  references _ hmentions hscalar hknown := registered_of_mentions hmentions hscalar hknown
  scalars _ hname := builtinScalar_registered_iff hscalars hname

end

/-- A library: a type is given twice, types refer to each other in circles and to types that nobody
gives, one built-in scalar is given without being needed, and the type that describes types is given
too. -/
def libraryConfig : Config where
  query := some "Query"
  types := [
    ⟨"Query", none, .object ["Node"] [
      { name := "shelf", type := .named "Shelf" false,
        arguments := [{ name := "room", type := .named "Int" true }] },
      { name := "self", type := .named "__Type" false }]⟩,
    ⟨"Float", none, .scalar none⟩,
    ⟨"Shelf", none, .union ["Query", "Missing"]⟩,
    ⟨"__Type", none, .object [] []⟩,
    ⟨"Query", some "given again", .object [] []⟩,
    ⟨"Node", none, .interface [] [{ name := "shelf", type := .list (.named "Shelf" true) false }]⟩]

/-- The schema of the library has exactly the types it needs. -/
theorem libraryConfig_registryExact :
    libraryConfig.ScalarsOnly ∧ RegistryExact libraryConfig (ofConfig libraryConfig) := by
  have hscalars : libraryConfig.ScalarsOnly := by decide
  exact ⟨hscalars, registryExact_ofConfig hscalars⟩

end Schema

end GraphQL
