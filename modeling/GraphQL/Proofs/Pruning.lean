import GraphQL.Proofs.Collecting

/-!
# Given types that are left out

Built-in scalars that nothing needs are left out of a schema, and they are told by their names
alone. So a type of any kind is lost if it is called like a built-in scalar and is the type of no
field, argument or input field. That it is the root of queries does not help it, nor that it is a
member of a union or an interface of some type.

Nothing else is lost: `Schema.type?_given` says what is found under a name that is given, and
`Schema.given_kept_iff` when this is of the kind that was given first.
-/

namespace GraphQL.Schema

variable {config : Config}

/-- A name is called like a built-in scalar, and no field, argument or input field has its type. -/
def Config.LeavesOut (config : Config) (name : String) : Prop :=
  name ∈ builtinScalarNames ∧
    name ∉ Registry.valueReferences (collected config) config.distinctDirectives

instance (config : Config) (name : String) : Decidable (config.LeavesOut name) :=
  inferInstanceAs (Decidable (_ ∧ _))

/-- The first type that is given under a name is collected, or the standard type it stands for. -/
theorem shared_mem_collected {name : String} {first : NamedType}
    (hfirst : config.types.find? (·.name = name) = some first) :
    Registry.shared first ∈ collected config := by
  have hname : first.name = name := by simpa using List.find?_some hfirst
  have hgiven : Registry.shared first ∈ givenTypes config := by
    rw [givenTypes, Registry.firsts_map_shared]
    exact List.mem_map_of_mem (Registry.mem_firsts_iff.mpr (by rw [hname, hfirst]))
  exact givenTypes_sublist.subset hgiven

/-- A type is registered if it is collected and its name is not left out. -/
theorem mem_types_iff_leavesOut {t : NamedType} :
    t ∈ (ofConfig config).types ↔ t ∈ collected config ∧ ¬ config.LeavesOut t.name := by
  rw [mem_types_iff, Config.LeavesOut, not_and_not_right]

/-- Under a name that is given, the first type of this name is found, or the standard type it stands
for, unless the name is left out. -/
theorem type?_given {name : String} {first : NamedType}
    (hfirst : config.types.find? (·.name = name) = some first) :
    (ofConfig config).type? name =
      if config.LeavesOut name then none else some (Registry.shared first) := by
  have hname : (Registry.shared first).name = name := by
    rw [Registry.name_shared]
    simpa using List.find?_some hfirst
  split
  · rename_i hout
    by_contra hfound
    obtain ⟨t, ht⟩ := Option.ne_none_iff_exists'.mp hfound
    obtain ⟨hmem, rfl⟩ := mem_of_type? ht
    exact (mem_types_iff_leavesOut.mp hmem).2 hout
  · rename_i hkept
    have hmem : Registry.shared first ∈ (ofConfig config).types :=
      mem_types_iff_leavesOut.mpr ⟨shared_mem_collected hfirst, by rwa [hname]⟩
    have hfound := type?_of_mem (nodup_names_types config) hmem
    rwa [hname] at hfound

/-- **Which given types are kept.**  Under the name of a given type, a type of the kind that was
given first is found exactly if the name is not left out. -/
theorem given_kept_iff {t : NamedType} (ht : t ∈ config.types) :
    (∃ first u, config.types.find? (·.name = t.name) = some first ∧
        (ofConfig config).type? t.name = some u ∧ u.kind = first.kind) ↔
      ¬ config.LeavesOut t.name := by
  have hsome : (config.types.find? (·.name = t.name)).isSome :=
    List.find?_isSome.mpr ⟨t, ht, by simp⟩
  obtain ⟨first, hfirst⟩ := Option.isSome_iff_exists.mp hsome
  have hgiven := type?_given hfirst
  constructor
  · rintro ⟨_, u, _, hu, _⟩ hout
    rw [hgiven, if_pos hout] at hu
    cases hu
  · intro hkept
    rw [if_neg hkept] at hgiven
    exact ⟨first, Registry.shared first, hfirst, hgiven, Registry.kind_shared first⟩

/-- What is collected is given or a standard type. -/
theorem mem_givenTypes_or_standard {t : NamedType} (ht : t ∈ collected config) :
    t ∈ givenTypes config ∨ t ∈ Standard.types := by
  have hcollects := Registry.collects_all (Registry.nodup_names_firsts (config.types.map
    Registry.shared)) (config.roots ++ config.distinctDirectives.flatMap Directive.references ++
      [Standard.schema.name])
  rcases hcollects.added t ht with hgiven | ⟨hstandard, _⟩
  · exact .inl hgiven
  · exact .inr (List.mem_of_find?_eq_some hstandard)

/-- A name like that of a built-in scalar is left out if neither the given types nor the directives
nor the standard types need it. -/
theorem leavesOut_of_unneeded {name : String} (hname : name ∈ builtinScalarNames)
    (hgiven : name ∉ Registry.valueReferences (givenTypes config) config.distinctDirectives)
    (hstandard : name ∉ Standard.types.flatMap NamedType.valueReferences) :
    config.LeavesOut name := by
  refine ⟨hname, fun hneeded => ?_⟩
  rcases List.mem_append.mp hneeded with htypes | hdirectives
  · obtain ⟨t, ht, href⟩ := List.mem_flatMap.mp htypes
    rcases mem_givenTypes_or_standard ht with ht | ht
    · exact hgiven (List.mem_append_left _ (List.mem_flatMap_of_mem ht href))
    · exact hstandard (List.mem_flatMap_of_mem ht href)
  · exact hgiven (List.mem_append_right _ hdirectives)

/-- A name that a given type needs is not left out. -/
theorem not_leavesOut_of_given {t : NamedType} (ht : t ∈ givenTypes config) {name : String}
    (hname : name ∈ t.valueReferences) : ¬ config.LeavesOut name := fun hout =>
  hout.2 (List.mem_append_left _ (List.mem_flatMap_of_mem (givenTypes_sublist.subset ht) hname))

/-- The root of a schema, called like a built-in scalar. -/
def badge : NamedType :=
  ⟨"ID", none, .object [] [{ name := "holder", type := .named "Person" false }]⟩

/-- A schema of badges and the persons who hold them. -/
def badgeConfig : Config where
  query := some "ID"
  types := [badge, ⟨"Person", none, .object [] [{ name := "age", type := .named "Int" false }]⟩]

/-- The root of queries is given as an object, and the schema does not know it. -/
theorem badge_lost : badge ∈ badgeConfig.types ∧ badge.isBuiltinScalar = false ∧
    badgeConfig.query = some badge.name ∧ (ofConfig badgeConfig).type? badge.name = none := by
  have hout : badgeConfig.LeavesOut "ID" :=
    leavesOut_of_unneeded (by decide) (by decide) (by decide)
  have hfirst : badgeConfig.types.find? (·.name = "ID") = some badge := rfl
  refine ⟨List.mem_cons_self, rfl, rfl, ?_⟩
  exact (type?_given hfirst).trans (if_pos hout)

/-- A badge that a person has is kept. -/
def heldConfig : Config where
  query := some "ID"
  types := [badge, ⟨"Person", none, .object [] [{ name := "badge", type := .named "ID" false }]⟩]

theorem heldConfig_badge_kept : badge ∈ heldConfig.types ∧
    ∃ first u, heldConfig.types.find? (·.name = badge.name) = some first ∧
      (ofConfig heldConfig).type? badge.name = some u ∧ u.kind = first.kind := by
  have hmem : badge ∈ heldConfig.types := List.mem_cons_self
  have hperson : ⟨"Person", none, .object [] [{ name := "badge", type := .named "ID" false }]⟩ ∈
      givenTypes heldConfig := List.mem_cons_of_mem _ List.mem_cons_self
  exact ⟨hmem, (given_kept_iff hmem).mpr (not_leavesOut_of_given hperson (by decide))⟩

end GraphQL.Schema
