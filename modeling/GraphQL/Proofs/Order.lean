import GraphQL.Proofs.FragmentCycles
import GraphQL.Proofs.MergeOrder
import GraphQL.Proofs.TypeSystem
import GraphQL.Proofs.WellTyped

/-!
# The order of definitions

Whether a document is valid does not depend on the order in which its definitions stand. There are
three kinds of rules.

* Most rules look at nodes one by one, or at all definitions at once without asking which comes
  first. They ignore the order whatever the document is (`Rule.IgnoresOrder`).
* Some of these look up a fragment or a directive by its name and take the first or the last one. In
  a valid document no two have the same name, so it does not matter which one is taken.
* The rules on what operations use, on cycles of fragments and on mergeable fields follow spreads.
  What they say at the end was described without the order in `Usage`, `FragmentCycles` and
  `MergeOrder`.

So what is valid in one order is valid in every other one. The converse is the same statement, since
a rearrangement can be undone.
-/

namespace GraphQL

/-! ## Rules that ignore the order -/

/-- A rule that is silent on a document stays silent if its definitions are rearranged. -/
def Rule.IgnoresOrder (rule : Rule) (schema : Schema) : Prop :=
  ∀ document other : Document, document.Perm other →
    rule.run (document.events schema) = [] → rule.run (other.events schema) = []

section

variable {schema : Schema} {document other : Document}

/-- Besides the document itself, a rearranged document has the same visits. -/
theorem Document.mem_events_of_perm (hperm : document.Perm other) {event : Event}
    (hnode : ∀ inner, event.node ≠ .document inner) (hmem : event ∈ document.events schema) :
    event ∈ other.events schema := by
  simp only [Document.events, Event.around, List.cons_append, List.mem_cons, List.mem_append,
    List.not_mem_nil, or_false] at hmem
  rcases hmem with rfl | hmem | rfl
  · exact absurd rfl (hnode _)
  · obtain ⟨definition, hdefinition, hevent⟩ := List.mem_flatMap.mp hmem
    exact Document.mem_events_of_mem (hperm.mem_iff.mp hdefinition) hevent
  · exact absurd rfl (hnode _)

/-- A rule on single nodes ignores the order if what it says about the document does. -/
theorem Rule.ignoresOrder_onEnter {check : Surroundings → Node → List Fault}
    (hdocument : ∀ document other : Document, document.Perm other →
      check {} (.document document) = [] → check {} (.document other) = []) :
    (onEnter check).IgnoresOrder schema := by
  intro document other hperm h
  rw [Document.events, run_onEnter_around, run_onEnter_flatMap, List.append_eq_nil_iff,
    List.flatMap_eq_nil_iff] at h ⊢
  exact ⟨hdocument document other hperm h.1,
    fun definition hmem => h.2 definition (hperm.mem_iff.mpr hmem)⟩

/-- A rule that says nothing about the document as a whole ignores the order. -/
theorem Rule.ignoresOrder_onNodes {check : Surroundings → Node → List Fault}
    (hdocument : ∀ document, check {} (.document document) = []) :
    (onEnter check).IgnoresOrder schema :=
  ignoresOrder_onEnter fun _ other _ _ => hdocument other

/-- A rule on the document ignores the order if its check does. -/
theorem Rule.ignoresOrder_onDocument {check : Document → List Fault}
    (h : ∀ document other : Document, document.Perm other → check document = [] →
      check other = []) :
    (onDocument check).IgnoresOrder schema :=
  ignoresOrder_onEnter h

/-- What nothing is rearranged to is nothing. -/
theorem eq_nil_of_perm {α : Type} {list others : List α} (hperm : list.Perm others)
    (h : list = []) : others = [] := by
  subst h
  exact hperm.nil_eq.symm

/-- Names without repetitions have none in another order. -/
theorem repetitions_eq_nil_of_perm {names others : List (String × Position)}
    {violation : String → Violation} (hperm : names.Perm others)
    (h : repetitions names violation = []) : repetitions others violation = [] := by
  rw [repetitions_eq_nil_iff] at h ⊢
  exact (hperm.map _).nodup_iff.mp h

namespace Rules

theorem executableDefinitions_ignoresOrder : executableDefinitions.IgnoresOrder schema :=
  Rule.ignoresOrder_onDocument fun _ _ hperm h => eq_nil_of_perm (hperm.filterMap _) h

theorem loneAnonymousOperation_ignoresOrder : loneAnonymousOperation.IgnoresOrder schema := by
  refine Rule.ignoresOrder_onDocument fun document other hperm h => ?_
  have hoperations : document.operations.Perm other.operations := hperm.filterMap _
  rw [← hoperations.length_eq]
  split
  · rfl
  · rename_i hseveral
    rw [if_neg hseveral] at h
    exact eq_nil_of_perm ((hoperations.filter _).map _) h

theorem uniqueOperationNames_ignoresOrder : uniqueOperationNames.IgnoresOrder schema :=
  Rule.ignoresOrder_onDocument fun _ _ hperm =>
    repetitions_eq_nil_of_perm ((hperm.filterMap _).filterMap _)

theorem uniqueFragmentNames_ignoresOrder : uniqueFragmentNames.IgnoresOrder schema :=
  Rule.ignoresOrder_onDocument fun _ _ hperm =>
    repetitions_eq_nil_of_perm ((hperm.filterMap _).map _)

theorem loneSchemaDefinition_ignoresOrder : loneSchemaDefinition.IgnoresOrder schema := by
  refine Rule.ignoresOrder_onDocument fun document other hperm h => ?_
  have hschemas : document.schemas.Perm other.schemas := hperm.filterMap _
  rw [List.map_eq_nil_iff, List.drop_eq_nil_iff] at h ⊢
  rwa [← (hschemas.filter _).length_eq]

theorem uniqueOperationTypes_ignoresOrder : uniqueOperationTypes.IgnoresOrder schema :=
  Rule.ignoresOrder_onDocument fun _ _ hperm =>
    repetitions_eq_nil_of_perm ((hperm.filterMap _).flatMap_right _)

theorem uniqueTypeNames_ignoresOrder : uniqueTypeNames.IgnoresOrder schema :=
  Rule.ignoresOrder_onDocument fun _ _ hperm =>
    repetitions_eq_nil_of_perm (((hperm.filterMap _).filter _).map _)

theorem uniqueDirectiveNames_ignoresOrder : uniqueDirectiveNames.IgnoresOrder schema :=
  Rule.ignoresOrder_onDocument fun _ _ hperm =>
    repetitions_eq_nil_of_perm ((hperm.filterMap _).map _)

/-- The definitions and extensions of a type, in another order. -/
theorem typesNamed_perm (hperm : document.Perm other) (name : String) :
    (document.typesNamed name).Perm (other.typesNamed name) :=
  (hperm.filterMap _).filter _

theorem partsByType_ignoresOrder {parts : TypeBody → List (String × Position)}
    {violation : String → String → Violation} :
    (Rule.onDocument fun document => (partsByType document parts).flatMap fun (type, names) =>
      repetitions names (violation type)).IgnoresOrder schema := by
  refine Rule.ignoresOrder_onDocument fun document other hperm h => ?_
  rw [forall_partsByType_iff] at h ⊢
  exact fun name => ((typesNamed_perm hperm name).flatMap_right _).nodup_iff.mp (h name)

theorem uniqueDirectivesPerLocation_ignoresOrder (lookup : Document) :
    (uniqueDirectivesPerLocation schema lookup).IgnoresOrder schema := by
  refine Rule.ignoresOrder_onEnter fun document other hperm h => ?_
  have huses {uses others : List (Located DirectiveUse)} (hperm : uses.Perm others)
      (h : uniqueDirectivesPerLocation.check schema lookup uses = []) :
      uniqueDirectivesPerLocation.check schema lookup others = [] :=
    repetitions_eq_nil_of_perm ((hperm.filter _).map _) h
  have hgrouped (document : Document) :
      ((document.types.map (·.item.name.item)).eraseDups.flatMap fun name =>
        uniqueDirectivesPerLocation.check schema lookup
          ((document.typesNamed name).flatMap (·.item.directives))) = [] ↔
      ∀ name, uniqueDirectivesPerLocation.check schema lookup
        ((document.typesNamed name).flatMap (·.item.directives)) = [] := by
    rw [List.flatMap_eq_nil_iff]
    exact forall_typesNamed_iff (p := fun nodes =>
      uniqueDirectivesPerLocation.check schema lookup (nodes.flatMap (·.item.directives)) = []) rfl
  have hschemas : document.schemas.Perm other.schemas := hperm.filterMap _
  obtain ⟨hschema, htypes⟩ := List.append_eq_nil_iff.mp h
  refine List.append_eq_nil_iff.mpr ⟨huses (hschemas.flatMap_right _) hschema, ?_⟩
  refine (hgrouped other).mpr fun name => ?_
  exact huses ((typesNamed_perm hperm name).flatMap_right _) ((hgrouped document).mp htypes name)

theorem knownTypeNames_ignoresOrder (others : List String) (lookup : Document) :
    (knownTypeNames others schema lookup).IgnoresOrder schema := by
  unfold knownTypeNames
  exact Rule.ignoresOrder_onNodes fun _ => rfl

/-- All rules on documents that define a schema ignore the order, if what they look up is looked up
in one document. -/
theorem typeSystem_ignoresOrder (lookup : Document) :
    ∀ rule ∈ typeSystem schema lookup, rule.IgnoresOrder schema := by
  simp only [typeSystem, List.forall_mem_cons]
  exact ⟨loneSchemaDefinition_ignoresOrder, uniqueOperationTypes_ignoresOrder,
    uniqueTypeNames_ignoresOrder, partsByType_ignoresOrder, partsByType_ignoresOrder,
    Rule.ignoresOrder_onNodes fun _ => rfl, uniqueDirectiveNames_ignoresOrder,
    knownTypeNames_ignoresOrder _ lookup, Rule.ignoresOrder_onNodes fun _ => rfl,
    uniqueDirectivesPerLocation_ignoresOrder lookup, Rule.ignoresOrder_onNodes fun _ => rfl,
    by simp⟩

/-- The rules for documents that are executed that look at definitions one by one, or at all of them
at once. -/
def ignoringSpreads (schema : Schema) (document : Document) : List Rule := [
  executableDefinitions, argumentValues schema, defaultValues schema, fieldsOnType schema,
  compositeConditions schema, knownArgumentNames schema document, knownDirectives schema document,
  knownFragmentNames document, knownTypeNames [] schema document, loneAnonymousOperation,
  possibleSpreads schema document, providedArguments schema, leafSelections schema,
  uniqueArgumentNames, uniqueDirectivesPerLocation schema document, uniqueFragmentNames,
  uniqueInputFieldNames, uniqueOperationNames, uniqueVariableNames, variablesAreInputs schema]

/-- The rules for documents that are executed that go on from a spread to its fragment. -/
def followingSpreads (schema : Schema) (document : Document) : List Rule := [
  noFragmentCycles, noUndefinedVariables, noUnusedFragments, noUnusedVariables,
  mergeableFields schema document, variablePositions schema]

theorem mem_executable_iff {rule : Rule} :
    rule ∈ executable schema document ↔
      rule ∈ ignoringSpreads schema document ∨ rule ∈ followingSpreads schema document := by
  simp only [executable, ignoringSpreads, followingSpreads, List.mem_cons, List.not_mem_nil,
    or_false]
  apply iff_of_eq
  ac_rfl

/-- The rules that do not follow spreads ignore the order, if what they look up is looked up in one
document. -/
theorem ignoringSpreads_ignoresOrder (lookup : Document) :
    ∀ rule ∈ ignoringSpreads schema lookup, rule.IgnoresOrder schema := by
  simp only [ignoringSpreads, List.forall_mem_cons]
  exact ⟨executableDefinitions_ignoresOrder, Rule.ignoresOrder_onNodes fun _ => rfl,
    Rule.ignoresOrder_onNodes fun _ => rfl, Rule.ignoresOrder_onNodes fun _ => rfl,
    Rule.ignoresOrder_onNodes fun _ => rfl, Rule.ignoresOrder_onNodes fun _ => rfl,
    Rule.ignoresOrder_onNodes fun _ => rfl, Rule.ignoresOrder_onNodes fun _ => rfl,
    knownTypeNames_ignoresOrder [] lookup, loneAnonymousOperation_ignoresOrder,
    Rule.ignoresOrder_onNodes fun _ => rfl, Rule.ignoresOrder_onNodes fun _ => rfl,
    Rule.ignoresOrder_onNodes fun _ => rfl, Rule.ignoresOrder_onNodes fun _ => rfl,
    uniqueDirectivesPerLocation_ignoresOrder lookup, uniqueFragmentNames_ignoresOrder,
    Rule.ignoresOrder_onNodes fun _ => rfl, uniqueOperationNames_ignoresOrder,
    Rule.ignoresOrder_onNodes fun _ => rfl, Rule.ignoresOrder_onNodes fun _ => rfl, by simp⟩

end Rules

/-! ## Looking up names -/

/-- Where no key occurs twice, the order does not matter for what is found under a key. -/
theorem find?_eq_of_perm {α : Type} {list others : List α} {key : α → String}
    (hunique : (list.map key).Nodup) (hperm : list.Perm others) (name : String) :
    list.find? (key · = name) = others.find? (key · = name) := by
  have hunique' : (others.map key).Nodup := (hperm.map key).nodup_iff.mp hunique
  apply Option.ext
  intro a
  rw [find?_key_iff hunique, find?_key_iff hunique', hperm.mem_iff]

/-- Where no key occurs twice, the order does not matter for everything that has a key. -/
theorem filter_eq_of_perm {α : Type} {list others : List α} {key : α → String}
    (hunique : (list.map key).Nodup) (hperm : list.Perm others) (name : String) :
    list.filter (key · = name) = others.filter (key · = name) := by
  have hfilter := hperm.filter (key · = name)
  have hlength : (list.filter (key · = name)).length ≤ 1 := by
    have hcount := List.nodup_iff_count_le_one.mp hunique name
    rwa [List.count_eq_countP, List.countP_map, List.countP_eq_length_filter] at hcount
  match hlist : list.filter (key · = name) with
  | [] =>
      rw [hlist] at hfilter
      exact hfilter.nil_eq
  | [a] =>
      rw [hlist] at hfilter
      exact hfilter.singleton_eq
  | _ :: _ :: _ => simp [hlist] at hlength

section

variable (hperm : document.Perm other)

include hperm

theorem Document.fragment?_eq_of_perm
    (hunique : (document.fragments.map (·.item.name.item)).Nodup) (name : String) :
    document.fragment? name = other.fragment? name := by
  have hfind := find?_eq_of_perm hunique (hperm.filterMap _) name
  exact congrArg (Option.map Located.item) hfind

theorem Document.directive?_eq_of_perm
    (hunique : (document.directives.map (·.item.name.item)).Nodup) :
    document.directive? = other.directive? := by
  funext name
  have hdirectives : document.directives.Perm other.directives := hperm.filterMap _
  have hreverse : document.directives.reverse.Perm other.directives.reverse :=
    (List.reverse_perm _).trans (hdirectives.trans (List.reverse_perm _).symm)
  have hfind := find?_eq_of_perm (by simpa using hunique) hreverse name
  exact congrArg (Option.map Located.item) hfind

namespace Rules

theorem conditionOf?_eq_of_perm (hunique : (document.fragments.map (·.item.name.item)).Nodup) :
    conditionOf? schema document = conditionOf? schema other := by
  funext name
  have hfilter := filter_eq_of_perm hunique (hperm.filterMap _) name
  exact congrArg (List.findSome? fun node => schema.type? node.item.condition.item) hfilter

theorem knownTypeNames_eq_of_perm (others : List String) :
    knownTypeNames others schema document = knownTypeNames others schema other := by
  have htypes : document.types.Perm other.types := hperm.filterMap _
  have hknown (name : String) : (definedTypes document ++ others).contains name =
      (definedTypes other ++ others).contains name :=
    (((htypes.filter _).map _).append_right others).contains_eq
  simp only [knownTypeNames, hknown]

omit hperm in
/-- The rules on directives look at a document only to find one by its name. -/
theorem directiveRules_eq (schema : Schema) (hsame : document.directive? = other.directive?) :
    knownArgumentNames schema document = knownArgumentNames schema other ∧
      knownDirectives schema document = knownDirectives schema other ∧
      uniqueDirectivesPerLocation schema document = uniqueDirectivesPerLocation schema other := by
  have harguments : directiveArguments? schema document = directiveArguments? schema other := by
    funext name
    simp only [directiveArguments?, hsame]
  have hlocations : directiveLocations? schema document = directiveLocations? schema other := by
    funext name
    simp only [directiveLocations?, hsame]
  have hunique : isUnique schema document = isUnique schema other := by
    funext name
    simp only [isUnique, hsame]
  refine ⟨?_, ?_, ?_⟩
  · simp only [knownArgumentNames, harguments]
  · simp only [knownDirectives, hlocations]
  · have hcheck : uniqueDirectivesPerLocation.check schema document =
        uniqueDirectivesPerLocation.check schema other := by
      funext uses
      simp only [uniqueDirectivesPerLocation.check, uniqueDirectives, hunique]
    simp only [uniqueDirectivesPerLocation, hcheck]

theorem typeSystem_eq_of_perm (schema : Schema)
    (hunique : (document.directives.map (·.item.name.item)).Nodup) :
    typeSystem schema document = typeSystem schema other := by
  obtain ⟨harguments, hdirectives, hrepeated⟩ :=
    directiveRules_eq schema (Document.directive?_eq_of_perm hperm hunique)
  simp only [typeSystem, knownTypeNames_eq_of_perm hperm, harguments, hdirectives, hrepeated]

theorem ignoringSpreads_eq_of_perm (schema : Schema)
    (hunique : (document.directives.map (·.item.name.item)).Nodup)
    (hfragments : (document.fragments.map (·.item.name.item)).Nodup) :
    ignoringSpreads schema document = ignoringSpreads schema other := by
  obtain ⟨harguments, hdirectives, hrepeated⟩ :=
    directiveRules_eq schema (Document.directive?_eq_of_perm hperm hunique)
  have hknown : knownFragmentNames document = knownFragmentNames other := by
    simp only [knownFragmentNames, Document.fragment?_eq_of_perm hperm hfragments]
  have hpossible : possibleSpreads schema document = possibleSpreads schema other := by
    simp only [possibleSpreads, conditionOf?_eq_of_perm hperm hfragments]
  simp only [ignoringSpreads, knownTypeNames_eq_of_perm hperm, harguments, hdirectives, hrepeated,
    hknown, hpossible]

end Rules

/-- **Type systems in another order.**  A document that is fine as the definition of a schema is so
in every order. -/
theorem Document.validateTypeSystem_of_perm (h : document.validateTypeSystem = []) :
    other.validateTypeSystem = [] := by
  unfold Document.validateTypeSystem at h ⊢
  rw [Document.check_eq_nil_iff] at h ⊢
  have hunique : (document.directives.map (·.item.name.item)).Nodup := by
    have hnames := Rule.check_eq_nil_of_run_onDocument
      (h Rules.uniqueDirectiveNames (by simp [Rules.typeSystem]))
    rw [repetitions_eq_nil_iff, List.map_map] at hnames
    exact hnames
  rw [← Rules.typeSystem_eq_of_perm hperm .standard hunique]
  exact fun rule hrule => Rules.typeSystem_ignoresOrder document rule hrule document other hperm
    (h rule hrule)

end

/-! ## Documents that are executed -/

/-- The rules on what operations use are silent on rearranged operations and fragments. -/
theorem usageRules_of_perm (schema : Schema) (hperm : document.Perm other)
    (hexecutable : ∀ definition ∈ document, definition.isExecutable = true) :
    ∀ rule ∈ [Rules.noUndefinedVariables, Rules.noUnusedFragments, Rules.noUnusedVariables,
        Rules.variablePositions schema],
      rule.run (document.events schema) = [] → rule.run (other.events schema) = [] := by
  have hother : ∀ definition ∈ other, definition.isExecutable = true :=
    fun definition hmem => hexecutable definition (hperm.mem_iff.mpr hmem)
  have hoperations (node : Located Operation) :
      node ∈ other.operations ↔ node ∈ document.operations := by
    rw [Document.mem_operations, Document.mem_operations, hperm.mem_iff]
  have hfragments (node : Located Fragment) :
      node ∈ other.fragments ↔ node ∈ document.fragments := by
    rw [Document.mem_fragments, Document.mem_fragments, hperm.mem_iff]
  have huses (definition used : Definition) :
      other.Uses schema definition used ↔ document.Uses schema definition used :=
    ⟨.mono hperm.symm.subset, .mono hperm.subset⟩
  simp only [List.forall_mem_cons]
  refine ⟨fun h => ?_, fun h => ?_, fun h => ?_, fun h => ?_, by simp⟩
  · rw [noUndefinedVariables_silent_iff schema hexecutable] at h
    rw [noUndefinedVariables_silent_iff schema hother]
    simpa only [hoperations, huses] using h
  · rw [noUnusedFragments_silent_iff schema hexecutable] at h
    rw [noUnusedFragments_silent_iff schema hother]
    simpa only [hoperations, hfragments, huses] using h
  · rw [noUnusedVariables_silent_iff schema hexecutable] at h
    rw [noUnusedVariables_silent_iff schema hother]
    simpa only [hoperations, huses] using h
  · rw [variablePositions_silent_iff schema hexecutable] at h
    rw [variablePositions_silent_iff schema hother]
    simpa only [hoperations, huses] using h

namespace Accepted

variable (h : Accepted schema document)

include h

/-- No two fragments have the same name. -/
theorem fragments_distinct : (document.fragments.map (·.item.name.item)).Nodup := by
  have hnames := Rule.check_eq_nil_of_run_onDocument
    (h Rules.uniqueFragmentNames (by simp [Rules.executable]))
  rw [repetitions_eq_nil_iff, List.map_map] at hnames
  exact hnames

/-- No directives are defined. -/
theorem directives_eq_nil : document.directives = [] := by
  rw [List.eq_nil_iff_forall_not_mem]
  intro node hnode
  cases h.isExecutable (Document.mem_directives.mp hnode)

/-- Fields that can be merged can be merged in another order. -/
theorem mergeableFields_of_perm (hacyclic : Merging.Acyclic document)
    (hperm : document.Perm other) :
    (Rules.mergeableFields schema other).run (other.events schema) = [] := by
  have hdistinct : Merging.DistinctNames document :=
    Merging.distinctNames_of_silent (h Rules.uniqueArgumentNames (by simp [Rules.executable]))
      (h Rules.uniqueInputFieldNames (by simp [Rules.executable]))
  refine Merging.mergeableFields_silent_of_same
    (Document.fragment?_eq_of_perm hperm h.fragments_distinct) ?_ hacyclic hdistinct
    (h (Rules.mergeableFields schema document) (by simp [Rules.executable]))
  intro event hmem selections henters
  refine Document.mem_events_of_perm hperm.symm (fun inner hinner => ?_) hmem
  cases henters.2.symm.trans hinner

/-- Where no fragment spreads itself, the rules that follow spreads are silent in another order. -/
theorem followingSpreads_of_perm (hacyclic : Merging.Acyclic document)
    (hperm : document.Perm other) :
    ∀ rule ∈ Rules.followingSpreads schema other, rule.run (other.events schema) = [] := by
  have hcycles : Rules.noFragmentCycles.run (other.events schema) = [] := by
    have hfragments : document.fragments.Perm other.fragments := hperm.filterMap _
    have hsame := Document.fragment?_eq_of_perm hperm h.fragments_distinct
    exact noFragmentCycles_silent schema
      (fun definition hmem => h.isExecutable (hperm.mem_iff.mpr hmem))
      ((hfragments.map _).nodup_iff.mp h.fragments_distinct) (hacyclic.of_same hsame)
  have husage := usageRules_of_perm schema hperm fun _ hmem => h.isExecutable hmem
  have hsilent : ∀ rule ∈ Rules.followingSpreads schema document,
      rule.run (document.events schema) = [] :=
    fun rule hrule => h rule (Rules.mem_executable_iff.mpr (.inr hrule))
  simp only [Rules.followingSpreads, List.forall_mem_cons] at husage hsilent ⊢
  obtain ⟨-, hundefined, hfragments, hvariables, -, hpositions, -⟩ := hsilent
  exact ⟨hcycles, husage.1 hundefined, husage.2.1 hfragments, husage.2.2.1 hvariables,
    h.mergeableFields_of_perm hacyclic hperm, husage.2.2.2.1 hpositions, by simp⟩

/-- **Accepted in any order.**  If no fragment spreads itself, then rearranging the definitions of
an accepted document gives an accepted one. -/
theorem of_perm (hacyclic : Merging.Acyclic document) (hperm : document.Perm other) :
    Accepted schema other := by
  intro rule hrule
  rcases Rules.mem_executable_iff.mp hrule with hrule | hrule
  · rw [← Rules.ignoringSpreads_eq_of_perm hperm schema (by simp [h.directives_eq_nil])
      h.fragments_distinct] at hrule
    have hsilent := h rule (Rules.mem_executable_iff.mpr (.inl hrule))
    exact Rules.ignoringSpreads_ignoresOrder document rule hrule document other hperm hsilent
  · exact h.followingSpreads_of_perm hacyclic hperm rule hrule

end Accepted

/-- A document is valid if it is accepted and, where this is not allowed, does not ask for the
schema. -/
theorem Document.validate_eq_nil_iff {options : ValidityOptions} :
    document.validate schema options = [] ↔ Accepted schema document ∧
      (options.disableIntrospection = true →
        Rules.noIntrospection.run (document.events schema) = []) := by
  unfold Document.validate
  rw [Document.check_eq_nil_iff, List.forall_mem_append]
  refine and_congr_right fun _ => ?_
  cases options.disableIntrospection with
  | true => simp
  | false => simp

/-- Rearranging a valid document in which no fragment spreads itself gives a valid one. -/
theorem Document.validate_of_perm {options : ValidityOptions} (hacyclic : Merging.Acyclic document)
    (hperm : document.Perm other) (h : document.validate schema options = []) :
    other.validate schema options = [] := by
  rw [Document.validate_eq_nil_iff] at h ⊢
  refine ⟨h.1.of_perm hacyclic hperm, fun hdisabled => ?_⟩
  have hignores : Rules.noIntrospection.IgnoresOrder schema :=
    Rule.ignoresOrder_onNodes fun _ => rfl
  exact hignores document other hperm (h.2 hdisabled)

end

/-- **The order of definitions does not matter.**  However the definitions of a document are
rearranged: if no fragment spreads itself, then it is valid exactly if the rearranged document is;
and it is fine as the definition of a schema exactly if the rearranged document is. -/
theorem Document.verdict_of_perm (schema : Schema) (options : ValidityOptions)
    {document other : Document} (hperm : document.Perm other) :
    (Merging.Acyclic document →
      (document.validate schema options = [] ↔ other.validate schema options = [])) ∧
    (document.validateTypeSystem = [] ↔ other.validateTypeSystem = []) := by
  refine ⟨fun hacyclic => ⟨validate_of_perm hacyclic hperm, fun hvalid => ?_⟩,
    validateTypeSystem_of_perm hperm, validateTypeSystem_of_perm hperm.symm⟩
  -- only a document with unique names finds the same fragments, and the valid one has them
  have haccepted := (validate_eq_nil_iff.mp hvalid).1
  have hsame := fragment?_eq_of_perm hperm.symm haccepted.fragments_distinct
  exact validate_of_perm (hacyclic.of_same fun name => (hsame name).symm) hperm.symm hvalid

/-- An object with numbers, and nothing else. -/
def numberSchema : Schema :=
  Merging.loopSchema [{ name := "Int", shape := .scalar none }]

/-- A query whose variable is used by a fragment that another fragment spreads. -/
def layeredDocument : Document := [
  .operation (.unlocated ⟨.query, some (.unlocated "A"),
    some (.unlocated [⟨.unlocated "n", .unlocated (.named "Int" true), none, []⟩]), [],
    [Merging.plainSpread "F"]⟩),
  Merging.plainFragment "F" [Merging.numberField none "q" [] [Merging.plainSpread "G"]],
  Merging.plainFragment "G" [
    .field (.unlocated ⟨none, .unlocated "f",
      some (.unlocated [⟨.unlocated "a", .unlocated (.variable "n")⟩]), []⟩) []]]

/-- A check finds nothing if its rules can be seen to find nothing. -/
theorem Document.check_eq_nil_of_all {schema : Schema} {document : Document} {rules : List Rule}
    (h : (rules.all fun rule => (rule.run (document.events schema)).isEmpty) = true) :
    document.check schema rules = [] := by
  rw [check_eq_nil_iff]
  exact fun rule hrule => List.isEmpty_iff.mp (List.all_eq_true.mp h rule hrule)

/-- The query is valid with its fragments in front of it, and the shop is a type system with its
extensions in front of what they extend. -/
theorem layeredDocument_reversed :
    (Merging.Acyclic layeredDocument ∧ layeredDocument.validate numberSchema {} = [] ∧
      Document.validate numberSchema {} layeredDocument.reverse = []) ∧
    shopDocument.validateTypeSystem = [] ∧
      Document.validateTypeSystem shopDocument.reverse = [] := by
  have hacyclic : Merging.Acyclic layeredDocument :=
    Merging.acyclic_of_ranks (fun name => if name = "F" then 1 else 0) (by decide +kernel)
  have hvalid : layeredDocument.validate numberSchema {} = [] :=
    Document.check_eq_nil_of_all (by cbv)
  have hshop : shopDocument.validateTypeSystem = [] :=
    Document.check_eq_nil_of_all (by decide +kernel)
  have hquery :=
    Document.verdict_of_perm numberSchema {} (List.reverse_perm layeredDocument).symm
  have htypes := Document.verdict_of_perm numberSchema {} (List.reverse_perm shopDocument).symm
  exact ⟨⟨hacyclic, hvalid, (hquery.1 hacyclic).mp hvalid⟩, hshop, htypes.2.mp hshop⟩

end GraphQL
