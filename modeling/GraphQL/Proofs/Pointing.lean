import GraphQL.Proofs.CycleSearch
import GraphQL.Proofs.Definitions
import GraphQL.Proofs.Usage
import GraphQL.Proofs.VisitedPlaces

/-!
# Where faults point

Every rule takes the places of its faults from the nodes that it has seen. So if all places of the
visited nodes start at certain positions, then each fault names at least one place, and all of them
are such positions. `Rule.PointsTo` says this of a rule, for every walk; a rule on single nodes has
it if its check has, a rule on what operations use has it since what is remembered of a walk are
nodes of the walk. Here are the rules that look at a node, at the document or at what operations
use.
-/

namespace GraphQL

open Layout

/-- A fault names places, all of them at certain positions. -/
structure Fault.PointsTo (starts : Position → Prop) (fault : Fault) : Prop where
  somewhere : fault.locations ≠ []
  starts : ∀ p ∈ fault.locations, starts p

section

variable {starts : Position → Prop}

theorem Fault.PointsTo.single {violation : Violation} {p : Position} (h : starts p) :
    (⟨violation, [p]⟩ : Fault).PointsTo starts :=
  ⟨List.cons_ne_nil p [], List.forall_mem_singleton.mpr h⟩

theorem Fault.PointsTo.pair {violation : Violation} {p q : Position} (hp : starts p)
    (hq : starts q) : (⟨violation, [p, q]⟩ : Fault).PointsTo starts :=
  ⟨List.cons_ne_nil p [q], List.forall_mem_cons.mpr ⟨hp, List.forall_mem_singleton.mpr hq⟩⟩

/-- A name that is repeated has places, all of which are among those of the names. -/
theorem pointsTo_repetitions {names : List (String × Position)} {violation : String → Violation}
    (h : ∀ name ∈ names, starts name.2) :
    ∀ fault ∈ repetitions names violation, fault.PointsTo starts := by
  intro fault hfault
  obtain ⟨⟨name, locations⟩, hrepeated, rfl⟩ := List.mem_map.mp hfault
  obtain ⟨_, -, hsome⟩ := List.mem_filterMap.mp hrepeated
  split at hsome
  · rename_i first second rest hfilter
    cases hsome
    refine ⟨List.cons_ne_nil _ _, fun p hp => ?_⟩
    obtain ⟨entry, hentry, rfl⟩ := List.mem_map.mp hp
    rw [← hfilter] at hentry
    exact h entry (List.mem_of_mem_filter hentry)
  · cases hsome

end

/-! ## Rules on single nodes -/

namespace Rule

/-- Whatever walk a rule watches, its faults point to where the visited nodes start. -/
def PointsTo (starts : Position → Prop) (rule : Rule) : Prop :=
  ∀ events, NodesSatisfy (Node.StartsIn starts) events →
    ∀ fault ∈ rule.run events, fault.PointsTo starts

variable {starts : Position → Prop}

theorem PointsTo.onEnter {check : Surroundings → Node → List Fault}
    (h : ∀ place node, node.StartsIn starts → ∀ fault ∈ check place node, fault.PointsTo starts) :
    (Rule.onEnter check).PointsTo starts := by
  intro events hevents fault hfault
  rw [run_onEnter] at hfault
  obtain ⟨event, hevent, hfault⟩ := List.mem_flatMap.mp hfault
  split at hfault
  · exact h event.place event.node (hevents event hevent) fault hfault
  · cases hfault

theorem PointsTo.onDocument {check : Document → List Fault}
    (h : ∀ document : Document, (∀ definition ∈ document, definition.layout.StartsIn starts) →
      ∀ fault ∈ check document, fault.PointsTo starts) :
    (Rule.onDocument check).PointsTo starts := by
  refine .onEnter fun place node hnode fault hfault => ?_
  split at hfault
  · exact h _ (Document.startsIn_layout.mp hnode) fault hfault
  · cases hfault

end Rule

namespace Rules

variable {starts : Position → Prop} (schema : Schema) (document : Document)

theorem startsIn_givenArguments {arguments : Option (Located (List Argument))}
    (h : (parenthesizedLayout Argument.layout arguments).StartsIn starts) :
    ∀ argument ∈ givenArguments arguments, argument.layout.StartsIn starts := by
  cases arguments with
  | none => exact List.forall_mem_nil _
  | some given => exact (startsIn_parenthesizedLayout.mp h given rfl).2

theorem startsIn_definedVariables {operation : Operation}
    (h : ∀ part ∈ operation.parts, part.StartsIn starts) :
    ∀ definition ∈ operation.definedVariables, definition.layout.StartsIn starts := by
  have hdefinitions := (Operation.startsIn_parts.mp h).2.1
  unfold Operation.definedVariables
  cases hgiven : operation.variableDefinitions with
  | none => exact List.forall_mem_nil _
  | some given => exact (startsIn_parenthesizedLayout.mp hdefinitions given hgiven).2

/-! ### Definitions -/

theorem executableDefinitions_pointsTo : executableDefinitions.PointsTo starts := by
  refine .onDocument fun document h fault hfault => ?_
  obtain ⟨definition, hmem, hsome⟩ := List.mem_filterMap.mp hfault
  have hdefinition := h definition hmem
  cases definition <;> cases hsome
  all_goals exact .single hdefinition.1

theorem loneAnonymousOperation_pointsTo : loneAnonymousOperation.PointsTo starts := by
  refine .onDocument fun document h fault hfault => ?_
  split at hfault
  · cases hfault
  · obtain ⟨node, hnode, rfl⟩ := List.mem_map.mp hfault
    exact .single (h _ (Document.mem_operations.mp (List.mem_of_mem_filter hnode))).1

theorem uniqueOperationNames_pointsTo : uniqueOperationNames.PointsTo starts := by
  refine .onDocument fun document h => pointsTo_repetitions fun name hname => ?_
  obtain ⟨node, hnode, hsome⟩ := List.mem_filterMap.mp hname
  obtain ⟨found, hfound, rfl⟩ := Option.map_eq_some_iff.mp hsome
  have hparts := startsIn_seq.mp (h _ (Document.mem_operations.mp hnode)).2
  exact (Operation.startsIn_parts.mp hparts).1 found hfound

theorem uniqueFragmentNames_pointsTo : uniqueFragmentNames.PointsTo starts := by
  refine .onDocument fun document h => pointsTo_repetitions fun name hname => ?_
  obtain ⟨node, hnode, rfl⟩ := List.mem_map.mp hname
  have hparts := startsIn_seq.mp (h _ (Document.mem_fragments.mp hnode)).2
  exact (Fragment.startsIn_parts.mp hparts).1

theorem uniqueVariableNames_pointsTo : uniqueVariableNames.PointsTo starts := by
  refine .onEnter fun place node h fault hfault => ?_
  split at hfault
  · refine pointsTo_repetitions (fun name hname => ?_) fault hfault
    obtain ⟨definition, hdefinition, rfl⟩ := List.mem_map.mp hname
    have hlayout := startsIn_definedVariables (startsIn_seq.mp h.2) definition hdefinition
    exact (VariableDefinition.startsIn_layout.mp hlayout).1
  · cases hfault

/-! ### Arguments and values -/

theorem argumentValues_pointsTo : (argumentValues schema).PointsTo starts := by
  refine .onEnter fun place node h fault hfault => ?_
  split at hfault
  · split at hfault
    · obtain rfl := List.mem_singleton.mp hfault
      exact .single (Argument.startsIn_layout.mp h).2.1
    · cases hfault
  · cases hfault

theorem defaultValues_pointsTo : (defaultValues schema).PointsTo starts := by
  refine .onEnter fun place node h fault hfault => ?_
  split at hfault
  · split at hfault
    · cases hfault
    · rename_i value hvalue
      split at hfault
      · obtain rfl := List.mem_singleton.mp hfault
        have hdefault := (VariableDefinition.startsIn_layout.mp h).2.2.1
        exact .single (startsIn_defaultParts.mp hdefault value hvalue).1
      · cases hfault
  · cases hfault

theorem knownArgumentNames_pointsTo : (knownArgumentNames schema document).PointsTo starts := by
  have hunknown {arguments : Option (Located (List Argument))} {known : List String}
      {violation : String → Violation}
      (h : (parenthesizedLayout Argument.layout arguments).StartsIn starts) :
      ∀ fault ∈ knownArgumentNames.unknown arguments known violation, fault.PointsTo starts := by
    intro fault hfault
    obtain ⟨argument, hargument, rfl⟩ := List.mem_map.mp hfault
    have hlayout := startsIn_givenArguments h argument (List.mem_of_mem_filter hargument)
    exact .single (Argument.startsIn_layout.mp hlayout).1
  refine .onEnter fun place node h fault hfault => ?_
  split at hfault
  · split at hfault
    · cases hfault
    · split at hfault
      · cases hfault
      · have hhead := (Selection.startsIn_field.mp h).2.1
        exact hunknown (FieldHead.startsIn_parts.mp hhead).2.2.1 fault hfault
  · split at hfault
    · cases hfault
    · exact hunknown (DirectiveUse.startsIn_layout.mp h.2).2 fault hfault
  · cases hfault

theorem providedArguments_pointsTo : (providedArguments schema).PointsTo starts := by
  have hmissing {owner : ArgumentOwner} {parameters : List InputValue}
      {arguments : Option (Located (List Argument))} {p : Position} (h : starts p) :
      ∀ fault ∈ providedArguments.missing owner parameters arguments p, fault.PointsTo starts := by
    intro fault hfault
    obtain ⟨parameter, -, rfl⟩ := List.mem_map.mp hfault
    exact .single h
  refine .onEnter fun place node h fault hfault => ?_
  split at hfault
  · split at hfault
    · cases hfault
    · exact hmissing (Selection.startsIn_field.mp h).1 fault hfault
  · split at hfault
    · cases hfault
    · exact hmissing h.1 fault hfault
  · cases hfault

theorem uniqueArgumentNames_pointsTo : uniqueArgumentNames.PointsTo starts := by
  have hcheck {arguments : Option (Located (List Argument))}
      (h : (parenthesizedLayout Argument.layout arguments).StartsIn starts) :
      ∀ fault ∈ uniqueArgumentNames.check arguments, fault.PointsTo starts := by
    refine pointsTo_repetitions fun name hname => ?_
    obtain ⟨argument, hargument, rfl⟩ := List.mem_map.mp hname
    exact (Argument.startsIn_layout.mp (startsIn_givenArguments h argument hargument)).1
  refine .onEnter fun place node h fault hfault => ?_
  split at hfault
  · have hhead := (Selection.startsIn_field.mp h).2.1
    exact hcheck (FieldHead.startsIn_parts.mp hhead).2.2.1 fault hfault
  · exact hcheck (DirectiveUse.startsIn_layout.mp h.2).2 fault hfault
  · cases hfault

theorem uniqueInputFieldNames_pointsTo : uniqueInputFieldNames.PointsTo starts := by
  refine .onEnter fun place node h fault hfault => ?_
  split at hfault
  · refine pointsTo_repetitions (fun name hname => ?_) fault hfault
    obtain ⟨entry, hentry, rfl⟩ := List.mem_map.mp hname
    exact (Value.startsIn_object.mp h.2 entry hentry).1
  · cases hfault

/-! ### Fields -/

theorem fieldsOnType_pointsTo : (fieldsOnType schema).PointsTo starts := by
  refine .onEnter fun place node h fault hfault => ?_
  split at hfault
  · split at hfault
    · obtain ⟨head, hhead, rfl⟩ := List.mem_map.mp hfault
      obtain ⟨selection, hselection, hsome⟩ := List.mem_filterMap.mp (List.mem_of_mem_filter hhead)
      have hparts := Operation.startsIn_parts.mp (startsIn_seq.mp h.2)
      have hlayout := hparts.2.2.2 selection hselection
      split at hsome
      · cases hsome
        have hfield := (Selection.startsIn_field.mp hlayout).2.1
        exact .single (FieldHead.startsIn_parts.mp hfield).2.1
      · cases hsome
    · cases hfault
  · split at hfault
    · cases hfault
    · split at hfault
      · cases hfault
      · obtain rfl := List.mem_singleton.mp hfault
        have hfield := (Selection.startsIn_field.mp h).2.1
        exact .single (FieldHead.startsIn_parts.mp hfield).2.1
  · cases hfault

theorem leafSelections_pointsTo : (leafSelections schema).PointsTo starts := by
  refine .onEnter fun place node h fault hfault => ?_
  split at hfault
  · have hstart := (Selection.startsIn_field.mp h).1
    split at hfault
    · split at hfault
      · split at hfault
        · cases hfault
        · exact List.mem_singleton.mp hfault ▸ .single hstart
      · split at hfault
        · exact List.mem_singleton.mp hfault ▸ .single hstart
        · cases hfault
    · cases hfault
  · cases hfault

theorem noIntrospection_pointsTo : noIntrospection.PointsTo starts := by
  refine .onEnter fun place node h fault hfault => ?_
  split at hfault
  · split at hfault
    · obtain rfl := List.mem_singleton.mp hfault
      have hfield := (Selection.startsIn_field.mp h).2.1
      exact .single (FieldHead.startsIn_parts.mp hfield).2.1
    · cases hfault
  · cases hfault

/-! ### Directives -/

/-- The directives on a node are parts of it. -/
theorem startsIn_directiveSite? {node : Node} {location : DirectiveLocation}
    {directives : List (Located DirectiveUse)} (h : node.StartsIn starts)
    (hsite : node.directiveSite? = some (location, directives)) :
    (directivesLayout directives).StartsIn starts := by
  cases node <;> cases hsite
  case operation node => exact (Operation.startsIn_parts.mp (startsIn_seq.mp h.2)).2.2.1
  case fragment node => exact (Fragment.startsIn_parts.mp (startsIn_seq.mp h.2)).2.2.1
  case variableDefinition definition => exact (VariableDefinition.startsIn_layout.mp h).2.2.2
  case schema node => exact (SchemaDefinition.startsIn_parts (startsIn_seq.mp h.2)).1
  case type node => exact (TypeDefinition.startsIn_parts (startsIn_seq.mp h.2)).2.2
  case fieldDefinition node => exact (FieldDefinition.startsIn_layout.mp h.2).2.2.2.2
  case argumentDefinition node => exact (InputValueDefinition.startsIn_layout.mp h.2).2.2.2.2
  case inputFieldDefinition node => exact (InputValueDefinition.startsIn_layout.mp h.2).2.2.2.2
  case enumValueDefinition node => exact (EnumValueDefinition.startsIn_layout.mp h.2).2.2
  case field node _ => exact (FieldHead.startsIn_parts.mp (Selection.startsIn_field.mp h).2.1).2.2.2
  case spread node => exact (Selection.startsIn_spread.mp h).2.2
  case inline node _ => exact (InlineHead.startsIn_parts.mp (Selection.startsIn_inline.mp h).2.1).2

theorem knownDirectives_pointsTo : (knownDirectives schema document).PointsTo starts := by
  refine .onEnter fun place node h fault hfault => ?_
  split at hfault
  · cases hfault
  · rename_i location directives hsite
    have hdirectives := startsIn_directivesLayout.mp (startsIn_directiveSite? h hsite)
    obtain ⟨use, huse, hsome⟩ := List.mem_filterMap.mp hfault
    dsimp only at hsome
    split at hsome
    · cases hsome
      exact .single (hdirectives use huse).1
    · split at hsome
      · cases hsome
      · cases hsome
        exact .single (hdirectives use huse).1

theorem uniqueDirectivesPerLocation_pointsTo :
    (uniqueDirectivesPerLocation schema document).PointsTo starts := by
  have hcheck {directives : List (Located DirectiveUse)}
      (h : ∀ use ∈ directives, starts use.span.start) :
      ∀ fault ∈ uniqueDirectivesPerLocation.check schema document directives,
        fault.PointsTo starts := by
    refine pointsTo_repetitions fun name hname => ?_
    obtain ⟨use, huse, rfl⟩ := List.mem_map.mp hname
    exact h use (List.mem_of_mem_filter huse)
  refine .onEnter fun place node h fault hfault => ?_
  split at hfault
  · have hdefinitions := Document.startsIn_layout.mp h
    rcases List.mem_append.mp hfault with hfault | hfault
    · refine hcheck (fun use huse => ?_) fault hfault
      obtain ⟨node, hnode, huse⟩ := List.mem_flatMap.mp huse
      have hparts := startsIn_seq.mp (hdefinitions _ (Document.mem_schemas.mp hnode)).2
      exact (startsIn_directivesLayout.mp (SchemaDefinition.startsIn_parts hparts).1 use huse).1
    · obtain ⟨name, -, hfault⟩ := List.mem_flatMap.mp hfault
      refine hcheck (fun use huse => ?_) fault hfault
      obtain ⟨node, hnode, huse⟩ := List.mem_flatMap.mp huse
      have hmem := Document.mem_types.mp (List.mem_of_mem_filter hnode)
      have hparts := startsIn_seq.mp (hdefinitions _ hmem).2
      exact (startsIn_directivesLayout.mp (TypeDefinition.startsIn_parts hparts).2.2 use huse).1
  · cases hfault
  · cases hfault
  · split at hfault
    · rename_i hsite
      have hdirectives := startsIn_directivesLayout.mp (startsIn_directiveSite? h hsite)
      exact hcheck (fun use huse => (hdirectives use huse).1) fault hfault
    · cases hfault

/-! ### Types -/

/-- The types that a node names are named inside it. -/
theorem startsIn_typeNames {node : Node} (h : node.StartsIn starts) :
    ∀ name ∈ node.typeNames, starts name.2 := by
  cases node with
  | inline node selections =>
      intro name hname
      obtain ⟨condition, hcondition, rfl⟩ := Option.map_eq_some_iff.mp (Option.mem_toList.mp hname)
      have hhead := (Selection.startsIn_inline.mp h).2.1
      exact (InlineHead.startsIn_parts.mp hhead).1 condition hcondition
  | fragment node =>
      have hparts := Fragment.startsIn_parts.mp (startsIn_seq.mp h.2)
      exact List.forall_mem_singleton.mpr hparts.2.1
  | variableDefinition definition =>
      exact List.forall_mem_singleton.mpr (VariableDefinition.startsIn_layout.mp h).2.1
  | schema node =>
      have hroots := (SchemaDefinition.startsIn_parts (startsIn_seq.mp h.2)).2
      exact List.forall_mem_map.mpr fun root hroot => (hroots root hroot).2
  | type node =>
      have hbody := (TypeDefinition.startsIn_parts (startsIn_seq.mp h.2)).2.1
      exact List.forall_mem_map.mpr hbody.references
  | fieldDefinition node =>
      exact List.forall_mem_singleton.mpr (FieldDefinition.startsIn_layout.mp h.2).2.2.2.1
  | argumentDefinition node =>
      exact List.forall_mem_singleton.mpr (InputValueDefinition.startsIn_layout.mp h.2).2.2.1
  | inputFieldDefinition node =>
      exact List.forall_mem_singleton.mpr (InputValueDefinition.startsIn_layout.mp h.2).2.2.1
  | _ => exact List.forall_mem_nil _

theorem knownTypeNames_pointsTo (others : List String) :
    (knownTypeNames others schema document).PointsTo starts := by
  unfold knownTypeNames
  refine .onEnter fun place node h fault hfault => ?_
  obtain ⟨name, hname, rfl⟩ := List.mem_map.mp hfault
  exact .single (startsIn_typeNames h name (List.mem_of_mem_filter hname))

theorem variablesAreInputs_pointsTo : (variablesAreInputs schema).PointsTo starts := by
  refine .onEnter fun place node h fault hfault => ?_
  split at hfault
  · split at hfault
    · obtain rfl := List.mem_singleton.mp hfault
      exact .single (VariableDefinition.startsIn_layout.mp h).2.1
    · cases hfault
  · cases hfault

/-! ### Fragments -/

theorem compositeConditions_pointsTo : (compositeConditions schema).PointsTo starts := by
  have hcheck {place : Surroundings} {fragment : Option String} {condition : Name}
      (h : starts condition.span.start) :
      ∀ fault ∈ compositeConditions.check schema place fragment condition,
        fault.PointsTo starts := by
    intro fault hfault
    unfold compositeConditions.check at hfault
    split at hfault
    · split at hfault
      · cases hfault
      · exact List.mem_singleton.mp hfault ▸ .single h
    · cases hfault
  refine .onEnter fun place node h fault hfault => ?_
  split at hfault
  · exact hcheck (Fragment.startsIn_parts.mp (startsIn_seq.mp h.2)).2.1 fault hfault
  · split at hfault
    · rename_i condition hcondition
      have hhead := (Selection.startsIn_inline.mp h).2.1
      exact hcheck ((InlineHead.startsIn_parts.mp hhead).1 condition hcondition) fault hfault
    · cases hfault
  · cases hfault

theorem knownFragmentNames_pointsTo : (knownFragmentNames document).PointsTo starts := by
  refine .onEnter fun place node h fault hfault => ?_
  split at hfault
  · split at hfault
    · cases hfault
    · obtain rfl := List.mem_singleton.mp hfault
      exact .single (Selection.startsIn_spread.mp h).2.1
  · cases hfault

theorem possibleSpreads_pointsTo : (possibleSpreads schema document).PointsTo starts := by
  have hcheck {place : Surroundings} {fragment : Option String} {condition : Option NamedType}
      {p : Position} (h : starts p) :
      ∀ fault ∈ possibleSpreads.check schema place fragment condition p,
        fault.PointsTo starts := by
    intro fault hfault
    unfold possibleSpreads.check at hfault
    split at hfault
    · split at hfault
      · cases hfault
      · exact List.mem_singleton.mp hfault ▸ .single h
    · cases hfault
  refine .onEnter fun place node h fault hfault => ?_
  split at hfault
  · exact hcheck (Selection.startsIn_inline.mp h).1 fault hfault
  · exact hcheck (Selection.startsIn_spread.mp h).1 fault hfault
  · cases hfault

/-! ### Type systems -/

theorem loneSchemaDefinition_pointsTo : loneSchemaDefinition.PointsTo starts := by
  refine .onDocument fun document h fault hfault => ?_
  obtain ⟨node, hnode, rfl⟩ := List.mem_map.mp hfault
  have hmem := List.mem_of_mem_filter (List.mem_of_mem_drop hnode)
  exact .single (h _ (Document.mem_schemas.mp hmem)).1

theorem uniqueOperationTypes_pointsTo : uniqueOperationTypes.PointsTo starts := by
  refine .onDocument fun document h => pointsTo_repetitions fun name hname => ?_
  obtain ⟨node, hnode, hname⟩ := List.mem_flatMap.mp hname
  obtain ⟨root, hroot, rfl⟩ := List.mem_map.mp hname
  have hparts := startsIn_seq.mp (h _ (Document.mem_schemas.mp hnode)).2
  exact ((SchemaDefinition.startsIn_parts hparts).2 root hroot).1

theorem uniqueTypeNames_pointsTo : uniqueTypeNames.PointsTo starts := by
  refine .onDocument fun document h => pointsTo_repetitions fun name hname => ?_
  obtain ⟨node, hnode, rfl⟩ := List.mem_map.mp hname
  have hmem := Document.mem_types.mp (List.mem_of_mem_filter hnode)
  exact (TypeDefinition.startsIn_parts (startsIn_seq.mp (h _ hmem).2)).1

/-- What all definitions of a type have together is named inside them. -/
theorem startsIn_partsByType {document : Document}
    (h : ∀ definition ∈ document, definition.layout.StartsIn starts)
    {parts : TypeBody → List (String × Position)}
    (hparts : ∀ body : TypeBody, body.StartsIn starts → ∀ name ∈ parts body, starts name.2) :
    ∀ type ∈ partsByType document parts, ∀ name ∈ type.2, starts name.2 := by
  intro type htype name hname
  obtain ⟨_, -, rfl⟩ := List.mem_map.mp htype
  obtain ⟨node, hnode, hname⟩ := List.mem_flatMap.mp hname
  have hmem := Document.mem_types.mp (List.mem_of_mem_filter hnode)
  exact hparts _ (TypeDefinition.startsIn_parts (startsIn_seq.mp (h _ hmem).2)).2.1 name hname

theorem uniqueEnumValueNames_pointsTo : uniqueEnumValueNames.PointsTo starts := by
  refine .onDocument fun document h fault hfault => ?_
  obtain ⟨type, htype, hfault⟩ := List.mem_flatMap.mp hfault
  refine pointsTo_repetitions (startsIn_partsByType h (fun body hbody => ?_) type htype) fault
    hfault
  cases body with
  | enum values =>
      exact List.forall_mem_map.mpr fun value hvalue =>
        (EnumValueDefinition.startsIn_layout.mp (hbody.values values rfl value hvalue).2).2.1
  | _ => exact List.forall_mem_nil _

theorem uniqueFieldDefinitionNames_pointsTo : uniqueFieldDefinitionNames.PointsTo starts := by
  refine .onDocument fun document h fault hfault => ?_
  obtain ⟨type, htype, hfault⟩ := List.mem_flatMap.mp hfault
  refine pointsTo_repetitions (startsIn_partsByType h (fun body hbody => ?_) type htype) fault
    hfault
  have hfields : ∀ name ∈ body.fields.map (·.item.name.start), starts name.2 :=
    List.forall_mem_map.mpr fun field hfield =>
      (FieldDefinition.startsIn_layout.mp (hbody.fields field hfield).2).2.1
  cases body with
  | object interfaces fields => exact hfields
  | interface interfaces fields => exact hfields
  | inputObject fields =>
      exact List.forall_mem_map.mpr fun field hfield =>
        (InputValueDefinition.startsIn_layout.mp (hbody.inputs fields rfl field hfield).2).2.1
  | _ => exact List.forall_mem_nil _

theorem uniqueArgumentDefinitionNames_pointsTo :
    uniqueArgumentDefinitionNames.PointsTo starts := by
  have hcheck {owner : String} {arguments : List (Located InputValueDefinition)}
      (h : (argumentDefinitionsLayout arguments).StartsIn starts) :
      ∀ fault ∈ uniqueArgumentDefinitionNames.check owner arguments, fault.PointsTo starts := by
    refine pointsTo_repetitions (List.forall_mem_map.mpr fun argument hargument => ?_)
    have hlayout := (startsIn_argumentDefinitionsLayout.mp h argument hargument).2
    exact (InputValueDefinition.startsIn_layout.mp hlayout).2.1
  refine .onEnter fun place node h fault hfault => ?_
  split at hfault
  · have hbody := (TypeDefinition.startsIn_parts (startsIn_seq.mp h.2)).2.1
    obtain ⟨field, hfield, hfault⟩ := List.mem_flatMap.mp hfault
    have hlayout := FieldDefinition.startsIn_layout.mp (hbody.fields field hfield).2
    exact hcheck hlayout.2.2.1 fault hfault
  · exact hcheck (DirectiveDefinition.startsIn_parts (startsIn_seq.mp h.2)).2 fault hfault
  · cases hfault

theorem uniqueDirectiveNames_pointsTo : uniqueDirectiveNames.PointsTo starts := by
  refine .onDocument fun document h => pointsTo_repetitions fun name hname => ?_
  obtain ⟨node, hnode, rfl⟩ := List.mem_map.mp hname
  have hparts := startsIn_seq.mp (h _ (Document.mem_directives.mp hnode)).2
  exact (DirectiveDefinition.startsIn_parts hparts).1

end Rules

/-! ## Rules on what operations use -/

/-- What is remembered of a walk starts at certain positions. -/
structure Usage.StartsIn (starts : Position → Prop) (usage : Usage) : Prop where
  operations : ∀ node ∈ usage.operations, (Node.operation node).StartsIn starts
  fragments : ∀ node ∈ usage.fragments, (Node.fragment node).StartsIn starts
  spreads : ∀ spread ∈ usage.spreads, (Node.spread spread.2).StartsIn starts
  variableUses : ∀ use ∈ usage.variableUses, starts use.name.span.start

namespace Usage

variable {starts : Position → Prop} {usage : Usage}

theorem StartsIn.remember (h : usage.StartsIn starts) {event : Event}
    (hevent : event.node.StartsIn starts) : (usage.remember event).StartsIn starts := by
  unfold Usage.remember
  split
  · rename_i node _ hnode
    rw [hnode] at hevent
    have hmore := List.forall_mem_append.mpr ⟨h.operations, List.forall_mem_singleton.mpr hevent⟩
    exact { h with operations := hmore }
  · rename_i node _ hnode
    rw [hnode] at hevent
    have hmore := List.forall_mem_append.mpr ⟨h.fragments, List.forall_mem_singleton.mpr hevent⟩
    exact { h with fragments := hmore }
  · rename_i node _ hnode
    rw [hnode] at hevent
    split
    · refine { h with spreads := List.forall_mem_append.mpr ⟨h.spreads, ?_⟩ }
      exact List.forall_mem_singleton.mpr hevent
    · exact h
  · rename_i span name _ hnode
    rw [hnode] at hevent
    split
    · refine { h with variableUses := List.forall_mem_append.mpr ⟨h.variableUses, ?_⟩ }
      exact List.forall_mem_singleton.mpr hevent.1
    · exact h
  · exact h

/-- What is remembered of a walk starts where the visited nodes start. -/
theorem startsIn_foldl_remember {events : List Event}
    (hevents : NodesSatisfy (Node.StartsIn starts) events) (h : usage.StartsIn starts) :
    (events.foldl Usage.remember usage).StartsIn starts := by
  induction events generalizing usage with
  | nil => exact h
  | cons event events ih =>
      obtain ⟨hevent, hrest⟩ := List.forall_mem_cons.mp hevents
      exact ih hrest (h.remember hevent)

theorem StartsIn.definedVariables (h : usage.StartsIn starts) {numbered : Located Operation × Nat}
    (hmem : numbered ∈ usage.numbered) :
    ∀ definition ∈ numbered.1.item.definedVariables, starts definition.name.span.start := by
  intro definition hdefinition
  have hoperation := h.operations _ (List.fst_mem_of_mem_zipIdx hmem)
  have hparts := startsIn_seq.mp hoperation.2
  have hlayout := Rules.startsIn_definedVariables hparts definition hdefinition
  exact (VariableDefinition.startsIn_layout.mp hlayout).1

end Usage

theorem Rule.PointsTo.onUsage {starts : Position → Prop} {check : Usage → List Fault}
    (h : ∀ usage : Usage, usage.StartsIn starts → ∀ fault ∈ check usage, fault.PointsTo starts) :
    (Rule.onUsage check).PointsTo starts := by
  intro events hevents
  rw [Rule.run_onUsage]
  exact h _ (Usage.startsIn_foldl_remember hevents ⟨nofun, nofun, nofun, nofun⟩)

namespace Rules

variable {starts : Position → Prop} (schema : Schema)

theorem noUndefinedVariables_pointsTo : noUndefinedVariables.PointsTo starts := by
  refine .onUsage fun usage h fault hfault => ?_
  obtain ⟨⟨operation, index⟩, hmem, hfault⟩ := List.mem_flatMap.mp hfault
  obtain ⟨use, huse, rfl⟩ := List.mem_map.mp hfault
  have huse := h.variableUses use (List.mem_of_mem_filter (List.mem_of_mem_filter huse))
  exact .pair huse (h.operations operation (List.fst_mem_of_mem_zipIdx hmem)).1

theorem noUnusedVariables_pointsTo : noUnusedVariables.PointsTo starts := by
  refine .onUsage fun usage h fault hfault => ?_
  obtain ⟨⟨operation, index⟩, hmem, hfault⟩ := List.mem_flatMap.mp hfault
  obtain ⟨definition, hdefinition, rfl⟩ := List.mem_map.mp hfault
  exact .single (h.definedVariables hmem definition (List.mem_of_mem_filter hdefinition))

theorem variablePositions_pointsTo : (variablePositions schema).PointsTo starts := by
  refine .onUsage fun usage h fault hfault => ?_
  obtain ⟨⟨operation, index⟩, hmem, hfault⟩ := List.mem_flatMap.mp hfault
  obtain ⟨use, huse, hsome⟩ := List.mem_filterMap.mp hfault
  obtain ⟨expected, -, hsome⟩ := Option.bind_eq_some_iff.mp hsome
  obtain ⟨definition, hfind, hsome⟩ := Option.bind_eq_some_iff.mp hsome
  split at hsome
  · cases hsome
  · cases hsome
    have hdefinition := h.definedVariables hmem definition (List.mem_of_find?_eq_some hfind)
    exact .pair hdefinition (h.variableUses use (List.mem_of_mem_filter huse))

theorem noUnusedFragments_pointsTo : noUnusedFragments.PointsTo starts := by
  refine .onUsage fun usage h fault hfault => ?_
  obtain ⟨node, hnode, rfl⟩ := List.mem_map.mp hfault
  exact .single (h.fragments node (List.mem_of_mem_filter hnode)).1

/-- A cycle has edges, and each of them is a spread. -/
theorem noFragmentCycles_pointsTo : noFragmentCycles.PointsTo starts := by
  refine .onUsage fun usage h fault hfault => ?_
  obtain ⟨cycle, hcycle, rfl⟩ := List.mem_map.mp hfault
  have hcycle := Graph.isCycle_of_mem_cycles hcycle
  refine ⟨by simpa using hcycle.edges_ne_nil, List.forall_mem_map.mpr fun edge hedge => ?_⟩
  obtain ⟨a, hleads⟩ := hcycle.trail.edge hedge
  obtain ⟨spread, hspread, hedge⟩ := List.mem_map.mp hleads
  obtain ⟨entry, hentry, rfl⟩ := List.mem_map.mp hspread
  have hstart := (h.spreads entry (List.mem_of_mem_filter hentry)).1
  rw [Graph.Edge.mk.injEq] at hedge
  exact hedge.2 ▸ hstart

end Rules

end GraphQL
