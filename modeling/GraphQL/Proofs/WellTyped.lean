import GraphQL.Proofs.Consistency
import GraphQL.Proofs.Silence
import GraphQL.Proofs.Walk

/-!
# Accepted documents are well typed

What a document that no rule complains about can be relied on for: every selection, at every depth,
names a field that its type has, gives it the arguments that it takes, and selects from its type
exactly if there is something to select; every fragment is about a type that can occur where it
stands.

No single rule says so. Each looks at one aspect of a node, and keeps silent where another one has
to speak: an unknown field has no type, so nothing is said about its selections. The proof follows
the walk. Wherever it enters a selection set of a type, the place knows this type twice, as the type
that is selected from and as the type of the innermost field, operation or fragment (`Inside`), and
this is kept by fields and by inline fragments with and without a condition.
-/

namespace GraphQL

/-- The arguments given to a field fit the ones it takes: each is declared, given once and a literal
of its type, and none that is required is missing. -/
structure ArgumentsFit (schema : Schema) (field : Field) (arguments : List Argument) : Prop where
  distinct : (arguments.map (·.name.item)).Nodup
  declared : ∀ argument ∈ arguments, ∃ parameter,
    field.argument? argument.name.item = some parameter ∧
      ∃ t, schema.resolve parameter.type = some t ∧
        schema.literalFault? t argument.value.item = none
  provided : ∀ parameter ∈ field.arguments, parameter.isRequired →
    ∃ argument ∈ arguments, argument.name.item = parameter.name

/-- A named type that fragments can be about, in a selection set of the given type. -/
def IsCondition (schema : Schema) (parent : NamedType) (name : String) (t : NamedType) : Prop :=
  schema.type? name = some t ∧ t.kind.isComposite ∧ Rules.canApply schema parent t

mutual

/-- A selection makes sense in a selection set of the given type, and so does everything below
it. -/
def Selection.WellTyped (schema : Schema) (document : Document) (parent : NamedType) :
    Selection → Prop
  | .field node selections =>
    ∃ field, schema.field? parent node.item.name.item = some field ∧
      ArgumentsFit schema field (Rules.givenArguments node.item.arguments) ∧
      ∃ t, schema.type? field.type.innermost = some t ∧
        (selections ≠ [] ↔ ¬ t.kind.isLeaf) ∧
        Selection.AllWellTyped schema document t selections
  | .spread node =>
    ∃ fragment, document.fragment? node.item.name.item = some fragment ∧
      ∃ t, IsCondition schema parent fragment.condition.item t
  | .inline node selections =>
    match node.item.condition with
    | none => Selection.AllWellTyped schema document parent selections
    | some condition =>
      ∃ t, IsCondition schema parent condition.item t ∧
        Selection.AllWellTyped schema document t selections

/-- All selections of a selection set make sense. -/
def Selection.AllWellTyped (schema : Schema) (document : Document) (parent : NamedType) :
    List Selection → Prop
  | [] => True
  | selection :: rest =>
    Selection.WellTyped schema document parent selection ∧
      Selection.AllWellTyped schema document parent rest

end

/-- A definition can be executed: an operation makes sense at its root type, a fragment at the
composite type it is about. -/
def Definition.WellTyped (schema : Schema) (document : Document) : Definition → Prop
  | .operation node => ∀ t, schema.root? node.item.kind = some t →
    Selection.AllWellTyped schema document t node.item.selections
  | .fragment node => ∃ t, schema.type? node.item.condition.item = some t ∧ t.kind.isComposite ∧
    Selection.AllWellTyped schema document t node.item.selections
  | _ => False

/-- A schema in which standard names mean standard types. -/
def Schema.StandardNames (schema : Schema) : Prop :=
  ∀ t ∈ schema.types, ∀ u, Standard.type? t.name = some u → t.kind = u.kind

section

variable {config : Schema.Config}
  (hconsistent : (Schema.ofConfig config).inconsistencies = [])
  (hstandard : (Schema.ofConfig config).StandardNames)

include hstandard in
/-- The type that describes schemas is registered as it is. -/
theorem Schema.standardSchema_mem : Standard.schema ∈ (ofConfig config).types := by
  obtain ⟨t, ht, hname⟩ := schema_mem_types config
  have hfound : Standard.type? t.name = some Standard.schema := by
    rw [hname]
    rfl
  have hkind := hstandard t ht Standard.schema hfound
  have heq := Registry.eq_of_shared_eq (shared_of_mem_types ht) hfound hkind.symm
  exact heq ▸ ht

include hconsistent hstandard in
/-- The types that the fields of introspection have are registered. -/
theorem Schema.introspection_registered :
    (∃ t, (ofConfig config).type? "__Schema" = some t) ∧
      (∃ t, (ofConfig config).type? "__Type" = some t) ∧
      (∃ t, (ofConfig config).type? "String" = some t) := by
  have hmem := standardSchema_mem hstandard
  refine ⟨⟨_, type?_of_mem (nodup_names_types config) hmem⟩, ?_, ?_⟩
  · have hfield : (⟨"types", Standard.requiredItems "__Type",
        some "A list of all types supported by this server.", [], .current⟩ : Field) ∈
        Standard.schema.fields := by
      simp [NamedType.fields, Standard.schema]
    obtain ⟨t, ht, _⟩ := field_registered hconsistent hmem hfield
    exact ⟨t, ht⟩
  · have hfield : (⟨"description", Standard.nullable "String", none, [], .current⟩ : Field) ∈
        Standard.schema.fields := by
      simp [NamedType.fields, Standard.schema]
    obtain ⟨t, ht, _⟩ := field_registered hconsistent hmem hfield
    exact ⟨t, ht⟩

include hconsistent hstandard in
/-- Whatever field a selection can name: its type is registered, and so are those of its
arguments. -/
theorem Schema.field?_registered {parent : NamedType} (hparent : parent ∈ (ofConfig config).types)
    {name : String} {field : Field} (h : (ofConfig config).field? parent name = some field) :
    (∃ t, (ofConfig config).type? field.type.innermost = some t) ∧
      ∀ argument ∈ field.arguments,
        ∃ t, (ofConfig config).type? argument.type.innermost = some t := by
  obtain ⟨hschema, htype, hstring⟩ := introspection_registered hconsistent hstandard
  unfold field? at h
  split at h
  · cases h
    exact ⟨hstring, by simp [Standard.typenameField]⟩
  · split at h
    · cases h
      exact ⟨hschema, by simp [Standard.schemaField]⟩
    · split at h
      · cases h
        refine ⟨htype, ?_⟩
        intro argument harg
        have heq : argument = { name := "name", type := Standard.required "String" } := by
          simpa [Standard.typeField] using harg
        rw [heq]
        exact hstring
      · have hmem : field ∈ parent.fields := List.mem_of_find?_eq_some h
        obtain ⟨t, ht, _⟩ := field_registered hconsistent hparent hmem
        refine ⟨⟨t, ht⟩, ?_⟩
        intro argument harg
        obtain ⟨u, hu, _⟩ := fieldArgument_registered hconsistent hparent hmem harg
        exact ⟨u, hu⟩

end

/-- No rule has anything to say about a walk through the document. -/
def Accepted (schema : Schema) (document : Document) : Prop :=
  ∀ rule ∈ Rules.executable schema document, rule.run (document.events schema) = []

/-- Documents that are valid without further options are accepted. -/
theorem accepted_of_validate {schema : Schema} {document : Document}
    (h : document.validate schema {} = []) : Accepted schema document := by
  intro rule hrule
  unfold Document.validate at h
  rw [Document.check_eq_nil_iff] at h
  exact h rule (List.mem_append_left _ hrule)

namespace Accepted

variable {schema : Schema} {document : Document} (h : Accepted schema document)

include h

/-- Only operations and fragments are defined. -/
theorem isExecutable {definition : Definition} (hmem : definition ∈ document) :
    definition.isExecutable = true := by
  have hrule := h Rules.executableDefinitions (by simp [Rules.executable])
  have hnil := Rule.check_eq_nil_of_run_onDocument hrule
  have hnone := List.filterMap_eq_nil_iff.mp hnil definition hmem
  cases definition with
  | operation node => rfl
  | fragment node => rfl
  | schema node => cases hnone
  | type node => cases hnone
  | directive node => cases hnone

/-- No types are defined. -/
theorem definedTypes_eq_nil : Rules.definedTypes document = [] := by
  unfold Rules.definedTypes Document.types
  rw [List.map_eq_nil_iff, List.filter_eq_nil_iff]
  intro node hnode
  obtain ⟨definition, hmem, hsome⟩ := List.mem_filterMap.mp hnode
  have hexec := h.isExecutable hmem
  cases definition with
  | type node => cases hexec
  | operation node => cases hsome
  | fragment node => cases hsome
  | schema node => cases hsome
  | directive node => cases hsome

/-- Every type that a node names is registered. -/
theorem typeName_registered {place : Surroundings} {node : Node}
    (hmem : ⟨.enter, node, place⟩ ∈ document.events schema) {name : String} {position : Position}
    (hname : (name, position) ∈ node.typeNames) : ∃ t, schema.type? name = some t := by
  have hrule := h (Rules.knownTypeNames [] schema document) (by simp [Rules.executable])
  dsimp only [Rules.knownTypeNames] at hrule
  have hnil := Rule.check_eq_nil_of_run hrule hmem
  rw [h.definedTypes_eq_nil, List.map_eq_nil_iff, List.filter_eq_nil_iff] at hnil
  have hknown := hnil (name, position) hname
  exact Option.ne_none_iff_exists'.mp (by simpa using hknown)

/-- A field that is selected exists. -/
theorem field_found {place : Surroundings} {node : Located FieldHead} {selections : List Selection}
    (hmem : ⟨.enter, .field node selections, place⟩ ∈ document.events schema) {parent : NamedType}
    (hparent : place.parent = some parent) :
    ∃ field, schema.field? parent node.item.name.item = some field := by
  have hrule := h (Rules.fieldsOnType schema) (by simp [Rules.executable])
  have hnil := Rule.check_eq_nil_of_run hrule hmem
  simp only [hparent] at hnil
  exact Option.ne_none_iff_exists'.mp (by simpa using hnil)

/-- A field has selections exactly if its type is no leaf. -/
theorem selections_iff {place : Surroundings} {node : Located FieldHead}
    {selections : List Selection}
    (hmem : ⟨.enter, .field node selections, place⟩ ∈ document.events schema) {t : NamedType}
    {type : TypeLiteral} (htype : place.type? schema = some t) (hout : place.output = some type) :
    selections ≠ [] ↔ ¬ t.kind.isLeaf := by
  have hrule := h (Rules.leafSelections schema) (by simp [Rules.executable])
  have hnil := Rule.check_eq_nil_of_run hrule hmem
  simp only [htype, hout] at hnil
  cases hleaf : t.kind.isLeaf with
  | true =>
      cases selections with
      | nil => simp
      | cons first rest => simp [hleaf] at hnil
  | false =>
      cases selections with
      | nil => simp [hleaf] at hnil
      | cons first rest => simp

/-- A literal that is given for an argument is one of the type that is expected. -/
theorem argument_literal {place : Surroundings} {argument : Argument}
    (hmem : ⟨.enter, .argument argument, place⟩ ∈ document.events schema) {t : ResolvedType}
    (hexpected : place.expected? schema = some t) :
    schema.literalFault? t argument.value.item = none := by
  have hrule := h (Rules.argumentValues schema) (by simp [Rules.executable])
  have hnil := Rule.check_eq_nil_of_run hrule hmem
  simp only [hexpected, Option.bind_some] at hnil
  cases hfault : schema.literalFault? t argument.value.item with
  | none => rfl
  | some fault => simp [hfault] at hnil

/-- The type that a fragment is about has selections. -/
theorem condition_composite {place : Surroundings} {node : Node} {t : NamedType}
    (hmem : ⟨.enter, node, place⟩ ∈ document.events schema)
    (hnode : (∃ fragment, node = .fragment fragment) ∨
      ∃ inline selections condition, node = .inline inline selections ∧
        inline.item.condition = some condition)
    (htype : place.type? schema = some t) : t.kind.isComposite := by
  have hrule := h (Rules.compositeConditions schema) (by simp [Rules.executable])
  have hnil := Rule.check_eq_nil_of_run hrule hmem
  rcases hnode with ⟨fragment, rfl⟩ | ⟨inline, selections, condition, rfl, hcondition⟩
  · simpa [Rules.compositeConditions.check, htype] using hnil
  · simpa [Rules.compositeConditions.check, htype, hcondition] using hnil

/-- A fragment that is spread exists. -/
theorem fragment_found {place : Surroundings} {node : Located FragmentSpread}
    (hmem : ⟨.enter, .spread node, place⟩ ∈ document.events schema) :
    ∃ fragment, document.fragment? node.item.name.item = some fragment := by
  have hrule := h (Rules.knownFragmentNames document) (by simp [Rules.executable])
  have hnil := Rule.check_eq_nil_of_run hrule hmem
  exact Option.ne_none_iff_exists'.mp (by simpa using hnil)

/-- An inline fragment is about a type that can occur where it stands. -/
theorem inline_applies {place : Surroundings} {node : Located InlineHead}
    {selections : List Selection}
    (hmem : ⟨.enter, .inline node selections, place⟩ ∈ document.events schema)
    {parent t : NamedType} {condition : Name} (hparent : place.parent = some parent)
    (hcondition : node.item.condition = some condition)
    (ht : schema.type? condition.item = some t) : Rules.canApply schema parent t := by
  have hrule := h (Rules.possibleSpreads schema document) (by simp [Rules.executable])
  have hnil := Rule.check_eq_nil_of_run hrule hmem
  simpa [Rules.possibleSpreads.check, hparent, hcondition, ht] using hnil

/-- A fragment that is spread is about a type that can occur where it stands. -/
theorem spread_applies {place : Surroundings} {node : Located FragmentSpread}
    (hmem : ⟨.enter, .spread node, place⟩ ∈ document.events schema)
    {parent t : NamedType} {fragment : Fragment} (hparent : place.parent = some parent)
    (hfragment : document.fragment? node.item.name.item = some fragment)
    (ht : schema.type? fragment.condition.item = some t) : Rules.canApply schema parent t := by
  have hrule := h (Rules.possibleSpreads schema document) (by simp [Rules.executable])
  have hnil := Rule.check_eq_nil_of_run hrule hmem
  have hcondition : Rules.conditionOf? schema document node.item.name.item = some t := by
    unfold Document.fragment? at hfragment
    obtain ⟨located, hfind, rfl⟩ := Option.map_eq_some_iff.mp hfragment
    rw [← List.head?_filter] at hfind
    obtain ⟨rest, hrest⟩ := List.head?_eq_some_iff.mp hfind
    unfold Rules.conditionOf?
    rw [hrest, List.findSome?_cons, ht]
  simpa [Rules.possibleSpreads.check, hparent, hcondition] using hnil

/-- Every fragment of the document is about a registered type that has selections. -/
theorem fragment_registered {node : Located Fragment} (hmem : Definition.fragment node ∈ document) :
    ∃ t, schema.type? node.item.condition.item = some t ∧ t.kind.isComposite := by
  have henter : ⟨.enter, .fragment node, ({} : Surroundings).on node.item.condition.item⟩ ∈
      document.events schema :=
    Document.mem_events_of_mem hmem (Event.enter_mem_around _ _ _)
  obtain ⟨t, ht⟩ := h.typeName_registered henter (List.mem_singleton.mpr rfl)
  exact ⟨t, ht, h.condition_composite henter (Or.inl ⟨node, rfl⟩) ht⟩

/-- No argument of a field is given twice. -/
theorem arguments_nodup {place : Surroundings} {node : Located FieldHead}
    {selections : List Selection}
    (hmem : ⟨.enter, .field node selections, place⟩ ∈ document.events schema) :
    ((Rules.givenArguments node.item.arguments).map (·.name.item)).Nodup := by
  have hrule := h Rules.uniqueArgumentNames (by simp [Rules.executable])
  have hnil := Rule.check_eq_nil_of_run hrule hmem
  have hnodup := repetitions_eq_nil_iff.mp hnil
  rw [List.map_map] at hnodup
  exact hnodup

/-- An argument that is given to a field is known to it. -/
theorem argument_found {place : Surroundings} {node : Located FieldHead}
    {selections : List Selection}
    (hmem : ⟨.enter, .field node selections, place⟩ ∈ document.events schema)
    {parent : NamedType} {field : Field} (hparent : place.parent = some parent)
    (hfield : schema.field? parent node.item.name.item = some field) {argument : Argument}
    (harg : argument ∈ Rules.givenArguments node.item.arguments) :
    ∃ parameter, field.argument? argument.name.item = some parameter := by
  have hrule := h (Rules.knownArgumentNames schema document) (by simp [Rules.executable])
  have hnil := Rule.check_eq_nil_of_run hrule hmem
  simp only [hparent, hfield, Rules.knownArgumentNames.unknown, List.map_eq_nil_iff,
    List.filter_eq_nil_iff] at hnil
  have hknown : argument.name.item ∈ field.arguments.map InputValue.name := by
    simpa using hnil argument harg
  obtain ⟨known, hknownMem, hknownName⟩ := List.mem_map.mp hknown
  have hsome : (field.argument? argument.name.item).isSome :=
    List.find?_isSome.mpr ⟨known, hknownMem, by simpa using hknownName⟩
  exact Option.isSome_iff_exists.mp hsome

/-- An argument that a field requires is given. -/
theorem argument_provided {place : Surroundings} {node : Located FieldHead}
    {selections : List Selection}
    (hmem : ⟨.enter, .field node selections, place⟩ ∈ document.events schema)
    {parent : NamedType} {field : Field} (hparent : place.parent = some parent)
    (hfield : schema.field? parent node.item.name.item = some field) {parameter : InputValue}
    (hparameter : parameter ∈ field.arguments) (hrequired : parameter.isRequired) :
    ∃ argument ∈ Rules.givenArguments node.item.arguments,
      argument.name.item = parameter.name := by
  have hrule := h (Rules.providedArguments schema) (by simp [Rules.executable])
  have hnil := Rule.check_eq_nil_of_run hrule hmem
  simp only [hparent, Option.bind_some, hfield, Rules.providedArguments.missing,
    List.map_eq_nil_iff, List.filter_eq_nil_iff] at hnil
  have hgiven := hnil parameter hparameter
  have hsome : (Argument.find? (Rules.givenArguments node.item.arguments)
      parameter.name).isSome := by
    simpa [hrequired, Option.isSome_iff_ne_none] using hgiven
  unfold Argument.find? at hsome
  rw [Option.isSome_map] at hsome
  obtain ⟨argument, harg, hname⟩ := List.find?_isSome.mp hsome
  exact ⟨argument, harg, by simpa using hname⟩

/-- The arguments that are given to a field whose definition is known fit it. -/
theorem argumentsFit {place : Surroundings} {node : Located FieldHead}
    {selections : List Selection}
    (hmem : ⟨.enter, .field node selections, place⟩ ∈ document.events schema)
    {parent : NamedType} {field : Field} (hparent : place.parent = some parent)
    (hfield : schema.field? parent node.item.name.item = some field)
    (hregistered : ∀ parameter ∈ field.arguments,
      ∃ t, schema.type? parameter.type.innermost = some t)
    (hevents : ∀ event ∈ argumentEvents schema place (some field.arguments) node.item.arguments,
      event ∈ document.events schema) :
    ArgumentsFit schema field (Rules.givenArguments node.item.arguments) where
  distinct := h.arguments_nodup hmem
  declared := by
    intro argument harg
    obtain ⟨parameter, hparameter⟩ := h.argument_found hmem hparent hfield harg
    obtain ⟨t, ht⟩ := hregistered parameter (List.mem_of_find?_eq_some hparameter)
    obtain ⟨resolved, hresolved, _⟩ := Schema.resolve_of_innermost ht
    refine ⟨parameter, hparameter, resolved, hresolved, ?_⟩
    have hexpected : (field.arguments.find? (·.name = argument.name.item)).map InputValue.type =
        some parameter.type := congrArg (Option.map InputValue.type) hparameter
    refine h.argument_literal (hevents _ (List.mem_flatMap.mpr
      ⟨argument, harg, Event.enter_mem_around _ _ _⟩)) ?_
    simp [Surroundings.expected?, hexpected, hresolved]
  provided _ hparameter hrequired := h.argument_provided hmem hparent hfield hparameter hrequired

end Accepted

/-- A place inside a selection set of a registered type: the type is known as the one that is
selected from, and as the one of the innermost field, operation or fragment. -/
structure Inside (schema : Schema) (place : Surroundings) (parent : NamedType) : Prop where
  selects : place.parent = some parent
  output : place.type? schema = some parent
  registered : parent ∈ schema.types

/-- Entering a selection set of the type at hand. -/
theorem Inside.within {schema : Schema} {place : Surroundings} {t : NamedType}
    (h : place.type? schema = some t) : Inside schema (place.within schema) t := by
  obtain ⟨type, hout, htype⟩ := Option.bind_eq_some_iff.mp h
  exact ⟨h, h, (Schema.mem_of_type? htype).1⟩

/-- In a field of the type at hand, the type of the field is. -/
theorem Inside.type?_inField {schema : Schema} {place : Surroundings} {parent t : NamedType}
    (hin : Inside schema place parent) {node : Located FieldHead} {field : Field}
    (hfield : schema.field? parent node.item.name.item = some field)
    (ht : schema.type? field.type.innermost = some t) :
    (place.inField schema node).output = some field.type ∧
      (place.inField schema node).type? schema = some t := by
  have houtput : (place.inField schema node).output = some field.type := by
    simp [Surroundings.inField, hin.selects, hfield]
  exact ⟨houtput, by simp [Surroundings.type?, houtput, ht]⟩

/-- In an inline fragment, its condition is the type at hand if it has one. -/
theorem Inside.type?_inInline {schema : Schema} {place : Surroundings} {parent : NamedType}
    (hin : Inside schema place parent) (node : Located InlineHead) :
    (place.inInline node).type? schema =
      (node.item.condition.map fun name => schema.type? name.item).getD (some parent) := by
  unfold Surroundings.inInline
  cases node.item.condition with
  | none => exact hin.output
  | some condition => rfl

mutual

/-- A selection that is walked through inside a selection set of a type makes sense there. -/
theorem Selection.wellTyped_of_walk {config : Schema.Config} {document : Document}
    (hconsistent : (Schema.ofConfig config).inconsistencies = [])
    (hstandard : (Schema.ofConfig config).StandardNames)
    (haccepted : Accepted (Schema.ofConfig config) document) (selection : Selection)
    {place : Surroundings} {parent : NamedType} (hin : Inside (Schema.ofConfig config) place parent)
    (hwalk : ∀ event ∈ Selection.events (Schema.ofConfig config) place selection,
      event ∈ document.events (Schema.ofConfig config)) :
    selection.WellTyped (Schema.ofConfig config) document parent := by
  match selection with
  | .field node selections =>
      have henter : ⟨.enter, .field node selections, place.inField (Schema.ofConfig config) node⟩ ∈
          document.events (Schema.ofConfig config) := hwalk _ (Event.enter_mem_around _ _ _)
      obtain ⟨field, hfield⟩ := haccepted.field_found henter hin.selects
      obtain ⟨⟨t, ht⟩, hregistered⟩ :=
        Schema.field?_registered hconsistent hstandard hin.registered hfield
      obtain ⟨houtput, htype⟩ := hin.type?_inField hfield ht
      have hfit := haccepted.argumentsFit henter hin.selects hfield hregistered
        fun event hevent => hwalk event (Selection.argumentEvents_subset_field _ _ _ _
          (by simpa [hin.selects, hfield] using hevent))
      rw [Selection.WellTyped]
      refine ⟨field, hfield, hfit, t, ht, haccepted.selections_iff henter htype houtput, ?_⟩
      exact Selection.allWellTyped_of_walk hconsistent hstandard haccepted selections
        (Inside.within htype)
        fun event hevent => hwalk event (Selection.listEvents_subset_field _ _ _ _ hevent)
  | .spread node =>
      rw [Selection.events] at hwalk
      have henter := hwalk _ (Event.enter_mem_around _ _ _)
      obtain ⟨fragment, hfragment⟩ := haccepted.fragment_found henter
      obtain ⟨definition, hmem, rfl⟩ := Document.mem_of_fragment? hfragment
      obtain ⟨t, ht, hcomposite⟩ := haccepted.fragment_registered hmem
      have happlies := haccepted.spread_applies henter hin.selects hfragment ht
      rw [Selection.WellTyped]
      exact ⟨definition.item, hfragment, t, ht, hcomposite, happlies⟩
  | .inline node selections =>
      have henter : ⟨.enter, .inline node selections, place.inInline node⟩ ∈
          document.events (Schema.ofConfig config) := hwalk _ (Event.enter_mem_around _ _ _)
      have htype := hin.type?_inInline node
      have hbody {t : NamedType}
          (h : (place.inInline node).type? (Schema.ofConfig config) = some t) :
          Selection.AllWellTyped (Schema.ofConfig config) document t selections :=
        Selection.allWellTyped_of_walk hconsistent hstandard haccepted selections
          (Inside.within h)
          fun event hevent => hwalk event (Selection.listEvents_subset_inline _ _ _ _ hevent)
      rw [Selection.WellTyped]
      cases hcondition : node.item.condition with
      | none =>
          rw [hcondition] at htype
          exact hbody htype
      | some condition =>
          rw [hcondition] at htype
          have hname : condition.start ∈ Node.typeNames (.inline node selections) := by
            simp [Node.typeNames, hcondition]
          obtain ⟨t, ht⟩ := haccepted.typeName_registered henter hname
          have hcomposite := haccepted.condition_composite henter
            (Or.inr ⟨node, selections, condition, rfl, hcondition⟩) (htype.trans ht)
          have hparent := (place.parent_inInline node).trans hin.selects
          have happlies := haccepted.inline_applies henter hparent hcondition ht
          exact ⟨t, ⟨ht, hcomposite, happlies⟩, hbody (htype.trans ht)⟩

/-- The selections that are walked through inside a selection set of a type make sense there. -/
theorem Selection.allWellTyped_of_walk {config : Schema.Config} {document : Document}
    (hconsistent : (Schema.ofConfig config).inconsistencies = [])
    (hstandard : (Schema.ofConfig config).StandardNames)
    (haccepted : Accepted (Schema.ofConfig config) document) (selections : List Selection)
    {place : Surroundings} {parent : NamedType} (hin : Inside (Schema.ofConfig config) place parent)
    (hwalk : ∀ event ∈ Selection.listEvents (Schema.ofConfig config) place selections,
      event ∈ document.events (Schema.ofConfig config)) :
    Selection.AllWellTyped (Schema.ofConfig config) document parent selections := by
  match selections with
  | [] =>
      rw [Selection.AllWellTyped]
      trivial
  | selection :: rest =>
      rw [Selection.listEvents] at hwalk
      rw [Selection.AllWellTyped]
      constructor
      · exact Selection.wellTyped_of_walk hconsistent hstandard haccepted selection hin
          (fun event hevent => hwalk event (List.mem_append_left _ hevent))
      · exact Selection.allWellTyped_of_walk hconsistent hstandard haccepted rest hin
          (fun event hevent => hwalk event (List.mem_append_right _ hevent))

end

/-- **Accepted documents are well typed.** If nothing is wrong with a schema, standard names mean
standard types in it, and the document is valid, then the document consists of operations and
fragments that make sense at every depth. -/
theorem Document.wellTyped_of_validate {config : Schema.Config} {document : Document}
    (hconsistent : (Schema.ofConfig config).inconsistencies = [])
    (hstandard : (Schema.ofConfig config).StandardNames)
    (hvalid : document.validate (Schema.ofConfig config) {} = []) :
    ∀ definition ∈ document, definition.WellTyped (Schema.ofConfig config) document := by
  intro definition hmem
  have haccepted := accepted_of_validate hvalid
  have hexecutable := haccepted.isExecutable hmem
  have hwalk : ∀ event ∈ definition.events (Schema.ofConfig config),
      event ∈ document.events (Schema.ofConfig config) :=
    fun event hevent => Document.mem_events_of_mem hmem hevent
  cases definition with
  | operation node =>
      intro t hroot
      have htype : (⟨((Schema.ofConfig config).root? node.item.kind).map
          (fun t => .named t.name true), none, none⟩ : Surroundings).type?
          (Schema.ofConfig config) = some t := by
        obtain ⟨name, hname, ht⟩ := Option.bind_eq_some_iff.mp hroot
        rw [hroot]
        show (Schema.ofConfig config).type? t.name = some t
        rw [(Schema.mem_of_type? ht).2]
        exact ht
      refine Selection.allWellTyped_of_walk hconsistent hstandard haccepted node.item.selections
        (Inside.within htype) ?_
      exact fun event hevent => hwalk event (Event.mem_around_of_mem
        (List.mem_append_right _ (Event.mem_around_of_mem hevent)))
  | fragment node =>
      obtain ⟨t, ht, hcomposite⟩ := haccepted.fragment_registered hmem
      refine ⟨t, ht, hcomposite, ?_⟩
      have htype : (({} : Surroundings).on node.item.condition.item).type?
          (Schema.ofConfig config) = some t := ht
      refine Selection.allWellTyped_of_walk hconsistent hstandard haccepted node.item.selections
        (Inside.within htype) ?_
      exact fun event hevent => hwalk event (Event.mem_around_of_mem
        (List.mem_append_right _ (Event.mem_around_of_mem hevent)))
  | schema node => cases hexecutable
  | type node => cases hexecutable
  | directive node => cases hexecutable

/-- A schema with one object that is found by a number. -/
def petConfig : Schema.Config where
  query := some "Query"
  types := [
    { name := "Query", shape := .object [] [
      { name := "pet", type := .named "Pet" false,
        arguments := [{ name := "id", type := .named "Int" true }] }] },
    { name := "Pet", shape := .object [] [{ name := "name", type := .named "String" false }] }] ++
    (Standard.scalars.filter fun t => ["Int", "String", "Boolean"].contains t.name) ++
    Standard.introspection
  directives := some []

/-- Asks for the name of a pet, and in fragments for the name of its type. -/
def petOperation : Definition :=
  .operation (.unlocated ⟨.query, none, none, [], [
    .field (.unlocated ⟨none, .unlocated "pet",
        some (.unlocated [⟨.unlocated "id", .unlocated (.int 1)⟩]), []⟩) [
      .field (.unlocated ⟨none, .unlocated "name", none, []⟩) [],
      .inline (.unlocated ⟨some (.unlocated "Pet"), []⟩) [
        .inline (.unlocated ⟨none, []⟩) [
          .field (.unlocated ⟨none, .unlocated "__typename", none, []⟩) []]]]]⟩)

/-- The document of this one operation. -/
def petDocument : Document := [petOperation]

/-- The configuration lists all types of its schema. -/
theorem petConfig_closed : petConfig.Closed where
  shared := Registry.shared_of_map_shared rfl
  nodup := by decide +kernel
  references := by decide +kernel
  others := by decide +kernel
  scalars := by decide +kernel

/-- The schema of the configuration. -/
def petSchema : Schema where
  description := none
  query := some "Query"
  mutation := none
  subscription := none
  types := petConfig.types
  directives := []
  ambiguous := []
  assumeValid := false

/-- No rule has anything to say about the document. -/
theorem petDocument_accepted : Accepted petSchema petDocument := by
  intro rule hrule
  apply List.isEmpty_iff.mp
  revert rule
  rw [← List.all_eq_true]
  decide +kernel

/-- The document about pets is accepted, so its operation is well typed. -/
theorem petDocument_wellTyped :
    petDocument.validate (Schema.ofConfig petConfig) {} = [] ∧
      petOperation.WellTyped (Schema.ofConfig petConfig) petDocument := by
  have hschema : Schema.ofConfig petConfig = petSchema :=
    Schema.ofConfig_of_closed petConfig_closed
  have hconsistent : (Schema.ofConfig petConfig).inconsistencies = [] := by
    rw [hschema]
    exact List.isEmpty_iff.mp (by decide +kernel)
  have hstandard : (Schema.ofConfig petConfig).StandardNames := by
    rw [hschema]
    have hkinds : ∀ t ∈ petSchema.types, ∀ u ∈ Standard.type? t.name, t.kind = u.kind := by
      decide +kernel
    exact fun t ht u hu => hkinds t ht u (Option.mem_def.mpr hu)
  have hvalid : petDocument.validate (Schema.ofConfig petConfig) {} = [] := by
    rw [hschema]
    unfold Document.validate
    rw [Document.check_eq_nil_iff]
    show ∀ rule ∈ Rules.executable petSchema petDocument ++ [], _
    rw [List.append_nil]
    exact petDocument_accepted
  exact ⟨hvalid, Document.wellTyped_of_validate hconsistent hstandard hvalid petOperation
    (List.mem_singleton_self petOperation)⟩

end GraphQL
