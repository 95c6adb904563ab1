import GraphQL.Proofs.Usage
import GraphQL.Proofs.WellTyped

/-!
# Operations that a schema can run

To run an operation, a schema needs a root type for its kind, and every field that the operation
selects, in itself or in the fragments that it uses, has to be one of the type that it is selected
from.

No rule asks for the root type. If there is none, then nothing is known about the selections of the
operation, and nothing is said about them: a valid document may hold operations that cannot be run.
This is the only reason why one cannot (`Document.runs_iff_root`), provided that the types which the
fields of introspection have are registered if something is selected from them. A type that is given
under the name of the one that describes schemas can prevent this.
-/

namespace GraphQL

mutual

/-- Every field in a selection is one of the type that it is selected from, which is known. -/
def Selection.Resolves (schema : Schema) (parent : Option NamedType) : Selection → Prop
  | .field node selections =>
    ∃ t field, parent = some t ∧ schema.field? t node.item.name.item = some field ∧
      Selection.AllResolve schema (schema.type? field.type.innermost) selections
  | .spread _ => True
  | .inline node selections =>
    match node.item.condition with
    | none => Selection.AllResolve schema parent selections
    | some condition => Selection.AllResolve schema (schema.type? condition.item) selections

/-- The same for all selections of a selection set. -/
def Selection.AllResolve (schema : Schema) (parent : Option NamedType) : List Selection → Prop
  | [] => True
  | selection :: rest =>
    Selection.Resolves schema parent selection ∧ Selection.AllResolve schema parent rest

end

/-- Every field in an operation is one of its type, from the root on, and every field in a fragment,
from the type on that the fragment is about. -/
def Definition.Resolves (schema : Schema) : Definition → Prop
  | .operation node =>
    Selection.AllResolve schema (schema.root? node.item.kind) node.item.selections
  | .fragment node =>
    Selection.AllResolve schema (schema.type? node.item.condition.item) node.item.selections
  | _ => True

/-- An operation can be run: it has a root type, and all fields that it uses exist. -/
structure Document.Runs (schema : Schema) (document : Document) (operation : Located Operation) :
    Prop where
  root : (schema.root? operation.item.kind).isSome
  fields : ∀ definition, document.Uses schema (.operation operation) definition →
    definition.Resolves schema

/-- Something is selected from a field of introspection whose type may not be registered. -/
def Document.SelectsFromMeta (document : Document) : Prop :=
  ∃ set node below, document.HasSet set ∧ .field node below ∈ set ∧ below ≠ [] ∧
    node.item.name.item ∈ ["__type", "__typename"]

/-- The types of these fields are registered. -/
def Schema.KnowsMeta (schema : Schema) : Prop :=
  (schema.type? "__Type").isSome ∧ (schema.type? "String").isSome

section

variable {config : Schema.Config} (hconsistent : (Schema.ofConfig config).inconsistencies = [])

include hconsistent

/-- The type of a field that is selected is registered, up to those of the fields of introspection,
which may be missing. -/
theorem Schema.fieldType_registered {parent : NamedType}
    (hparent : parent ∈ (ofConfig config).types) {name : String} {field : Field}
    (h : (ofConfig config).field? parent name = some field)
    (hmeta : name ∈ ["__type", "__typename"] → (ofConfig config).KnowsMeta) :
    ∃ t, (ofConfig config).type? field.type.innermost = some t := by
  unfold field? at h
  split at h
  · rename_i hname
    cases h
    obtain rfl : name = "__typename" := by simpa using (Bool.and_eq_true_iff.mp hname).1
    exact Option.isSome_iff_exists.mp (hmeta (by decide)).2
  · split at h
    · cases h
      obtain ⟨t, ht, hname⟩ := schema_mem_types config
      have hfound := type?_of_mem (nodup_names_types config) ht
      rw [hname] at hfound
      exact ⟨t, hfound⟩
    · split at h
      · rename_i hname
        cases h
        obtain rfl : name = "__type" := by simpa using (Bool.and_eq_true_iff.mp hname).1
        exact Option.isSome_iff_exists.mp (hmeta (by decide)).1
      · obtain ⟨t, ht, _⟩ := field_registered hconsistent hparent (List.mem_of_find?_eq_some h)
        exact ⟨t, ht⟩

/-- A root type that is named is registered. -/
theorem Schema.isSome_root?_iff (kind : OperationKind) :
    ((ofConfig config).root? kind).isSome ↔ ((ofConfig config).rootName? kind).isSome := by
  cases hname : (ofConfig config).rootName? kind with
  | none => simp [root?, hname]
  | some name =>
      obtain ⟨t, ht, _⟩ := root_registered hconsistent hname
      simp [root?, hname, ht]

/-- There is a root of queries. -/
theorem Schema.isSome_queryRoot : ((ofConfig config).rootName? .query).isSome := by
  simp only [inconsistencies, rootFaults, List.append_eq_nil_iff] at hconsistent
  have hnone := hconsistent.1.1.2.1
  cases hquery : (ofConfig config).query with
  | none => simp [hquery] at hnone
  | some name => simp [rootName?, hquery]

end

mutual

/-- What is walked through inside a selection set of a type resolves there. -/
theorem Selection.resolves_of_walk {config : Schema.Config} {document : Document}
    (hconsistent : (Schema.ofConfig config).inconsistencies = [])
    (hmeta : document.SelectsFromMeta → (Schema.ofConfig config).KnowsMeta)
    (haccepted : Accepted (Schema.ofConfig config) document) {set : List Selection}
    (hset : document.HasSet set) (selection : Selection) (hmem : selection ∈ set)
    {place : Surroundings} {parent : NamedType}
    (hin : Inside (Schema.ofConfig config) place parent)
    (hwalk : ∀ event ∈ Selection.events (Schema.ofConfig config) place selection,
      event ∈ document.events (Schema.ofConfig config)) :
    selection.Resolves (Schema.ofConfig config) (some parent) := by
  obtain ⟨root, hroot, hnested⟩ := id hset
  match selection with
  | .field node below =>
      have henter : ⟨.enter, .field node below, place.inField (Schema.ofConfig config) node⟩ ∈
          document.events (Schema.ofConfig config) := hwalk _ (Event.enter_mem_around _ _ _)
      obtain ⟨field, hfield⟩ := haccepted.field_found henter hin.selects
      rw [Selection.Resolves]
      refine ⟨parent, field, rfl, hfield, ?_⟩
      by_cases hempty : below = []
      · rw [hempty, Selection.AllResolve]
        trivial
      · obtain ⟨t, ht⟩ := Schema.fieldType_registered hconsistent hin.registered hfield
          fun hname => hmeta ⟨set, node, below, hset, hmem, hempty, hname⟩
        rw [ht]
        exact Selection.allResolve_of_walk hconsistent hmeta haccepted
          ⟨root, hroot, hnested.field hmem⟩ below (fun _ h => h)
          (Inside.within (hin.type?_inField hfield ht).2)
          fun event hevent => hwalk event (Selection.listEvents_subset_field _ _ _ _ hevent)
  | .spread node =>
      rw [Selection.Resolves]
      trivial
  | .inline node body =>
      have henter : ⟨.enter, .inline node body, place.inInline node⟩ ∈
          document.events (Schema.ofConfig config) := hwalk _ (Event.enter_mem_around _ _ _)
      have htype := hin.type?_inInline node
      have hbody {t : NamedType}
          (h : (place.inInline node).type? (Schema.ofConfig config) = some t) :
          Selection.AllResolve (Schema.ofConfig config) (some t) body :=
        Selection.allResolve_of_walk hconsistent hmeta haccepted
          ⟨root, hroot, hnested.inline hmem⟩ body (fun _ h => h) (Inside.within h)
          fun event hevent => hwalk event (Selection.listEvents_subset_inline _ _ _ _ hevent)
      rw [Selection.Resolves]
      cases hcondition : node.item.condition with
      | none =>
          rw [hcondition] at htype
          exact hbody htype
      | some condition =>
          rw [hcondition] at htype
          have hname : condition.start ∈ Node.typeNames (.inline node body) := by
            simp [Node.typeNames, hcondition]
          obtain ⟨t, ht⟩ := haccepted.typeName_registered henter hname
          show Selection.AllResolve _ ((Schema.ofConfig config).type? condition.item) body
          rw [ht]
          exact hbody (htype.trans ht)

theorem Selection.allResolve_of_walk {config : Schema.Config} {document : Document}
    (hconsistent : (Schema.ofConfig config).inconsistencies = [])
    (hmeta : document.SelectsFromMeta → (Schema.ofConfig config).KnowsMeta)
    (haccepted : Accepted (Schema.ofConfig config) document) {set : List Selection}
    (hset : document.HasSet set) (selections : List Selection)
    (hpart : ∀ selection ∈ selections, selection ∈ set)
    {place : Surroundings} {parent : NamedType}
    (hin : Inside (Schema.ofConfig config) place parent)
    (hwalk : ∀ event ∈ Selection.listEvents (Schema.ofConfig config) place selections,
      event ∈ document.events (Schema.ofConfig config)) :
    Selection.AllResolve (Schema.ofConfig config) (some parent) selections := by
  match selections with
  | [] =>
      rw [Selection.AllResolve]
      trivial
  | selection :: rest =>
      rw [Selection.listEvents] at hwalk
      rw [Selection.AllResolve]
      constructor
      · exact Selection.resolves_of_walk hconsistent hmeta haccepted hset selection
          (hpart _ List.mem_cons_self) hin
          (fun event hevent => hwalk event (List.mem_append_left _ hevent))
      · exact Selection.allResolve_of_walk hconsistent hmeta haccepted hset rest
          (fun other hother => hpart other (List.mem_cons_of_mem _ hother)) hin
          (fun event hevent => hwalk event (List.mem_append_right _ hevent))

end

section

variable {config : Schema.Config} {document : Document}
  (hconsistent : (Schema.ofConfig config).inconsistencies = [])
  (hmeta : document.SelectsFromMeta → (Schema.ofConfig config).KnowsMeta)
  (haccepted : Accepted (Schema.ofConfig config) document)

include hconsistent hmeta haccepted

/-- Every definition of the document resolves, if it is no operation without a root type. -/
theorem Definition.resolves_of_accepted {definition : Definition} (hmem : definition ∈ document)
    (hroot : ∀ node, definition = .operation node →
      ((Schema.ofConfig config).root? node.item.kind).isSome) :
    definition.Resolves (Schema.ofConfig config) := by
  have hwalk : ∀ event ∈ definition.events (Schema.ofConfig config),
      event ∈ document.events (Schema.ofConfig config) :=
    fun event hevent => Document.mem_events_of_mem hmem hevent
  cases definition with
  | operation node =>
      obtain ⟨t, ht⟩ := Option.isSome_iff_exists.mp (hroot node rfl)
      have htype : (⟨((Schema.ofConfig config).root? node.item.kind).map
          (fun t => .named t.name true), none, none⟩ : Surroundings).type?
          (Schema.ofConfig config) = some t := by
        obtain ⟨name, hname, hfound⟩ := Option.bind_eq_some_iff.mp ht
        rw [ht]
        show (Schema.ofConfig config).type? t.name = some t
        rw [(Schema.mem_of_type? hfound).2]
        exact hfound
      rw [Definition.Resolves, ht]
      refine Selection.allResolve_of_walk hconsistent hmeta haccepted
        ⟨_, Document.root_of_operation hmem, .root⟩ _ (fun _ h => h) (Inside.within htype) ?_
      exact fun event hevent => hwalk event (Event.mem_around_of_mem
        (List.mem_append_right _ (Event.mem_around_of_mem hevent)))
  | fragment node =>
      obtain ⟨t, ht, _⟩ := haccepted.fragment_registered hmem
      have htype : (({} : Surroundings).on node.item.condition.item).type?
          (Schema.ofConfig config) = some t := ht
      rw [Definition.Resolves, ht]
      refine Selection.allResolve_of_walk hconsistent hmeta haccepted
        ⟨_, Document.root_of_fragment hmem, .root⟩ _ (fun _ h => h) (Inside.within htype) ?_
      exact fun event hevent => hwalk event (Event.mem_around_of_mem
        (List.mem_append_right _ (Event.mem_around_of_mem hevent)))
  | schema node => trivial
  | type node => trivial
  | directive node => trivial

/-- An operation of the document can be run if it has a root type. -/
theorem Document.runs_of_root {operation : Located Operation}
    (hmem : operation ∈ document.operations)
    (hroot : ((Schema.ofConfig config).root? operation.item.kind).isSome) :
    document.Runs (Schema.ofConfig config) operation := by
  refine ⟨hroot, fun definition huses => ?_⟩
  cases huses with
  | self =>
      refine Definition.resolves_of_accepted hconsistent hmeta haccepted (mem_operations.mp hmem) ?_
      rintro node ⟨⟩
      exact hroot
  | spread _ _ hfragment _ =>
      exact Definition.resolves_of_accepted hconsistent hmeta haccepted hfragment nofun

end

/-- **What is accepted and can be run.**  If nothing is wrong with a schema, the document is valid,
and the types of the fields of introspection that it selects from are registered, then an operation
of the document can be run exactly if the schema names a root for its kind. So all queries can be
run. -/
theorem Document.runs_iff_root {config : Schema.Config} {document : Document}
    (hconsistent : (Schema.ofConfig config).inconsistencies = [])
    (hmeta : document.SelectsFromMeta → (Schema.ofConfig config).KnowsMeta)
    (hvalid : document.validate (Schema.ofConfig config) {} = []) :
    ∀ operation ∈ document.operations,
      (document.Runs (Schema.ofConfig config) operation ↔
        ((Schema.ofConfig config).rootName? operation.item.kind).isSome) ∧
      (operation.item.kind = .query → document.Runs (Schema.ofConfig config) operation) := by
  intro operation hmem
  have hruns := runs_of_root hconsistent hmeta (accepted_of_validate hvalid) hmem
  have hnamed := Schema.isSome_root?_iff hconsistent operation.item.kind
  refine ⟨⟨fun h => hnamed.mp h.root, fun h => hruns (hnamed.mpr h)⟩, fun hquery => ?_⟩
  refine hruns (hnamed.mpr ?_)
  rw [hquery]
  exact Schema.isSome_queryRoot hconsistent

/-- Documents that no rule complains about are valid without further options. -/
theorem Accepted.validate {schema : Schema} {document : Document}
    (h : Accepted schema document) : document.validate schema {} = [] := by
  unfold Document.validate
  rw [Document.check_eq_nil_iff]
  show ∀ rule ∈ Rules.executable schema document ++ [], _
  rw [List.append_nil]
  exact h

/-- The operation about pets can be run. -/
theorem petDocument_runs :
    petDocument.validate (Schema.ofConfig petConfig) {} = [] ∧
      ∀ operation ∈ petDocument.operations,
        petDocument.Runs (Schema.ofConfig petConfig) operation := by
  have hschema : Schema.ofConfig petConfig = petSchema :=
    Schema.ofConfig_of_closed petConfig_closed
  have hvalid : petDocument.validate (Schema.ofConfig petConfig) {} = [] := by
    rw [hschema]
    exact petDocument_accepted.validate
  have hconsistent : (Schema.ofConfig petConfig).inconsistencies = [] := by
    rw [hschema]
    exact List.isEmpty_iff.mp (by decide +kernel)
  have hknows : (Schema.ofConfig petConfig).KnowsMeta := by
    rw [hschema]
    exact ⟨by decide +kernel, by decide +kernel⟩
  refine ⟨hvalid, fun operation hmem => ?_⟩
  obtain ⟨hiff, -⟩ := Document.runs_iff_root hconsistent (fun _ => hknows) hvalid operation hmem
  obtain rfl := List.mem_singleton.mp hmem
  refine hiff.mpr ?_
  rw [hschema]
  rfl

/-- Changes something, whatever it is. -/
def changeOperation : Located Operation :=
  .unlocated ⟨.mutation, none, none, [], [
    .field (.unlocated ⟨none, .unlocated "anything", none, []⟩) []]⟩

/-- The document of this one operation. -/
def changeDocument : Document := [.operation changeOperation]

/-- Nothing can be changed about pets, and no rule says so. -/
theorem change_accepted_without_root :
    (Schema.ofConfig petConfig).inconsistencies = [] ∧
      changeDocument.validate (Schema.ofConfig petConfig) {} = [] ∧
      (Schema.ofConfig petConfig).root? .mutation = none ∧
      ¬ changeDocument.Runs (Schema.ofConfig petConfig) changeOperation := by
  have hschema : Schema.ofConfig petConfig = petSchema :=
    Schema.ofConfig_of_closed petConfig_closed
  rw [hschema]
  have haccepted : Accepted petSchema changeDocument := by
    intro rule hrule
    apply List.isEmpty_iff.mp
    revert rule
    rw [← List.all_eq_true]
    decide +kernel
  refine ⟨List.isEmpty_iff.mp (by decide +kernel), haccepted.validate, rfl, fun hruns => ?_⟩
  exact absurd hruns.root (by decide +kernel)

end GraphQL
