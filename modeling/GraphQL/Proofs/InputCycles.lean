import GraphQL.Proofs.Consistency
import GraphQL.Proofs.CycleSearch

/-!
# Input objects that would have to contain themselves

A value of an input object contains a value for each field whose type excludes null, so input
objects that require one another in a circle have no values at all. The check of a schema searches
the graph of these fields (`Schema.RequiresBy`) from one input object after the other, and lists
what it finds at the type where the search began.

The nodes at which searches begin are distinct, so at each type it is exactly the search from there
that is listed, and altogether everything that is found (`Schema.endlessInput_mem_iff`). No other
fault is of this kind. `Schema.endlessInputsExact` puts this together with what holds of every
search.
-/

namespace GraphQL

/-- Where no key occurs twice, looking a key up finds each entry that has it. -/
theorem lookup_key_iff {α : Type} {entries : List (String × α)}
    (h : (entries.map Prod.fst).Nodup) {key : String} {a : α} :
    entries.lookup key = some a ↔ (key, a) ∈ entries := by
  induction entries with
  | nil => simp
  | cons first rest ih =>
      obtain ⟨other, b⟩ := first
      obtain ⟨hnew, hrest⟩ := List.nodup_cons.mp h
      by_cases hkey : key = other
      · subst hkey
        have hlater : (key, a) ∉ rest := fun hmem => hnew (List.mem_map.mpr ⟨(key, a), hmem, rfl⟩)
        simp [hlater, eq_comm]
      · rw [List.lookup_cons, beq_false_of_ne hkey, List.mem_cons, ← ih hrest]
        simp [hkey]

namespace Schema

variable {schema : Schema} {type : String} {path : List String}

/-- A field of the first input object can only hold values of the second one, and not null. -/
def RequiresBy (schema : Schema) (a field b : String) : Prop :=
  ∃ t u input, schema.type? a = some t ∧ t.isInputObject ∧ schema.type? b = some u ∧
    u.isInputObject ∧ input ∈ t.inputFields ∧ input.name = field ∧ input.type = .named b true

/-- Only input objects have input fields. -/
theorem isInputObject_of_mem_inputFields {t : NamedType} {input : InputValue}
    (h : input ∈ t.inputFields) : t.isInputObject := by
  unfold NamedType.inputFields at h
  split at h
  · rename_i fields hshape
    simp [NamedType.isInputObject, NamedType.kind, hshape, Shape.kind]
  · cases h

/-- The edges that are searched are the fields that require something. -/
theorem leads_requiredInputs : Graph.Leads schema.requiredInputs = schema.RequiresBy := by
  funext a field b
  rw [eq_iff_iff, Graph.Leads, requiredInputs]
  constructor
  · intro h
    cases htype : schema.type? a with
    | none => simp [htype] at h
    | some t =>
        simp only [htype] at h
        obtain ⟨input, hinput, hedge⟩ := List.mem_filterMap.mp h
        split at hedge
        · rename_i target hnamed
          split at hedge
          · rename_i htarget
            cases hedge
            obtain ⟨u, hu, hobject⟩ := (Option.any_eq_true _ _).mp htarget
            exact ⟨t, u, input, htype, isInputObject_of_mem_inputFields hinput, hu, hobject, hinput,
              rfl, hnamed⟩
          · cases hedge
        · cases hedge
  · rintro ⟨t, u, input, ht, _, hu, hobject, hinput, rfl, hnamed⟩
    simp only [ht]
    exact List.mem_filterMap.mpr ⟨input, hinput, by simp [hnamed, hu, hobject]⟩

/-- What is no input object requires nothing. -/
theorem requiredInputs_eq_nil {name : String} (h : name ∉ schema.inputObjects) :
    schema.requiredInputs name = [] := by
  refine Graph.edges_eq_nil_of_not_leads fun field b hleads => h ?_
  rw [leads_requiredInputs] at hleads
  obtain ⟨t, _, _, ht, hobject, _⟩ := hleads
  obtain ⟨hmem, rfl⟩ := mem_of_type? ht
  exact List.mem_map_of_mem (List.mem_filter.mpr ⟨hmem, hobject⟩)

/-! ## Where faults of this kind are listed -/

@[simp] theorem endlessInput_not_mem_nameFaults {name : String} :
    .endlessInput type path ∉ nameFaults name := by
  unfold nameFaults
  split <;> simp

@[simp] theorem endlessInput_not_mem_rootFaults : .endlessInput type path ∉ schema.rootFaults := by
  unfold rootFaults
  grind

@[simp] theorem endlessInput_not_mem_inputTypeFaults {coordinate : String} {t : TypeLiteral} :
    .endlessInput type path ∉ schema.inputTypeFaults coordinate t := by
  unfold inputTypeFaults
  grind

@[simp] theorem endlessInput_not_mem_outputTypeFaults {coordinate : String} {t : TypeLiteral} :
    .endlessInput type path ∉ schema.outputTypeFaults coordinate t := by
  unfold outputTypeFaults
  grind

@[simp] theorem endlessInput_not_mem_argumentFaults {owner : String} {earlier : List String}
    {arguments : List InputValue} :
    .endlessInput type path ∉ schema.argumentFaults owner earlier arguments := by
  induction arguments generalizing earlier with
  | nil => simp [argumentFaults]
  | cons argument rest ih => simp [argumentFaults, ih]

@[simp] theorem endlessInput_not_mem_directiveFaults {directive : Directive} :
    .endlessInput type path ∉ schema.directiveFaults directive := by
  simp [directiveFaults]

@[simp] theorem endlessInput_not_mem_fieldFaults {t : NamedType} :
    .endlessInput type path ∉ schema.fieldFaults t := by
  simp [fieldFaults]

@[simp] theorem endlessInput_not_mem_ancestorFaults {t interface : NamedType} :
    .endlessInput type path ∉ ancestorFaults t interface := by
  unfold ancestorFaults
  grind

@[simp] theorem endlessInput_not_mem_implementedArgumentFaults {t interface : NamedType}
    {field expected : Field} :
    .endlessInput type path ∉ schema.implementedArgumentFaults t interface field expected := by
  unfold implementedArgumentFaults
  grind

@[simp] theorem endlessInput_not_mem_implementedFieldFaults {t interface : NamedType} :
    .endlessInput type path ∉ schema.implementedFieldFaults t interface := by
  unfold implementedFieldFaults
  grind [endlessInput_not_mem_implementedArgumentFaults]

@[simp] theorem endlessInput_not_mem_interfaceFaults {t : NamedType} {earlier names : List String} :
    .endlessInput type path ∉ schema.interfaceFaults t earlier names := by
  fun_induction interfaceFaults schema t earlier names <;> simp_all

@[simp] theorem endlessInput_not_mem_memberFaults {union : String} {earlier members : List String} :
    .endlessInput type path ∉ schema.memberFaults union earlier members := by
  induction members generalizing earlier with
  | nil => simp [memberFaults]
  | cons member rest ih =>
    simp only [memberFaults, List.mem_append, ih]
    grind

@[simp] theorem endlessInput_not_mem_valueFaults {t : NamedType} {values : List EnumValue} :
    .endlessInput type path ∉ valueFaults t values := by
  simp [valueFaults]

@[simp] theorem endlessInput_not_mem_inputFieldFaults {t : NamedType} {fields : List InputValue} :
    .endlessInput type path ∉ schema.inputFieldFaults t fields := by
  simp [inputFieldFaults]

/-- At a type, faults of this kind are those that the search from there found. -/
theorem endlessInput_mem_typeFaults_iff {endless : List (String × List Inconsistency)}
    {t : NamedType} :
    .endlessInput type path ∈ schema.typeFaults endless t ↔
      t.isInputObject ∧ ∃ faults, endless.lookup t.name = some faults ∧
        .endlessInput type path ∈ faults := by
  have hname : Inconsistency.endlessInput type path ∉
      (if (Standard.introspection? t.name).isSome then [] else nameFaults t.name) := by
    split <;> simp
  unfold typeFaults
  rw [List.mem_append, or_iff_right hname, NamedType.isInputObject, NamedType.kind]
  cases hshape : t.shape with
  | scalar _ | object _ _ | interface _ _ | union _ | enum _ => simp [Shape.kind]
  | inputObject fields =>
      cases hlookup : endless.lookup t.name with
      | none => simp
      | some faults => simp [Shape.kind]

/-- Faults of this kind are listed for the cycles that the searches find, and for no others. -/
theorem endlessInput_mem_iff :
    .endlessInput type path ∈ schema.inconsistencies ↔
      ∃ cycle ∈ Graph.cycles schema.inputObjects schema.requiredInputs,
        cycle.node = type ∧ cycle.edges.map Graph.Edge.label = path := by
  have hkeys : (schema.endlessInputs.map Prod.fst).Nodup := by
    rw [endlessInputs, List.map_map]
    exact Graph.Search.nodup_starts_searchFrom schema.inputObjects schema.requiredInputs _ []
  have hlisted : Inconsistency.endlessInput type path ∈ schema.inconsistencies ↔
      ∃ t ∈ schema.types, t.isInputObject ∧ ∃ faults, (t.name, faults) ∈ schema.endlessInputs ∧
        .endlessInput type path ∈ faults := by
    simp [inconsistencies, endlessInput_mem_typeFaults_iff, lookup_key_iff hkeys]
  rw [hlisted, Graph.cycles]
  constructor
  · rintro ⟨t, _, _, faults, hentry, hfault⟩
    obtain ⟨⟨start, cycles⟩, hfound, hfaults⟩ := List.mem_map.mp hentry
    cases hfaults
    obtain ⟨cycle, hcycle, hsame⟩ := List.mem_map.mp hfault
    cases hsame
    exact ⟨cycle, List.mem_flatMap.mpr ⟨_, hfound, hcycle⟩, rfl, rfl⟩
  · rintro ⟨cycle, hcycle, rfl, rfl⟩
    obtain ⟨⟨start, cycles⟩, hfound, hcycle⟩ := List.mem_flatMap.mp hcycle
    -- a search begins only at input objects, so there is a type at which it is listed
    have hstart : start ∈ schema.inputObjects :=
      (Graph.Search.start_of_mem_searchFrom (List.mem_map_of_mem hfound)).1
    obtain ⟨t, ht, rfl⟩ := List.mem_map.mp hstart
    obtain ⟨hmem, hobject⟩ := List.mem_filter.mp ht
    exact ⟨t, hmem, hobject, _, List.mem_map.mpr ⟨_, hfound, rfl⟩,
      List.mem_map.mpr ⟨cycle, hcycle, rfl⟩⟩

/-! ## What is listed -/

/-- What the check of a schema does about input objects that would have to contain themselves: it
lists one exactly if required fields lead from an input object back to it; each one listed is shown
with the names, separated by dots, of fields that lead from it back to it through no input object
twice; and the search comes to an end. -/
structure EndlessInputsExact (schema : Schema) : Prop where
  lists_iff : (∃ type path, .endlessInput type path ∈ schema.inconsistencies) ↔
    ∃ name, Relation.TransGen (Graph.Joined schema.RequiresBy) name name
  listed : ∀ type path, .endlessInput type path ∈ schema.inconsistencies →
    (∃ others, Graph.Circle schema.RequiresBy type others path) ∧
      (Inconsistency.endlessInput type path).message =
        "Cannot reference Input Object " ++ quoted type ++
          " within itself through a series of non-null fields: " ++
            quoted (".".intercalate path) ++ "."
  ends : ∃ found, Graph.Search.Ends schema.inputObjects schema.requiredInputs found ∧
    ∀ type path, .endlessInput type path ∈ schema.inconsistencies ↔
      ∃ cycle ∈ found, cycle.node = type ∧ cycle.edges.map Graph.Edge.label = path

/-- What a search through the required fields finds are cycles of them. -/
theorem isCycle_of_mem_inputCycles {cycle : Graph.Cycle String String}
    (h : cycle ∈ Graph.cycles schema.inputObjects schema.requiredInputs) :
    Graph.IsCycle schema.RequiresBy cycle := by
  rw [← leads_requiredInputs]
  exact Graph.isCycle_of_mem_cycles h

/-- **Endless input objects are found exactly.**  This holds of every schema. -/
theorem endlessInputsExact (schema : Schema) : schema.EndlessInputsExact where
  lists_iff := by
    constructor
    · rintro ⟨type, path, hlisted⟩
      obtain ⟨cycle, hfound, _, _⟩ := endlessInput_mem_iff.mp hlisted
      exact ⟨cycle.node, (isCycle_of_mem_inputCycles hfound).transGen⟩
    · rintro ⟨name, hcircular⟩
      have hsome : Graph.cycles schema.inputObjects schema.requiredInputs ≠ [] := by
        rw [Ne, Graph.cycles_eq_nil_iff fun name => requiredInputs_eq_nil, leads_requiredInputs]
        exact fun hnone => hnone name hcircular
      obtain ⟨cycle, hfound⟩ := List.exists_mem_of_ne_nil _ hsome
      exact ⟨_, _, endlessInput_mem_iff.mpr ⟨cycle, hfound, rfl, rfl⟩⟩
  listed type path hlisted := by
    obtain ⟨cycle, hfound, rfl, rfl⟩ := endlessInput_mem_iff.mp hlisted
    exact ⟨⟨_, (isCycle_of_mem_inputCycles hfound).circle⟩, rfl⟩
  ends := ⟨_, Graph.Search.ends _ _, fun _ _ => endlessInput_mem_iff⟩

end Schema

end GraphQL
