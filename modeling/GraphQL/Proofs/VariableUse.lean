import GraphQL.Proofs.FragmentUse

/-!
# Variables that are used

A variable occurs in the arguments of fields and directives, however deep inside lists and objects.
`Document.occurrences` collects, from what is written alone, those that count for an operation: its
own, and those of every fragment that it reaches. A fragment counts once, however often and on
whatever ways it is reached, and it counts for each operation that reaches it.

The walk meets the occurrences of a definition in the order in which they are written
(`Operation.occurrencesAlong_events`), and what is remembered of it is, up to order, the
occurrences of all definitions under their scopes (`Usage.Counts`). Picking those in the scopes that
the search finds leaves the occurrences of the operation (`Usage.perm_occurrences`).
-/

namespace GraphQL

/-! ## Where variables occur -/

mutual

/-- The variables in a value, each where it stands. -/
def Value.occurrences (span : Span) : Value → List Name
  | .variable name => [⟨span, name⟩]
  | .list items => Value.itemOccurrences items
  | .object entries => Value.entryOccurrences entries
  | _ => []

/-- The variables in the items of a list. -/
def Value.itemOccurrences : List (Located Value) → List Name
  | [] => []
  | ⟨span, v⟩ :: rest => Value.occurrences span v ++ Value.itemOccurrences rest

/-- The variables in the entries of an object. -/
def Value.entryOccurrences : List (Name × Located Value) → List Name
  | [] => []
  | (_, ⟨span, v⟩) :: rest => Value.occurrences span v ++ Value.entryOccurrences rest

end

/-- The variables in arguments. -/
def argumentOccurrences (arguments : Option (Located (List Argument))) : List Name :=
  ((arguments.map Located.item).getD []).flatMap fun argument =>
    argument.value.item.occurrences argument.value.span

/-- The variables in the arguments of directives. -/
def directiveOccurrences (directives : List (Located DirectiveUse)) : List Name :=
  directives.flatMap fun directive => argumentOccurrences directive.item.arguments

mutual

/-- The variables in a selection and whatever is selected below it. -/
def Selection.occurrences : Selection → List Name
  | .field node below =>
    argumentOccurrences node.item.arguments ++ directiveOccurrences node.item.directives ++
      Selection.listOccurrences below
  | .spread node => directiveOccurrences node.item.directives
  | .inline node body =>
    directiveOccurrences node.item.directives ++ Selection.listOccurrences body

/-- The variables in the selections of a selection set. -/
def Selection.listOccurrences : List Selection → List Name
  | [] => []
  | selection :: rest => Selection.occurrences selection ++ Selection.listOccurrences rest

end

/-- The variables in an operation itself, those in directives on its variables included. -/
def Operation.occurrences (operation : Operation) : List Name :=
  operation.definedVariables.flatMap (directiveOccurrences ·.directives) ++
    directiveOccurrences operation.directives ++ Selection.listOccurrences operation.selections

/-- The variables in a fragment itself. -/
def Fragment.occurrences (fragment : Fragment) : List Name :=
  directiveOccurrences fragment.directives ++ Selection.listOccurrences fragment.selections

/-- The variables that count for an operation of a document: its own, and those of all fragments
that it reaches. -/
def Document.occurrences (document : Document) (operation : Operation) : List Name :=
  operation.occurrences ++
    (document.fragments.filter fun node =>
      document.Reaches operation.selections node.item.name.item).flatMap (·.item.occurrences)

/-- No default value of an operation has variables in it. -/
def Operation.ConstantDefaults (operation : Operation) : Prop :=
  ∀ definition ∈ operation.definedVariables, ∀ value, definition.default = some value →
    value.item.variableNames = []

mutual

/-- Without their places, the occurrences in a value are the names of its variables. -/
theorem Value.map_item_occurrences (span : Span) :
    (v : Value) → (v.occurrences span).map Located.item = v.variableNames
  | .variable _ => rfl
  | .list items => Value.map_item_itemOccurrences items
  | .object entries => Value.map_item_entryOccurrences entries
  | .null | .int _ | .float _ | .string _ | .boolean _ | .enum _ => rfl

theorem Value.map_item_itemOccurrences : (items : List (Located Value)) →
    (Value.itemOccurrences items).map Located.item = Value.itemVariables items
  | [] => rfl
  | ⟨span, v⟩ :: rest => by
      rw [itemOccurrences, itemVariables, List.map_append, v.map_item_occurrences span,
        map_item_itemOccurrences rest]

theorem Value.map_item_entryOccurrences : (entries : List (Name × Located Value)) →
    (Value.entryOccurrences entries).map Located.item = Value.entryVariables entries
  | [] => rfl
  | (_, ⟨span, v⟩) :: rest => by
      rw [entryOccurrences, entryVariables, List.map_append, v.map_item_occurrences span,
        map_item_entryOccurrences rest]

end

theorem Value.occurrences_eq_nil {v : Value} (h : v.variableNames = []) (span : Span) :
    v.occurrences span = [] := by
  rw [← List.map_eq_nil_iff, v.map_item_occurrences span]
  exact h

/-! ## Where a walk meets them -/

/-- The variables that a walk meets. -/
def occurrencesAlong (events : List Event) : List Name :=
  (variablesAlong events).map Prod.fst

/-- The variable that a node is. -/
def Node.occurrences : Node → List Name
  | .value ⟨span, .variable name⟩ => [⟨span, name⟩]
  | _ => []

@[simp] theorem occurrencesAlong_nil : occurrencesAlong [] = [] := rfl

@[simp] theorem occurrencesAlong_append (events more : List Event) :
    occurrencesAlong (events ++ more) = occurrencesAlong events ++ occurrencesAlong more := by
  simp [occurrencesAlong, variablesAlong]

@[simp] theorem occurrencesAlong_flatMap {α : Type} (list : List α) (events : α → List Event) :
    occurrencesAlong (list.flatMap events) = list.flatMap fun a => occurrencesAlong (events a) := by
  induction list with
  | nil => rfl
  | cons a list ih => rw [List.flatMap_cons, List.flatMap_cons, occurrencesAlong_append, ih]

/-- Around a node, the node itself comes first. -/
@[simp] theorem occurrencesAlong_around (place : Surroundings) (node : Node) (inner : List Event) :
    occurrencesAlong (Event.around place node inner) =
      node.occurrences ++ occurrencesAlong inner := by
  have hleave : occurrencesAlong [⟨.leave, node, place⟩] = [] := rfl
  have henter : occurrencesAlong [⟨.enter, node, place⟩] = node.occurrences := by
    cases node with
    | value value =>
        match value with
        | ⟨_, .variable _⟩ => rfl
        | ⟨_, .null⟩ | ⟨_, .int _⟩ | ⟨_, .float _⟩ | ⟨_, .string _⟩ | ⟨_, .boolean _⟩
        | ⟨_, .enum _⟩ | ⟨_, .list _⟩ | ⟨_, .object _⟩ => rfl
    | _ => rfl
  calc occurrencesAlong (Event.around place node inner)
      = occurrencesAlong [⟨.enter, node, place⟩] ++ occurrencesAlong inner ++
          occurrencesAlong [⟨.leave, node, place⟩] := by
        rw [← occurrencesAlong_append, ← occurrencesAlong_append]
        rfl
    _ = node.occurrences ++ occurrencesAlong inner := by
        rw [henter, hleave, List.append_nil]

mutual

/-- The walk through a value meets its variables. -/
theorem Value.occurrencesAlong_events (schema : Schema) (place : Surroundings) (span : Span) :
    (v : Value) → occurrencesAlong (v.events schema place span) = v.occurrences span
  | .list items => by
      rw [events, occurrencesAlong_around, occurrencesAlong_itemEvents schema _ items]
      rfl
  | .object entries => by
      rw [events, occurrencesAlong_around, occurrencesAlong_entryEvents schema place entries]
      rfl
  | .variable _ | .null | .int _ | .float _ | .string _ | .boolean _ | .enum _ => by
      rw [events, occurrencesAlong_around]
      rfl

theorem Value.occurrencesAlong_itemEvents (schema : Schema) (place : Surroundings) :
    (items : List (Located Value)) →
      occurrencesAlong (Value.itemEvents schema place items) = Value.itemOccurrences items
  | [] => rfl
  | ⟨span, v⟩ :: rest => by
      rw [itemEvents, occurrencesAlong_append, v.occurrencesAlong_events schema place span,
        occurrencesAlong_itemEvents schema place rest, itemOccurrences]

theorem Value.occurrencesAlong_entryEvents (schema : Schema) (place : Surroundings) :
    (entries : List (Name × Located Value)) →
      occurrencesAlong (Value.entryEvents schema place entries) = Value.entryOccurrences entries
  | [] => rfl
  | (_, ⟨span, v⟩) :: rest => by
      rw [entryEvents, occurrencesAlong_append, occurrencesAlong_around,
        v.occurrencesAlong_events schema _ span, occurrencesAlong_entryEvents schema place rest,
        entryOccurrences]
      rfl

end

theorem occurrencesAlong_argumentEvents (schema : Schema) (place : Surroundings)
    (parameters : Option (List InputValue)) (arguments : Option (Located (List Argument))) :
    occurrencesAlong (argumentEvents schema place parameters arguments) =
      argumentOccurrences arguments := by
  simp [argumentEvents, argumentOccurrences, Node.occurrences, Value.occurrencesAlong_events]

theorem occurrencesAlong_directiveEvents (schema : Schema) (place : Surroundings)
    (directives : List (Located DirectiveUse)) :
    occurrencesAlong (directiveEvents schema place directives) =
      directiveOccurrences directives := by
  simp [directiveEvents, directiveOccurrences, Node.occurrences, occurrencesAlong_argumentEvents]

mutual

/-- The walk through a selection meets the variables in it and below it. -/
theorem Selection.occurrencesAlong_events (schema : Schema) (place : Surroundings) :
    (selection : Selection) →
      occurrencesAlong (selection.events schema place) = selection.occurrences
  | .field node below => by
      have hbelow (inside : Surroundings) := listOccurrencesAlong_events schema inside below
      -- A field without a selection set has none to visit.
      have hset (inside : Surroundings) :
          occurrencesAlong (if below.isEmpty then [] else Event.around inside
            (.selectionSet below) (listEvents schema inside below)) = listOccurrences below := by
        split
        · rename_i hempty
          rw [List.isEmpty_iff.mp hempty]
          rfl
        · simp [Node.occurrences, hbelow]
      simp only [events, occurrences, occurrencesAlong_around, occurrencesAlong_append,
        occurrencesAlong_argumentEvents, occurrencesAlong_directiveEvents, hset]
      rfl
  | .spread node => by
      simp [events, occurrences, Node.occurrences, occurrencesAlong_directiveEvents]
  | .inline node body => by
      simp [events, occurrences, Node.occurrences, occurrencesAlong_directiveEvents,
        listOccurrencesAlong_events schema _ body]

theorem Selection.listOccurrencesAlong_events (schema : Schema) (place : Surroundings) :
    (selections : List Selection) →
      occurrencesAlong (Selection.listEvents schema place selections) =
        Selection.listOccurrences selections
  | [] => rfl
  | selection :: rest => by
      rw [listEvents, occurrencesAlong_append, selection.occurrencesAlong_events schema place,
        listOccurrencesAlong_events schema place rest, listOccurrences]

end

theorem occurrencesAlong_selectionSetEvents (schema : Schema) (place : Surroundings)
    (selections : List Selection) :
    occurrencesAlong (selectionSetEvents schema place selections) =
      Selection.listOccurrences selections := by
  simp [selectionSetEvents, Node.occurrences, Selection.listOccurrencesAlong_events]

/-- Of the definitions of variables, only the directives can hold others. -/
theorem occurrencesAlong_variableEvents (schema : Schema) (place : Surroundings)
    {definitions : List VariableDefinition}
    (hconstant : ∀ definition ∈ definitions, ∀ value, definition.default = some value →
      value.item.variableNames = []) :
    occurrencesAlong (variableEvents schema place definitions) =
      definitions.flatMap (directiveOccurrences ·.directives) := by
  rw [variableEvents, occurrencesAlong_flatMap]
  refine List.flatMap_congr fun definition hdefinition => ?_
  rw [occurrencesAlong_around, occurrencesAlong_append, occurrencesAlong_directiveEvents]
  cases hdefault : definition.default with
  | none => rfl
  | some value =>
      have hnone := Value.occurrences_eq_nil (hconstant definition hdefinition value hdefault)
      simp [Value.occurrencesAlong_events, hnone, Node.occurrences]

/-- The walk through an operation meets the variables in it. -/
theorem Operation.occurrencesAlong_events (schema : Schema) {node : Located Operation}
    (hconstant : node.item.ConstantDefaults) :
    occurrencesAlong ((Definition.operation node).events schema) = node.item.occurrences := by
  simp [Definition.events, Operation.occurrences, Node.occurrences,
    occurrencesAlong_variableEvents schema _ hconstant, occurrencesAlong_directiveEvents,
    occurrencesAlong_selectionSetEvents]

/-- The walk through a fragment meets the variables in it. -/
theorem Fragment.occurrencesAlong_events (schema : Schema) (node : Located Fragment) :
    occurrencesAlong ((Definition.fragment node).events schema) = node.item.occurrences := by
  simp [Definition.events, Fragment.occurrences, Node.occurrences,
    occurrencesAlong_directiveEvents, occurrencesAlong_selectionSetEvents]

/-! ## What is remembered -/

/-- The definitions of a document under their scopes. -/
def Document.scopes (document : Document) : List (Scope × Definition) :=
  document.operations.zipIdx.map
      (fun entry => (Scope.operation entry.2, Definition.operation entry.1)) ++
    document.fragments.map
      fun node => (Scope.fragment node.item.name.item, Definition.fragment node)

/-- The uses of variables in a definition, under its scope. -/
def usesUnder (schema : Schema) (entry : Scope × Definition) : List VariableUse :=
  (variablesAlong (entry.2.events schema)).map fun (name, expected) => ⟨entry.1, name, expected⟩

/-- A further operation has the next number. -/
theorem Document.scopes_append_operation (document : Document) (node : Located Operation) :
    (scopes (document ++ [Definition.operation node])).Perm
      (document.scopes ++
        [(Scope.operation document.operations.length, Definition.operation node)]) := by
  have hoperations :
      operations (document ++ [Definition.operation node]) = document.operations ++ [node] :=
    operations_append document _
  have hfragments : fragments (document ++ [Definition.operation node]) = document.fragments := by
    rw [fragments_append]
    exact List.append_nil _
  rw [scopes, hoperations, hfragments, List.zipIdx_append, List.map_append, scopes,
    List.append_assoc, List.append_assoc]
  simp only [Nat.zero_add]
  exact (List.perm_append_comm).append_left _

/-- A further fragment comes last. -/
theorem Document.scopes_append_fragment (document : Document) (node : Located Fragment) :
    scopes (document ++ [Definition.fragment node]) =
      document.scopes ++ [(Scope.fragment node.item.name.item, Definition.fragment node)] := by
  have hoperations : operations (document ++ [Definition.fragment node]) = document.operations := by
    rw [operations_append]
    exact List.append_nil _
  have hfragments :
      fragments (document ++ [Definition.fragment node]) = document.fragments ++ [node] :=
    fragments_append document _
  rw [scopes, hoperations, hfragments, List.map_append, scopes, List.append_assoc]
  rfl

/-- Every use of a variable is remembered once, under the scope of its definition. -/
structure Usage.Counts (schema : Schema) (document : Document) (usage : Usage) : Prop where
  operations : usage.operations = document.operations
  variableUses : usage.variableUses.Perm (document.scopes.flatMap (usesUnder schema))

namespace Usage.Counts

variable {schema : Schema} {document : Document} {usage : Usage}

/-- Counting the uses in one more definition. -/
theorem append (h : usage.Counts schema document) {scope : Scope} {definition : Definition}
    (hscopes : (Document.scopes (document ++ [definition])).Perm
      (document.scopes ++ [(scope, definition)])) :
    (usage.variableUses ++ usesUnder schema (scope, definition)).Perm
      ((Document.scopes (document ++ [definition])).flatMap (usesUnder schema)) := by
  have hall : ((document.scopes ++ [(scope, definition)]).flatMap (usesUnder schema)) =
      document.scopes.flatMap (usesUnder schema) ++ usesUnder schema (scope, definition) := by
    rw [List.flatMap_append, List.flatMap_singleton]
  have hstep := hscopes.flatMap_right (usesUnder schema)
  rw [hall] at hstep
  exact (h.variableUses.append_right _).trans hstep.symm

/-- Walking through one more operation or fragment. -/
theorem step (h : usage.Counts schema document) {definition : Definition}
    (hexecutable : definition.isExecutable = true) :
    ((definition.events schema).foldl remember usage).Counts schema (document ++ [definition]) := by
  cases definition with
  | operation node =>
      rw [foldl_remember_operation, h.operations]
      refine ⟨?_, h.append (document.scopes_append_operation node)⟩
      simp [Document.operations, Usage.add]
  | fragment node =>
      rw [foldl_remember_fragment]
      refine ⟨?_, h.append (.of_eq (document.scopes_append_fragment node))⟩
      simp [Document.operations, Usage.add, h.operations]
  | _ => cases hexecutable

/-- What is counted at the end of the walk through a document of operations and fragments. -/
theorem walk (schema : Schema) {document : Document}
    (hexecutable : ∀ definition ∈ document, definition.isExecutable = true) :
    ((document.events schema).foldl remember {}).Counts schema document := by
  have hstart : ({} : Usage).Counts schema [] := ⟨rfl, .nil⟩
  exact foldl_remember_events schema hstart (fun _ _ _ hdefinition h => h.step hdefinition)
    hexecutable

end Usage.Counts

/-! ## What counts for an operation -/

/-- All uses in a definition are under its scope, so that scopes can be picked first. -/
theorem filter_flatMap_usesUnder (schema : Schema) (p : Scope → Bool)
    (entries : List (Scope × Definition)) :
    (entries.flatMap (usesUnder schema)).filter (fun use => p use.scope) =
      (entries.filter fun entry => p entry.1).flatMap (usesUnder schema) := by
  induction entries with
  | nil => rfl
  | cons entry entries ih =>
      have hscope : ∀ use ∈ usesUnder schema entry, use.scope = entry.1 := by
        intro use huse
        obtain ⟨_, _, rfl⟩ := List.mem_map.mp huse
        rfl
      rw [List.flatMap_cons, List.filter_append, ih]
      by_cases hp : p entry.1 = true
      · have hkeep : (usesUnder schema entry).filter (fun use => p use.scope) =
            usesUnder schema entry := by
          rw [List.filter_eq_self]
          intro use huse
          rw [hscope use huse, hp]
        rw [hkeep, List.filter_cons, if_pos hp, List.flatMap_cons]
      · have hdrop : (usesUnder schema entry).filter (fun use => p use.scope) = [] := by
          rw [List.filter_eq_nil_iff]
          intro use huse
          rw [hscope use huse]
          exact hp
        rw [hdrop, List.filter_cons, if_neg hp, List.nil_append]

/-- One entry of a numbered list has a given number. -/
theorem filter_zipIdx_of_getElem? {α : Type} {list : List α} {index : Nat} {a : α}
    (h : list[index]? = some a) (start : Nat) :
    (list.zipIdx start).filter (fun entry => entry.2 = start + index) = [(a, start + index)] := by
  induction list generalizing index start with
  | nil => cases h
  | cons b list ih =>
      rw [List.zipIdx_cons]
      cases index with
      | zero =>
          obtain rfl : b = a := by simpa using h
          have hrest :
              (list.zipIdx (start + 1)).filter (fun entry => entry.2 = start + 0) = [] := by
            rw [List.filter_eq_nil_iff]
            intro entry hentry
            have hlater := List.le_snd_of_mem_zipIdx hentry
            rw [decide_eq_true_eq]
            omega
          rw [List.filter_cons_of_pos (by simp), hrest]
          rfl
      | succ index =>
          have hrest := ih (by simpa using h) (start + 1)
          rw [Nat.add_right_comm, Nat.add_assoc] at hrest
          rw [List.filter_cons_of_neg (by simp), hrest]

namespace Usage.Describes

variable {schema : Schema} {document : Document} {usage : Usage}
  (h : usage.Describes schema document)

include h

/-- The definitions in the scopes that the search finds are the operation and the fragments that it
reaches. -/
theorem filter_scopes {operation : Located Operation} {index : Nat}
    (hoperation : document.operations[index]? = some operation) :
    document.scopes.filter (fun entry => (usage.reachable index).contains entry.1) =
      (.operation index, .operation operation) :: (document.fragments.filter fun node =>
        document.Reaches operation.item.selections node.item.name.item).map
          fun node => (.fragment node.item.name.item, .fragment node) := by
  have hown (other : Nat) :
      (usage.reachable index).contains (.operation other) = decide (other = index) := by
    rw [Bool.eq_iff_iff, List.contains_iff_mem, decide_eq_true_eq, h.mem_reachable_iff hoperation]
    simp
  have hreached (name : String) : (usage.reachable index).contains (.fragment name) =
      decide (document.Reaches operation.item.selections name) := by
    rw [Bool.eq_iff_iff, List.contains_iff_mem, decide_eq_true_eq, h.mem_reachable_iff hoperation]
    simp
  have hnumber := filter_zipIdx_of_getElem? hoperation 0
  rw [Nat.zero_add] at hnumber
  rw [Document.scopes, List.filter_append, List.filter_map, List.filter_map]
  simp only [Function.comp_def, hown, hreached, hnumber]
  rfl

end Usage.Describes

/-- What is picked for an operation are its occurrences, each of them once. -/
theorem Usage.perm_occurrences {schema : Schema} {document : Document} {usage : Usage}
    (hdescribes : usage.Describes schema document) (hcounts : usage.Counts schema document)
    {operation : Located Operation} {index : Nat}
    (hoperation : document.operations[index]? = some operation)
    (hconstant : operation.item.ConstantDefaults) :
    ((usage.variablesOf index).map VariableUse.name).Perm
      (document.occurrences operation.item) := by
  have hnames (entry : Scope × Definition) : (usesUnder schema entry).map VariableUse.name =
      occurrencesAlong (entry.2.events schema) := by
    rw [usesUnder, List.map_map, occurrencesAlong]
    rfl
  have hpicked : ((document.scopes.flatMap (usesUnder schema)).filter fun use =>
      (usage.reachable index).contains use.scope).map VariableUse.name =
        document.occurrences operation.item := by
    rw [filter_flatMap_usesUnder schema (usage.reachable index).contains,
      hdescribes.filter_scopes hoperation, List.map_flatMap, List.flatMap_cons, List.flatMap_map]
    simp only [hnames, Operation.occurrencesAlong_events schema hconstant,
      Fragment.occurrencesAlong_events]
    rfl
  rw [← hpicked]
  exact (hcounts.variableUses.filter _).map _

/-! ## The rules -/

/-- What users are told about a variable that an operation uses but does not define. -/
def undefinedVariableFault (operation : Located Operation) (name : Name) : Fault :=
  ⟨.undefinedVariable name.item operation.item.title, [name.span.start, operation.span.start]⟩

/-- What users are told about a variable that an operation defines but does not use. -/
def unusedVariableFault (operation : Located Operation) (definition : VariableDefinition) : Fault :=
  ⟨.unusedVariable definition.name.item operation.item.title, [definition.name.span.start]⟩

/-- The occurrences of variables that an operation does not define. -/
def Document.undefinedOccurrences (document : Document) (operation : Operation) : List Name :=
  (document.occurrences operation).filter fun name =>
    name.item ∉ operation.definedVariables.map (·.name.item)

/-- The definitions of variables that do not occur. -/
def Document.unusedDefinitions (document : Document) (operation : Operation) :
    List VariableDefinition :=
  operation.definedVariables.filter fun definition =>
    definition.name.item ∉ (document.occurrences operation).map Located.item

/-- The rules on variables report what is not defined and what is not used, operation by operation:
one fault for each occurrence, in some order, and one for each definition. -/
structure Document.VariableRulesExact (schema : Schema) (document : Document) : Prop where
  undefined : (Rules.noUndefinedVariables.run (document.events schema)).Perm
    (document.operations.flatMap fun operation =>
      (document.undefinedOccurrences operation.item).map (undefinedVariableFault operation))
  unused : Rules.noUnusedVariables.run (document.events schema) =
    document.operations.flatMap fun operation =>
      (document.unusedDefinitions operation.item).map (unusedVariableFault operation)

/-- The numbers of operations do not matter in the end. -/
theorem Usage.Describes.flatMap_numbered {schema : Schema} {document : Document} {usage : Usage}
    (h : usage.Describes schema document) (faults : Located Operation → List Fault) :
    (usage.numbered.flatMap fun entry => faults entry.1) = document.operations.flatMap faults := by
  rw [numbered, h.operations, ← List.flatMap_map Prod.fst faults, List.zipIdx_map_fst]

section

variable (schema : Schema) {document : Document}
  (hexecutable : ∀ definition ∈ document, definition.isExecutable = true)
  (hconstant : ∀ operation ∈ document.operations, operation.item.ConstantDefaults)

include hexecutable hconstant

/-- What is picked for a numbered operation, at the end of the walk. -/
theorem Document.perm_variablesOf {entry : Located Operation × Nat}
    (hentry : entry ∈ ((document.events schema).foldl Usage.remember {}).numbered) :
    ((((document.events schema).foldl Usage.remember {}).variablesOf entry.2).map
      VariableUse.name).Perm (document.occurrences entry.1.item) := by
  have h := Usage.Describes.walk schema hexecutable
  have hindex := h.mem_numbered_iff.mp hentry
  exact Usage.perm_occurrences h (Usage.Counts.walk schema hexecutable) hindex
    (hconstant entry.1 (List.mem_of_getElem? hindex))

/-- Each occurrence that is not defined is reported for each operation that it counts for. -/
theorem Document.run_noUndefinedVariables :
    (Rules.noUndefinedVariables.run (document.events schema)).Perm
      (document.operations.flatMap fun operation =>
        (document.undefinedOccurrences operation.item).map (undefinedVariableFault operation)) := by
  rw [Rules.noUndefinedVariables, Rule.run_onUsage,
    ← (Usage.Describes.walk schema hexecutable).flatMap_numbered]
  refine List.Perm.flatMap_left _ fun entry hentry => ?_
  have huses := perm_variablesOf schema hexecutable hconstant hentry
  have hundefined (name : Name) :
      (!entry.1.item.definedVariables.any fun definition => definition.name.item = name.item) =
        decide (name.item ∉ entry.1.item.definedVariables.map (·.name.item)) := by
    rw [Bool.eq_iff_iff]
    simp
  have hfaults := (huses.filter fun name => name.item ∉
    entry.1.item.definedVariables.map (·.name.item)).map (undefinedVariableFault entry.1)
  rw [List.filter_map, List.map_map] at hfaults
  simp only [hundefined]
  exact hfaults

/-- Each definition that does not occur is reported. -/
theorem Document.run_noUnusedVariables :
    Rules.noUnusedVariables.run (document.events schema) =
      document.operations.flatMap fun operation =>
        (document.unusedDefinitions operation.item).map (unusedVariableFault operation) := by
  rw [Rules.noUnusedVariables, Rule.run_onUsage,
    ← (Usage.Describes.walk schema hexecutable).flatMap_numbered]
  refine List.flatMap_congr fun entry hentry => ?_
  have huses := (perm_variablesOf schema hexecutable hconstant hentry).map Located.item
  have hunused (definition : VariableDefinition) :
      (!(((document.events schema).foldl Usage.remember {}).variablesOf entry.2).any fun use =>
        use.name.item = definition.name.item) =
        decide (definition.name.item ∉ (document.occurrences entry.1.item).map Located.item) := by
    rw [Bool.eq_iff_iff, decide_eq_true_eq, ← huses.mem_iff]
    simp
  simp only [hunused]
  rfl

end

/-- **The rules on variables are exact.**  Whatever the fragments spread, and however operations
share them, the rules report the occurrences that an operation does not define and the definitions
that do not occur. -/
theorem Document.variableRulesExact (schema : Schema) {document : Document}
    (hexecutable : ∀ definition ∈ document, definition.isExecutable = true)
    (hconstant : ∀ operation ∈ document.operations, operation.item.ConstantDefaults) :
    document.VariableRulesExact schema :=
  ⟨run_noUndefinedVariables schema hexecutable hconstant,
    run_noUnusedVariables schema hexecutable hconstant⟩

/-- Something on a line of its own. -/
def Located.onLine {α : Type} (line : Nat) (item : α) : Located α :=
  ⟨⟨⟨line, line, 0⟩, ⟨line, line, 0⟩⟩, item⟩

/-- Given values, as arguments. -/
def argumentsOf (values : List (Located Value)) : Option (Located (List Argument)) :=
  some (.unlocated (values.map fun value => ⟨.unlocated "of", value⟩))

/-- A field that is given a value. -/
def nextOf (value : Located Value) (below : List Selection) : Selection :=
  .field (.unlocated ⟨none, .unlocated "next", argumentsOf [value], []⟩) below

/-- A query with variables. -/
def queryOnLine (line : Nat) (name : String) (definitions : List VariableDefinition)
    (selections : List Selection) : Definition :=
  .operation (.onLine line
    ⟨.query, some (.unlocated name), some (.unlocated definitions), [], selections⟩)

/-- Two operations that share fragments and define different variables. Variables occur in literals
of both fragments named `Shared`, which lead back to themselves, in a directive on a variable, and
in a fragment that nobody spreads. -/
def sharedDocument : Document := [
  queryOnLine 1 "First" [
      ⟨.onLine 2 "x", .unlocated (.named "Int" false), some (.unlocated (.list [])), []⟩,
      ⟨.onLine 3 "spare", .unlocated (.named "Int" false), none, []⟩]
    [nextOf (.onLine 4 (.variable "x")) [], spreadOnLine 5 "Shared"],
  queryOnLine 6 "Second" [
      ⟨.onLine 7 "y", .unlocated (.named "Int" false), none,
        [.unlocated ⟨.unlocated "on", argumentsOf [.onLine 8 (.variable "z")]⟩]⟩]
    [spreadOnLine 9 "Shared", spreadOnLine 10 "Shared"],
  nodeFragment "Shared" [
    nextOf (.unlocated (.list [.onLine 11 (.variable "x"),
        .unlocated (.object [(.unlocated "in", .onLine 12 (.variable "y"))])]))
      [spreadOnLine 13 "Back", spreadOnLine 14 "Missing"]],
  nodeFragment "Back" [spreadOnLine 15 "Shared"],
  nodeFragment "Shared" [nextOf (.onLine 16 (.variable "w")) []],
  nodeFragment "Loose" [nextOf (.onLine 17 (.variable "loose")) []]]

/-- Each operation is told about the shared occurrences that it does not define itself. -/
theorem sharedDocument_variables :
    (∀ definition ∈ sharedDocument, definition.isExecutable = true) ∧
    (∀ operation ∈ sharedDocument.operations, operation.item.ConstantDefaults) ∧
    Rules.noUndefinedVariables.run (sharedDocument.events nodeSchema) = [
      ⟨.undefinedVariable "y" (some "First"), [⟨12, 12, 0⟩, ⟨1, 1, 0⟩]⟩,
      ⟨.undefinedVariable "w" (some "First"), [⟨16, 16, 0⟩, ⟨1, 1, 0⟩]⟩,
      ⟨.undefinedVariable "z" (some "Second"), [⟨8, 8, 0⟩, ⟨6, 6, 0⟩]⟩,
      ⟨.undefinedVariable "x" (some "Second"), [⟨11, 11, 0⟩, ⟨6, 6, 0⟩]⟩,
      ⟨.undefinedVariable "w" (some "Second"), [⟨16, 16, 0⟩, ⟨6, 6, 0⟩]⟩] ∧
    Rules.noUnusedVariables.run (sharedDocument.events nodeSchema) =
      [⟨.unusedVariable "spare" (some "First"), [⟨3, 3, 0⟩]⟩] ∧
    sharedDocument.VariableRulesExact nodeSchema := by
  have hexecutable : ∀ definition ∈ sharedDocument, definition.isExecutable = true := by decide
  have hconstant : ∀ operation ∈ sharedDocument.operations,
      operation.item.ConstantDefaults := by
    simp [sharedDocument, Document.operations, queryOnLine, nodeFragment, Located.onLine,
      Located.unlocated, Operation.ConstantDefaults, Operation.definedVariables,
      Value.variableNames, Value.itemVariables]
  exact ⟨hexecutable, hconstant, by cbv, by cbv,
    Document.variableRulesExact nodeSchema hexecutable hconstant⟩

end GraphQL
