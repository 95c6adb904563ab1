import GraphQL.Proofs.Definitions
import GraphQL.Proofs.Reachability
import GraphQL.Proofs.Walk
import Mathlib.Data.List.Induction

/-!
# What operations use

What the rules on fragments and variables remember of a walk, for documents of operations and
fragments: which definition spreads what, and which variables it holds. `Usage.Describes` is the
invariant of walking through one definition after the other. An operation uses itself and, with
every definition that it uses, the fragments that this one spreads (`Document.Uses`); the search for
scopes finds exactly these.

So the rules are silent exactly if a condition on definitions and what they use holds, in which
neither the numbers of operations nor the order of definitions occur.
-/

namespace GraphQL

/-- Whether spreads and variables are counted for a node. -/
def Node.opensScope : Node → Bool
  | .operation _ => true
  | .fragment _ => true
  | _ => false

/-- The fragments that are spread along a walk. -/
def spreadsAlong (events : List Event) : List (Located FragmentSpread) :=
  events.filterMap fun event =>
    match event.phase, event.node with
    | .enter, .spread node => some node
    | _, _ => none

/-- The variables that are used along a walk, with the types that are expected of them. -/
def variablesAlong (events : List Event) : List (Name × Option TypeLiteral) :=
  events.filterMap fun event =>
    match event.phase, event.node with
    | .enter, .value ⟨span, .variable name⟩ => some (⟨span, name⟩, event.place.input)
    | _, _ => none

namespace Usage

/-- Counts what is spread and used along a walk for a scope. -/
def add (usage : Usage) (scope : Scope) (events : List Event) : Usage :=
  { usage with
    spreads := usage.spreads ++ (spreadsAlong events).map (scope, ·)
    variableUses := usage.variableUses ++
      (variablesAlong events).map fun (name, expected) => ⟨scope, name, expected⟩ }

theorem add_nil (usage : Usage) (scope : Scope) : usage.add scope [] = usage := by
  simp [add, spreadsAlong, variablesAlong]

theorem add_append (usage : Usage) (scope : Scope) (events more : List Event) :
    usage.add scope (events ++ more) = (usage.add scope events).add scope more := by
  simp [add, spreadsAlong, variablesAlong]

/-- What is left is not counted again. -/
theorem remember_leave (usage : Usage) (node : Node) (place : Surroundings) :
    usage.remember ⟨.leave, node, place⟩ = usage := by
  unfold remember
  split <;> first | rfl | contradiction

/-- A visit inside an operation or fragment counts for it. -/
theorem remember_inside {usage : Usage} {scope : Scope} (hcurrent : usage.current = some scope)
    {event : Event} (h : event.node.opensScope = false) :
    usage.remember event = usage.add scope [event] := by
  obtain ⟨phase, node, place⟩ := event
  cases phase with
  | leave =>
      rw [remember_leave]
      simp [add, spreadsAlong, variablesAlong]
  | enter =>
      cases node with
      | operation node => cases h
      | fragment node => cases h
      | spread node => simp [remember, hcurrent, add, spreadsAlong, variablesAlong]
      | value value =>
          match value with
          | ⟨_, .variable _⟩ => simp [remember, hcurrent, add, spreadsAlong, variablesAlong]
          | ⟨_, .null⟩ | ⟨_, .int _⟩ | ⟨_, .float _⟩ | ⟨_, .string _⟩ | ⟨_, .boolean _⟩
          | ⟨_, .enum _⟩ | ⟨_, .list _⟩ | ⟨_, .object _⟩ =>
              simp [remember, add, spreadsAlong, variablesAlong]
      | _ => simp [remember, add, spreadsAlong, variablesAlong]

/-- All visits inside an operation or fragment count for it. -/
theorem foldl_remember_inside {usage : Usage} {scope : Scope}
    (hcurrent : usage.current = some scope) {events : List Event}
    (h : NodesSatisfy (·.opensScope = false) events) :
    events.foldl remember usage = usage.add scope events := by
  induction events generalizing usage with
  | nil => rw [List.foldl_nil, add_nil]
  | cons event events ih =>
      have hrest : NodesSatisfy (·.opensScope = false) events :=
        fun later hlater => h later (List.mem_cons_of_mem event hlater)
      rw [List.foldl_cons, remember_inside hcurrent (h event List.mem_cons_self),
        ih (by exact hcurrent) hrest, ← add_append]
      rfl

end Usage

/-- Inside a selection set no operation or fragment starts. -/
theorem holdsOfParts_opensScope :
    HoldsOfParts (fun _ => True) (fun node => node.opensScope = false) :=
  ⟨⟨fun _ => rfl, fun _ => rfl, fun _ => rfl, fun _ _ => rfl⟩, fun _ _ => rfl,
    fun _ _ _ _ _ => ⟨rfl, trivial⟩, fun _ _ _ _ => rfl, fun _ _ _ _ _ => ⟨rfl, trivial⟩⟩

namespace Usage

/-- What is remembered around a node that opens a scope, if no other one does inside. -/
theorem foldl_remember_around {usage : Usage} {scope : Scope} {node : Node}
    {place : Surroundings} {inner : List Event} (hopens : node.opensScope = true)
    (hcurrent : (usage.remember ⟨.enter, node, place⟩).current = some scope)
    (h : NodesSatisfy (·.opensScope = false) inner) :
    (Event.around place node inner).foldl remember usage =
      (usage.remember ⟨.enter, node, place⟩).add scope (Event.around place node inner) := by
  have hsame : (usage.remember ⟨.enter, node, place⟩).add scope (Event.around place node inner) =
      (usage.remember ⟨.enter, node, place⟩).add scope inner := by
    cases node with
    | operation node => simp [add, spreadsAlong, variablesAlong, Event.around]
    | fragment node => simp [add, spreadsAlong, variablesAlong, Event.around]
    | _ => cases hopens
  rw [hsame, ← foldl_remember_inside hcurrent h, Event.around, List.foldl_append, List.foldl_cons,
    List.foldl_cons, List.foldl_nil, remember_leave]

/-- An operation gets the next number, and what is in it counts for it. -/
theorem foldl_remember_operation (schema : Schema) (usage : Usage) (node : Located Operation) :
    ((Definition.operation node).events schema).foldl remember usage =
      { usage with
        current := some (.operation usage.operations.length)
        operations := usage.operations ++ [node] }.add (.operation usage.operations.length)
          ((Definition.operation node).events schema) := by
  have huses := holdsOfParts_opensScope.toHoldsOfUses
  exact foldl_remember_around rfl rfl (.append (.append
    (variableEvents_satisfy schema huses (fun _ => rfl) _ _)
    (directiveEvents_satisfy schema huses _ _))
    (selectionSetEvents_satisfy schema holdsOfParts_opensScope trivial _))

/-- What is in a fragment counts for its name. -/
theorem foldl_remember_fragment (schema : Schema) (usage : Usage) (node : Located Fragment) :
    ((Definition.fragment node).events schema).foldl remember usage =
      { usage with
        current := some (.fragment node.item.name.item)
        fragments := usage.fragments ++ [node] }.add (.fragment node.item.name.item)
          ((Definition.fragment node).events schema) := by
  have huses := holdsOfParts_opensScope.toHoldsOfUses
  exact foldl_remember_around rfl rfl (.append (directiveEvents_satisfy schema huses _ _)
    (selectionSetEvents_satisfy schema holdsOfParts_opensScope trivial _))

/-- What holds before a walk and is kept by every operation and fragment holds of what is remembered
at the end. -/
theorem foldl_remember_events (schema : Schema) {P : Document → Usage → Prop} (hstart : P [] {})
    (hstep : ∀ document usage definition, definition.isExecutable = true → P document usage →
      P (document ++ [definition]) ((definition.events schema).foldl remember usage))
    {document : Document}
    (hexecutable : ∀ definition ∈ document, definition.isExecutable = true) :
    P document ((document.events schema).foldl remember {}) := by
  have hinner : P document ((document.flatMap (Definition.events schema)).foldl remember {}) := by
    induction document using List.reverseRecOn with
    | nil => exact hstart
    | append_singleton document definition ih =>
        have hbefore := ih fun other hother => hexecutable other (List.mem_append_left _ hother)
        rw [List.flatMap_append, List.foldl_append, List.flatMap_singleton]
        exact hstep document _ definition (hexecutable definition (by simp)) hbefore
  have hevents : (document.events schema).foldl remember {} =
      (document.flatMap (Definition.events schema)).foldl remember {} := by
    rw [Document.events, Event.around, List.foldl_append, List.foldl_cons, List.foldl_cons,
      List.foldl_nil, remember_leave]
    rfl
  rw [hevents]
  exact hinner

end Usage

/-! ## Whole documents -/

namespace Document

/-- A definition of a document has a scope: operations are numbered, fragments are named. -/
def HasScope (document : Document) : Scope → Definition → Prop
  | .operation index, definition =>
    ∃ node, document.operations[index]? = some node ∧ definition = .operation node
  | .fragment name, definition =>
    ∃ node ∈ document.fragments, node.item.name.item = name ∧ definition = .fragment node

@[simp] theorem operations_append (document more : Document) :
    operations (document ++ more) = document.operations ++ operations more :=
  List.filterMap_append

@[simp] theorem fragments_append (document more : Document) :
    fragments (document ++ more) = document.fragments ++ fragments more :=
  List.filterMap_append

end Document

/-- What is remembered of the definitions of a document. -/
structure Usage.Describes (schema : Schema) (document : Document) (usage : Usage) : Prop where
  operations : usage.operations = document.operations
  fragments : usage.fragments = document.fragments
  spreads : ∀ scope spread, (scope, spread) ∈ usage.spreads ↔
    ∃ definition, document.HasScope scope definition ∧
      spread ∈ spreadsAlong (definition.events schema)
  variableUses : ∀ scope name expected, ⟨scope, name, expected⟩ ∈ usage.variableUses ↔
    ∃ definition, document.HasScope scope definition ∧
      (name, expected) ∈ variablesAlong (definition.events schema)

/-- A further operation has the next number. -/
theorem Document.hasScope_append_operation {document : Document} {node : Located Operation}
    {scope : Scope} {definition : Definition} :
    HasScope (document ++ [Definition.operation node]) scope definition ↔
      document.HasScope scope definition ∨
        scope = .operation document.operations.length ∧ definition = .operation node := by
  have hsingle : operations [.operation node] = [node] := rfl
  have hnone : fragments [.operation node] = [] := rfl
  cases scope with
  | fragment name => simp [HasScope, hnone]
  | operation index =>
      simp only [HasScope, operations_append, hsingle, List.getElem?_append, Scope.operation.injEq]
      split
      · have hne : index ≠ document.operations.length := by omega
        simp [hne]
      · rename_i hlast
        have hpast : document.operations[index]? = none := by simpa using hlast
        by_cases hindex : index = document.operations.length
        · subst hindex
          simp
        · have hlater : index - document.operations.length ≠ 0 := by omega
          simp [hpast, hindex, hlater]

/-- A further fragment has its name. -/
theorem Document.hasScope_append_fragment {document : Document} {node : Located Fragment}
    {scope : Scope} {definition : Definition} :
    HasScope (document ++ [Definition.fragment node]) scope definition ↔
      document.HasScope scope definition ∨
        scope = .fragment node.item.name.item ∧ definition = .fragment node := by
  have hsingle : fragments [.fragment node] = [node] := rfl
  have hnone : operations [.fragment node] = [] := rfl
  cases scope with
  | operation index => simp [HasScope, hnone]
  | fragment name =>
      simp only [HasScope, fragments_append, hsingle, List.mem_append, List.mem_singleton,
        Scope.fragment.injEq]
      constructor
      · rintro ⟨other, hother | rfl, rfl, rfl⟩
        · exact .inl ⟨other, hother, rfl, rfl⟩
        · exact .inr ⟨rfl, rfl⟩
      · rintro (⟨other, hother, rfl, rfl⟩ | ⟨rfl, rfl⟩)
        · exact ⟨other, .inl hother, rfl, rfl⟩
        · exact ⟨node, .inr rfl, rfl, rfl⟩

namespace Usage.Describes

variable {schema : Schema} {document : Document} {usage : Usage}

/-- Counting one more definition for its scope. -/
theorem add (h : usage.Describes schema document) {definition : Definition} {scope : Scope}
    (hscope : ∀ other otherDefinition,
      Document.HasScope (document ++ [definition]) other otherDefinition ↔
        document.HasScope other otherDefinition ∨ other = scope ∧ otherDefinition = definition)
    {entered : Usage}
    (hoperations : entered.operations = Document.operations (document ++ [definition]))
    (hfragments : entered.fragments = Document.fragments (document ++ [definition]))
    (hspreads : entered.spreads = usage.spreads)
    (hvariables : entered.variableUses = usage.variableUses) :
    (entered.add scope (definition.events schema)).Describes schema (document ++ [definition]) where
  operations := hoperations
  fragments := hfragments
  spreads other spread := by
    simp only [Usage.add, hspreads, List.mem_append, h.spreads, hscope, List.mem_map,
      Prod.mk.injEq]
    grind
  variableUses other name expected := by
    simp only [Usage.add, hvariables, List.mem_append, h.variableUses, hscope, List.mem_map,
      VariableUse.mk.injEq]
    grind

/-- Walking through one more operation or fragment. -/
theorem step (h : usage.Describes schema document) {definition : Definition}
    (hexecutable : definition.isExecutable = true) :
    ((definition.events schema).foldl remember usage).Describes schema
      (document ++ [definition]) := by
  cases definition with
  | operation node =>
      rw [foldl_remember_operation, h.operations]
      refine h.add (fun _ _ => Document.hasScope_append_operation) ?_ ?_ rfl rfl
      · simp [Document.operations]
      · simp [Document.fragments, h.fragments]
  | fragment node =>
      rw [foldl_remember_fragment]
      refine h.add (fun _ _ => Document.hasScope_append_fragment) ?_ ?_ rfl rfl
      · simp [Document.operations, h.operations]
      · simp [Document.fragments, h.fragments]
  | _ => cases hexecutable

/-- What is remembered at the end of the walk through a document of operations and fragments. -/
theorem walk (schema : Schema) {document : Document}
    (hexecutable : ∀ definition ∈ document, definition.isExecutable = true) :
    ((document.events schema).foldl remember {}).Describes schema document := by
  have hnone (scope definition) : ¬ Document.HasScope [] scope definition := by
    cases scope <;> simp [Document.HasScope, Document.operations, Document.fragments]
  have hstart : ({} : Usage).Describes schema [] := ⟨rfl, rfl, by simp [hnone], by simp [hnone]⟩
  exact foldl_remember_events schema hstart (fun _ _ _ hdefinition h => h.step hdefinition)
    hexecutable

end Usage.Describes

/-! ## What is used -/

/-- A definition uses itself, and with every definition the fragments that this one spreads. -/
inductive Document.Uses (schema : Schema) (document : Document) (definition : Definition) :
    Definition → Prop
  | self : Uses schema document definition definition
  | spread {other spread node} : Uses schema document definition other →
      spread ∈ spreadsAlong (other.events schema) → .fragment node ∈ document →
      node.item.name.item = spread.item.name.item →
      Uses schema document definition (.fragment node)

/-- More is used only if there are more definitions. -/
theorem Document.Uses.mono {schema : Schema} {document other : Document}
    (hsubset : document ⊆ other) {definition used : Definition}
    (h : document.Uses schema definition used) : other.Uses schema definition used := by
  induction h with
  | self => exact .self
  | spread _ hspread hmem hname ih => exact .spread ih hspread (hsubset hmem) hname

namespace Usage.Describes

variable {schema : Schema} {document : Document} {usage : Usage}
  (h : usage.Describes schema document)

include h

/-- A step of the search leads from the scope of a definition to a fragment that it spreads. -/
theorem stepsTo_iff {scope next : Scope} :
    Graph.StepsTo (usage.spreads.map Prod.fst)
        (fun scope => (usage.spreadsIn scope).map fun spread => .fragment spread.item.name.item)
        scope next ↔
      ∃ definition, document.HasScope scope definition ∧
        ∃ spread ∈ spreadsAlong (definition.events schema),
          next = .fragment spread.item.name.item := by
  have hnext : next ∈ ((usage.spreadsIn scope).map
      fun spread => Scope.fragment spread.item.name.item) ↔
        ∃ spread, (scope, spread) ∈ usage.spreads ∧ next = .fragment spread.item.name.item := by
    simp [Usage.spreadsIn, eq_comm]
  rw [Graph.StepsTo, hnext]
  constructor
  · rintro ⟨_, spread, hspread, rfl⟩
    obtain ⟨definition, hscope, hmem⟩ := (h.spreads scope spread).mp hspread
    exact ⟨definition, hscope, spread, hmem, rfl⟩
  · rintro ⟨definition, hscope, spread, hmem, rfl⟩
    have hspread := (h.spreads scope spread).mpr ⟨definition, hscope, hmem⟩
    exact ⟨List.mem_map_of_mem hspread, spread, hspread, rfl⟩

/-- **What an operation uses.**  The search from an operation reaches the scope of a definition
exactly if the operation uses the definition. -/
theorem uses_iff {operation : Located Operation} {index : Nat}
    (hoperation : document.operations[index]? = some operation) {definition : Definition} :
    (∃ scope ∈ usage.reachable index, document.HasScope scope definition) ↔
      document.Uses schema (.operation operation) definition := by
  simp only [Usage.reachable, Graph.mem_reachable_iff, List.mem_singleton, exists_eq_left]
  constructor
  · rintro ⟨scope, hpath, hscope⟩
    induction hpath generalizing definition with
    | refl =>
        obtain ⟨node, hnode, rfl⟩ := hscope
        rw [hoperation] at hnode
        cases hnode
        exact .self
    | tail _ hstep ih =>
        obtain ⟨other, hother, spread, hspread, rfl⟩ := h.stepsTo_iff.mp hstep
        obtain ⟨node, hnode, hname, rfl⟩ := hscope
        exact .spread (ih hother) hspread (Document.mem_fragments.mp hnode) hname
  · intro huses
    induction huses with
    | self => exact ⟨.operation index, .refl, operation, hoperation, rfl⟩
    | @spread other spread node _ hspread hmem hname ih =>
        obtain ⟨scope, hpath, hscope⟩ := ih
        refine ⟨.fragment spread.item.name.item, hpath.tail ?_, node,
          Document.mem_fragments.mpr hmem, hname, rfl⟩
        exact h.stepsTo_iff.mpr ⟨other, hscope, spread, hspread, rfl⟩

/-- What holds of the variables that an operation uses is said by the definitions that it uses. -/
theorem exists_variablesOf_iff {operation : Located Operation} {index : Nat}
    (hoperation : document.operations[index]? = some operation)
    {P : Name → Option TypeLiteral → Prop} :
    (∃ use ∈ usage.variablesOf index, P use.name use.expected) ↔
      ∃ definition, document.Uses schema (.operation operation) definition ∧
        ∃ use ∈ variablesAlong (definition.events schema), P use.1 use.2 := by
  simp only [Usage.variablesOf, List.mem_filter, List.contains_iff_mem]
  constructor
  · rintro ⟨⟨scope, name, expected⟩, ⟨hmem, hscope⟩, hP⟩
    obtain ⟨definition, hdefinition, huse⟩ := (h.variableUses scope name expected).mp hmem
    exact ⟨definition, (h.uses_iff hoperation).mp ⟨scope, hscope, hdefinition⟩, _, huse, hP⟩
  · rintro ⟨definition, huses, ⟨name, expected⟩, huse, hP⟩
    obtain ⟨scope, hscope, hdefinition⟩ := (h.uses_iff hoperation).mpr huses
    have hmem := (h.variableUses scope name expected).mpr ⟨definition, hdefinition, huse⟩
    exact ⟨_, ⟨hmem, hscope⟩, hP⟩

theorem forall_variablesOf_iff {operation : Located Operation} {index : Nat}
    (hoperation : document.operations[index]? = some operation)
    {P : Name → Option TypeLiteral → Prop} :
    (∀ use ∈ usage.variablesOf index, P use.name use.expected) ↔
      ∀ definition, document.Uses schema (.operation operation) definition →
        ∀ use ∈ variablesAlong (definition.events schema), P use.1 use.2 := by
  have hnot := not_congr (h.exists_variablesOf_iff hoperation
    (P := fun name expected => ¬ P name expected))
  simpa using hnot

/-- The operations are numbered in the order of the document. -/
theorem mem_numbered_iff {operation : Located Operation} {index : Nat} :
    (operation, index) ∈ usage.numbered ↔ document.operations[index]? = some operation := by
  rw [Usage.numbered, h.operations]
  exact List.mem_zipIdx_iff_getElem?

/-- A rule that goes through the numbered operations is silent if it is for every operation. -/
theorem flatMap_numbered_eq_nil_iff {check : Located Operation × Nat → List Fault}
    {P : Located Operation → Prop}
    (hcheck : ∀ operation index, document.operations[index]? = some operation →
      (check (operation, index) = [] ↔ P operation)) :
    usage.numbered.flatMap check = [] ↔ ∀ operation ∈ document.operations, P operation := by
  rw [List.flatMap_eq_nil_iff]
  constructor
  · intro hsilent operation hmem
    obtain ⟨index, hindex⟩ := List.mem_iff_getElem?.mp hmem
    exact (hcheck operation index hindex).mp
      (hsilent (operation, index) (h.mem_numbered_iff.mpr hindex))
  · rintro hall ⟨operation, index⟩ hmem
    have hindex := h.mem_numbered_iff.mp hmem
    exact (hcheck operation index hindex).mpr (hall operation (List.mem_of_getElem? hindex))

end Usage.Describes

/-! ## The rules -/

/-- A rule on what operations use speaks about what is remembered at the end. -/
theorem Rule.run_onUsage (check : Usage → List Fault) (events : List Event) :
    (Rule.onUsage check).run events = check (events.foldl Usage.remember {}) := by
  have hrun : ∀ (events : List Event) (usage : Usage),
      (Rule.onUsage check).runFrom usage events = check (events.foldl Usage.remember usage) := by
    intro events
    induction events with
    | nil => exact fun _ => rfl
    | cons event events ih => exact fun usage => ih (usage.remember event)
  exact hrun events {}

section

variable (schema : Schema) {document : Document}
  (hexecutable : ∀ definition ∈ document, definition.isExecutable = true)

include hexecutable

theorem noUndefinedVariables_silent_iff :
    Rules.noUndefinedVariables.run (document.events schema) = [] ↔
      ∀ operation ∈ document.operations, ∀ definition,
        document.Uses schema (.operation operation) definition →
          ∀ use ∈ variablesAlong (definition.events schema),
            operation.item.definedVariables.any (·.name.item = use.1.item) := by
  have h := Usage.Describes.walk schema hexecutable
  rw [Rules.noUndefinedVariables, Rule.run_onUsage]
  refine h.flatMap_numbered_eq_nil_iff fun operation index hindex => ?_
  rw [← h.forall_variablesOf_iff hindex (P := fun name _ =>
    operation.item.definedVariables.any (·.name.item = name.item))]
  simp

theorem noUnusedVariables_silent_iff :
    Rules.noUnusedVariables.run (document.events schema) = [] ↔
      ∀ operation ∈ document.operations, ∀ defined ∈ operation.item.definedVariables,
        ∃ definition, document.Uses schema (.operation operation) definition ∧
          ∃ use ∈ variablesAlong (definition.events schema),
            use.1.item = defined.name.item := by
  have h := Usage.Describes.walk schema hexecutable
  rw [Rules.noUnusedVariables, Rule.run_onUsage]
  refine h.flatMap_numbered_eq_nil_iff fun operation index hindex => ?_
  have hused (defined : VariableDefinition) :=
    h.exists_variablesOf_iff hindex (P := fun name _ => name.item = defined.name.item)
  simp only [← hused]
  simp

theorem variablePositions_silent_iff :
    (Rules.variablePositions schema).run (document.events schema) = [] ↔
      ∀ operation ∈ document.operations, ∀ definition,
        document.Uses schema (.operation operation) definition →
          ∀ use ∈ variablesAlong (definition.events schema), ∀ expected defined,
            use.2 = some expected →
            operation.item.definedVariables.find? (·.name.item = use.1.item) = some defined →
              schema.isSubtype defined.effectiveType expected := by
  have h := Usage.Describes.walk schema hexecutable
  rw [Rules.variablePositions, Rule.run_onUsage]
  refine h.flatMap_numbered_eq_nil_iff fun operation index hindex => ?_
  rw [← h.forall_variablesOf_iff hindex (P := fun name expected => ∀ type defined,
    expected = some type →
    operation.item.definedVariables.find? (·.name.item = name.item) = some defined →
      schema.isSubtype defined.effectiveType type)]
  simp only [List.filterMap_eq_nil_iff, Option.bind_eq_bind, Option.bind_eq_none_iff]
  grind

theorem noUnusedFragments_silent_iff :
    Rules.noUnusedFragments.run (document.events schema) = [] ↔
      ∀ fragment ∈ document.fragments, ∃ operation ∈ document.operations,
        document.Uses schema (.operation operation) (.fragment fragment) := by
  have h := Usage.Describes.walk schema hexecutable
  rw [Rules.noUnusedFragments, Rule.run_onUsage]
  simp only [List.map_eq_nil_iff, List.filter_eq_nil_iff, h.fragments, Bool.not_eq_true',
    Bool.not_eq_false, List.contains_iff_mem, List.mem_flatMap]
  refine forall₂_congr fun fragment hfragment => ?_
  constructor
  · rintro ⟨⟨operation, index⟩, hmem, hreached⟩
    rw [Usage.numbered, h.operations] at hmem
    have hindex := List.mem_zipIdx_iff_getElem?.mp hmem
    exact ⟨operation, List.mem_of_getElem? hindex,
      (h.uses_iff hindex).mp ⟨_, hreached, fragment, hfragment, rfl, rfl⟩⟩
  · rintro ⟨operation, hoperation, huses⟩
    obtain ⟨index, hindex⟩ := List.mem_iff_getElem?.mp hoperation
    obtain ⟨scope, hreached, hscope⟩ := (h.uses_iff hindex).mpr huses
    refine ⟨(operation, index), ?_, ?_⟩
    · rw [Usage.numbered, h.operations]
      exact List.mem_zipIdx_iff_getElem?.mpr hindex
    · cases scope with
      | operation other =>
          obtain ⟨_, _, hfalse⟩ := hscope
          cases hfalse
      | fragment name =>
          obtain ⟨other, _, rfl, hsame⟩ := hscope
          cases hsame
          exact hreached

end

end GraphQL
