import GraphQL.Validity.Event

/-!
# Walks

Which visits a walk through a document makes. Every node is entered, everything inside a definition
is visited with the document, and inside a definition nothing is visited but its parts. So to say
something about all nodes that are visited, it is enough to say it about the parts (`HoldsOfParts`):
the only selection sets that are visited, for instance, are those that stand inside an operation or
a fragment. To say something about all places, it is enough that a place passes it on to those
inside (`PassedOn`).
-/

namespace GraphQL

/-- Entering a node is one of the visits around it. -/
theorem Event.enter_mem_around (place : Surroundings) (node : Node) (inner : List Event) :
    (⟨.enter, node, place⟩ : Event) ∈ Event.around place node inner :=
  List.mem_cons_self

/-- The visits inside a node are among those around it. -/
theorem Event.mem_around_of_mem {place : Surroundings} {node : Node} {inner : List Event}
    {event : Event} (h : event ∈ inner) : event ∈ Event.around place node inner := by
  simp [Event.around, h]

/-- The visits of a definition are among those of its document. -/
theorem Document.mem_events_of_mem {schema : Schema} {document : Document}
    {definition : Definition} (hmem : definition ∈ document) {event : Event}
    (h : event ∈ definition.events schema) : event ∈ document.events schema :=
  Event.mem_around_of_mem (List.mem_flatMap.mpr ⟨definition, hmem, h⟩)

/-- A fragment that is found is defined by the document. -/
theorem Document.mem_of_fragment? {document : Document} {name : String} {fragment : Fragment}
    (h : document.fragment? name = some fragment) :
    ∃ node, Definition.fragment node ∈ document ∧ node.item = fragment := by
  unfold Document.fragment? Document.fragments at h
  obtain ⟨node, hfind, hitem⟩ := Option.map_eq_some_iff.mp h
  obtain ⟨definition, hmem, hsome⟩ := List.mem_filterMap.mp (List.mem_of_find?_eq_some hfind)
  cases definition with
  | fragment other =>
      cases hsome
      exact ⟨node, hmem, hitem⟩
  | operation node => cases hsome
  | schema node => cases hsome
  | type node => cases hsome
  | directive node => cases hsome

/-! ## Selection sets -/

/-- A selection set is `root` itself or stands somewhere inside it. -/
inductive Nested (root : List Selection) : List Selection → Prop
  | root : Nested root root
  | field {selections node below} :
      Nested root selections → .field node below ∈ selections → Nested root below
  | inline {selections node body} :
      Nested root selections → .inline node body ∈ selections → Nested root body

/-- What stands inside a set that stands inside another stands inside that one. -/
theorem Nested.trans {root middle selections : List Selection} (h : Nested root middle)
    (h' : Nested middle selections) : Nested root selections := by
  induction h' with
  | root => exact h
  | field _ hmem ih => exact ih.field hmem
  | inline _ hmem ih => exact ih.inline hmem

mutual

/-- All selection sets that stand in one selection. -/
def setsInOne : Selection → List (List Selection)
  | .field _ below => below :: setsIn below
  | .spread _ => []
  | .inline _ body => body :: setsIn body

/-- All selection sets that stand in the selections of a set. -/
def setsIn : List Selection → List (List Selection)
  | [] => []
  | selection :: rest => setsInOne selection ++ setsIn rest

end

theorem mem_setsIn_of_mem_one {selections set : List Selection} {selection : Selection}
    (hmem : selection ∈ selections) (h : set ∈ setsInOne selection) : set ∈ setsIn selections := by
  induction selections with
  | nil => cases hmem
  | cons first rest ih =>
      rw [setsIn, List.mem_append]
      rcases List.mem_cons.mp hmem with rfl | hmem
      · exact .inl h
      · exact .inr (ih hmem)

mutual

theorem setsIn_subset_one : (selection : Selection) → ∀ set ∈ setsInOne selection,
    ∀ inner ∈ setsIn set, inner ∈ setsInOne selection
  | .field _ below, set, hset, inner, hinner => by
      rw [setsInOne, List.mem_cons] at hset ⊢
      rcases hset with rfl | hset
      · exact .inr hinner
      · exact .inr (setsIn_subset below set hset inner hinner)
  | .spread _, _, hset, _, _ => by cases hset
  | .inline _ body, set, hset, inner, hinner => by
      rw [setsInOne, List.mem_cons] at hset ⊢
      rcases hset with rfl | hset
      · exact .inr hinner
      · exact .inr (setsIn_subset body set hset inner hinner)

/-- What stands in a set that stands in another stands in that one. -/
theorem setsIn_subset : (selections : List Selection) → ∀ set ∈ setsIn selections,
    ∀ inner ∈ setsIn set, inner ∈ setsIn selections
  | [], _, hset, _, _ => by cases hset
  | selection :: rest, set, hset, inner, hinner => by
      rw [setsIn, List.mem_append] at hset ⊢
      rcases hset with hset | hset
      · exact .inl (setsIn_subset_one selection set hset inner hinner)
      · exact .inr (setsIn_subset rest set hset inner hinner)

end

/-- The sets that stand somewhere in a set can be listed. -/
theorem Nested.mem_setsIn {root selections : List Selection} (h : Nested root selections) :
    selections = root ∨ selections ∈ setsIn root := by
  have hstep {set inner : List Selection} (hset : set = root ∨ set ∈ setsIn root)
      (hinner : inner ∈ setsIn set) : inner ∈ setsIn root := by
    rcases hset with rfl | hset
    · exact hinner
    · exact setsIn_subset root set hset inner hinner
  induction h with
  | root => exact .inl rfl
  | field _ hmem ih =>
      exact .inr (hstep ih (mem_setsIn_of_mem_one hmem (by simp [setsInOne])))
  | inline _ hmem ih =>
      exact .inr (hstep ih (mem_setsIn_of_mem_one hmem (by simp [setsInOne])))

/-- The outermost selection sets of a document. -/
def Document.roots (document : Document) : List (List Selection) :=
  document.operations.map (·.item.selections) ++ document.fragments.map (·.item.selections)

/-- A selection set stands somewhere in a document. -/
def Document.HasSet (document : Document) (selections : List Selection) : Prop :=
  ∃ root ∈ document.roots, Nested root selections

/-- All selection sets of a document. -/
def Document.sets (document : Document) : List (List Selection) :=
  document.roots.flatMap fun root => root :: setsIn root

theorem Document.HasSet.mem_sets {document : Document} {selections : List Selection}
    (h : document.HasSet selections) : selections ∈ document.sets := by
  obtain ⟨root, hroot, hnested⟩ := h
  exact List.mem_flatMap.mpr ⟨root, hroot, List.mem_cons.mpr hnested.mem_setsIn⟩

/-- The selection set of an operation is one of the document. -/
theorem Document.root_of_operation {document : Document} {node : Located Operation}
    (h : Definition.operation node ∈ document) : node.item.selections ∈ document.roots := by
  refine List.mem_append_left _ (List.mem_map.mpr ⟨node, ?_, rfl⟩)
  exact List.mem_filterMap.mpr ⟨_, h, rfl⟩

/-- The selection set of a fragment is one of the document. -/
theorem Document.root_of_fragment {document : Document} {node : Located Fragment}
    (h : Definition.fragment node ∈ document) : node.item.selections ∈ document.roots := by
  refine List.mem_append_right _ (List.mem_map.mpr ⟨node, ?_, rfl⟩)
  exact List.mem_filterMap.mpr ⟨_, h, rfl⟩

/-! ## Visited nodes -/

/-- The nodes that are visited satisfy a property. -/
def NodesSatisfy (Q : Node → Prop) (events : List Event) : Prop :=
  ∀ event ∈ events, Q event.node

namespace NodesSatisfy

variable {Q : Node → Prop}

theorem nil : NodesSatisfy Q [] := by
  intro event h
  cases h

theorem append {events events' : List Event} (h : NodesSatisfy Q events)
    (h' : NodesSatisfy Q events') : NodesSatisfy Q (events ++ events') := by
  intro event hmem
  rcases List.mem_append.mp hmem with hmem | hmem
  · exact h event hmem
  · exact h' event hmem

theorem flatMap {α : Type} {list : List α} {events : α → List Event}
    (h : ∀ a ∈ list, NodesSatisfy Q (events a)) : NodesSatisfy Q (list.flatMap events) := by
  intro event hmem
  obtain ⟨a, ha, hmem⟩ := List.mem_flatMap.mp hmem
  exact h a ha event hmem

theorem around {place : Surroundings} {node : Node} {inner : List Event} (hnode : Q node)
    (h : NodesSatisfy Q inner) : NodesSatisfy Q (Event.around place node inner) := by
  intro event hmem
  simp only [Event.around, List.cons_append, List.mem_cons, List.mem_append, List.not_mem_nil,
    or_false] at hmem
  rcases hmem with rfl | hmem | rfl
  · exact hnode
  · exact h event hmem
  · exact hnode

end NodesSatisfy

/-- A property that all directives have and everything that is given for parameters. -/
structure HoldsOfUses (Q : Node → Prop) : Prop where
  directive : ∀ use, Q (.directive use)
  argument : ∀ argument, Q (.argument argument)
  value : ∀ value, Q (.value value)
  entry : ∀ key value, Q (.entry key value)

/-- A property of nodes that the parts of a selection set have if the set has another property,
which it passes on to the sets inside. -/
structure HoldsOfParts (P : List Selection → Prop) (Q : Node → Prop) : Prop
    extends HoldsOfUses Q where
  set : ∀ selections, P selections → Q (.selectionSet selections)
  field : ∀ selections node below, P selections → .field node below ∈ selections →
    Q (.field node below) ∧ P below
  spread : ∀ selections node, P selections → .spread node ∈ selections → Q (.spread node)
  inline : ∀ selections node body, P selections → .inline node body ∈ selections →
    Q (.inline node body) ∧ P body

section

variable {Q : Node → Prop} (schema : Schema)

mutual

theorem Value.events_satisfy (hQ : HoldsOfUses Q) (place : Surroundings) (span : Span) :
    (v : Value) → NodesSatisfy Q (v.events schema place span)
  | .list items => .around (hQ.value _) (Value.itemEvents_satisfy hQ _ items)
  | .object entries => .around (hQ.value _) (Value.entryEvents_satisfy hQ place entries)
  | .null => .around (hQ.value _) .nil
  | .int _ => .around (hQ.value _) .nil
  | .float _ => .around (hQ.value _) .nil
  | .string _ => .around (hQ.value _) .nil
  | .boolean _ => .around (hQ.value _) .nil
  | .enum _ => .around (hQ.value _) .nil
  | .variable _ => .around (hQ.value _) .nil

theorem Value.itemEvents_satisfy (hQ : HoldsOfUses Q) (place : Surroundings) :
    (items : List (Located Value)) → NodesSatisfy Q (Value.itemEvents schema place items)
  | [] => .nil
  | ⟨span, v⟩ :: rest =>
      .append (Value.events_satisfy hQ place span v) (Value.itemEvents_satisfy hQ place rest)

theorem Value.entryEvents_satisfy (hQ : HoldsOfUses Q) (place : Surroundings) :
    (entries : List (Name × Located Value)) →
      NodesSatisfy Q (Value.entryEvents schema place entries)
  | [] => .nil
  | (_, ⟨span, v⟩) :: rest =>
      .append (.around (hQ.entry _ _) (Value.events_satisfy hQ _ span v))
        (Value.entryEvents_satisfy hQ place rest)

end

variable (hQ : HoldsOfUses Q)

include hQ

theorem argumentEvents_satisfy (place : Surroundings) (parameters : Option (List InputValue))
    (arguments : Option (Located (List Argument))) :
    NodesSatisfy Q (argumentEvents schema place parameters arguments) :=
  .flatMap fun argument _ =>
    .around (hQ.argument _) (Value.events_satisfy schema hQ _ _ argument.value.item)

theorem directiveEvents_satisfy (place : Surroundings) (directives : List (Located DirectiveUse)) :
    NodesSatisfy Q (directiveEvents schema place directives) :=
  .flatMap fun _ _ => .around (hQ.directive _) (argumentEvents_satisfy schema hQ _ _ _)

theorem variableEvents_satisfy (hvariable : ∀ definition, Q (.variableDefinition definition))
    (place : Surroundings) (definitions : List VariableDefinition) :
    NodesSatisfy Q (variableEvents schema place definitions) := by
  refine .flatMap fun definition _ =>
    .around (hvariable _) (.append ?_ (directiveEvents_satisfy schema hQ _ _))
  cases definition.default with
  | none => exact .nil
  | some value => exact Value.events_satisfy schema hQ _ _ value.item

theorem inputDefinitionEvents_satisfy (place : Surroundings)
    {node : Located InputValueDefinition → Node} (hnode : ∀ definition, Q (node definition))
    (definitions : List (Located InputValueDefinition)) :
    NodesSatisfy Q (inputDefinitionEvents schema place node definitions) :=
  .flatMap fun _ _ => .around (hnode _) (directiveEvents_satisfy schema hQ _ _)

theorem TypeBody.events_satisfy (hfield : ∀ node, Q (.fieldDefinition node))
    (hargument : ∀ node, Q (.argumentDefinition node))
    (hinput : ∀ node, Q (.inputFieldDefinition node))
    (henum : ∀ node, Q (.enumValueDefinition node)) (place : Surroundings) (body : TypeBody) :
    NodesSatisfy Q (body.events schema place) := by
  have hfields (fields : List (Located FieldDefinition)) :
      NodesSatisfy Q (TypeBody.events.fieldEvents schema place fields) :=
    .flatMap fun _ _ => .around (hfield _) <|
      .append (inputDefinitionEvents_satisfy schema hQ _ hargument _)
        (directiveEvents_satisfy schema hQ _ _)
  cases body with
  | scalar => exact .nil
  | object _ fields => exact hfields fields
  | interface _ fields => exact hfields fields
  | union _ => exact .nil
  | enum values =>
      exact .flatMap fun _ _ => .around (henum _) (directiveEvents_satisfy schema hQ _ _)
  | inputObject fields => exact inputDefinitionEvents_satisfy schema hQ _ hinput _

end

section

variable {P : List Selection → Prop} {Q : Node → Prop} (schema : Schema)

mutual

theorem Selection.events_satisfy (h : HoldsOfParts P Q) {selections : List Selection}
    (hP : P selections) (place : Surroundings) : (selection : Selection) →
      selection ∈ selections → NodesSatisfy Q (selection.events schema place)
  | .field node below, hmem => by
      obtain ⟨hnode, hbelow⟩ := h.field selections node below hP hmem
      refine .around hnode (.append (.append
        (argumentEvents_satisfy schema h.toHoldsOfUses _ _ _)
        (directiveEvents_satisfy schema h.toHoldsOfUses _ _)) ?_)
      split
      · exact .nil
      · exact .around (h.set below hbelow)
          (Selection.listEvents_satisfy h hbelow _ below fun _ hmem => hmem)
  | .spread node, hmem =>
      .around (h.spread selections node hP hmem) (directiveEvents_satisfy schema h.toHoldsOfUses _ _)
  | .inline node body, hmem => by
      obtain ⟨hnode, hbody⟩ := h.inline selections node body hP hmem
      exact .around hnode (.append (directiveEvents_satisfy schema h.toHoldsOfUses _ _)
        (.around (h.set body hbody)
          (Selection.listEvents_satisfy h hbody _ body fun _ hmem => hmem)))

theorem Selection.listEvents_satisfy (h : HoldsOfParts P Q) {selections : List Selection}
    (hP : P selections) (place : Surroundings) : (part : List Selection) →
      (∀ selection ∈ part, selection ∈ selections) →
      NodesSatisfy Q (Selection.listEvents schema place part)
  | [], _ => .nil
  | selection :: rest, hpart =>
      .append (Selection.events_satisfy h hP place selection (hpart _ List.mem_cons_self))
        (Selection.listEvents_satisfy h hP place rest fun other hmem =>
          hpart other (List.mem_cons_of_mem _ hmem))

end

/-- If a selection set has the one property, then all nodes that are visited in it have the
other. -/
theorem selectionSetEvents_satisfy (h : HoldsOfParts P Q) {root : List Selection} (hroot : P root)
    (place : Surroundings) : NodesSatisfy Q (selectionSetEvents schema place root) :=
  .around (h.set root hroot) (Selection.listEvents_satisfy schema h hroot _ root fun _ hmem => hmem)

end

/-- The visits of a selection are among those of its set. -/
theorem Selection.events_subset_listEvents (schema : Schema) (place : Surroundings)
    {selections : List Selection} {selection : Selection} (hmem : selection ∈ selections) :
    selection.events schema place ⊆ Selection.listEvents schema place selections := by
  induction selections with
  | nil => cases hmem
  | cons first rest ih =>
      intro event hevent
      rw [Selection.listEvents, List.mem_append]
      rcases List.mem_cons.mp hmem with rfl | hmem
      · exact .inl hevent
      · exact .inr (ih hmem hevent)

/-- Where the parts of a field stand. -/
def Surroundings.inField (schema : Schema) (place : Surroundings) (node : Located FieldHead) :
    Surroundings :=
  { place with output := (place.parent.bind (schema.field? · node.item.name.item)).map Field.type }

/-- Where the parts of an inline fragment stand. -/
def Surroundings.inInline (place : Surroundings) (node : Located InlineHead) : Surroundings :=
  match node.item.condition with
  | some condition => place.on condition.item
  | none => place

theorem Surroundings.parent_inInline (place : Surroundings) (node : Located InlineHead) :
    (place.inInline node).parent = place.parent := by
  unfold inInline
  split <;> rfl

/-- The visits of the arguments of a field are among those of the field. -/
theorem Selection.argumentEvents_subset_field (schema : Schema) (place : Surroundings)
    (node : Located FieldHead) (below : List Selection) :
    argumentEvents schema (place.inField schema node)
        ((place.parent.bind (schema.field? · node.item.name.item)).map Field.arguments)
        node.item.arguments ⊆
      (Selection.field node below).events schema place :=
  fun _ hevent => Event.mem_around_of_mem (List.mem_append_left _ (List.mem_append_left _ hevent))

/-- The visits of the selections below a field are among those of the field. -/
theorem Selection.listEvents_subset_field (schema : Schema) (place : Surroundings)
    (node : Located FieldHead) (below : List Selection) :
    Selection.listEvents schema ((place.inField schema node).within schema) below ⊆
      (Selection.field node below).events schema place := by
  intro event hevent
  cases below with
  | nil => cases hevent
  | cons first rest =>
      exact Event.mem_around_of_mem (List.mem_append_right _ (Event.mem_around_of_mem hevent))

/-- The visits of the selections in an inline fragment are among those of the fragment. -/
theorem Selection.listEvents_subset_inline (schema : Schema) (place : Surroundings)
    (node : Located InlineHead) (body : List Selection) :
    Selection.listEvents schema ((place.inInline node).within schema) body ⊆
      (Selection.inline node body).events schema place :=
  fun _ hevent =>
    Event.mem_around_of_mem (List.mem_append_right _ (Event.mem_around_of_mem hevent))

/-- Every selection set that stands somewhere in another one is walked through with it. -/
theorem Nested.exists_listEvents_subset (schema : Schema) (outside : Surroundings)
    {root selections : List Selection} (h : Nested root selections) :
    ∃ place, Selection.listEvents schema place selections ⊆
      selectionSetEvents schema outside root := by
  induction h with
  | root => exact ⟨_, fun _ hevent => Event.mem_around_of_mem hevent⟩
  | @field selections node below _ hmem ih =>
      obtain ⟨place, hplace⟩ := ih
      have hfield := Selection.listEvents_subset_field schema place node below
      have hset := Selection.events_subset_listEvents schema place hmem
      exact ⟨_, fun event hevent => hplace (hset (hfield hevent))⟩
  | @inline selections node body _ hmem ih =>
      obtain ⟨place, hplace⟩ := ih
      have hinline := Selection.listEvents_subset_inline schema place node body
      have hset := Selection.events_subset_listEvents schema place hmem
      exact ⟨_, fun event hevent => hplace (hset (hinline hevent))⟩

/-- The selection sets that are visited satisfy a property. -/
def SetsSatisfy (P : List Selection → Prop) (events : List Event) : Prop :=
  ∀ event ∈ events, ∀ selections, event.node = .selectionSet selections → P selections

/-- **Visited selection sets.**  Every selection set that a walk visits stands in an operation or a
fragment of the document. -/
theorem Document.events_satisfy (schema : Schema) (document : Document) :
    SetsSatisfy document.HasSet (document.events schema) := by
  let isSet (node : Node) : Prop :=
    ∀ selections, node = .selectionSet selections → document.HasSet selections
  have hparts : HoldsOfParts document.HasSet isSet := by
    refine ⟨⟨nofun, nofun, nofun, nofun⟩, ?_, ?_, nofun, ?_⟩
    · rintro selections hset _ ⟨⟩
      exact hset
    · rintro selections node below ⟨root, hroot, hnested⟩ hmem
      exact ⟨nofun, root, hroot, hnested.field hmem⟩
    · rintro selections node body ⟨root, hroot, hnested⟩ hmem
      exact ⟨nofun, root, hroot, hnested.inline hmem⟩
  have huses := hparts.toHoldsOfUses
  change NodesSatisfy isSet (document.events schema)
  refine .around nofun (.flatMap fun definition hmem => ?_)
  cases definition with
  | operation node =>
      exact .around nofun (.append (.append (variableEvents_satisfy schema huses nofun _ _)
        (directiveEvents_satisfy schema huses _ _))
        (selectionSetEvents_satisfy schema hparts ⟨_, root_of_operation hmem, .root⟩ _))
  | fragment node =>
      exact .around nofun (.append (directiveEvents_satisfy schema huses _ _)
        (selectionSetEvents_satisfy schema hparts ⟨_, root_of_fragment hmem, .root⟩ _))
  | schema node => exact .around nofun (directiveEvents_satisfy schema huses _ _)
  | type node =>
      exact .around nofun (.append (directiveEvents_satisfy schema huses _ _)
        (TypeBody.events_satisfy schema huses nofun nofun nofun nofun _ _))
  | directive node =>
      have hargument (node) : isSet (.argumentDefinition node) := nofun
      exact .around nofun (inputDefinitionEvents_satisfy schema huses _ hargument _)

/-! ## Places of visits -/

/-- The places of visits satisfy a property. -/
def PlacesSatisfy (P : Surroundings → Prop) (events : List Event) : Prop :=
  ∀ event ∈ events, P event.place

namespace PlacesSatisfy

variable {P : Surroundings → Prop} {events more : List Event}

theorem nil : PlacesSatisfy P [] :=
  List.forall_mem_nil _

theorem append (h : PlacesSatisfy P events) (h' : PlacesSatisfy P more) :
    PlacesSatisfy P (events ++ more) :=
  List.forall_mem_append.mpr ⟨h, h'⟩

theorem flatMap {α : Type} {list : List α} {visits : α → List Event}
    (h : ∀ a ∈ list, PlacesSatisfy P (visits a)) : PlacesSatisfy P (list.flatMap visits) := by
  intro event hmem
  obtain ⟨a, ha, hmem⟩ := List.mem_flatMap.mp hmem
  exact h a ha event hmem

theorem around {place : Surroundings} {node : Node} (hplace : P place)
    (h : PlacesSatisfy P events) : PlacesSatisfy P (Event.around place node events) :=
  append (List.forall_mem_cons.mpr ⟨hplace, h⟩) (List.forall_mem_singleton.mpr hplace)

end PlacesSatisfy

/-- A property of places that is passed on to everything inside: to other values, to other fields
and fragments, and into selection sets. -/
structure PassedOn (schema : Schema) (P : Surroundings → Prop) : Prop where
  input : ∀ place type, P place → P { place with input := type }
  output : ∀ place type, P place → P { place with output := type }
  within : ∀ place, P place → P (place.within schema)

section

variable {schema : Schema} {P : Surroundings → Prop}

mutual

theorem Value.events_places (hP : PassedOn schema P) {place : Surroundings} (hplace : P place)
    (span : Span) : (v : Value) → PlacesSatisfy P (v.events schema place span)
  | .list items => .around hplace (Value.itemEvents_places hP (hP.input _ _ hplace) items)
  | .object entries => .around hplace (Value.entryEvents_places hP hplace entries)
  | .null => .around hplace .nil
  | .int _ => .around hplace .nil
  | .float _ => .around hplace .nil
  | .string _ => .around hplace .nil
  | .boolean _ => .around hplace .nil
  | .enum _ => .around hplace .nil
  | .variable _ => .around hplace .nil

theorem Value.itemEvents_places (hP : PassedOn schema P) {place : Surroundings}
    (hplace : P place) : (items : List (Located Value)) →
      PlacesSatisfy P (Value.itemEvents schema place items)
  | [] => .nil
  | ⟨span, v⟩ :: rest =>
      .append (Value.events_places hP hplace span v) (Value.itemEvents_places hP hplace rest)

theorem Value.entryEvents_places (hP : PassedOn schema P) {place : Surroundings}
    (hplace : P place) : (entries : List (Name × Located Value)) →
      PlacesSatisfy P (Value.entryEvents schema place entries)
  | [] => .nil
  | (_, ⟨span, v⟩) :: rest =>
      .append (.around (hP.input _ _ hplace) (Value.events_places hP (hP.input _ _ hplace) span v))
        (Value.entryEvents_places hP hplace rest)

end

theorem argumentEvents_places (hP : PassedOn schema P) {place : Surroundings} (hplace : P place)
    (parameters : Option (List InputValue)) (arguments : Option (Located (List Argument))) :
    PlacesSatisfy P (argumentEvents schema place parameters arguments) :=
  .flatMap fun argument _ => .around (hP.input _ _ hplace)
    (Value.events_places hP (hP.input _ _ hplace) argument.value.span argument.value.item)

theorem directiveEvents_places (hP : PassedOn schema P) {place : Surroundings} (hplace : P place)
    (directives : List (Located DirectiveUse)) :
    PlacesSatisfy P (directiveEvents schema place directives) :=
  .flatMap fun _ _ => .around hplace (argumentEvents_places hP hplace _ _)

theorem variableEvents_places (hP : PassedOn schema P) {place : Surroundings} (hplace : P place)
    (definitions : List VariableDefinition) :
    PlacesSatisfy P (variableEvents schema place definitions) := by
  refine .flatMap fun definition _ => ?_
  have hinside := hP.input place (some definition.type.item) hplace
  refine .around hinside (.append ?_ (directiveEvents_places hP hinside _))
  cases definition.default with
  | none => exact .nil
  | some value => exact Value.events_places hP hinside value.span value.item

theorem inputDefinitionEvents_places (hP : PassedOn schema P) {place : Surroundings}
    (hplace : P place) (node : Located InputValueDefinition → Node)
    (definitions : List (Located InputValueDefinition)) :
    PlacesSatisfy P (inputDefinitionEvents schema place node definitions) :=
  .flatMap fun _ _ => .around hplace (directiveEvents_places hP hplace _)

theorem TypeBody.events_places (hP : PassedOn schema P) {place : Surroundings} (hplace : P place)
    (body : TypeBody) : PlacesSatisfy P (body.events schema place) := by
  have hfields (fields : List (Located FieldDefinition)) :
      PlacesSatisfy P (TypeBody.events.fieldEvents schema place fields) :=
    .flatMap fun _ _ => .around hplace (.append (inputDefinitionEvents_places hP hplace _ _)
      (directiveEvents_places hP hplace _))
  cases body with
  | scalar => exact .nil
  | object _ fields => exact hfields fields
  | interface _ fields => exact hfields fields
  | union _ => exact .nil
  | enum values =>
      exact .flatMap fun _ _ => .around hplace (directiveEvents_places hP hplace _)
  | inputObject fields => exact inputDefinitionEvents_places hP hplace _ _

mutual

theorem Selection.events_places (hP : PassedOn schema P) {place : Surroundings} (hplace : P place) :
    (selection : Selection) → PlacesSatisfy P (selection.events schema place)
  | .field node below => by
      have hinside : P (place.inField schema node) := hP.output place _ hplace
      refine .around hinside (.append (.append (argumentEvents_places hP hinside _ _)
        (directiveEvents_places hP hinside _)) ?_)
      split
      · exact .nil
      · have hset := hP.within _ hinside
        exact .around hset (Selection.listEvents_places hP hset below)
  | .spread node => .around hplace (directiveEvents_places hP hplace _)
  | .inline node body => by
      have hinside : P (place.inInline node) := by
        unfold Surroundings.inInline
        split
        · exact hP.output place _ hplace
        · exact hplace
      have hset := hP.within _ hinside
      exact .around hinside (.append (directiveEvents_places hP hinside _)
        (.around hset (Selection.listEvents_places hP hset body)))

theorem Selection.listEvents_places (hP : PassedOn schema P) {place : Surroundings}
    (hplace : P place) : (selections : List Selection) →
      PlacesSatisfy P (Selection.listEvents schema place selections)
  | [] => .nil
  | selection :: rest =>
      .append (Selection.events_places hP hplace selection)
        (Selection.listEvents_places hP hplace rest)

end

theorem selectionSetEvents_places (hP : PassedOn schema P) {place : Surroundings}
    (hplace : P place) (selections : List Selection) :
    PlacesSatisfy P (selectionSetEvents schema place selections) :=
  .around (hP.within _ hplace) (Selection.listEvents_places hP (hP.within _ hplace) selections)

/-- **Places of a walk.**  What holds where the walk starts and is passed on holds everywhere. -/
theorem Document.events_places (hP : PassedOn schema P) (hstart : P {}) (document : Document) :
    PlacesSatisfy P (document.events schema) := by
  refine .around hstart (.flatMap fun definition _ => ?_)
  cases definition with
  | operation node =>
      let root := (schema.root? node.item.kind).map fun t => TypeExpr.named t.name true
      have hplace : P { output := root } := hP.output {} root hstart
      exact .around hplace (.append (.append (variableEvents_places hP hplace _)
        (directiveEvents_places hP hplace _)) (selectionSetEvents_places hP hplace _))
  | fragment node =>
      have hplace : P (({} : Surroundings).on node.item.condition.item) := hP.output {} _ hstart
      exact .around hplace (.append (directiveEvents_places hP hplace _)
        (selectionSetEvents_places hP hplace _))
  | schema node => exact .around hstart (directiveEvents_places hP hstart _)
  | type node =>
      exact .around hstart (.append (directiveEvents_places hP hstart _)
        (TypeBody.events_places hP hstart _))
  | directive node => exact .around hstart (inputDefinitionEvents_places hP hstart _ _)

end

end GraphQL
