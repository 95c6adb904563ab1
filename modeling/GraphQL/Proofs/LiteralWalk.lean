import Mathlib.Data.List.Forall2
import GraphQL.Proofs.Interfaces
import GraphQL.Proofs.Literals
import GraphQL.Proofs.Usage
import GraphQL.Proofs.WellTyped

/-!
# Walks through literals

Twice something is expected of the parts of a literal: by the check of literals, which looks types
up and lets a single value stand for a list, and by the walk through the document, which only
follows how types are written. The rule on the positions of variables trusts the walk.

Both expect the same as long as the walk expects anything (`Tracks`). The walk loses track at one
kind of place only: it does not know what is expected of the entries of an object that is given
alone where a list is expected, nor of anything inside them. There, and only there, a variable is
used in a position that no rule compares with its type.
-/

namespace GraphQL

/-! ## Parts of parts -/

section

variable (schema : Schema)

mutual

/-- What is expected inside a part of a literal is expected inside the literal. -/
theorem Value.expectations_subset (type : Option ResolvedType) (alone : Bool) (span : Span) :
    (v : Value) → ∀ e ∈ v.expectations schema type alone span,
      ∀ inner ∈ e.part.item.expectations schema e.type e.alone e.part.span,
        inner ∈ v.expectations schema type alone span
  | .list items, e, he, inner, hinner => by
      rw [expectations] at he
      rcases List.mem_cons.mp he with rfl | he
      · exact hinner
      · rw [expectations]
        exact List.mem_cons_of_mem _ (Value.itemExpectations_subset _ alone items e he inner hinner)
  | .object entries, e, he, inner, hinner => by
      rw [expectations] at he
      rcases List.mem_cons.mp he with rfl | he
      · exact hinner
      · rw [expectations]
        exact List.mem_cons_of_mem _ (Value.entryExpectations_subset _ _ entries e he inner hinner)
  | .null, e, he, _, hinner | .int _, e, he, _, hinner | .float _, e, he, _, hinner
  | .string _, e, he, _, hinner | .boolean _, e, he, _, hinner | .enum _, e, he, _, hinner
  | .variable _, e, he, _, hinner => by
      obtain rfl : e = _ := List.mem_singleton.mp he
      exact hinner

theorem Value.itemExpectations_subset (type : Option ResolvedType) (alone : Bool) :
    (items : List (Located Value)) → ∀ e ∈ itemExpectations schema type alone items,
      ∀ inner ∈ e.part.item.expectations schema e.type e.alone e.part.span,
        inner ∈ itemExpectations schema type alone items
  | [], _, he, _, _ => by cases he
  | ⟨span, v⟩ :: rest, e, he, inner, hinner => by
      rw [itemExpectations, List.mem_append] at he ⊢
      rcases he with he | he
      · exact .inl (Value.expectations_subset type alone span v e he inner hinner)
      · exact .inr (Value.itemExpectations_subset type alone rest e he inner hinner)

theorem Value.entryExpectations_subset (object : Option NamedType) (alone : Bool) :
    (entries : List (Name × Located Value)) → ∀ e ∈ entryExpectations schema object alone entries,
      ∀ inner ∈ e.part.item.expectations schema e.type e.alone e.part.span,
        inner ∈ entryExpectations schema object alone entries
  | [], _, he, _, _ => by cases he
  | (key, ⟨span, v⟩) :: rest, e, he, inner, hinner => by
      rw [entryExpectations, List.mem_append] at he ⊢
      rcases he with he | he
      · exact .inl (Value.expectations_subset _ alone span v e he inner hinner)
      · exact .inr (Value.entryExpectations_subset object alone rest e he inner hinner)

end

end

/-- Every part of an accepted literal is accepted for the type that is expected of it. -/
theorem Schema.part_accepted {schema : Schema} {t : ResolvedType} {v : Value}
    (haccepted : schema.literalFault? t v = none) {alone : Bool} {span : Span} {e : Expectation}
    (he : e ∈ v.expectations schema (some t) alone span) {u : ResolvedType}
    (hu : e.type = some u) : schema.literalFault? u e.part.item = none := by
  rw [schema.literalFault?_eq_none_iff u e.alone e.part.span, ← hu]
  intro inner hinner
  exact (schema.literalFault?_eq_none_iff t alone span v).mp haccepted inner
    (Value.expectations_subset schema (some t) alone span v e he inner hinner)

/-! ## What the walk expects -/

/-- The values that are entered along a walk, with the types that the walk expects of them. -/
def valuesAlong (events : List Event) : List (Located Value × Option TypeLiteral) :=
  events.filterMap fun event =>
    match event.phase, event.node with
    | .enter, .value value => some (value, event.place.input)
    | _, _ => none

@[simp] theorem valuesAlong_append (events more : List Event) :
    valuesAlong (events ++ more) = valuesAlong events ++ valuesAlong more :=
  List.filterMap_append

@[simp] theorem valuesAlong_around_value (place : Surroundings) (value : Located Value)
    (inner : List Event) : valuesAlong (Event.around place (.value value) inner) =
      (value, place.input) :: valuesAlong inner := by
  simp [valuesAlong, Event.around]

@[simp] theorem valuesAlong_around_entry (place : Surroundings) (key : Name)
    (value : Located Value) (inner : List Event) :
    valuesAlong (Event.around place (.entry key value) inner) = valuesAlong inner := by
  simp [valuesAlong, Event.around]

/-- What a walk expects of a value against what is to be expected: nothing inside an object that is
given alone for a list, and otherwise the type as it is written, if it is known. -/
structure Tracks (schema : Schema) (input : Option TypeLiteral) (type : Option ResolvedType)
    (alone : Bool) : Prop where
  lost : alone = true → input = none
  known : alone = false → ∀ t, type = some t →
    input = some t.literal ∧ schema.resolve t.literal = some t

namespace Tracks

variable {schema : Schema} {input : Option TypeLiteral} {type : Option ResolvedType} {alone : Bool}

/-- A type that is written and can be looked up is expected as it is written. -/
theorem of_resolve {written : TypeLiteral} {t : ResolvedType}
    (h : schema.resolve written = some t) : Tracks schema (some written) (some t) false := by
  refine ⟨nofun, fun _ u hu => ?_⟩
  cases hu
  rw [Schema.literal_of_resolve h]
  exact ⟨rfl, h⟩

/-- From a list to its items. -/
theorem item (h : Tracks schema input type alone) :
    Tracks schema (input.bind TypeExpr.item?) (type.bind TypeExpr.item?) alone := by
  refine ⟨fun halone => by rw [h.lost halone]; rfl, fun halone t ht => ?_⟩
  obtain ⟨list, hlist, hitem⟩ := Option.bind_eq_some_iff.mp ht
  obtain ⟨hinput, hresolve⟩ := h.known halone list hlist
  cases list with
  | named core required => cases hitem
  | list item required =>
      cases hitem
      refine ⟨by rw [hinput]; rfl, ?_⟩
      obtain ⟨u, hu, heq⟩ := Option.map_eq_some_iff.mp hresolve
      cases heq
      exact hu

/-- From an object to one of its entries: if the object stands for a list, then the walk loses
track. -/
theorem entry (h : Tracks schema input type alone) (key : String) :
    Tracks schema (schema.entryType? input key)
      ((type.map TypeExpr.innermost).bind (schema.inputType? · key))
      (alone || (type.bind TypeExpr.item?).isSome) := by
  cases alone with
  | true =>
      rw [h.lost rfl]
      exact ⟨fun _ => rfl, nofun⟩
  | false =>
      cases type with
      | none => exact ⟨nofun, nofun⟩
      | some t =>
          obtain ⟨rfl, hresolve⟩ := h.known rfl t rfl
          cases t with
          | list item required => exact ⟨fun _ => rfl, nofun⟩
          | named core required =>
              refine ⟨nofun, fun _ u hu => ?_⟩
              obtain ⟨found, hfound, heq⟩ := Option.map_eq_some_iff.mp hresolve
              cases heq
              change schema.inputType? core key = some u at hu
              obtain ⟨field, hfield, hu⟩ := Option.bind_eq_some_iff.mp hu
              have hentry : schema.entryType? (some (ResolvedType.literal (.named core required)))
                  key = some field.type := by
                show ((schema.type? core.name).bind fun t =>
                  (t.inputField? key).bind fun field => some field.type) = some field.type
                rw [hfound, Option.bind_some, hfield, Option.bind_some]
              rw [hentry, Schema.literal_of_resolve hu]
              exact ⟨rfl, hu⟩

end Tracks

/-- The walk visits a part and expects of it what is to be expected. -/
def Follows (schema : Schema) (e : Expectation) (visit : Located Value × Option TypeLiteral) :
    Prop :=
  visit.1 = e.part ∧ Tracks schema visit.2 e.type e.alone

section

variable (schema : Schema)

mutual

/-- **Walks through literals.**  The walk visits the parts of a literal in the order in which they
are written, and keeps track of what is expected of them. -/
theorem Value.follows (span : Span) {type : Option ResolvedType} {alone : Bool}
    {place : Surroundings} (h : Tracks schema place.input type alone) : (v : Value) →
    List.Forall₂ (Follows schema) (v.expectations schema type alone span)
      (valuesAlong (v.events schema place span))
  | .list items => by
      rw [expectations, events, valuesAlong_around_value]
      exact .cons ⟨rfl, h⟩ (Value.itemsFollow h.item items)
  | .object entries => by
      rw [expectations, events, valuesAlong_around_value]
      exact .cons ⟨rfl, h⟩ (Value.entriesFollow h entries)
  | .null | .int _ | .float _ | .string _ | .boolean _ | .enum _ | .variable _ => by
      rw [expectations, events, valuesAlong_around_value]
      · exact .cons ⟨rfl, h⟩ .nil
      all_goals nofun

theorem Value.itemsFollow {type : Option ResolvedType} {alone : Bool} {place : Surroundings}
    (h : Tracks schema place.input type alone) : (items : List (Located Value)) →
    List.Forall₂ (Follows schema) (itemExpectations schema type alone items)
      (valuesAlong (itemEvents schema place items))
  | [] => .nil
  | ⟨span, v⟩ :: rest => by
      rw [itemExpectations, itemEvents, valuesAlong_append]
      exact List.rel_append (Value.follows span h v) (Value.itemsFollow h rest)

theorem Value.entriesFollow {type : Option ResolvedType} {alone : Bool} {place : Surroundings}
    (h : Tracks schema place.input type alone) : (entries : List (Name × Located Value)) →
    List.Forall₂ (Follows schema)
      (entryExpectations schema (type.map TypeExpr.innermost)
        (alone || (type.bind TypeExpr.item?).isSome) entries)
      (valuesAlong (entryEvents schema place entries))
  | [] => .nil
  | (key, ⟨span, v⟩) :: rest => by
      rw [entryExpectations, entryEvents, valuesAlong_append, valuesAlong_around_entry]
      exact List.rel_append (Value.follows span (h.entry key.item) v) (Value.entriesFollow h rest)

end

end

/-! ## Literals in documents -/

/-- The literal that is given at a node: to an argument, or to a variable by default. -/
def Node.literal? : Node → Option (Located Value)
  | .argument given => some given.value
  | .variableDefinition defined => defined.default
  | _ => none

/-- A walk goes through every literal that is given at a node it enters, with what is expected
there. -/
def LiteralsVisited (schema : Schema) (events : List Event) : Prop :=
  ∀ node place value, ⟨.enter, node, place⟩ ∈ events → node.literal? = some value →
    value.item.events schema place value.span ⊆ events

namespace LiteralsVisited

variable {schema : Schema} {events more : List Event}

theorem nil : LiteralsVisited schema [] := by
  intro node place value h
  cases h

theorem append (h : LiteralsVisited schema events) (h' : LiteralsVisited schema more) :
    LiteralsVisited schema (events ++ more) := by
  intro node place value henter hvalue
  rcases List.mem_append.mp henter with henter | henter
  · exact List.Subset.trans (h node place value henter hvalue) (List.subset_append_left _ _)
  · exact List.Subset.trans (h' node place value henter hvalue) (List.subset_append_right _ _)

theorem flatMap {α : Type} {list : List α} {f : α → List Event}
    (h : ∀ a, LiteralsVisited schema (f a)) : LiteralsVisited schema (list.flatMap f) := by
  induction list with
  | nil => exact nil
  | cons a rest ih => exact (h a).append ih

theorem around {place : Surroundings} {node : Node} (h : LiteralsVisited schema events)
    (hnode : ∀ value, node.literal? = some value →
      value.item.events schema place value.span ⊆ events) :
    LiteralsVisited schema (Event.around place node events) := by
  intro other otherPlace value henter hvalue
  have hinner : value.item.events schema otherPlace value.span ⊆ events := by
    simp only [Event.around, List.cons_append, List.mem_cons, List.mem_append, Event.mk.injEq,
      reduceCtorEq, false_and, List.not_mem_nil, or_false] at henter
    rcases henter with ⟨-, rfl, rfl⟩ | henter
    · exact hnode value hvalue
    · exact h other otherPlace value henter hvalue
  exact fun event hevent => Event.mem_around_of_mem (hinner hevent)

end LiteralsVisited

section

variable (schema : Schema)

mutual

theorem Value.literalsVisited (place : Surroundings) (span : Span) : (v : Value) →
    LiteralsVisited schema (v.events schema place span)
  | .list items => .around (Value.itemLiteralsVisited _ items) nofun
  | .object entries => .around (Value.entryLiteralsVisited place entries) nofun
  | .null | .int _ | .float _ | .string _ | .boolean _ | .enum _ | .variable _ =>
      .around .nil nofun

theorem Value.itemLiteralsVisited (place : Surroundings) : (items : List (Located Value)) →
    LiteralsVisited schema (itemEvents schema place items)
  | [] => .nil
  | ⟨span, v⟩ :: rest =>
      .append (Value.literalsVisited place span v) (Value.itemLiteralsVisited place rest)

theorem Value.entryLiteralsVisited (place : Surroundings) :
    (entries : List (Name × Located Value)) →
      LiteralsVisited schema (entryEvents schema place entries)
  | [] => .nil
  | (_, ⟨span, v⟩) :: rest =>
      .append (.around (Value.literalsVisited _ span v) nofun)
        (Value.entryLiteralsVisited place rest)

end

theorem argumentEvents_literalsVisited (place : Surroundings)
    (parameters : Option (List InputValue)) (arguments : Option (Located (List Argument))) :
    LiteralsVisited schema (argumentEvents schema place parameters arguments) := by
  refine .flatMap fun argument =>
    .around (Value.literalsVisited schema _ _ argument.value.item) ?_
  rintro value ⟨⟩
  exact List.Subset.refl _

theorem directiveEvents_literalsVisited (place : Surroundings)
    (directives : List (Located DirectiveUse)) :
    LiteralsVisited schema (directiveEvents schema place directives) :=
  .flatMap fun _ => .around (argumentEvents_literalsVisited schema _ _ _) nofun

theorem variableEvents_literalsVisited (place : Surroundings)
    (definitions : List VariableDefinition) :
    LiteralsVisited schema (variableEvents schema place definitions) := by
  refine .flatMap fun definition => ?_
  have hdirectives := directiveEvents_literalsVisited schema
    { place with input := some definition.type.item } definition.directives
  cases hdefault : definition.default with
  | none => exact .around (.append .nil hdirectives) (by simp [Node.literal?, hdefault])
  | some value =>
      refine .around (.append (Value.literalsVisited schema _ _ value.item) hdirectives) ?_
      intro other hother
      obtain rfl : value = other := Option.some.inj (hdefault.symm.trans hother)
      exact List.subset_append_left _ _

theorem inputDefinitionEvents_literalsVisited (place : Surroundings)
    {node : Located InputValueDefinition → Node}
    (hnode : ∀ definition, (node definition).literal? = none)
    (definitions : List (Located InputValueDefinition)) :
    LiteralsVisited schema (inputDefinitionEvents schema place node definitions) :=
  .flatMap fun _ => .around (directiveEvents_literalsVisited schema _ _) (by simp [hnode])

mutual

theorem Selection.literalsVisited (place : Surroundings) : (selection : Selection) →
    LiteralsVisited schema (selection.events schema place)
  | .field node selections => by
      refine .around (.append (.append (argumentEvents_literalsVisited schema _ _ _)
        (directiveEvents_literalsVisited schema _ _)) ?_) nofun
      split
      · exact .nil
      · exact .around (Selection.listLiteralsVisited _ selections) nofun
  | .spread node => .around (directiveEvents_literalsVisited schema _ _) nofun
  | .inline node selections =>
      .around (.append (directiveEvents_literalsVisited schema _ _)
        (.around (Selection.listLiteralsVisited _ selections) nofun)) nofun

theorem Selection.listLiteralsVisited (place : Surroundings) : (selections : List Selection) →
    LiteralsVisited schema (Selection.listEvents schema place selections)
  | [] => .nil
  | selection :: rest =>
      .append (Selection.literalsVisited place selection)
        (Selection.listLiteralsVisited place rest)

end

/-- The walk through a definition goes through all literals that are given in it. -/
theorem Definition.literalsVisited (definition : Definition) :
    LiteralsVisited schema (definition.events schema) := by
  have hset (place : Surroundings) (selections : List Selection) :
      LiteralsVisited schema (selectionSetEvents schema place selections) :=
    .around (Selection.listLiteralsVisited schema _ selections) nofun
  have hdirectives := directiveEvents_literalsVisited schema
  have hinputs {node : Located InputValueDefinition → Node}
      (hnode : ∀ definition, (node definition).literal? = none)
      (definitions : List (Located InputValueDefinition)) :=
    inputDefinitionEvents_literalsVisited schema {} hnode definitions
  have hfields (fields : List (Located FieldDefinition)) :
      LiteralsVisited schema (TypeBody.events.fieldEvents schema {} fields) :=
    .flatMap fun _ => .around (.append (hinputs (fun _ => rfl) _) (hdirectives _ _)) nofun
  cases definition with
  | operation node =>
      exact .around (.append (.append (variableEvents_literalsVisited schema _ _)
        (hdirectives _ _)) (hset _ _)) nofun
  | fragment node => exact .around (.append (hdirectives _ _) (hset _ _)) nofun
  | schema node => exact .around (hdirectives _ _) nofun
  | directive node => exact .around (hinputs (fun _ => rfl) _) nofun
  | type node =>
      refine .around (.append (hdirectives _ _) ?_) nofun
      cases node.item.body with
      | scalar => exact .nil
      | union members => exact .nil
      | object interfaces fields => exact hfields fields
      | interface interfaces fields => exact hfields fields
      | enum values => exact .flatMap fun _ => .around (hdirectives _ _) nofun
      | inputObject fields => exact hinputs (fun _ => rfl) fields

end

/-- A variable among the values along a walk is one of the variables along it. -/
theorem mem_variablesAlong {events : List Event} {part : Located Value}
    {expected : Option TypeLiteral} (h : (part, expected) ∈ valuesAlong events) {name : String}
    (hname : part.item = .variable name) :
    (⟨part.span, name⟩, expected) ∈ variablesAlong events := by
  obtain ⟨event, hmem, hevent⟩ := List.mem_filterMap.mp h
  refine List.mem_filterMap.mpr ⟨event, hmem, ?_⟩
  obtain ⟨phase, node, place⟩ := event
  obtain ⟨span, v⟩ := part
  obtain rfl : v = .variable name := hname
  cases phase with
  | leave => cases hevent
  | enter =>
      cases node with
      | value value =>
          cases hevent
          rfl
      | _ => cases hevent

/-- Every part is visited, if the walk follows what is expected of the parts. -/
theorem Follows.exists_visit {schema : Schema} {expectations : List Expectation}
    {visits : List (Located Value × Option TypeLiteral)}
    (h : List.Forall₂ (Follows schema) expectations visits) {e : Expectation}
    (he : e ∈ expectations) : ∃ visit ∈ visits, Follows schema e visit := by
  induction h with
  | nil => cases he
  | cons hfirst _ ih =>
      rcases List.mem_cons.mp he with rfl | he
      · exact ⟨_, List.mem_cons_self, hfirst⟩
      · obtain ⟨visit, hvisit, hfollows⟩ := ih he
        exact ⟨visit, List.mem_cons_of_mem _ hvisit, hfollows⟩

/-- A definition that spreads nothing uses nothing but itself. -/
theorem Document.Uses.eq_of_spreadsAlong {schema : Schema} {document : Document}
    {definition used : Definition} (hspreads : spreadsAlong (definition.events schema) = [])
    (h : document.Uses schema definition used) : used = definition := by
  induction h with
  | self => rfl
  | spread _ hspread _ _ ih =>
      rw [ih, hspreads] at hspread
      cases hspread

/-- The walk visits a part of a literal as it is checked: if the part is checked against a type,
then it is accepted for it, and the walk expects the type of it, as it is written, or nothing, if
the part stands inside an object that is given alone for a list. -/
def VisitedAsChecked (schema : Schema) (e : Expectation)
    (visit : Located Value × Option TypeLiteral) : Prop :=
  visit.1 = e.part ∧ ∀ u, e.type = some u →
    schema.literalFault? u e.part.item = none ∧ visit.2 = if e.alone then none else some u.literal

/-- **Literals are walked through as they are checked.**  If an accepted literal is given to an
argument or variable, then the walk visits its parts in order and as they are checked. So if the
rule on the positions of variables finds nothing wrong with a document of operations and fragments,
then the variables in the literal are used where their types may stand, unless they stand inside an
object that is given alone for a list. -/
theorem Document.literals_walked_as_checked {schema : Schema} (document : Document)
    {definition : Definition} {node : Node} {place : Surroundings} {value : Located Value}
    (henter : ⟨.enter, node, place⟩ ∈ definition.events schema)
    (hvalue : node.literal? = some value) {type : TypeLiteral} (htype : place.input = some type)
    {t : ResolvedType} (hresolve : schema.resolve type = some t)
    (haccepted : schema.literalFault? t value.item = none) :
    value.item.events schema place value.span ⊆ definition.events schema ∧
    List.Forall₂ (VisitedAsChecked schema)
      (value.item.expectations schema (some t) false value.span)
      (valuesAlong (value.item.events schema place value.span)) ∧
    ((∀ other ∈ document, other.isExecutable = true) →
      (Rules.variablePositions schema).run (document.events schema) = [] →
      ∀ operation ∈ document.operations, document.Uses schema (.operation operation) definition →
        ∀ e ∈ value.item.expectations schema (some t) false value.span, e.alone = false →
          ∀ name u defined, e.part.item = .variable name → e.type = some u →
            operation.item.definedVariables.find? (·.name.item = name) = some defined →
              schema.isSubtype defined.effectiveType u.literal) := by
  have hvisited := definition.literalsVisited schema node place value henter hvalue
  have htracks : Tracks schema place.input (some t) false := htype ▸ .of_resolve hresolve
  have hfollows := Value.follows schema value.span htracks value.item
  refine ⟨hvisited, ?_, ?_⟩
  · have hparts : ∀ e ∈ value.item.expectations schema (some t) false value.span,
        ∀ u, e.type = some u → schema.literalFault? u e.part.item = none :=
      fun e he u hu => Schema.part_accepted haccepted he hu
    refine ((List.forall₂_and_left _ _).mpr ⟨hparts, hfollows⟩).imp ?_
    rintro e visit ⟨hpart, hsame, hexpected⟩
    refine ⟨hsame, fun u hu => ⟨hpart u hu, ?_⟩⟩
    cases halone : e.alone with
    | true => exact hexpected.lost halone
    | false => exact (hexpected.known halone u hu).1
  · intro hexecutable hsilent operation hoperation huses e he halone name u defined hname hu hdefined
    obtain ⟨⟨part, expected⟩, hvisit, hsame, hexpected⟩ := Follows.exists_visit hfollows he
    obtain rfl : part = e.part := hsame
    have hmem : (⟨e.part.span, name⟩, expected) ∈ variablesAlong (definition.events schema) :=
      mem_variablesAlong (List.filterMap_subset _ hvisited hvisit) hname
    exact (variablePositions_silent_iff schema hexecutable).mp hsilent operation hoperation
      definition huses _ hmem u.literal defined (hexpected.known halone u hu).1 hdefined

/-- A filter for titles. -/
def titleFilter : NamedType where
  name := "Filter"
  shape := .inputObject [{ name := "title", type := .named "String" true }]

/-- A schema of a catalogue that can be searched with any number of filters. -/
def catalogueConfig : Schema.Config where
  query := some "Query"
  types := [
    { name := "Query", shape := .object [] [
      { name := "find", type := .named "Int" false,
        arguments := [{ name := "where", type := .list (.named "Filter" false) false }] }] },
    titleFilter] ++
    (Standard.scalars.filter fun t => ["Int", "String", "Boolean"].contains t.name) ++
    Standard.introspection
  directives := some []

/-- The configuration lists all types of its schema. -/
theorem catalogueConfig_closed : catalogueConfig.Closed where
  shared := Registry.shared_of_map_shared rfl
  nodup := by decide +kernel
  references := by decide +kernel
  others := by decide +kernel
  scalars := by decide +kernel

/-- The schema of the configuration. -/
def catalogueSchema : Schema where
  description := none
  query := some "Query"
  mutation := none
  subscription := none
  types := catalogueConfig.types
  directives := []
  ambiguous := []
  assumeValid := false

/-- A filter for the title in a variable. -/
def filterByVariable : Value :=
  .ofEntries [("title", .variable "title")]

/-- Searches the catalogue for a title of the given type, with the given filters. -/
def searchOperation (type : TypeLiteral) (filters : Value) : Located Operation :=
  .unlocated ⟨.query, none,
    some (.unlocated [⟨.unlocated "title", .unlocated type, none, []⟩]), [], [
    .field (.unlocated ⟨none, .unlocated "find",
      some (.unlocated [⟨.unlocated "where", .unlocated filters⟩]), []⟩) []]⟩

/-- The document of this one operation. -/
def searchDocument (type : TypeLiteral) (filters : Value) : Document :=
  [.operation (searchOperation type filters)]

/-- Filters, as they are expected. -/
def filters : ResolvedType :=
  .list (.named titleFilter false) false

/-- The filter is given in a list. -/
def listedFilters : Value :=
  .ofItems [filterByVariable]

/-- In the operation, the argument is visited where filters are expected. -/
theorem filters_visited (type : TypeLiteral) (given : Value) :
    ∃ place, (⟨.enter, .argument ⟨.unlocated "where", .unlocated given⟩, place⟩ : Event) ∈
        (Definition.operation (searchOperation type given)).events catalogueSchema ∧
      place.input = some (.list (.named "Filter" false) false) := by
  refine ⟨⟨some (.named "Int" false), catalogueSchema.type? "Query",
    some (.list (.named "Filter" false) false)⟩, ?_, rfl⟩
  refine Event.mem_around_of_mem (List.mem_append_right _ (Event.mem_around_of_mem ?_))
  refine List.mem_append_left _ (Event.mem_around_of_mem
    (List.mem_append_left _ (List.mem_append_left _ ?_)))
  exact List.mem_flatMap.mpr ⟨_, List.mem_singleton_self _, Event.enter_mem_around _ _ _⟩

/-- The rule on the positions of variables has to look at the operation only. -/
theorem search_silent {type : TypeLiteral} {given : Value}
    (hspreads : spreadsAlong ((Definition.operation (searchOperation type given)).events
      catalogueSchema) = [])
    (hfit : ∀ use ∈ variablesAlong ((Definition.operation (searchOperation type given)).events
      catalogueSchema), ∀ expected ∈ use.2, catalogueSchema.isSubtype type expected) :
    (Rules.variablePositions catalogueSchema).run
      ((searchDocument type given).events catalogueSchema) = [] := by
  refine (variablePositions_silent_iff catalogueSchema (by simp [searchDocument,
    Definition.isExecutable])).mpr ?_
  intro operation hoperation definition huses use huse expected defined hexpected hdefined
  obtain rfl : operation = searchOperation type given := List.mem_singleton.mp hoperation
  rw [huses.eq_of_spreadsAlong hspreads] at huse
  obtain rfl : defined = ⟨.unlocated "title", .unlocated type, none, []⟩ :=
    List.mem_singleton.mp (List.mem_of_find?_eq_some hdefined)
  exact hfit use huse expected hexpected

/-- A filter in a list that uses a title for the title is walked through as it is checked, and since
the rule on the positions of variables is silent, the title may stand there. -/
theorem search_by_title_walked : ∃ place,
    List.Forall₂ (VisitedAsChecked catalogueSchema)
      (listedFilters.expectations catalogueSchema (some filters) false .unlocated)
      (valuesAlong (listedFilters.events catalogueSchema place .unlocated)) ∧
    ∃ e ∈ listedFilters.expectations catalogueSchema (some filters) false .unlocated,
      e.part.item = .variable "title" ∧
        ∃ u, e.type = some u ∧ catalogueSchema.isSubtype (.named "String" true) u.literal := by
  obtain ⟨place, henter, hinput⟩ := filters_visited (.named "String" true) listedFilters
  have hsilent : (Rules.variablePositions catalogueSchema).run ((searchDocument
      (.named "String" true) listedFilters).events catalogueSchema) = [] :=
    search_silent rfl (by decide +kernel)
  have hexecutable : ∀ definition ∈ searchDocument (.named "String" true) listedFilters,
      definition.isExecutable = true := by
    simp [searchDocument, Definition.isExecutable]
  obtain ⟨-, hwalk, hpositions⟩ := Document.literals_walked_as_checked
    (searchDocument (.named "String" true) listedFilters) henter rfl hinput
    (t := filters) rfl (by decide +kernel)
  have htitle : ⟨.unlocated (.variable "title"),
      catalogueSchema.resolve (.named "String" true), false⟩ ∈
        listedFilters.expectations catalogueSchema (some filters) false .unlocated :=
    List.mem_of_getElem? (i := 2) rfl
  refine ⟨place, hwalk, _, htitle, rfl, _, rfl, ?_⟩
  exact hpositions hexecutable hsilent _ (List.mem_singleton_self _) .self _ htitle rfl "title" _
    ⟨.unlocated "title", .unlocated (.named "String" true), none, []⟩ rfl rfl rfl

/-- A filter that is given alone and uses a number for the title is accepted, and the rule on the
positions of variables does not notice. -/
theorem number_unnoticed_for_title :
    let schema := Schema.ofConfig catalogueConfig
    schema.resolve (.list (.named "Filter" false) false) = some filters ∧
      schema.literalFault? filters filterByVariable = none ∧
      (Rules.variablePositions schema).run
        ((searchDocument (.named "Int" false) filterByVariable).events schema) = [] ∧
      ∃ e ∈ filterByVariable.expectations schema (some filters) false .unlocated,
        e.part.item = .variable "title" ∧
          ∃ u, e.type = some u ∧ schema.isSubtype (.named "Int" false) u.literal = false := by
  have hschema : Schema.ofConfig catalogueConfig = catalogueSchema :=
    Schema.ofConfig_of_closed catalogueConfig_closed
  rw [hschema]
  refine ⟨rfl, by decide +kernel, search_silent rfl (by decide +kernel), ?_⟩
  refine ⟨_, List.mem_cons_of_mem _ List.mem_cons_self, rfl, _, rfl, by decide +kernel⟩

end GraphQL
