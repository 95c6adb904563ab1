import GraphQL.Proofs.Visits

/-!
# What a document defines

The parts of the definitions of a document: its types, their fields, the arguments of fields and
directives, the fields of input objects and the values of enums. A walk through a document that
defines a schema enters the document, these parts and the directives on them, and besides only
literals. So a rule that skips literals is silent on such a walk exactly if it has nothing to say
about the document, about any part of it and about any directive on a part.
-/

namespace GraphQL

/-- The fields of an input object. -/
def TypeBody.inputFields : TypeBody → List (Located InputValueDefinition)
  | .inputObject fields => fields
  | _ => []

/-- The values of an enum. -/
def TypeBody.enumValues : TypeBody → List (Located EnumValueDefinition)
  | .enum values => values
  | _ => []

namespace Document

/-- The fields of objects and interfaces that a document defines. -/
def fieldDefinitions (document : Document) : List (Located FieldDefinition) :=
  document.types.flatMap (·.item.body.fields)

/-- The arguments of fields and directives that a document defines. -/
def argumentDefinitions (document : Document) : List (Located InputValueDefinition) :=
  document.fieldDefinitions.flatMap (·.item.arguments) ++
    document.directives.flatMap (·.item.arguments)

/-- The fields of input objects that a document defines. -/
def inputFieldDefinitions (document : Document) : List (Located InputValueDefinition) :=
  document.types.flatMap (·.item.body.inputFields)

/-- The values of enums that a document defines. -/
def enumValueDefinitions (document : Document) : List (Located EnumValueDefinition) :=
  document.types.flatMap (·.item.body.enumValues)

/-- A document only defines a schema: it has neither operations nor fragments. -/
def IsTypeSystem (document : Document) : Prop :=
  ∀ definition ∈ document, definition.isExecutable = false

instance (document : Document) : Decidable document.IsTypeSystem :=
  inferInstanceAs (Decidable (∀ definition ∈ document, _))

/-- The nodes of a document that define something. -/
inductive Part (document : Document) : Node → Prop
  | schema {node} : node ∈ document.schemas → Part document (.schema node)
  | type {node} : node ∈ document.types → Part document (.type node)
  | field {node} : node ∈ document.fieldDefinitions → Part document (.fieldDefinition node)
  | argument {node} :
      node ∈ document.argumentDefinitions → Part document (.argumentDefinition node)
  | inputField {node} :
      node ∈ document.inputFieldDefinitions → Part document (.inputFieldDefinition node)
  | enumValue {node} :
      node ∈ document.enumValueDefinitions → Part document (.enumValueDefinition node)
  | directive {node} : node ∈ document.directives → Part document (.directiveDefinition node)

/-- What a document has of one sort are the definitions of that sort. -/
theorem mem_filterMap_iff {α : Type} {document : Document} {pick : Definition → Option α}
    {make : α → Definition}
    (h : ∀ definition node, pick definition = some node ↔ definition = make node) {node : α} :
    node ∈ document.filterMap pick ↔ make node ∈ document := by
  simp [List.mem_filterMap, h]

theorem mem_operations {document : Document} {node : Located Operation} :
    node ∈ document.operations ↔ Definition.operation node ∈ document :=
  mem_filterMap_iff (by rintro (_ | _ | _ | _ | _) node <;> simp)

theorem mem_fragments {document : Document} {node : Located Fragment} :
    node ∈ document.fragments ↔ Definition.fragment node ∈ document :=
  mem_filterMap_iff (by rintro (_ | _ | _ | _ | _) node <;> simp)

theorem mem_schemas {document : Document} {node : Located SchemaDefinition} :
    node ∈ document.schemas ↔ Definition.schema node ∈ document :=
  mem_filterMap_iff (by rintro (_ | _ | _ | _ | _) node <;> simp)

theorem mem_types {document : Document} {node : Located TypeDefinition} :
    node ∈ document.types ↔ Definition.type node ∈ document :=
  mem_filterMap_iff (by rintro (_ | _ | _ | _ | _) node <;> simp)

theorem mem_directives {document : Document} {node : Located DirectiveDefinition} :
    node ∈ document.directives ↔ Definition.directive node ∈ document :=
  mem_filterMap_iff (by rintro (_ | _ | _ | _ | _) node <;> simp)

end Document

/-- The directives on a node. -/
def Node.directives (node : Node) : List (Located DirectiveUse) :=
  (node.directiveSite?.map Prod.snd).getD []

section

variable {check : Surroundings → Node → List Fault}

/-- A check has nothing to say about a node and the directives on it. -/
def SilentAt (check : Surroundings → Node → List Fault) (node : Node) : Prop :=
  check {} node = [] ∧ ∀ use ∈ node.directives, check {} (.directive use) = []

variable (hskips : Rule.SkipsLiterals check) (schema : Schema)

include hskips

theorem run_inputDefinitionEvents_eq_nil_iff {node : Located InputValueDefinition → Node}
    (hnode : ∀ definition, (node definition).directives = definition.item.directives)
    (definitions : List (Located InputValueDefinition)) :
    (Rule.onEnter check).run (inputDefinitionEvents schema {} node definitions) = [] ↔
      ∀ definition ∈ definitions, SilentAt check (node definition) := by
  simp [Rule.run_inputDefinitionEvents schema hskips, SilentAt, hnode]

/-- A rule is silent along the parts of a type definition exactly if it is silent at each of
them. -/
theorem run_typeBody_eq_nil_iff (body : TypeBody) :
    (Rule.onEnter check).run (body.events schema {}) = [] ↔
      (∀ field ∈ body.fields, SilentAt check (.fieldDefinition field) ∧
        ∀ argument ∈ field.item.arguments, SilentAt check (.argumentDefinition argument)) ∧
      (∀ field ∈ body.inputFields, SilentAt check (.inputFieldDefinition field)) ∧
      ∀ value ∈ body.enumValues, SilentAt check (.enumValueDefinition value) := by
  have hfields (fields : List (Located FieldDefinition)) :
      (Rule.onEnter check).run (TypeBody.events.fieldEvents schema {} fields) = [] ↔
        ∀ field ∈ fields, SilentAt check (.fieldDefinition field) ∧
          ∀ argument ∈ field.item.arguments, SilentAt check (.argumentDefinition argument) := by
    rw [TypeBody.events.fieldEvents, Rule.run_onEnter_flatMap, List.flatMap_eq_nil_iff]
    refine forall₂_congr fun field _ => ?_
    rw [Rule.run_onEnter_around, Rule.run_onEnter_append, List.append_eq_nil_iff,
      List.append_eq_nil_iff,
      run_inputDefinitionEvents_eq_nil_iff hskips schema (fun _ => rfl),
      Rule.run_directiveEvents schema hskips, List.flatMap_eq_nil_iff]
    exact ⟨fun h => ⟨⟨h.1, h.2.2⟩, h.2.1⟩, fun h => ⟨h.1.1, h.2, h.1.2⟩⟩
  cases body with
  | scalar => simp [TypeBody.events, TypeBody.fields, TypeBody.inputFields, TypeBody.enumValues]
  | object interfaces fields =>
      simpa [TypeBody.events, TypeBody.fields, TypeBody.inputFields, TypeBody.enumValues]
        using hfields fields
  | interface interfaces fields =>
      simpa [TypeBody.events, TypeBody.fields, TypeBody.inputFields, TypeBody.enumValues]
        using hfields fields
  | union members =>
      simp [TypeBody.events, TypeBody.fields, TypeBody.inputFields, TypeBody.enumValues]
  | enum values =>
      simp [TypeBody.events, TypeBody.fields, TypeBody.inputFields, TypeBody.enumValues,
        Rule.run_directiveEvents schema hskips, SilentAt, Node.directives, Node.directiveSite?]
  | inputObject fields =>
      simpa [TypeBody.events, TypeBody.fields, TypeBody.inputFields, TypeBody.enumValues]
        using run_inputDefinitionEvents_eq_nil_iff hskips schema (fun _ => rfl) fields

theorem run_schema_eq_nil_iff (node : Located SchemaDefinition) :
    (Rule.onEnter check).run ((Definition.schema node).events schema) = [] ↔
      SilentAt check (.schema node) := by
  rw [Definition.events, Rule.run_onEnter_around, Rule.run_directiveEvents schema hskips,
    List.append_eq_nil_iff, List.flatMap_eq_nil_iff]
  exact Iff.rfl

theorem run_type_eq_nil_iff (node : Located TypeDefinition) :
    (Rule.onEnter check).run ((Definition.type node).events schema) = [] ↔
      SilentAt check (.type node) ∧
        (Rule.onEnter check).run (node.item.body.events schema {}) = [] := by
  rw [Definition.events, Rule.run_onEnter_around, Rule.run_onEnter_append,
    Rule.run_directiveEvents schema hskips, List.append_eq_nil_iff, List.append_eq_nil_iff,
    List.flatMap_eq_nil_iff, ← and_assoc]
  exact Iff.rfl

theorem run_directive_eq_nil_iff (node : Located DirectiveDefinition) :
    (Rule.onEnter check).run ((Definition.directive node).events schema) = [] ↔
      SilentAt check (.directiveDefinition node) ∧
        ∀ argument ∈ node.item.arguments, SilentAt check (.argumentDefinition argument) := by
  rw [Definition.events, Rule.run_onEnter_around, List.append_eq_nil_iff,
    run_inputDefinitionEvents_eq_nil_iff hskips schema (fun _ => rfl)]
  simp [SilentAt, Node.directives, Node.directiveSite?]

/-- **Walks through type systems.**  A rule that skips literals is silent on the walk through a
document that defines a schema exactly if it has nothing to say about the document, its parts and
the directives on them. -/
theorem run_typeSystem_eq_nil_iff {document : Document} (hsystem : document.IsTypeSystem) :
    (Rule.onEnter check).run (document.events schema) = [] ↔
      check {} (.document document) = [] ∧
        ∀ node, document.Part node → SilentAt check node := by
  rw [Document.events, Rule.run_onEnter_around, Rule.run_onEnter_flatMap, List.append_eq_nil_iff,
    List.flatMap_eq_nil_iff]
  refine and_congr_right fun _ => ?_
  constructor
  · intro h
    have hschemas : ∀ node ∈ document.schemas, SilentAt check (.schema node) := fun node hmem =>
      (run_schema_eq_nil_iff hskips schema node).mp (h _ (Document.mem_schemas.mp hmem))
    have htypes (node) (hmem : node ∈ document.types) :=
      (run_type_eq_nil_iff hskips schema node).mp (h _ (Document.mem_types.mp hmem))
    have hbodies (node) (hmem : node ∈ document.types) :=
      (run_typeBody_eq_nil_iff hskips schema node.item.body).mp (htypes node hmem).2
    have hdirectives (node) (hmem : node ∈ document.directives) :=
      (run_directive_eq_nil_iff hskips schema node).mp (h _ (Document.mem_directives.mp hmem))
    intro node hpart
    cases hpart with
    | schema hmem => exact hschemas _ hmem
    | type hmem => exact (htypes _ hmem).1
    | field hmem =>
        obtain ⟨t, ht, hfield⟩ := List.mem_flatMap.mp hmem
        exact ((hbodies t ht).1 _ hfield).1
    | argument hmem =>
        rcases List.mem_append.mp hmem with hmem | hmem
        · obtain ⟨field, hfield, hargument⟩ := List.mem_flatMap.mp hmem
          obtain ⟨t, ht, hfield⟩ := List.mem_flatMap.mp hfield
          exact ((hbodies t ht).1 _ hfield).2 _ hargument
        · obtain ⟨directive, hdirective, hargument⟩ := List.mem_flatMap.mp hmem
          exact (hdirectives _ hdirective).2 _ hargument
    | inputField hmem =>
        obtain ⟨t, ht, hfield⟩ := List.mem_flatMap.mp hmem
        exact (hbodies t ht).2.1 _ hfield
    | enumValue hmem =>
        obtain ⟨t, ht, hvalue⟩ := List.mem_flatMap.mp hmem
        exact (hbodies t ht).2.2 _ hvalue
    | directive hmem => exact (hdirectives _ hmem).1
  · intro h definition hmem
    have hexecutable := hsystem definition hmem
    cases definition with
    | operation node => cases hexecutable
    | fragment node => cases hexecutable
    | schema node =>
        exact (run_schema_eq_nil_iff hskips schema node).mpr
          (h _ (.schema (Document.mem_schemas.mpr hmem)))
    | type node =>
        have ht := Document.mem_types.mpr hmem
        refine (run_type_eq_nil_iff hskips schema node).mpr ⟨h _ (.type ht), ?_⟩
        refine (run_typeBody_eq_nil_iff hskips schema node.item.body).mpr ⟨?_, ?_, ?_⟩
        · intro field hfield
          have hdefined : field ∈ document.fieldDefinitions :=
            List.mem_flatMap.mpr ⟨node, ht, hfield⟩
          refine ⟨h _ (.field hdefined), fun argument hargument => h _ (.argument ?_)⟩
          exact List.mem_append_left _ (List.mem_flatMap.mpr ⟨field, hdefined, hargument⟩)
        · exact fun field hfield => h _ (.inputField (List.mem_flatMap.mpr ⟨node, ht, hfield⟩))
        · exact fun value hvalue => h _ (.enumValue (List.mem_flatMap.mpr ⟨node, ht, hvalue⟩))
    | directive node =>
        have hd := Document.mem_directives.mpr hmem
        refine (run_directive_eq_nil_iff hskips schema node).mpr ⟨h _ (.directive hd), ?_⟩
        intro argument hargument
        exact h _ (.argument (List.mem_append_right _
          (List.mem_flatMap.mpr ⟨node, hd, hargument⟩)))

end

end GraphQL
