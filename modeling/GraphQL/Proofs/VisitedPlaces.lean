import GraphQL.Proofs.Spans
import GraphQL.Proofs.Walk

/-!
# Where visited nodes start

A walk through a document visits parts of it, so all places in a node that is visited are places in
the document. `Layout.StartsIn` says of a layout that all its places start at some positions, for
instance at tokens of a text; it is passed on from a node to its parts, and hence to everything that
a walk visits (`Document.events_startIn`).
-/

namespace GraphQL

namespace Layout

/-- All places start at certain positions. -/
def StartsIn (starts : Position → Prop) : Layout → Prop
  | both first second => first.StartsIn starts ∧ second.StartsIn starts
  | spanned span inner => starts span.start ∧ inner.StartsIn starts
  | _ => True

variable {starts : Position → Prop} {layout : Layout} {parts : List Layout}

theorem startsIn_iff_spans : layout.StartsIn starts ↔ ∀ s ∈ layout.spans, starts s.start := by
  induction layout with
  | both first second ihfirst ihsecond =>
      simp only [StartsIn, spans, ihfirst, ihsecond, List.forall_mem_append]
  | spanned span inner ih => simp only [StartsIn, spans, ih, List.forall_mem_cons]
  | _ => simp [StartsIn, spans]

/-- What is spelled by some tokens has its places start at them. -/
theorem SpelledBy.startsIn {tokens : List (Located Token)} (h : layout.SpelledBy tokens) :
    layout.StartsIn fun p => ∃ t ∈ tokens, t.span.start = p :=
  startsIn_iff_spans.mpr fun s hs => (h.bounds s hs).1

@[simp] theorem startsIn_seq :
    (seq parts).StartsIn starts ↔ ∀ part ∈ parts, part.StartsIn starts := by
  induction parts with
  | nil => simp [seq, StartsIn]
  | cons first rest ih =>
      rw [List.forall_mem_cons, ← ih]
      rfl

@[simp] theorem startsIn_mark {p : Punctuator} : (mark p).StartsIn starts := trivial

@[simp] theorem startsIn_word {text : String} : (word text).StartsIn starts := trivial

@[simp] theorem startsIn_spanned {span : Span} :
    (spanned span layout).StartsIn starts ↔ starts span.start ∧ layout.StartsIn starts := Iff.rfl

@[simp] theorem startsIn_located {α : Type} {f : α → Layout} {l : Located α} :
    (l.layout f).StartsIn starts ↔ starts l.span.start ∧ (f l.item).StartsIn starts := Iff.rfl

@[simp] theorem startsIn_given {α : Type} {f : α → Layout} {a : Option α} :
    (given f a).StartsIn starts ↔ ∀ b ∈ a, (f b).StartsIn starts := by
  cases a <;> simp [given, StartsIn]

theorem mem_present {part : Layout} {isPresent : Bool} (h : part ∈ present isPresent layout) :
    part = layout := by
  cases isPresent
  · cases h
  · exact List.mem_singleton.mp h

@[simp] theorem startsIn_enclosed {opening closing : Punctuator} :
    (enclosed opening parts closing).StartsIn starts ↔ ∀ part ∈ parts, part.StartsIn starts := by
  simp [enclosed, or_imp, forall_and]

@[simp] theorem startsIn_listed {opening closing : Punctuator} :
    (listed opening parts closing).StartsIn starts ↔ ∀ part ∈ parts, part.StartsIn starts := by
  cases parts with
  | nil => simp [listed]
  | cons first rest => exact startsIn_enclosed

theorem StartsIn.of_separated {separator : Punctuator}
    (h : (separated separator parts).StartsIn starts) :
    ∀ part ∈ parts, part.StartsIn starts := by
  cases parts with
  | nil => exact List.forall_mem_nil _
  | cons first rest =>
      have hall := startsIn_seq.mp h
      refine List.forall_mem_cons.mpr ⟨hall first (.tail _ (.head _)), fun part hpart => ?_⟩
      exact hall part (.tail _ (.tail _ (List.mem_flatMap.mpr ⟨part, hpart, .tail _ (.head _)⟩)))

end Layout

open Layout

section Parts

variable {starts : Position → Prop}

/-! ## Parts of parts -/

@[simp] theorem TypeLiteral.startsIn_layout (t : TypeLiteral) : t.layout.StartsIn starts := by
  have hparts : ∀ part ∈ t.parts, part.StartsIn starts := by
    induction t with
    | named name required =>
        simp only [TypeLiteral.parts, List.forall_mem_append, List.forall_mem_singleton]
        exact ⟨trivial, fun part hpart => mem_present hpart ▸ trivial⟩
    | list item required ih =>
        simp only [TypeLiteral.parts, List.forall_mem_append, List.forall_mem_cons]
        exact ⟨⟨trivial, startsIn_seq.mpr ih, trivial, List.forall_mem_nil _⟩,
          fun part hpart => mem_present hpart ▸ trivial⟩
  exact startsIn_seq.mpr hparts

theorem Value.startsIn_list {items : List (Located Value)} :
    (Value.list items).layout.StartsIn starts ↔
      ∀ item ∈ items, starts item.span.start ∧ item.item.layout.StartsIn starts := by
  rw [Value.layout, startsIn_enclosed]
  induction items with
  | nil => simp [Value.itemLayouts]
  | cons item rest ih => simp only [Value.itemLayouts, List.forall_mem_cons, ih, startsIn_spanned]

theorem Value.startsIn_object {entries : List (Name × Located Value)} :
    (Value.object entries).layout.StartsIn starts ↔
      ∀ entry ∈ entries, starts entry.1.span.start ∧ starts entry.2.span.start ∧
        entry.2.item.layout.StartsIn starts := by
  rw [Value.layout, startsIn_enclosed]
  induction entries with
  | nil => simp [Value.entryLayouts]
  | cons entry rest ih =>
      rw [Value.entryLayouts, List.forall_mem_cons, List.forall_mem_cons, ih]
      simp

theorem Argument.startsIn_layout {argument : Argument} :
    argument.layout.StartsIn starts ↔ starts argument.name.span.start ∧
      starts argument.value.span.start ∧ argument.value.item.layout.StartsIn starts := by
  simp [Argument.layout]

theorem startsIn_parenthesizedLayout {α : Type} {layout : α → Layout}
    {items : Option (Located (List α))} :
    (parenthesizedLayout layout items).StartsIn starts ↔
      ∀ given ∈ items, starts given.span.start ∧
        ∀ item ∈ given.item, (layout item).StartsIn starts := by
  simp [parenthesizedLayout]

theorem startsIn_directivesLayout {directives : List (Located DirectiveUse)} :
    (directivesLayout directives).StartsIn starts ↔
      ∀ use ∈ directives, starts use.span.start ∧ use.item.layout.StartsIn starts := by
  simp [directivesLayout]

theorem DirectiveUse.startsIn_layout {use : DirectiveUse} :
    use.layout.StartsIn starts ↔ starts use.name.span.start ∧
      (parenthesizedLayout Argument.layout use.arguments).StartsIn starts := by
  simp [DirectiveUse.layout]

theorem FieldHead.startsIn_parts {head : FieldHead} :
    (∀ part ∈ head.parts, part.StartsIn starts) ↔
      (∀ name ∈ head.responseAlias, starts name.span.start) ∧ starts head.name.span.start ∧
        (parenthesizedLayout Argument.layout head.arguments).StartsIn starts ∧
        (directivesLayout head.directives).StartsIn starts := by
  obtain ⟨responseAlias, name, arguments, directives⟩ := head
  cases responseAlias <;> simp [FieldHead.parts, aliasParts]

theorem InlineHead.startsIn_parts {head : InlineHead} :
    (∀ part ∈ head.parts, part.StartsIn starts) ↔
      (∀ name ∈ head.condition, starts name.span.start) ∧
        (directivesLayout head.directives).StartsIn starts := by
  obtain ⟨condition, directives⟩ := head
  cases condition <;> simp [InlineHead.parts, conditionParts]

theorem Selection.startsIn_listLayouts {selections : List Selection} :
    (∀ part ∈ Selection.listLayouts selections, part.StartsIn starts) ↔
      ∀ selection ∈ selections, selection.layout.StartsIn starts := by
  rw [Selection.listLayouts_eq]
  exact List.forall_mem_map

theorem Selection.startsIn_field {node : Located FieldHead} {selections : List Selection} :
    (Selection.field node selections).layout.StartsIn starts ↔ starts node.span.start ∧
      (∀ part ∈ node.item.parts, part.StartsIn starts) ∧
      ∀ selection ∈ selections, selection.layout.StartsIn starts := by
  rw [Selection.layout, startsIn_spanned, startsIn_seq, List.forall_mem_append,
    List.forall_mem_singleton, startsIn_listed, Selection.startsIn_listLayouts]

theorem Selection.startsIn_spread {node : Located FragmentSpread} :
    (Selection.spread node).layout.StartsIn starts ↔ starts node.span.start ∧
      starts node.item.name.span.start ∧
      (directivesLayout node.item.directives).StartsIn starts := by
  simp [Selection.layout, FragmentSpread.layout]

theorem Selection.startsIn_inline {node : Located InlineHead}
    {selections : List Selection} :
    (Selection.inline node selections).layout.StartsIn starts ↔ starts node.span.start ∧
      (∀ part ∈ node.item.parts, part.StartsIn starts) ∧
      ∀ selection ∈ selections, selection.layout.StartsIn starts := by
  rw [Selection.layout, startsIn_spanned, startsIn_seq, List.forall_mem_append,
    List.forall_mem_singleton, startsIn_listed, Selection.startsIn_listLayouts]

theorem startsIn_defaultParts {value : Option (Located Value)} :
    (∀ part ∈ defaultParts value, part.StartsIn starts) ↔
      ∀ given ∈ value, starts given.span.start ∧ given.item.layout.StartsIn starts := by
  cases value <;> simp [defaultParts]

theorem VariableDefinition.startsIn_layout {definition : VariableDefinition} :
    definition.layout.StartsIn starts ↔ starts definition.name.span.start ∧
      starts definition.type.span.start ∧
      (∀ part ∈ defaultParts definition.default, part.StartsIn starts) ∧
      (directivesLayout definition.directives).StartsIn starts := by
  simp only [VariableDefinition.layout, startsIn_seq, List.forall_mem_append, List.forall_mem_cons]
  simp [and_assoc]

theorem Operation.startsIn_parts {operation : Operation} :
    (∀ part ∈ operation.parts, part.StartsIn starts) ↔
      (∀ name ∈ operation.name, starts name.span.start) ∧
      (parenthesizedLayout VariableDefinition.layout operation.variableDefinitions).StartsIn
        starts ∧
      (directivesLayout operation.directives).StartsIn starts ∧
      ∀ selection ∈ operation.selections, selection.layout.StartsIn starts := by
  have hkeyword : (if operation.isBare then .optional (.name operation.kind.keyword)
      else word operation.kind.keyword).StartsIn starts := by
    split <;> trivial
  simp [Operation.parts, hkeyword, Selection.startsIn_listLayouts]

theorem Fragment.startsIn_parts {fragment : Fragment} :
    (∀ part ∈ fragment.parts, part.StartsIn starts) ↔ starts fragment.name.span.start ∧
      starts fragment.condition.span.start ∧
      (directivesLayout fragment.directives).StartsIn starts ∧
      ∀ selection ∈ fragment.selections, selection.layout.StartsIn starts := by
  simp [Fragment.parts, Selection.startsIn_listLayouts]

theorem InputValueDefinition.startsIn_layout {definition : InputValueDefinition} :
    definition.layout.StartsIn starts ↔
      (descriptionLayout definition.description).StartsIn starts ∧
      starts definition.name.span.start ∧ starts definition.type.span.start ∧
      (∀ part ∈ defaultParts definition.default, part.StartsIn starts) ∧
      (directivesLayout definition.directives).StartsIn starts := by
  simp only [InputValueDefinition.layout, startsIn_seq, List.forall_mem_append,
    List.forall_mem_cons]
  simp [and_assoc]

theorem startsIn_argumentDefinitionsLayout {definitions : List (Located InputValueDefinition)} :
    (argumentDefinitionsLayout definitions).StartsIn starts ↔
      ∀ definition ∈ definitions, starts definition.span.start ∧
        definition.item.layout.StartsIn starts := by
  simp [argumentDefinitionsLayout]

theorem FieldDefinition.startsIn_layout {definition : FieldDefinition} :
    definition.layout.StartsIn starts ↔
      (descriptionLayout definition.description).StartsIn starts ∧
      starts definition.name.span.start ∧
      (argumentDefinitionsLayout definition.arguments).StartsIn starts ∧
      starts definition.type.span.start ∧
      (directivesLayout definition.directives).StartsIn starts := by
  simp [FieldDefinition.layout]

theorem startsIn_fieldsLayout {fields : List (Located FieldDefinition)} :
    (fieldsLayout fields).StartsIn starts ↔
      ∀ field ∈ fields, starts field.span.start ∧ field.item.layout.StartsIn starts := by
  simp [fieldsLayout]

theorem EnumValueDefinition.startsIn_layout {definition : EnumValueDefinition} :
    definition.layout.StartsIn starts ↔
      (descriptionLayout definition.description).StartsIn starts ∧
      starts definition.name.span.start ∧
      (directivesLayout definition.directives).StartsIn starts := by
  simp [EnumValueDefinition.layout]

theorem startsIn_namesLayout {introduction : Layout} {separator : Punctuator} {names : List Name}
    (h : (namesLayout introduction separator names).StartsIn starts) :
    ∀ name ∈ names, starts name.span.start := by
  cases names with
  | nil => exact List.forall_mem_nil _
  | cons first rest =>
      have hnames := (startsIn_seq.mp h _ (.tail _ (.head _))).of_separated
      exact fun name hmem => (hnames _ (List.mem_map_of_mem hmem)).1

/-- What starts somewhere in the body of a type. -/
structure TypeBody.StartsIn (starts : Position → Prop) (body : TypeBody) : Prop where
  references : ∀ name ∈ body.references, starts name.span.start
  fields : ∀ field ∈ body.fields, starts field.span.start ∧ field.item.layout.StartsIn starts
  values : ∀ values, body = .enum values → ∀ value ∈ values,
    starts value.span.start ∧ value.item.layout.StartsIn starts
  inputs : ∀ inputs, body = .inputObject inputs → ∀ input ∈ inputs,
    starts input.span.start ∧ input.item.layout.StartsIn starts

theorem TypeBody.startsIn_parts {body : TypeBody} {directives : List (Located DirectiveUse)}
    (h : ∀ part ∈ body.parts directives, part.StartsIn starts) :
    body.StartsIn starts ∧ (directivesLayout directives).StartsIn starts := by
  cases body with
  | scalar =>
      exact ⟨⟨nofun, nofun, nofun, nofun⟩, h _ (.head _)⟩
  | object interfaces fields =>
      have hfields := startsIn_fieldsLayout.mp (h _ (.tail _ (.tail _ (.head _))))
      exact ⟨⟨startsIn_namesLayout (h _ (.head _)), hfields, nofun, nofun⟩, h _ (.tail _ (.head _))⟩
  | interface interfaces fields =>
      have hfields := startsIn_fieldsLayout.mp (h _ (.tail _ (.tail _ (.head _))))
      exact ⟨⟨startsIn_namesLayout (h _ (.head _)), hfields, nofun, nofun⟩, h _ (.tail _ (.head _))⟩
  | union members =>
      exact ⟨⟨startsIn_namesLayout (h _ (.tail _ (.head _))), nofun, nofun, nofun⟩, h _ (.head _)⟩
  | enum values =>
      refine ⟨⟨nofun, nofun, ?_, nofun⟩, h _ (.head _)⟩
      rintro _ ⟨⟩ value hvalue
      exact startsIn_listed.mp (h _ (.tail _ (.head _))) _ (List.mem_map_of_mem hvalue)
  | inputObject fields =>
      refine ⟨⟨nofun, nofun, nofun, ?_⟩, h _ (.head _)⟩
      rintro _ ⟨⟩ field hfield
      exact startsIn_listed.mp (h _ (.tail _ (.head _))) _ (List.mem_map_of_mem hfield)

theorem SchemaDefinition.startsIn_parts {definition : SchemaDefinition}
    (h : ∀ part ∈ definition.parts, part.StartsIn starts) :
    (directivesLayout definition.directives).StartsIn starts ∧
      ∀ root ∈ definition.roots, starts root.span.start ∧ starts root.item.type.span.start := by
  have hbehind := (List.forall_mem_append.mp h).2
  refine ⟨hbehind _ (.tail _ (.head _)), fun root hroot => ?_⟩
  have hroots := startsIn_listed.mp (hbehind _ (.tail _ (.tail _ (.head _))))
  simpa [RootDefinition.layout] using hroots _ (List.mem_map_of_mem hroot)

theorem TypeDefinition.startsIn_parts {definition : TypeDefinition}
    (h : ∀ part ∈ definition.parts, part.StartsIn starts) :
    starts definition.name.span.start ∧ definition.body.StartsIn starts ∧
      (directivesLayout definition.directives).StartsIn starts := by
  obtain ⟨hbefore, hbody⟩ := List.forall_mem_append.mp h
  have hname := (List.forall_mem_append.mp hbefore).2 _ (.tail _ (.head _))
  exact ⟨hname.1, TypeBody.startsIn_parts hbody⟩

theorem DirectiveDefinition.startsIn_parts {definition : DirectiveDefinition}
    (h : ∀ part ∈ definition.parts, part.StartsIn starts) :
    starts definition.name.span.start ∧
      (argumentDefinitionsLayout definition.arguments).StartsIn starts :=
  ⟨(h _ (.tail _ (.tail _ (.tail _ (.head _))))).1,
    h _ (.tail _ (.tail _ (.tail _ (.tail _ (.head _)))))⟩

theorem Document.startsIn_layout {document : Document} :
    document.layout.StartsIn starts ↔
      ∀ definition ∈ document, definition.layout.StartsIn starts := by
  rw [Document.layout, startsIn_seq]
  exact List.forall_mem_map

end Parts

/-! ## Nodes -/

/-- The layout of a node. -/
def Node.layout : Node → Layout
  | .document definitions => Document.layout definitions
  | .operation node => (Definition.operation node).layout
  | .fragment node => (Definition.fragment node).layout
  | .variableDefinition definition => definition.layout
  | .schema node => (Definition.schema node).layout
  | .type node => (Definition.type node).layout
  | .fieldDefinition node => node.layout FieldDefinition.layout
  | .argumentDefinition node => node.layout InputValueDefinition.layout
  | .inputFieldDefinition node => node.layout InputValueDefinition.layout
  | .enumValueDefinition node => node.layout EnumValueDefinition.layout
  | .directiveDefinition node => (Definition.directive node).layout
  | .directive node => node.layout DirectiveUse.layout
  | .argument given => given.layout
  | .selectionSet selections => seq (Selection.listLayouts selections)
  | .field node selections => (Selection.field node selections).layout
  | .spread node => (Selection.spread node).layout
  | .inline node selections => (Selection.inline node selections).layout
  | .value given => given.layout Value.layout
  | .entry key given => seq [key.layout word, mark .colon, given.layout Value.layout]

/-- All places in a node start at certain positions. -/
def Node.StartsIn (starts : Position → Prop) (node : Node) : Prop :=
  node.layout.StartsIn starts

section Walk

variable {starts : Position → Prop} (schema : Schema)

mutual

theorem Value.events_startIn (place : Surroundings) (span : Span) : (v : Value) →
    starts span.start → v.layout.StartsIn starts →
      NodesSatisfy (Node.StartsIn starts) (v.events schema place span)
  | .list items, hspan, h =>
      .around ⟨hspan, h⟩ (Value.itemEvents_startIn _ items (Value.startsIn_list.mp h))
  | .object entries, hspan, h =>
      .around ⟨hspan, h⟩ (Value.entryEvents_startIn place entries (Value.startsIn_object.mp h))
  | .null, hspan, h => .around ⟨hspan, h⟩ .nil
  | .int _, hspan, h => .around ⟨hspan, h⟩ .nil
  | .float _, hspan, h => .around ⟨hspan, h⟩ .nil
  | .string _, hspan, h => .around ⟨hspan, h⟩ .nil
  | .boolean _, hspan, h => .around ⟨hspan, h⟩ .nil
  | .enum _, hspan, h => .around ⟨hspan, h⟩ .nil
  | .variable _, hspan, h => .around ⟨hspan, h⟩ .nil

theorem Value.itemEvents_startIn (place : Surroundings) : (items : List (Located Value)) →
    (∀ item ∈ items, starts item.span.start ∧ item.item.layout.StartsIn starts) →
      NodesSatisfy (Node.StartsIn starts) (Value.itemEvents schema place items)
  | [], _ => .nil
  | ⟨span, v⟩ :: rest, h => by
      obtain ⟨⟨hspan, hv⟩, hrest⟩ := List.forall_mem_cons.mp h
      exact .append (Value.events_startIn place span v hspan hv)
        (Value.itemEvents_startIn place rest hrest)

theorem Value.entryEvents_startIn (place : Surroundings) :
    (entries : List (Name × Located Value)) →
    (∀ entry ∈ entries, starts entry.1.span.start ∧ starts entry.2.span.start ∧
      entry.2.item.layout.StartsIn starts) →
      NodesSatisfy (Node.StartsIn starts) (Value.entryEvents schema place entries)
  | [], _ => .nil
  | (key, ⟨span, v⟩) :: rest, h => by
      obtain ⟨⟨hkey, hspan, hv⟩, hrest⟩ := List.forall_mem_cons.mp h
      refine .append (.around ?_ (Value.events_startIn _ span v hspan hv))
        (Value.entryEvents_startIn place rest hrest)
      simp [Node.StartsIn, Node.layout, hkey, hspan, hv]

end

theorem argumentEvents_startIn (place : Surroundings) (parameters : Option (List InputValue))
    {arguments : Option (Located (List Argument))}
    (h : (parenthesizedLayout Argument.layout arguments).StartsIn starts) :
    NodesSatisfy (Node.StartsIn starts) (argumentEvents schema place parameters arguments) := by
  refine .flatMap fun argument hmem => ?_
  cases arguments with
  | none => cases hmem
  | some given =>
      have hargument := (startsIn_parenthesizedLayout.mp h given rfl).2 argument hmem
      obtain ⟨-, hspan, hvalue⟩ := Argument.startsIn_layout.mp hargument
      exact .around hargument (Value.events_startIn schema _ _ _ hspan hvalue)

theorem directiveEvents_startIn (place : Surroundings) {directives : List (Located DirectiveUse)}
    (h : (directivesLayout directives).StartsIn starts) :
    NodesSatisfy (Node.StartsIn starts) (directiveEvents schema place directives) := by
  refine .flatMap fun use hmem => ?_
  obtain ⟨hspan, hlayout⟩ := startsIn_directivesLayout.mp h use hmem
  exact .around ⟨hspan, hlayout⟩
    (argumentEvents_startIn schema _ _ (DirectiveUse.startsIn_layout.mp hlayout).2)

theorem variableEvents_startIn (place : Surroundings)
    {definitions : Option (Located (List VariableDefinition))}
    (h : (parenthesizedLayout VariableDefinition.layout definitions).StartsIn starts) :
    NodesSatisfy (Node.StartsIn starts)
      (variableEvents schema place ((definitions.map Located.item).getD [])) := by
  refine .flatMap fun definition hmem => ?_
  cases definitions with
  | none => cases hmem
  | some given =>
      have hdefinition := (startsIn_parenthesizedLayout.mp h given rfl).2 definition hmem
      obtain ⟨-, -, hdefault, hdirectives⟩ := VariableDefinition.startsIn_layout.mp hdefinition
      refine .around hdefinition (.append ?_ (directiveEvents_startIn schema _ hdirectives))
      cases hvalue : definition.default with
      | none => exact .nil
      | some value =>
          obtain ⟨hspan, hlayout⟩ := startsIn_defaultParts.mp hdefault value hvalue
          exact Value.events_startIn schema _ _ _ hspan hlayout

mutual

theorem Selection.events_startIn (place : Surroundings) : (selection : Selection) →
    selection.layout.StartsIn starts →
      NodesSatisfy (Node.StartsIn starts) (selection.events schema place)
  | .field node below, h => by
      obtain ⟨-, hhead, hbelow⟩ := Selection.startsIn_field.mp h
      obtain ⟨-, -, harguments, hdirectives⟩ := FieldHead.startsIn_parts.mp hhead
      refine .around h (.append (.append (argumentEvents_startIn schema _ _ harguments)
        (directiveEvents_startIn schema _ hdirectives)) ?_)
      split
      · exact .nil
      · refine .around ?_ (Selection.listEvents_startIn _ below hbelow)
        exact startsIn_seq.mpr (Selection.startsIn_listLayouts.mpr hbelow)
  | .spread node, h =>
      .around h (directiveEvents_startIn schema _ (Selection.startsIn_spread.mp h).2.2)
  | .inline node body, h => by
      obtain ⟨-, hhead, hbody⟩ := Selection.startsIn_inline.mp h
      obtain ⟨-, hdirectives⟩ := InlineHead.startsIn_parts.mp hhead
      refine .around h (.append (directiveEvents_startIn schema _ hdirectives)
        (.around ?_ (Selection.listEvents_startIn _ body hbody)))
      exact startsIn_seq.mpr (Selection.startsIn_listLayouts.mpr hbody)

theorem Selection.listEvents_startIn (place : Surroundings) : (selections : List Selection) →
    (∀ selection ∈ selections, selection.layout.StartsIn starts) →
      NodesSatisfy (Node.StartsIn starts) (Selection.listEvents schema place selections)
  | [], _ => .nil
  | selection :: rest, h => by
      obtain ⟨hfirst, hrest⟩ := List.forall_mem_cons.mp h
      exact .append (Selection.events_startIn place selection hfirst)
        (Selection.listEvents_startIn place rest hrest)

end

theorem selectionSetEvents_startIn (place : Surroundings) {selections : List Selection}
    (h : ∀ selection ∈ selections, selection.layout.StartsIn starts) :
    NodesSatisfy (Node.StartsIn starts) (selectionSetEvents schema place selections) :=
  .around (startsIn_seq.mpr (Selection.startsIn_listLayouts.mpr h))
    (Selection.listEvents_startIn schema _ selections h)

theorem inputDefinitionEvents_startIn (place : Surroundings)
    {node : Located InputValueDefinition → Node}
    (hnode : ∀ definition, (node definition).layout = definition.layout InputValueDefinition.layout)
    {definitions : List (Located InputValueDefinition)}
    (h : ∀ definition ∈ definitions, starts definition.span.start ∧
      definition.item.layout.StartsIn starts) :
    NodesSatisfy (Node.StartsIn starts)
      (inputDefinitionEvents schema place node definitions) := by
  refine .flatMap fun definition hmem => ?_
  obtain ⟨hspan, hlayout⟩ := h definition hmem
  have hdirectives := (InputValueDefinition.startsIn_layout.mp hlayout).2.2.2.2
  refine .around ?_ (directiveEvents_startIn schema _ hdirectives)
  rw [Node.StartsIn, hnode]
  exact ⟨hspan, hlayout⟩

theorem TypeBody.events_startIn (place : Surroundings) {body : TypeBody}
    (h : body.StartsIn starts) :
    NodesSatisfy (Node.StartsIn starts) (body.events schema place) := by
  have hfields : NodesSatisfy (Node.StartsIn starts)
      (TypeBody.events.fieldEvents schema place body.fields) := by
    refine .flatMap fun field hmem => ?_
    obtain ⟨hspan, hlayout⟩ := h.fields field hmem
    obtain ⟨-, -, harguments, -, hdirectives⟩ := FieldDefinition.startsIn_layout.mp hlayout
    exact .around ⟨hspan, hlayout⟩ (.append (inputDefinitionEvents_startIn schema _
      (fun _ => rfl) (startsIn_argumentDefinitionsLayout.mp harguments))
      (directiveEvents_startIn schema _ hdirectives))
  cases body with
  | scalar => exact .nil
  | object _ fields => exact hfields
  | interface _ fields => exact hfields
  | union _ => exact .nil
  | enum values =>
      refine .flatMap fun value hmem => ?_
      obtain ⟨hspan, hlayout⟩ := h.values values rfl value hmem
      have hdirectives := (EnumValueDefinition.startsIn_layout.mp hlayout).2.2
      exact .around ⟨hspan, hlayout⟩ (directiveEvents_startIn schema _ hdirectives)
  | inputObject fields =>
      exact inputDefinitionEvents_startIn schema _ (fun _ => rfl) (h.inputs fields rfl)

theorem Definition.events_startIn {definition : Definition}
    (h : definition.layout.StartsIn starts) :
    NodesSatisfy (Node.StartsIn starts) (definition.events schema) := by
  cases definition with
  | operation node =>
      obtain ⟨-, hvariables, hdirectives, hselections⟩ :=
        Operation.startsIn_parts.mp (startsIn_seq.mp h.2)
      exact .around h (.append (.append (variableEvents_startIn schema _ hvariables)
        (directiveEvents_startIn schema _ hdirectives))
        (selectionSetEvents_startIn schema _ hselections))
  | fragment node =>
      obtain ⟨-, -, hdirectives, hselections⟩ :=
        Fragment.startsIn_parts.mp (startsIn_seq.mp h.2)
      exact .around h (.append (directiveEvents_startIn schema _ hdirectives)
        (selectionSetEvents_startIn schema _ hselections))
  | schema node =>
      have hdirectives := (SchemaDefinition.startsIn_parts (startsIn_seq.mp h.2)).1
      exact .around h (directiveEvents_startIn schema _ hdirectives)
  | type node =>
      obtain ⟨-, hbody, hdirectives⟩ := TypeDefinition.startsIn_parts (startsIn_seq.mp h.2)
      exact .around h (.append (directiveEvents_startIn schema _ hdirectives)
        (TypeBody.events_startIn schema _ hbody))
  | directive node =>
      have harguments := (DirectiveDefinition.startsIn_parts (startsIn_seq.mp h.2)).2
      exact .around h (inputDefinitionEvents_startIn schema _ (fun _ => rfl)
        (startsIn_argumentDefinitionsLayout.mp harguments))

/-- **Where visited nodes start.**  All places in the nodes that a walk visits start where places of
the document start. -/
theorem Document.events_startIn {document : Document} (h : document.layout.StartsIn starts) :
    NodesSatisfy (Node.StartsIn starts) (document.events schema) :=
  .around h (.flatMap fun definition hmem =>
    Definition.events_startIn schema (Document.startsIn_layout.mp h definition hmem))

end Walk

end GraphQL
