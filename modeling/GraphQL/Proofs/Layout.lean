import GraphQL.Grammar.Definition
import GraphQL.Proofs.Lossless

/-!
# Layouts

Which tokens each part of a document takes, and in which order. A layout lists tokens, some of which
may be left out, and says which stretches of them have a place of their own; the places are those
that the document gives. So the layout of a document is spelled by some tokens exactly if they are
the tokens of the document, and each part of it starts where its first token starts and ends where
its last token ends.

Places that are exact are also nested. What stands between two brackets of a layout is a run of the
tokens between them, and the tokens of a text stand one behind the other; this is all that is needed
(`Layout.SpelledBy.nested`).
-/

namespace GraphQL

/-- From the start of the first token to the end of the last one. -/
def Span.Covers (span : Span) (tokens : List (Located Token)) : Prop :=
  tokens.head?.map (·.span.start) = some span.start ∧
    tokens.getLast?.map (·.span.stop) = some span.stop

/-- The one stretch lies inside the other. -/
def Span.Within (inner outer : Span) : Prop :=
  outer.start.index ≤ inner.start.index ∧ inner.stop.index ≤ outer.stop.index

/-- The one stretch ends before the other starts. -/
def Span.Before (first second : Span) : Prop :=
  first.stop.index ≤ second.start.index

/-- How something is laid out in tokens. -/
inductive Layout where
  | empty
  /-- One token. -/
  | token (accepted : Token → Prop)
  /-- A token that may be left out. -/
  | optional (token : Token)
  /-- One thing behind the other. -/
  | both (first second : Layout)
  /-- Something at its place. -/
  | spanned (span : Span) (inner : Layout)

namespace Layout

/-- Some tokens are laid out this way. -/
def SpelledBy : Layout → List (Located Token) → Prop
  | empty, tokens => tokens = []
  | token accepted, tokens => ∃ t, tokens = [t] ∧ accepted t.item
  | optional item, tokens => tokens = [] ∨ ∃ t, tokens = [t] ∧ t.item = item
  | both first second, tokens =>
    ∃ before after, tokens = before ++ after ∧ first.SpelledBy before ∧ second.SpelledBy after
  | spanned span inner, tokens => span.Covers tokens ∧ inner.SpelledBy tokens

/-- All places, the outer ones before those inside. -/
def spans : Layout → List Span
  | both first second => first.spans ++ second.spans
  | spanned span inner => span :: inner.spans
  | _ => []

/-- The places that stand in no other one. -/
def outer : Layout → List Span
  | both first second => first.outer ++ second.outer
  | spanned span _ => [span]
  | _ => []

/-- What has a place holds the places in it, which stand there one behind the other. -/
def Nested : Layout → Prop
  | both first second => first.Nested ∧ second.Nested
  | spanned span inner =>
    (∀ s ∈ inner.outer, s.Within span) ∧ inner.outer.Pairwise Span.Before ∧ inner.Nested
  | _ => True

/-- Whether there is at least one token. -/
def isSolid : Layout → Bool
  | token _ => true
  | both first second => first.isSolid || second.isSolid
  | spanned _ _ => true
  | _ => false

/-! ## Small layouts -/

/-- Things one behind the other. -/
def seq (parts : List Layout) : Layout :=
  parts.foldr both empty

/-- The given token. -/
def exactly (item : Token) : Layout :=
  token (· = item)

/-- A mark. -/
def mark (p : Punctuator) : Layout :=
  exactly (.mark p)

/-- A name or keyword. -/
def word (text : String) : Layout :=
  exactly (.name text)

/-- Something that is only there on a condition. -/
def present (isPresent : Bool) (layout : Layout) : List Layout :=
  if isPresent then [layout] else []

/-- Something that need not be there. -/
def given {α : Type} (layout : α → Layout) : Option α → Layout
  | some a => layout a
  | none => empty

/-- Things between two marks. -/
def enclosed (opening : Punctuator) (parts : List Layout) (closing : Punctuator) : Layout :=
  seq (mark opening :: parts ++ [mark closing])

/-- Things between two marks, which are left out if there are none. -/
def listed (opening : Punctuator) (parts : List Layout) (closing : Punctuator) : Layout :=
  seq <| match parts with
    | [] => []
    | _ :: _ => mark opening :: parts ++ [mark closing]

/-- Things with a mark between two of them and perhaps before the first. -/
def separated (separator : Punctuator) (parts : List Layout) : Layout :=
  seq <| match parts with
    | [] => []
    | first :: rest =>
      optional (.mark separator) :: first :: rest.flatMap fun part => [mark separator, part]

/-! ## What is spelled -/

variable {layout : Layout} {tokens : List (Located Token)}

theorem spelledBy_seq_append {parts more : List Layout} :
    (seq (parts ++ more)).SpelledBy tokens ↔
      ∃ before after, tokens = before ++ after ∧ (seq parts).SpelledBy before ∧
        (seq more).SpelledBy after := by
  induction parts generalizing tokens with
  | nil =>
      constructor
      · exact fun h => ⟨[], tokens, rfl, rfl, h⟩
      · rintro ⟨before, after, rfl, rfl, h⟩
        exact h
  | cons part parts ih =>
      constructor
      · rintro ⟨before, after, rfl, hpart, hrest⟩
        obtain ⟨middle, after, rfl, hparts, hmore⟩ := ih.mp hrest
        exact ⟨before ++ middle, after, (List.append_assoc ..).symm,
          ⟨before, middle, rfl, hpart, hparts⟩, hmore⟩
      · rintro ⟨before, after, rfl, ⟨first, middle, rfl, hpart, hparts⟩, hmore⟩
        exact ⟨first, middle ++ after, List.append_assoc .., hpart,
          ih.mpr ⟨middle, after, rfl, hparts, hmore⟩⟩

theorem spelledBy_seq_singleton : (seq [layout]).SpelledBy tokens ↔ layout.SpelledBy tokens := by
  constructor
  · rintro ⟨before, after, rfl, h, rfl⟩
    rwa [List.append_nil]
  · exact fun h => ⟨tokens, [], (List.append_nil tokens).symm, h, rfl⟩

/-- Some of the parts may be taken together. -/
theorem SpelledBy.group {before parts : List Layout}
    (h : (seq (before ++ parts)).SpelledBy tokens) :
    (seq (before ++ [seq parts])).SpelledBy tokens := by
  obtain ⟨front, back, rfl, hfront, hback⟩ := spelledBy_seq_append.mp h
  exact spelledBy_seq_append.mpr ⟨front, back, rfl, hfront, spelledBy_seq_singleton.mpr hback⟩

theorem SpelledBy.ne_nil (h : layout.SpelledBy tokens) (hsolid : layout.isSolid = true) :
    tokens ≠ [] := by
  induction layout generalizing tokens with
  | empty => cases hsolid
  | token accepted =>
      obtain ⟨t, rfl, _⟩ := h
      exact List.cons_ne_nil t []
  | optional item => cases hsolid
  | both first second ihfirst ihsecond =>
      obtain ⟨before, after, rfl, hbefore, hafter⟩ := h
      rcases Bool.or_eq_true_iff.mp hsolid with hfirst | hsecond
      · exact List.append_ne_nil_of_left_ne_nil (ihfirst hbefore hfirst) after
      · exact List.append_ne_nil_of_right_ne_nil before (ihsecond hafter hsecond)
  | spanned span inner _ =>
      rintro rfl
      cases h.1.1

theorem isSolid_seq {part : Layout} {parts : List Layout} (hmem : part ∈ parts)
    (h : part.isSolid = true) : (seq parts).isSolid = true := by
  induction parts with
  | nil => cases hmem
  | cons first rest ih =>
      rcases List.mem_cons.mp hmem with rfl | hrest
      · exact Bool.or_eq_true_iff.mpr (.inl h)
      · exact Bool.or_eq_true_iff.mpr (.inr (ih hrest))

/-- Each place starts where one of the tokens starts, and ends where one of them ends. -/
theorem SpelledBy.bounds (h : layout.SpelledBy tokens) : ∀ s ∈ layout.spans,
    (∃ t ∈ tokens, t.span.start = s.start) ∧ ∃ t ∈ tokens, t.span.stop = s.stop := by
  induction layout generalizing tokens with
  | empty => exact fun _ hs => absurd hs List.not_mem_nil
  | token accepted => exact fun _ hs => absurd hs List.not_mem_nil
  | optional item => exact fun _ hs => absurd hs List.not_mem_nil
  | both first second ihfirst ihsecond =>
      obtain ⟨before, after, rfl, hbefore, hafter⟩ := h
      intro s hs
      rcases List.mem_append.mp hs with hs | hs
      · obtain ⟨⟨t, ht, hstart⟩, u, hu, hstop⟩ := ihfirst hbefore s hs
        exact ⟨⟨t, List.mem_append_left _ ht, hstart⟩, u, List.mem_append_left _ hu, hstop⟩
      · obtain ⟨⟨t, ht, hstart⟩, u, hu, hstop⟩ := ihsecond hafter s hs
        exact ⟨⟨t, List.mem_append_right _ ht, hstart⟩, u, List.mem_append_right _ hu, hstop⟩
  | spanned span inner ih =>
      obtain ⟨⟨hstart, hstop⟩, hinner⟩ := h
      obtain ⟨first, hfirst, hstart⟩ := Option.map_eq_some_iff.mp hstart
      obtain ⟨last, hlast, hstop⟩ := Option.map_eq_some_iff.mp hstop
      intro s hs
      rcases List.mem_cons.mp hs with rfl | hs
      · exact ⟨⟨first, List.mem_of_head? hfirst, hstart⟩, last, List.mem_of_getLast? hlast, hstop⟩
      · exact ih hinner s hs

theorem outer_subset_spans (layout : Layout) : layout.outer ⊆ layout.spans := by
  induction layout with
  | both first second ihfirst ihsecond =>
      exact List.append_subset.mpr ⟨List.subset_append_of_subset_left _ ihfirst,
        List.subset_append_of_subset_right _ ihsecond⟩
  | spanned span inner _ => exact List.cons_subset.mpr ⟨List.mem_cons_self, List.nil_subset _⟩
  | _ => exact List.nil_subset _

/-! ## Places are nested -/

/-- Tokens that stand in a text one behind the other. -/
structure InOrder (tokens : List (Located Token)) : Prop where
  ordered : tokens.Pairwise fun a b => a.span.stop.index ≤ b.span.start.index
  forward : ∀ t ∈ tokens, t.span.start.index ≤ t.span.stop.index

theorem InOrder.start_le {first t : Located Token} (h : InOrder tokens)
    (hfirst : tokens.head? = some first) (ht : t ∈ tokens) :
    first.span.start.index ≤ t.span.start.index := by
  obtain ⟨rest, rfl⟩ := List.head?_eq_some_iff.mp hfirst
  rcases List.mem_cons.mp ht with rfl | hrest
  · exact Nat.le_refl _
  · exact Nat.le_trans (h.forward first List.mem_cons_self)
      (List.rel_of_pairwise_cons h.ordered hrest)

theorem InOrder.le_stop {last t : Located Token} (h : InOrder tokens)
    (hlast : tokens.getLast? = some last) (ht : t ∈ tokens) :
    t.span.stop.index ≤ last.span.stop.index := by
  obtain ⟨front, rfl⟩ := List.getLast?_eq_some_iff.mp hlast
  rcases List.mem_append.mp ht with hfront | hlast
  · have hle := (List.pairwise_append.mp h.ordered).2.2 t hfront last (List.mem_singleton.mpr rfl)
    exact Nat.le_trans hle (h.forward last (by simp))
  · exact List.mem_singleton.mp hlast ▸ Nat.le_refl _

/-- **Exact places are nested.**  What is spelled by tokens in their order has its places one behind
the other, and those inside a place stand in it. -/
theorem SpelledBy.nested (h : layout.SpelledBy tokens) (hordered : InOrder tokens) :
    layout.outer.Pairwise Span.Before ∧ layout.Nested := by
  induction layout generalizing tokens with
  | empty => exact ⟨.nil, trivial⟩
  | token accepted => exact ⟨.nil, trivial⟩
  | optional item => exact ⟨.nil, trivial⟩
  | both first second ihfirst ihsecond =>
      obtain ⟨before, after, rfl, hbefore, hafter⟩ := h
      obtain ⟨hpairs, hpairs', hbetween⟩ := List.pairwise_append.mp hordered.ordered
      obtain ⟨hleft, hfirst⟩ := ihfirst hbefore
        ⟨hpairs, fun t ht => hordered.forward t (List.mem_append_left _ ht)⟩
      obtain ⟨hright, hsecond⟩ := ihsecond hafter
        ⟨hpairs', fun t ht => hordered.forward t (List.mem_append_right _ ht)⟩
      refine ⟨List.pairwise_append.mpr ⟨hleft, hright, fun s hs s' hs' => ?_⟩, hfirst, hsecond⟩
      obtain ⟨-, t, ht, hstop⟩ := hbefore.bounds s (outer_subset_spans first hs)
      obtain ⟨⟨t', ht', hstart⟩, -⟩ := hafter.bounds s' (outer_subset_spans second hs')
      rw [Span.Before, ← hstop, ← hstart]
      exact hbetween t ht t' ht'
  | spanned span inner ih =>
      obtain ⟨⟨hstart, hstop⟩, hinner⟩ := h
      obtain ⟨first, hfirst, hstart⟩ := Option.map_eq_some_iff.mp hstart
      obtain ⟨last, hlast, hstop⟩ := Option.map_eq_some_iff.mp hstop
      obtain ⟨hpairs, hnested⟩ := ih hinner hordered
      refine ⟨List.pairwise_singleton _ _, fun s hs => ?_, hpairs, hnested⟩
      obtain ⟨⟨t, ht, htstart⟩, t', ht', htstop⟩ := hinner.bounds s (outer_subset_spans inner hs)
      rw [Span.Within, ← hstart, ← hstop, ← htstart, ← htstop]
      exact ⟨hordered.start_le hfirst ht, hordered.le_stop hlast ht'⟩

end Layout

open Layout

/-- Something at its place. -/
def Located.layout {α : Type} (layout : α → Layout) (l : Located α) : Layout :=
  .spanned l.span (layout l.item)

/-! ## Types and values -/

/-- The parts of a type expression. -/
def TypeLiteral.parts : TypeLiteral → List Layout
  | .named name required => [word name] ++ present required (mark .exclamation)
  | .list item required =>
    [mark .bracketOpen, seq (parts item), mark .bracketClose] ++
      present required (mark .exclamation)

def TypeLiteral.layout (t : TypeLiteral) : Layout :=
  seq (parts t)

/-- The value that a token stands for alone. -/
def Token.value? : Token → Option Value
  | .name text => some (Parser.nameValue text)
  | t => Value.ofToken? t

mutual

/-- A value takes one token, or the dollar sign and the name of a variable, or the tokens of its
parts between brackets. -/
def Value.layout : Value → Layout
  | .variable name => seq [mark .dollar, word name]
  | .list items => enclosed .bracketOpen (itemLayouts items) .bracketClose
  | .object entries => enclosed .braceOpen (entryLayouts entries) .braceClose
  | v => .token (·.value? = some v)

/-- The items of a list. -/
def Value.itemLayouts : List (Located Value) → List Layout
  | [] => []
  | ⟨span, v⟩ :: rest => .spanned span v.layout :: itemLayouts rest

/-- The entries of an object. -/
def Value.entryLayouts : List (Name × Located Value) → List Layout
  | [] => []
  | (key, ⟨span, v⟩) :: rest =>
    seq [key.layout word, mark .colon, .spanned span v.layout] :: entryLayouts rest

end

/-! ## Selections -/

def Argument.layout (argument : Argument) : Layout :=
  seq [argument.name.layout word, mark .colon, argument.value.layout Value.layout]

/-- Things that are given in parentheses, which have a place of their own. -/
def parenthesizedLayout {α : Type} (layout : α → Layout) :
    Option (Located (List α)) → Layout :=
  given (Located.layout fun items => enclosed .parenOpen (items.map layout) .parenClose)

def DirectiveUse.layout (directive : DirectiveUse) : Layout :=
  seq [mark .atSign, directive.name.layout word,
    parenthesizedLayout Argument.layout directive.arguments]

def directivesLayout (directives : List (Located DirectiveUse)) : Layout :=
  seq (directives.map (Located.layout DirectiveUse.layout))

/-- The alias of a field, if it has one. -/
def aliasParts : Option Name → List Layout
  | some name => [name.layout word, mark .colon]
  | none => []

/-- What stands before the selection set of a field. -/
def FieldHead.parts (head : FieldHead) : List Layout :=
  aliasParts head.responseAlias ++
    [head.name.layout word, parenthesizedLayout Argument.layout head.arguments,
      directivesLayout head.directives]

def FragmentSpread.layout (spread : FragmentSpread) : Layout :=
  seq [mark .ellipsis, spread.name.layout word, directivesLayout spread.directives]

/-- The type condition of an inline fragment, if it has one. -/
def conditionParts : Option Name → List Layout
  | some name => [word "on", name.layout word]
  | none => []

/-- What stands before the selection set of an inline fragment. -/
def InlineHead.parts (head : InlineHead) : List Layout :=
  [mark .ellipsis] ++ conditionParts head.condition ++ [directivesLayout head.directives]

mutual

/-- A field or inline fragment takes its head and its selection set. -/
def Selection.layout : Selection → Layout
  | .field node selections =>
    .spanned node.span
      (seq (node.item.parts ++ [listed .braceOpen (listLayouts selections) .braceClose]))
  | .spread node => node.layout FragmentSpread.layout
  | .inline node selections =>
    .spanned node.span
      (seq (node.item.parts ++ [listed .braceOpen (listLayouts selections) .braceClose]))

/-- The entries of a selection set. -/
def Selection.listLayouts : List Selection → List Layout
  | [] => []
  | selection :: rest => selection.layout :: listLayouts rest

end

/-- A selection set. -/
def selectionSetLayout (selections : List Selection) : Layout :=
  listed .braceOpen (Selection.listLayouts selections) .braceClose

/-! ## Definitions -/

/-- A default value behind its equals sign, if there is one. -/
def defaultParts : Option (Located Value) → List Layout
  | some value => [mark .equals, value.layout Value.layout]
  | none => []

/-- The name of a variable starts at its dollar sign. -/
def VariableDefinition.layout (definition : VariableDefinition) : Layout :=
  seq ([definition.name.layout (fun name => seq [mark .dollar, word name]), mark .colon,
      definition.type.layout TypeLiteral.layout] ++ defaultParts definition.default ++
    [directivesLayout definition.directives])

/-- Whether an operation may leave out its keyword. -/
def Operation.isBare (operation : Operation) : Bool :=
  operation.kind = .query && operation.name.isNone && operation.variableDefinitions.isNone &&
    operation.directives.isEmpty

def Operation.parts (operation : Operation) : List Layout :=
  [if operation.isBare then .optional (.name operation.kind.keyword)
    else word operation.kind.keyword,
    given (Located.layout word) operation.name,
    parenthesizedLayout VariableDefinition.layout operation.variableDefinitions,
    directivesLayout operation.directives,
    enclosed .braceOpen (Selection.listLayouts operation.selections) .braceClose]

def Fragment.parts (fragment : Fragment) : List Layout :=
  [word "fragment", fragment.name.layout word, word "on", fragment.condition.layout word,
    directivesLayout fragment.directives,
    enclosed .braceOpen (Selection.listLayouts fragment.selections) .braceClose]

/-- A description is a string. -/
def descriptionLayout : Option Name → Layout :=
  given (Located.layout fun text => .token (Value.ofToken? · = some (.string text)))

def InputValueDefinition.layout (definition : InputValueDefinition) : Layout :=
  seq ([descriptionLayout definition.description, definition.name.layout word, mark .colon,
      definition.type.layout TypeLiteral.layout] ++ defaultParts definition.default ++
    [directivesLayout definition.directives])

def argumentDefinitionsLayout (definitions : List (Located InputValueDefinition)) : Layout :=
  listed .parenOpen (definitions.map (Located.layout InputValueDefinition.layout)) .parenClose

def FieldDefinition.layout (definition : FieldDefinition) : Layout :=
  seq [descriptionLayout definition.description, definition.name.layout word,
    argumentDefinitionsLayout definition.arguments, mark .colon,
    definition.type.layout TypeLiteral.layout, directivesLayout definition.directives]

def EnumValueDefinition.layout (definition : EnumValueDefinition) : Layout :=
  seq [descriptionLayout definition.description, definition.name.layout word,
    directivesLayout definition.directives]

def RootDefinition.layout (root : RootDefinition) : Layout :=
  seq [word root.kind.keyword, mark .colon, root.type.layout word]

/-- What a definition starts with: its description, or the word that marks an extension. -/
def openingParts (extension : Bool) (description : Option Name) : List Layout :=
  [descriptionLayout description] ++ present extension (word "extend")

def SchemaDefinition.parts (definition : SchemaDefinition) : List Layout :=
  openingParts definition.extension definition.description ++
    [word "schema", directivesLayout definition.directives,
      listed .braceOpen (definition.roots.map (Located.layout RootDefinition.layout)) .braceClose]

/-- Names behind a word or mark that is left out with them. -/
def namesLayout (introduction : Layout) (separator : Punctuator) (names : List Name) : Layout :=
  seq <| match names with
    | [] => []
    | _ :: _ => [introduction, separated separator (names.map (Located.layout word))]

def fieldsLayout (fields : List (Located FieldDefinition)) : Layout :=
  listed .braceOpen (fields.map (Located.layout FieldDefinition.layout)) .braceClose

/-- What stands behind the name of a type. -/
def TypeBody.parts (directives : List (Located DirectiveUse)) : TypeBody → List Layout
  | .scalar => [directivesLayout directives]
  | .object interfaces fields =>
    [namesLayout (word "implements") .ampersand interfaces, directivesLayout directives,
      fieldsLayout fields]
  | .interface interfaces fields =>
    [namesLayout (word "implements") .ampersand interfaces, directivesLayout directives,
      fieldsLayout fields]
  | .union members =>
    [directivesLayout directives, namesLayout (mark .equals) .pipe members]
  | .enum values =>
    [directivesLayout directives,
      listed .braceOpen (values.map (Located.layout EnumValueDefinition.layout)) .braceClose]
  | .inputObject fields =>
    [directivesLayout directives,
      listed .braceOpen (fields.map (Located.layout InputValueDefinition.layout)) .braceClose]

def TypeDefinition.parts (definition : TypeDefinition) : List Layout :=
  openingParts definition.extension definition.description ++
    [word definition.body.keyword, definition.name.layout word] ++
    definition.body.parts definition.directives

def DirectiveDefinition.parts (definition : DirectiveDefinition) : List Layout :=
  [descriptionLayout definition.description, word "directive", mark .atSign,
    definition.name.layout word, argumentDefinitionsLayout definition.arguments] ++
    present definition.repeatable (word "repeatable") ++
    [word "on", separated .pipe
      (definition.locations.map (Located.layout fun location => word location.name))]

def Definition.layout : Definition → Layout
  | .operation node => node.layout fun operation => seq operation.parts
  | .fragment node => node.layout fun fragment => seq fragment.parts
  | .schema node => node.layout fun definition => seq definition.parts
  | .type node => node.layout fun definition => seq definition.parts
  | .directive node => node.layout fun definition => seq definition.parts

/-- A document, one definition behind the other. -/
def Document.layout (document : Document) : Layout :=
  seq (document.map Definition.layout)

end GraphQL
