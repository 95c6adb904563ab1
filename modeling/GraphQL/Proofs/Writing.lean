import GraphQL.Language.Document
import GraphQL.Proofs.Lexing

/-!
# Writing documents

The canonical text of a document: every operation starts with its keyword, bodies without items are
left out, strings and descriptions stand in quotes, and the words are separated by spaces.

* `Document.words` lists the words of a document, `Document.canonicalText` writes them;
* `Document.wellFormed` says which documents can be written: what must not be empty is not, bare
  words do not mean something else where they stand, and numbers are whole numbers of 32 bits. That
  the names of a document are names is a matter of its words (`Word.isLexical`);
* `Document.bare` forgets where the parts of a document stand in a text.
-/

namespace GraphQL

namespace Word

variable {α : Type}

/-- Words between two marks. -/
def enclosed (opening : Punctuator) (words : List Word) (closing : Punctuator) : List Word :=
  .mark opening :: (words ++ [.mark closing])

/-- Items between two marks; nothing if there are no items. -/
def listed (opening : Punctuator) (words : α → List Word) (closing : Punctuator) (items : List α) :
    List Word :=
  if items.isEmpty then [] else enclosed opening (items.flatMap words) closing

/-- Items in parentheses, if they are given. -/
def parenthesized (words : α → List Word) : Option (Located (List α)) → List Word
  | none => []
  | some items => enclosed .parenOpen (items.item.flatMap words) .parenClose

/-- Items with a mark between two of them. -/
def separated (separator : Punctuator) (words : α → List Word) : List α → List Word
  | [] => []
  | first :: rest => words first ++ rest.flatMap fun item => .mark separator :: words item

/-- A word that may be absent. -/
def present (word : String) (isPresent : Bool) : List Word :=
  if isPresent then [.name word] else []

end Word

/-- Forgets where something stands. -/
def Located.bare {α : Type} (bareItem : α → α) (l : Located α) : Located α :=
  .unlocated (bareItem l.item)

theorem Located.bare_eq_iff {α : Type} {bareItem : α → α} {l m : Located α} :
    l.bare bareItem = m.bare bareItem ↔ bareItem l.item = bareItem m.item := by
  simp [Located.bare, Located.unlocated]

/-- Whether items in parentheses are well formed: there is one if the parentheses are given. -/
def wellFormedItems {α : Type} (wellFormed : α → Bool) : Option (Located (List α)) → Bool
  | none => true
  | some items => !items.item.isEmpty && items.item.all wellFormed

/-! ## Values and types -/

namespace Value

mutual

/-- The words of a value. Numbers that are not whole are not written. -/
def words : Value → List Word
  | .null => [.name "null"]
  | .int n => [.int n]
  | .float _ => []
  | .string s => [.string s]
  | .boolean true => [.name "true"]
  | .boolean false => [.name "false"]
  | .enum name => [.name name]
  | .variable name => [.mark .dollar, .name name]
  | .list items => Word.enclosed .bracketOpen (itemWords items) .bracketClose
  | .object entries => Word.enclosed .braceOpen (entryWords entries) .braceClose

/-- The words of the items of a list. -/
def itemWords : List (Located Value) → List Word
  | [] => []
  | ⟨_, v⟩ :: rest => words v ++ itemWords rest

/-- The words of the entries of an object. -/
def entryWords : List (Name × Located Value) → List Word
  | [] => []
  | (key, ⟨_, v⟩) :: rest => .name key.item :: .mark .colon :: (words v ++ entryWords rest)

end

mutual

/-- Whether a value can be written: its numbers are whole numbers of 32 bits, and its bare names do
not stand for other values. -/
def wellFormed : Value → Bool
  | .int n => -2147483648 ≤ n && n ≤ 2147483647
  | .float _ => false
  | .enum name => name ≠ "true" && name ≠ "false" && name ≠ "null"
  | .list items => itemsWellFormed items
  | .object entries => entriesWellFormed entries
  | _ => true

/-- Whether the items of a list can be written. -/
def itemsWellFormed : List (Located Value) → Bool
  | [] => true
  | ⟨_, v⟩ :: rest => wellFormed v && itemsWellFormed rest

/-- Whether the entries of an object can be written. -/
def entriesWellFormed : List (Name × Located Value) → Bool
  | [] => true
  | (_, ⟨_, v⟩) :: rest => wellFormed v && entriesWellFormed rest

end

mutual

/-- Forgets where the parts of a value stand. -/
def bare : Value → Value
  | .list items => .list (bareItems items)
  | .object entries => .object (bareEntries entries)
  | v => v

/-- Forgets where the items of a list stand. -/
def bareItems : List (Located Value) → List (Located Value)
  | [] => []
  | ⟨_, v⟩ :: rest => .unlocated (bare v) :: bareItems rest

/-- Forgets where the entries of an object stand. -/
def bareEntries : List (Name × Located Value) → List (Name × Located Value)
  | [] => []
  | (key, ⟨_, v⟩) :: rest => (.unlocated key.item, .unlocated (bare v)) :: bareEntries rest

end

theorem itemWords_eq (items : List (Located Value)) :
    itemWords items = items.flatMap (·.item.words) := by
  induction items with
  | nil => rfl
  | cons item items ih => rw [itemWords, ih, List.flatMap_cons]

theorem entryWords_eq (entries : List (Name × Located Value)) :
    entryWords entries =
      entries.flatMap fun e => .name e.1.item :: .mark .colon :: e.2.item.words := by
  induction entries with
  | nil => rfl
  | cons entry entries ih => rw [entryWords, ih, List.flatMap_cons, List.cons_append,
      List.cons_append]

theorem itemsWellFormed_eq (items : List (Located Value)) :
    itemsWellFormed items = items.all (·.item.wellFormed) := by
  induction items with
  | nil => rfl
  | cons item items ih => rw [itemsWellFormed, ih, List.all_cons]

theorem entriesWellFormed_eq (entries : List (Name × Located Value)) :
    entriesWellFormed entries = entries.all (·.2.item.wellFormed) := by
  induction entries with
  | nil => rfl
  | cons entry entries ih => rw [entriesWellFormed, ih, List.all_cons]

theorem bareItems_eq (items : List (Located Value)) :
    bareItems items = items.map (·.bare bare) := by
  induction items with
  | nil => rfl
  | cons item items ih => rw [bareItems, ih, List.map_cons, Located.bare]

theorem bareEntries_eq (entries : List (Name × Located Value)) :
    bareEntries entries = entries.map fun e => (e.1.bare id, e.2.bare bare) := by
  induction entries with
  | nil => rfl
  | cons entry entries ih => rw [bareEntries, ih, List.map_cons, Located.bare, Located.bare, id]

end Value

/-- The words of a default value. -/
def defaultWords : Option (Located Value) → List Word
  | none => []
  | some v => .mark .equals :: v.item.words

/-- Whether a default value can be written; it contains no variables. -/
def wellFormedDefault : Option (Located Value) → Bool
  | none => true
  | some v => v.item.wellFormed && v.item.variableNames.isEmpty

/-- The words of a type expression. -/
def TypeLiteral.words : TypeLiteral → List Word
  | .named name required => .name name :: if required then [.mark .exclamation] else []
  | .list item required =>
    Word.enclosed .bracketOpen (words item) .bracketClose ++
      if required then [.mark .exclamation] else []

/-! ## Selection sets -/

namespace Argument

/-- The words of an argument. -/
def words (argument : Argument) : List Word :=
  .name argument.name.item :: .mark .colon :: argument.value.item.words

/-- Whether an argument can be written. -/
def wellFormed (argument : Argument) : Bool :=
  argument.value.item.wellFormed

/-- Forgets where an argument stands. -/
def bare (argument : Argument) : Argument :=
  ⟨argument.name.bare id, argument.value.bare Value.bare⟩

end Argument

namespace DirectiveUse

/-- The words of a directive. -/
def words (directive : DirectiveUse) : List Word :=
  .mark .atSign :: .name directive.name.item ::
    Word.parenthesized Argument.words directive.arguments

/-- Whether a directive can be written. -/
def wellFormed (directive : DirectiveUse) : Bool :=
  wellFormedItems Argument.wellFormed directive.arguments

/-- Forgets where a directive stands. -/
def bare (directive : DirectiveUse) : DirectiveUse :=
  ⟨directive.name.bare id, directive.arguments.map (·.bare (·.map Argument.bare))⟩

end DirectiveUse

/-- The words of directives. -/
def directiveWords (directives : List (Located DirectiveUse)) : List Word :=
  directives.flatMap (·.item.words)

/-- Whether directives can be written. -/
def wellFormedDirectives (directives : List (Located DirectiveUse)) : Bool :=
  directives.all (·.item.wellFormed)

/-- Forgets where directives stand. -/
def bareDirectives (directives : List (Located DirectiveUse)) : List (Located DirectiveUse) :=
  directives.map (·.bare DirectiveUse.bare)

namespace FieldHead

/-- The words of a field up to its selection set. -/
def words (head : FieldHead) : List Word :=
  (match head.responseAlias with
    | none => []
    | some responseAlias => [.name responseAlias.item, .mark .colon]) ++
  .name head.name.item ::
    (Word.parenthesized Argument.words head.arguments ++ directiveWords head.directives)

/-- Whether a field can be written, up to its selection set. -/
def wellFormed (head : FieldHead) : Bool :=
  wellFormedItems Argument.wellFormed head.arguments && wellFormedDirectives head.directives

/-- Forgets where the parts of a field stand. -/
def bare (head : FieldHead) : FieldHead :=
  ⟨head.responseAlias.map (·.bare id), head.name.bare id,
    head.arguments.map (·.bare (·.map Argument.bare)), bareDirectives head.directives⟩

end FieldHead

/-- Forgets where the parts of a fragment that is spread stand. -/
def FragmentSpread.bare (spread : FragmentSpread) : FragmentSpread :=
  ⟨spread.name.bare id, bareDirectives spread.directives⟩

/-- Forgets where the parts of an inline fragment stand. -/
def InlineHead.bare (head : InlineHead) : InlineHead :=
  ⟨head.condition.map (·.bare id), bareDirectives head.directives⟩

/-- The words of a type condition. -/
def conditionWords : Option Name → List Word
  | none => []
  | some condition => [.name "on", .name condition.item]

namespace Selection

mutual

/-- The words of an entry of a selection set. -/
def words : Selection → List Word
  | .field node selections =>
    node.item.words ++
      if selections.isEmpty then []
      else Word.enclosed .braceOpen (setWords selections) .braceClose
  | .spread node =>
    .mark .ellipsis :: .name node.item.name.item :: directiveWords node.item.directives
  | .inline node selections =>
    .mark .ellipsis :: (conditionWords node.item.condition ++
      (directiveWords node.item.directives ++
        Word.enclosed .braceOpen (setWords selections) .braceClose))

/-- The words of the entries of a selection set. -/
def setWords : List Selection → List Word
  | [] => []
  | s :: rest => words s ++ setWords rest

end

mutual

/-- Whether an entry of a selection set can be written. -/
def wellFormed : Selection → Bool
  | .field node selections => node.item.wellFormed && setWellFormed selections
  | .spread node => node.item.name.item ≠ "on" && wellFormedDirectives node.item.directives
  | .inline node selections =>
    wellFormedDirectives node.item.directives && !selections.isEmpty && setWellFormed selections

/-- Whether the entries of a selection set can be written. -/
def setWellFormed : List Selection → Bool
  | [] => true
  | s :: rest => wellFormed s && setWellFormed rest

end

mutual

/-- Forgets where an entry of a selection set stands. -/
def bare : Selection → Selection
  | .field node selections => .field (node.bare FieldHead.bare) (bareSet selections)
  | .spread node => .spread (node.bare FragmentSpread.bare)
  | .inline node selections => .inline (node.bare InlineHead.bare) (bareSet selections)

/-- Forgets where the entries of a selection set stand. -/
def bareSet : List Selection → List Selection
  | [] => []
  | s :: rest => bare s :: bareSet rest

end

theorem setWords_eq (selections : List Selection) :
    setWords selections = selections.flatMap words := by
  induction selections with
  | nil => rfl
  | cons s selections ih => rw [setWords, ih, List.flatMap_cons]

theorem setWellFormed_eq (selections : List Selection) :
    setWellFormed selections = selections.all wellFormed := by
  induction selections with
  | nil => rfl
  | cons s selections ih => rw [setWellFormed, ih, List.all_cons]

theorem bareSet_eq (selections : List Selection) : bareSet selections = selections.map bare := by
  induction selections with
  | nil => rfl
  | cons s selections ih => rw [bareSet, ih, List.map_cons]

end Selection

/-- The words of a selection set. -/
def selectionSetWords (selections : List Selection) : List Word :=
  Word.enclosed .braceOpen (Selection.setWords selections) .braceClose

/-! ## Operations and fragments -/

namespace VariableDefinition

/-- The words of the definition of a variable. -/
def words (definition : VariableDefinition) : List Word :=
  .mark .dollar :: .name definition.name.item :: .mark .colon ::
    (definition.type.item.words ++
      (defaultWords definition.default ++ directiveWords definition.directives))

/-- Whether the definition of a variable can be written. -/
def wellFormed (definition : VariableDefinition) : Bool :=
  wellFormedDefault definition.default && wellFormedDirectives definition.directives

/-- Forgets where the definition of a variable stands. -/
def bare (definition : VariableDefinition) : VariableDefinition :=
  ⟨definition.name.bare id, definition.type.bare id, definition.default.map (·.bare Value.bare),
    bareDirectives definition.directives⟩

end VariableDefinition

namespace Operation

/-- The words of an operation. -/
def words (operation : Operation) : List Word :=
  .name operation.kind.keyword :: ((operation.name.map fun name => .name name.item).toList ++
    (Word.parenthesized VariableDefinition.words operation.variableDefinitions ++
      (directiveWords operation.directives ++
        selectionSetWords operation.selections)))

/-- Whether an operation can be written. -/
def wellFormed (operation : Operation) : Bool :=
  wellFormedItems VariableDefinition.wellFormed operation.variableDefinitions &&
    wellFormedDirectives operation.directives && !operation.selections.isEmpty &&
    Selection.setWellFormed operation.selections

/-- Forgets where an operation stands. -/
def bare (operation : Operation) : Operation :=
  ⟨operation.kind, operation.name.map (·.bare id),
    operation.variableDefinitions.map (·.bare (·.map VariableDefinition.bare)),
    bareDirectives operation.directives, Selection.bareSet operation.selections⟩

end Operation

namespace Fragment

/-- The words of a fragment. -/
def words (fragment : Fragment) : List Word :=
  .name "fragment" :: .name fragment.name.item :: .name "on" :: .name fragment.condition.item ::
    (directiveWords fragment.directives ++
      selectionSetWords fragment.selections)

/-- Whether a fragment can be written. -/
def wellFormed (fragment : Fragment) : Bool :=
  fragment.name.item ≠ "on" && wellFormedDirectives fragment.directives &&
    !fragment.selections.isEmpty && Selection.setWellFormed fragment.selections

/-- Forgets where a fragment stands. -/
def bare (fragment : Fragment) : Fragment :=
  ⟨fragment.name.bare id, fragment.condition.bare id, bareDirectives fragment.directives,
    Selection.bareSet fragment.selections⟩

end Fragment

/-! ## Schemas, types and directives -/

/-- The words of a description. -/
def descriptionWords : Option Name → List Word
  | none => []
  | some description => [.string description.item]

namespace RootDefinition

/-- The words of the root type of one kind of operation. -/
def words (root : RootDefinition) : List Word :=
  [.name root.kind.keyword, .mark .colon, .name root.type.item]

/-- Forgets where a root type stands. -/
def bare (root : RootDefinition) : RootDefinition :=
  ⟨root.kind, root.type.bare id⟩

end RootDefinition

namespace SchemaDefinition

/-- The words of a schema. -/
def words (schema : SchemaDefinition) : List Word :=
  descriptionWords schema.description ++ (Word.present "extend" schema.extension ++
    .name "schema" :: (directiveWords schema.directives ++
      Word.listed .braceOpen (·.item.words) .braceClose schema.roots))

/-- Whether a schema can be written: an extension has no description, and only an extension may name
no root type. -/
def wellFormed (schema : SchemaDefinition) : Bool :=
  wellFormedDirectives schema.directives &&
    if schema.extension then schema.description.isNone else !schema.roots.isEmpty

/-- Forgets where a schema stands. -/
def bare (schema : SchemaDefinition) : SchemaDefinition :=
  ⟨schema.extension, schema.description.map (·.bare id), bareDirectives schema.directives,
    schema.roots.map (·.bare RootDefinition.bare)⟩

end SchemaDefinition

namespace InputValueDefinition

/-- The words of the definition of an argument or input field. -/
def words (definition : InputValueDefinition) : List Word :=
  descriptionWords definition.description ++ .name definition.name.item :: .mark .colon ::
    (definition.type.item.words ++
      (defaultWords definition.default ++ directiveWords definition.directives))

/-- Whether the definition of an argument or input field can be written. -/
def wellFormed (definition : InputValueDefinition) : Bool :=
  wellFormedDefault definition.default && wellFormedDirectives definition.directives

/-- Forgets where the definition of an argument or input field stands. -/
def bare (definition : InputValueDefinition) : InputValueDefinition :=
  ⟨definition.description.map (·.bare id), definition.name.bare id, definition.type.bare id,
    definition.default.map (·.bare Value.bare), bareDirectives definition.directives⟩

end InputValueDefinition

namespace FieldDefinition

/-- The words of the definition of a field. -/
def words (definition : FieldDefinition) : List Word :=
  descriptionWords definition.description ++ .name definition.name.item ::
    (Word.listed .parenOpen (·.item.words) .parenClose definition.arguments ++
      .mark .colon :: (definition.type.item.words ++ directiveWords definition.directives))

/-- Whether the definition of a field can be written. -/
def wellFormed (definition : FieldDefinition) : Bool :=
  definition.arguments.all (·.item.wellFormed) && wellFormedDirectives definition.directives

/-- Forgets where the definition of a field stands. -/
def bare (definition : FieldDefinition) : FieldDefinition :=
  ⟨definition.description.map (·.bare id), definition.name.bare id,
    definition.arguments.map (·.bare InputValueDefinition.bare), definition.type.bare id,
    bareDirectives definition.directives⟩

end FieldDefinition

namespace EnumValueDefinition

/-- The words of the definition of an enum value. -/
def words (definition : EnumValueDefinition) : List Word :=
  descriptionWords definition.description ++ .name definition.name.item ::
    directiveWords definition.directives

/-- Forgets where the definition of an enum value stands. -/
def bare (definition : EnumValueDefinition) : EnumValueDefinition :=
  ⟨definition.description.map (·.bare id), definition.name.bare id,
    bareDirectives definition.directives⟩

end EnumValueDefinition

/-- The words of a list of names with something before it; nothing if there are no names. -/
def nameListWords (start : Word) (separator : Punctuator) (names : List Name) : List Word :=
  if names.isEmpty then [] else start :: Word.separated separator (fun n => [.name n.item]) names

namespace TypeBody

/-- The words between the name of a type and its directives. -/
def headWords : TypeBody → List Word
  | object interfaces _ => nameListWords (.name "implements") .ampersand interfaces
  | interface interfaces _ => nameListWords (.name "implements") .ampersand interfaces
  | _ => []

/-- The words behind the directives of a type. -/
def tailWords : TypeBody → List Word
  | scalar => []
  | object _ fields => Word.listed .braceOpen (·.item.words) .braceClose fields
  | interface _ fields => Word.listed .braceOpen (·.item.words) .braceClose fields
  | union members => nameListWords (.mark .equals) .pipe members
  | enum values => Word.listed .braceOpen (·.item.words) .braceClose values
  | inputObject fields => Word.listed .braceOpen (·.item.words) .braceClose fields

/-- Whether the body of a type can be written. -/
def wellFormed : TypeBody → Bool
  | object _ fields => fields.all (·.item.wellFormed)
  | interface _ fields => fields.all (·.item.wellFormed)
  | enum values => values.all (wellFormedDirectives ·.item.directives)
  | inputObject fields => fields.all (·.item.wellFormed)
  | _ => true

/-- Forgets where the body of a type stands. -/
def bare : TypeBody → TypeBody
  | scalar => scalar
  | object interfaces fields =>
    object (interfaces.map (·.bare id)) (fields.map (·.bare FieldDefinition.bare))
  | interface interfaces fields =>
    interface (interfaces.map (·.bare id)) (fields.map (·.bare FieldDefinition.bare))
  | union members => union (members.map (·.bare id))
  | enum values => enum (values.map (·.bare EnumValueDefinition.bare))
  | inputObject fields => inputObject (fields.map (·.bare InputValueDefinition.bare))

end TypeBody

namespace TypeDefinition

/-- The words of the definition of a type. -/
def words (definition : TypeDefinition) : List Word :=
  descriptionWords definition.description ++ (Word.present "extend" definition.extension ++
    .name definition.body.keyword :: .name definition.name.item ::
      (definition.body.headWords ++
        (directiveWords definition.directives ++ definition.body.tailWords)))

/-- Whether the definition of a type can be written; an extension has no description. -/
def wellFormed (definition : TypeDefinition) : Bool :=
  wellFormedDirectives definition.directives && definition.body.wellFormed &&
    (!definition.extension || definition.description.isNone)

/-- Forgets where the definition of a type stands. -/
def bare (definition : TypeDefinition) : TypeDefinition :=
  ⟨definition.extension, definition.description.map (·.bare id), definition.name.bare id,
    bareDirectives definition.directives, definition.body.bare⟩

end TypeDefinition

namespace DirectiveDefinition

/-- The words of the definition of a directive. -/
def words (definition : DirectiveDefinition) : List Word :=
  descriptionWords definition.description ++ .name "directive" :: .mark .atSign ::
    .name definition.name.item ::
      (Word.listed .parenOpen (·.item.words) .parenClose definition.arguments ++
        (Word.present "repeatable" definition.repeatable ++ .name "on" ::
          Word.separated .pipe (fun l => [.name l.item.name]) definition.locations))

/-- Whether the definition of a directive can be written; it names a place. -/
def wellFormed (definition : DirectiveDefinition) : Bool :=
  definition.arguments.all (·.item.wellFormed) && !definition.locations.isEmpty

/-- Forgets where the definition of a directive stands. -/
def bare (definition : DirectiveDefinition) : DirectiveDefinition :=
  ⟨definition.description.map (·.bare id), definition.name.bare id,
    definition.arguments.map (·.bare InputValueDefinition.bare), definition.repeatable,
    definition.locations.map (·.bare id)⟩

end DirectiveDefinition

/-! ## Documents -/

namespace Definition

/-- The words of a definition. -/
def words : Definition → List Word
  | operation node => node.item.words
  | fragment node => node.item.words
  | schema node => node.item.words
  | type node => node.item.words
  | directive node => node.item.words

/-- Whether a definition can be written. -/
def wellFormed : Definition → Bool
  | operation node => node.item.wellFormed
  | fragment node => node.item.wellFormed
  | schema node => node.item.wellFormed
  | type node => node.item.wellFormed
  | directive node => node.item.wellFormed

/-- Forgets where a definition stands. -/
def bare : Definition → Definition
  | operation node => operation (node.bare Operation.bare)
  | fragment node => fragment (node.bare Fragment.bare)
  | schema node => schema (node.bare SchemaDefinition.bare)
  | type node => type (node.bare TypeDefinition.bare)
  | directive node => directive (node.bare DirectiveDefinition.bare)

end Definition

namespace Document

/-- The words of a document. -/
def words (document : Document) : List Word :=
  document.flatMap Definition.words

/-- How a document is written: its words with spaces between them. -/
def canonicalText (document : Document) : String :=
  " ".intercalate (document.words.map Word.text)

/-- Whether a document can be written; it defines something. -/
def wellFormed (document : Document) : Bool :=
  !document.isEmpty && document.all Definition.wellFormed

/-- Forgets where the parts of a document stand. -/
def bare (document : Document) : Document :=
  document.map Definition.bare

end Document

end GraphQL
