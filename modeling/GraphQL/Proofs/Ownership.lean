import Mathlib.Data.List.Perm.Basic
import GraphQL.Proofs.Definitions

/-!
# What directives and arguments belong to

A directive belongs to the node that it is written on, and an argument to the field or directive
that it is given to. Both can be listed by going through the syntax of a document, without walking:
`Document.attachedDirectives` lists each directive with the sort of node that it stands on, and
`Document.givenArguments` lists each argument with its receiver, where a field receives arguments
for the type that it is selected from.

The rules that know directives and argument names find exactly one fault for each entry of these
lists that deserves one, and nothing else, for all documents of operations and fragments
(`Document.attributedExactly`). What these rules say splits as the walk does, so each list is
followed through the walk once; the rule on argument names looks at fields and at directives, and
what it says of both is put together.
-/

namespace GraphQL

/-! ## Directives and what they stand on -/

/-- A directive, with the sort of node that it is written on. -/
structure AttachedDirective where
  location : DirectiveLocation
  use : Located DirectiveUse

/-- The directives on a node. -/
def attachedTo (location : DirectiveLocation) (directives : List (Located DirectiveUse)) :
    List AttachedDirective :=
  directives.map fun use => ⟨location, use⟩

mutual

/-- The directives in a selection, at any depth. -/
def Selection.attachedDirectives : Selection → List AttachedDirective
  | .field node below =>
    attachedTo .field node.item.directives ++ Selection.listAttachedDirectives below
  | .spread node => attachedTo .fragmentSpread node.item.directives
  | .inline node body =>
    attachedTo .inlineFragment node.item.directives ++ Selection.listAttachedDirectives body

/-- The directives in the selections of a set, at any depth. -/
def Selection.listAttachedDirectives : List Selection → List AttachedDirective
  | [] => []
  | selection :: rest => selection.attachedDirectives ++ Selection.listAttachedDirectives rest

end

/-- The directives in an operation or a fragment. -/
def Definition.attachedDirectives : Definition → List AttachedDirective
  | .operation node =>
    node.item.definedVariables.flatMap
        (fun definition => attachedTo .variableDefinition definition.directives) ++
      attachedTo node.item.kind.location node.item.directives ++
      Selection.listAttachedDirectives node.item.selections
  | .fragment node =>
    attachedTo .fragmentDefinition node.item.directives ++
      Selection.listAttachedDirectives node.item.selections
  | _ => []

/-- The directives in the operations and fragments of a document. -/
def Document.attachedDirectives (document : Document) : List AttachedDirective :=
  document.flatMap Definition.attachedDirectives

/-- What is wrong with a directive: the schema does not know it, or does not let it stand where it
does. -/
def AttachedDirective.fault? (schema : Schema) (directive : AttachedDirective) : Option Fault :=
  let name := directive.use.item.name.item
  match schema.directive? name with
  | none => some ⟨.unknownDirective name, [directive.use.span.start]⟩
  | some known =>
    if directive.location ∈ known.locations then none
    else some ⟨.misplacedDirective name directive.location, [directive.use.span.start]⟩

/-! ## Arguments and what they are given to -/

/-- A field, with the type that it is selected from. -/
structure TypedField where
  parent : Option NamedType
  node : Located FieldHead

mutual

/-- The fields in a selection from a type, at any depth. -/
def Selection.typedFields (schema : Schema) (parent : Option NamedType) :
    Selection → List TypedField
  | .field node below =>
    let definition := parent.bind (schema.field? · node.item.name.item)
    ⟨parent, node⟩ :: Selection.listTypedFields schema
      (definition.bind fun field => schema.type? field.type.innermost) below
  | .spread _ => []
  | .inline node body =>
    let inner := match node.item.condition with
      | some condition => schema.type? condition.item
      | none => parent
    Selection.listTypedFields schema inner body

/-- The fields in the selections of a set, at any depth. -/
def Selection.listTypedFields (schema : Schema) (parent : Option NamedType) :
    List Selection → List TypedField
  | [] => []
  | selection :: rest =>
    selection.typedFields schema parent ++ Selection.listTypedFields schema parent rest

end

/-- The fields in an operation or a fragment. -/
def Definition.typedFields (schema : Schema) : Definition → List TypedField
  | .operation node =>
    Selection.listTypedFields schema (schema.root? node.item.kind) node.item.selections
  | .fragment node =>
    Selection.listTypedFields schema (schema.type? node.item.condition.item) node.item.selections
  | _ => []

/-- What arguments are given to. -/
inductive Receiver where
  /-- A field of a type. -/
  | field (parent : NamedType) (name : String)
  | directive (name : String)

/-- The arguments that a receiver declares, if the schema knows it. -/
def Receiver.declared? (schema : Schema) : Receiver → Option (List String)
  | .field parent name =>
    (schema.field? parent name).map fun field => field.arguments.map InputValue.name
  | .directive name =>
    (schema.directive? name).map fun directive => directive.arguments.map InputValue.name

/-- That an argument is unknown to its receiver. -/
def Receiver.violation (argument : String) : Receiver → Violation
  | .field parent name => .unknownFieldArgument argument name parent.name
  | .directive name => .unknownDirectiveArgument argument name

/-- An argument, with what it is given to. -/
structure GivenArgument where
  receiver : Receiver
  argument : Argument

/-- The arguments that a receiver is given. -/
def Receiver.given (arguments : Option (Located (List Argument))) (receiver : Receiver) :
    List GivenArgument :=
  (Rules.givenArguments arguments).map fun argument => ⟨receiver, argument⟩

/-- The arguments of a field whose parent type is known. -/
def TypedField.given (field : TypedField) : List GivenArgument :=
  match field.parent with
  | some parent =>
    Receiver.given field.node.item.arguments (.field parent field.node.item.name.item)
  | none => []

/-- The arguments of a directive. -/
def DirectiveUse.given (use : DirectiveUse) : List GivenArgument :=
  Receiver.given use.arguments (.directive use.name.item)

/-- The arguments in the operations and fragments of a document. -/
def Document.givenArguments (schema : Schema) (document : Document) : List GivenArgument :=
  (document.flatMap (Definition.typedFields schema)).flatMap TypedField.given ++
    document.attachedDirectives.flatMap fun directive => directive.use.item.given

/-- What is wrong with an argument: the receiver is known and does not declare it. -/
def GivenArgument.fault? (schema : Schema) (given : GivenArgument) : Option Fault :=
  let name := given.argument.name
  match given.receiver.declared? schema with
  | none => none
  | some declared =>
    if name.item ∈ declared then none
    else some ⟨given.receiver.violation name.item, [name.span.start]⟩

/-! ## Walking past directives -/

/-- A check that looks at directives only. Of the directives on a node it says what `r` says, at the
node itself or at the directives. -/
structure ReadsDirectives (schema : Schema) (check : Surroundings → Node → List Fault)
    (r : AttachedDirective → List Fault) : Prop where
  quiet : ∀ place node, node.directiveSite? = none → (∀ use, node ≠ .directive use) →
    check place node = []
  site : ∀ place node location directives, node.directiveSite? = some (location, directives) →
    check place node ++ (Rule.onEnter check).run (directiveEvents schema place directives) =
      (attachedTo location directives).flatMap r

namespace ReadsDirectives

variable {schema : Schema} {check : Surroundings → Node → List Fault}
  {r : AttachedDirective → List Fault}

theorem skipsLiterals (h : ReadsDirectives schema check r) : Rule.SkipsLiterals check :=
  .of_each (fun place _ => h.quiet place _ rfl nofun) (fun place _ => h.quiet place _ rfl nofun)
    (fun place _ _ => h.quiet place _ rfl nofun)

mutual

theorem run_selection (h : ReadsDirectives schema check r) (place : Surroundings) :
    (selection : Selection) → (Rule.onEnter check).run (selection.events schema place) =
      selection.attachedDirectives.flatMap r
  | .field node below => by
      have hsite (place : Surroundings) :=
        h.site place (.field node below) .field node.item.directives rfl
      rw [Selection.events, Selection.attachedDirectives, List.flatMap_append,
        Rule.run_onEnter_around, Rule.run_onEnter_append, Rule.run_onEnter_append,
        Rule.run_argumentEvents schema h.skipsLiterals, List.nil_append, ← List.append_assoc, hsite]
      cases below with
      | nil => rfl
      | cons first rest =>
          rw [if_neg (by simp), Rule.run_onEnter_around, run_selections h _ (first :: rest),
            h.quiet _ (.selectionSet (first :: rest)) rfl nofun, List.nil_append]
  | .spread node => by
      rw [Selection.events, Selection.attachedDirectives, Rule.run_onEnter_around,
        h.site place (.spread node) .fragmentSpread node.item.directives rfl]
  | .inline node body => by
      have hsite (place : Surroundings) :=
        h.site place (.inline node body) .inlineFragment node.item.directives rfl
      rw [Selection.events, Selection.attachedDirectives, List.flatMap_append,
        Rule.run_onEnter_around, Rule.run_onEnter_append, ← List.append_assoc, hsite,
        Rule.run_onEnter_around, run_selections h _ body,
        h.quiet _ (.selectionSet body) rfl nofun, List.nil_append]

/-- Along a selection set, each directive in it is talked about once. -/
theorem run_selections (h : ReadsDirectives schema check r) (place : Surroundings) :
    (selections : List Selection) →
      (Rule.onEnter check).run (Selection.listEvents schema place selections) =
        (Selection.listAttachedDirectives selections).flatMap r
  | [] => rfl
  | selection :: rest => by
      rw [Selection.listEvents, Rule.run_onEnter_append, run_selection h place selection,
        run_selections h place rest, Selection.listAttachedDirectives, List.flatMap_append]

end

theorem run_selectionSet (h : ReadsDirectives schema check r) (place : Surroundings)
    (selections : List Selection) :
    (Rule.onEnter check).run (selectionSetEvents schema place selections) =
      (Selection.listAttachedDirectives selections).flatMap r := by
  rw [selectionSetEvents, Rule.run_onEnter_around, run_selections h,
    h.quiet _ (.selectionSet selections) rfl nofun, List.nil_append]

theorem run_variables (h : ReadsDirectives schema check r) (place : Surroundings)
    (definitions : List VariableDefinition) :
    (Rule.onEnter check).run (variableEvents schema place definitions) =
      (definitions.flatMap fun definition =>
        attachedTo .variableDefinition definition.directives).flatMap r := by
  rw [Rule.run_variableEvents schema h.skipsLiterals, List.flatMap_assoc]
  refine List.flatMap_congr fun definition _ => ?_
  rw [← Rule.run_directiveEvents schema h.skipsLiterals]
  exact h.site _ (.variableDefinition definition) .variableDefinition definition.directives rfl

/-- Along an operation or a fragment, each directive in it is talked about once. What there is to
say of the directives on an operation may be said before its variables. -/
theorem run_definition (h : ReadsDirectives schema check r) {definition : Definition}
    (hexecutable : definition.isExecutable = true) :
    ((Rule.onEnter check).run (definition.events schema)).Perm
      (definition.attachedDirectives.flatMap r) := by
  cases definition with
  | operation node =>
      let place : Surroundings :=
        { output := (schema.root? node.item.kind).map fun t => .named t.name true }
      have hsite := h.site place (.operation node) node.item.kind.location node.item.directives rfl
      simp only [Definition.events, Definition.attachedDirectives, Rule.run_onEnter_around,
        Rule.run_onEnter_append, run_variables h, run_selectionSet h, List.flatMap_append]
      rw [← hsite, ← List.append_assoc]
      exact (List.perm_append_comm_assoc _ _ _).append_right _
  | fragment node =>
      have hsite := h.site (({} : Surroundings).on node.item.condition.item) (.fragment node)
        .fragmentDefinition node.item.directives rfl
      simp only [Definition.events, Definition.attachedDirectives, Rule.run_onEnter_around,
        Rule.run_onEnter_append, run_selectionSet h, List.flatMap_append]
      rw [← hsite, List.append_assoc]
  | schema node => cases hexecutable
  | type node => cases hexecutable
  | directive node => cases hexecutable

theorem run_document (h : ReadsDirectives schema check r) {document : Document}
    (hexecutable : ∀ definition ∈ document, definition.isExecutable = true) :
    ((Rule.onEnter check).run (document.events schema)).Perm
      (document.attachedDirectives.flatMap r) := by
  have hquiet := h.quiet {} (.document document) rfl (by simp)
  rw [Document.events, Rule.run_onEnter_around, hquiet, List.nil_append,
    Rule.run_onEnter_flatMap, Document.attachedDirectives, List.flatMap_assoc]
  exact List.Perm.flatMap_left _ fun definition hmem =>
    h.run_definition (hexecutable definition hmem)

end ReadsDirectives

/-- A check that looks at the directives on a node from there. -/
def siteCheck (f : AttachedDirective → Option Fault) (_ : Surroundings) (node : Node) :
    List Fault :=
  match node.directiveSite? with
  | none => []
  | some (location, directives) => (attachedTo location directives).filterMap f

/-- A check that looks at the directives themselves. -/
def useCheck (f : DirectiveUse → List Fault) (_ : Surroundings) : Node → List Fault
  | .directive node => f node.item
  | _ => []

theorem readsDirectives_siteCheck (f : AttachedDirective → Option Fault) (schema : Schema) :
    ReadsDirectives schema (siteCheck f) fun directive => (f directive).toList := by
  have hskips : Rule.SkipsLiterals (siteCheck f) :=
    .of_each (fun _ _ => rfl) (fun _ _ => rfl) (fun _ _ _ => rfl)
  refine ⟨fun place node hnone _ => ?_, fun place node location directives hsite => ?_⟩
  · rw [siteCheck, hnone]
  · have hinside : (Rule.onEnter (siteCheck f)).run (directiveEvents schema place directives) =
        [] := by
      rw [Rule.run_directiveEvents schema hskips]
      exact List.flatMap_eq_nil_iff.mpr fun _ _ => rfl
    rw [hinside, List.append_nil, siteCheck, hsite]
    exact List.filterMap_eq_flatMap_toList ..

theorem readsDirectives_useCheck (f : DirectiveUse → List Fault) (schema : Schema) :
    ReadsDirectives schema (useCheck f) fun directive => f directive.use.item := by
  have hskips : Rule.SkipsLiterals (useCheck f) :=
    .of_each (fun _ _ => rfl) (fun _ _ => rfl) (fun _ _ _ => rfl)
  refine ⟨fun place node _ hother => ?_, fun place node location directives hsite => ?_⟩
  · cases node with
    | directive use => exact absurd rfl (hother use)
    | _ => rfl
  · have hnode : useCheck f place node = [] := by
      cases node with
      | directive use => cases hsite
      | _ => rfl
    rw [hnode, List.nil_append, Rule.run_directiveEvents schema hskips, attachedTo,
      List.flatMap_map]
    rfl

/-! ## Walking past fields -/

/-- A check that looks at fields only, and at the type that they are selected from. -/
def typedFieldCheck (f : TypedField → List Fault) (place : Surroundings) : Node → List Fault
  | .field node _ => f ⟨place.parent, node⟩
  | _ => []

section Fields

variable (f : TypedField → List Fault) (schema : Schema)

theorem typedFieldCheck_skipsLiterals : Rule.SkipsLiterals (typedFieldCheck f) :=
  .of_each (fun _ _ => rfl) (fun _ _ => rfl) (fun _ _ _ => rfl)

@[simp] theorem run_typedFieldCheck_directives (place : Surroundings)
    (directives : List (Located DirectiveUse)) :
    (Rule.onEnter (typedFieldCheck f)).run (directiveEvents schema place directives) = [] := by
  rw [Rule.run_directiveEvents schema (typedFieldCheck_skipsLiterals f)]
  simp [typedFieldCheck]

mutual

/-- Along a selection, each field in it is talked about once, with its type. Inside a selection set
the type at hand is the one that it selects from. -/
theorem run_typedFieldCheck_selection (place : Surroundings)
    (hplace : place.type? schema = place.parent) : (selection : Selection) →
      (Rule.onEnter (typedFieldCheck f)).run (selection.events schema place) =
        (selection.typedFields schema place.parent).flatMap f
  | .field node below => by
      rw [Selection.events, Selection.typedFields, List.flatMap_cons, Rule.run_onEnter_around,
        Rule.run_onEnter_append, Rule.run_onEnter_append,
        Rule.run_argumentEvents schema (typedFieldCheck_skipsLiterals f),
        run_typedFieldCheck_directives, List.nil_append, List.nil_append]
      cases below with
      | nil => rfl
      | cons first rest =>
          generalize place.parent.bind (schema.field? · node.item.name.item) = definition
          rw [if_neg (by simp), Rule.run_onEnter_around,
            run_typedFieldCheck_selections _ rfl (first :: rest)]
          cases definition <;> rfl
  | .spread node => by
      simp [Selection.events, Selection.typedFields, typedFieldCheck]
  | .inline ⟨_, ⟨none, _⟩⟩ body => by
      simp only [Selection.events, Selection.typedFields, Rule.run_onEnter_around,
        Rule.run_onEnter_append, run_typedFieldCheck_directives, List.nil_append, typedFieldCheck]
      rw [← hplace]
      exact run_typedFieldCheck_selections (place.within schema) rfl body
  | .inline ⟨_, ⟨some condition, _⟩⟩ body => by
      simp only [Selection.events, Selection.typedFields, Rule.run_onEnter_around,
        Rule.run_onEnter_append, run_typedFieldCheck_directives, List.nil_append, typedFieldCheck]
      exact run_typedFieldCheck_selections ((place.on condition.item).within schema) rfl body

theorem run_typedFieldCheck_selections (place : Surroundings)
    (hplace : place.type? schema = place.parent) : (selections : List Selection) →
      (Rule.onEnter (typedFieldCheck f)).run (Selection.listEvents schema place selections) =
        (Selection.listTypedFields schema place.parent selections).flatMap f
  | [] => rfl
  | selection :: rest => by
      rw [Selection.listEvents, Rule.run_onEnter_append,
        run_typedFieldCheck_selection place hplace selection,
        run_typedFieldCheck_selections place hplace rest, Selection.listTypedFields,
        List.flatMap_append]

end

theorem run_typedFieldCheck_selectionSet (place : Surroundings) (selections : List Selection) :
    (Rule.onEnter (typedFieldCheck f)).run (selectionSetEvents schema place selections) =
      (Selection.listTypedFields schema (place.type? schema) selections).flatMap f := by
  rw [selectionSetEvents, Rule.run_onEnter_around]
  exact run_typedFieldCheck_selections f schema (place.within schema) rfl selections

/-- Along an operation or a fragment, each field in it is talked about once, with its type. -/
theorem run_typedFieldCheck_definition {definition : Definition}
    (hexecutable : definition.isExecutable = true) :
    (Rule.onEnter (typedFieldCheck f)).run (definition.events schema) =
      (definition.typedFields schema).flatMap f := by
  cases definition with
  | operation node =>
      have hroot : ((schema.root? node.item.kind).map fun t => TypeExpr.named t.name true).bind
          (fun t => schema.type? t.innermost) = schema.root? node.item.kind := by
        cases hfound : schema.root? node.item.kind with
        | none => rfl
        | some t =>
            obtain ⟨name, -, htype⟩ := Option.bind_eq_some_iff.mp hfound
            have hname : t.name = name := by simpa using List.find?_some htype
            show schema.type? t.name = some t
            rw [hname]
            exact htype
      simp only [Definition.events, Definition.typedFields, Rule.run_onEnter_around,
        Rule.run_onEnter_append, run_typedFieldCheck_directives,
        Rule.run_variableEvents schema (typedFieldCheck_skipsLiterals f),
        run_typedFieldCheck_selectionSet, Surroundings.type?, hroot]
      simp [typedFieldCheck]
  | fragment node =>
      simp only [Definition.events, Definition.typedFields, Rule.run_onEnter_around,
        Rule.run_onEnter_append, run_typedFieldCheck_directives,
        run_typedFieldCheck_selectionSet, List.nil_append, typedFieldCheck]
      rfl
  | schema node => cases hexecutable
  | type node => cases hexecutable
  | directive node => cases hexecutable

theorem run_typedFieldCheck_document {document : Document}
    (hexecutable : ∀ definition ∈ document, definition.isExecutable = true) :
    (Rule.onEnter (typedFieldCheck f)).run (document.events schema) =
      (document.flatMap (Definition.typedFields schema)).flatMap f := by
  rw [Document.events, Rule.run_onEnter_around, Rule.run_onEnter_flatMap, List.flatMap_assoc]
  exact List.flatMap_congr fun definition hmem =>
    run_typedFieldCheck_definition f schema (hexecutable definition hmem)

end Fields

/-! ## The rules -/

/-- What two checks say together along a walk is what each of them says. -/
theorem Rule.run_onEnter_append_perm (check other : Surroundings → Node → List Fault)
    (events : List Event) :
    ((onEnter fun place node => check place node ++ other place node).run events).Perm
      ((onEnter check).run events ++ (onEnter other).run events) := by
  simp only [run_onEnter]
  refine .trans (.of_eq (List.flatMap_congr fun event _ => ?_))
    (List.flatMap_append_perm events _ _).symm
  cases event.phase <;> rfl

/-- Only a document that defines directives has its own. -/
theorem Document.directive?_eq_none {document : Document}
    (hexecutable : ∀ definition ∈ document, definition.isExecutable = true) (name : String) :
    document.directive? name = none := by
  have hnone : document.directives = [] := by
    refine List.eq_nil_iff_forall_not_mem.mpr fun node hnode => ?_
    cases hexecutable _ (mem_directives.mp hnode)
  simp [Document.directive?, hnone]

section

variable (schema : Schema) {document : Document}
  (hexecutable : ∀ definition ∈ document, definition.isExecutable = true)

include hexecutable

theorem Rules.knownDirectives_eq :
    Rules.knownDirectives schema document =
      .onEnter (siteCheck (AttachedDirective.fault? schema)) := by
  refine congrArg Rule.onEnter (funext fun place => funext fun node => ?_)
  unfold siteCheck
  cases node.directiveSite? with
  | none => rfl
  | some site =>
      simp only [attachedTo, List.filterMap_map]
      refine List.filterMap_congr fun use _ => ?_
      simp only [Rules.directiveLocations?, Document.directive?_eq_none hexecutable,
        Function.comp_apply, AttachedDirective.fault?]
      cases schema.directive? use.item.name.item with
      | none => rfl
      | some known => simp

theorem Rules.knownDirectives_perm :
    ((Rules.knownDirectives schema document).run (document.events schema)).Perm
      (document.attachedDirectives.filterMap (AttachedDirective.fault? schema)) := by
  rw [Rules.knownDirectives_eq schema hexecutable, List.filterMap_eq_flatMap_toList]
  exact (readsDirectives_siteCheck _ schema).run_document hexecutable

omit hexecutable in
/-- What the rule on argument names says of what a receiver is given. -/
theorem Receiver.filterMap_given (arguments : Option (Located (List Argument)))
    (receiver : Receiver) :
    (receiver.given arguments).filterMap (GivenArgument.fault? schema) =
      match receiver.declared? schema with
      | none => []
      | some declared =>
        Rules.knownArgumentNames.unknown arguments declared (receiver.violation ·) := by
  unfold Receiver.given Rules.knownArgumentNames.unknown
  rw [List.filterMap_map]
  cases hdeclared : receiver.declared? schema with
  | none =>
      exact List.filterMap_eq_nil_iff.mpr fun argument _ => by
        simp [GivenArgument.fault?, hdeclared]
  | some declared =>
      dsimp only
      rw [← List.filterMap_eq_map, List.filterMap_filter]
      refine List.filterMap_congr fun argument _ => ?_
      simp [GivenArgument.fault?, hdeclared, ite_not]

theorem Rules.knownArgumentNames_eq :
    Rules.knownArgumentNames schema document = .onEnter fun place node =>
      typedFieldCheck (fun field => field.given.filterMap (GivenArgument.fault? schema)) place
          node ++
        useCheck (fun use => use.given.filterMap (GivenArgument.fault? schema)) place node := by
  refine congrArg Rule.onEnter (funext fun place => funext fun node => ?_)
  cases node with
  | field node below =>
      simp only [typedFieldCheck, useCheck, List.append_nil, TypedField.given]
      cases place.parent with
      | none => rfl
      | some parent =>
          dsimp only
          rw [Receiver.filterMap_given, Receiver.declared?]
          cases schema.field? parent node.item.name.item <;> rfl
  | directive node =>
      simp only [typedFieldCheck, useCheck, List.nil_append, DirectiveUse.given,
        Rules.directiveArguments?, Document.directive?_eq_none hexecutable]
      rw [Receiver.filterMap_given, Receiver.declared?]
      cases schema.directive? node.item.name.item <;> rfl
  | _ => rfl

theorem Rules.knownArgumentNames_perm :
    ((Rules.knownArgumentNames schema document).run (document.events schema)).Perm
      ((document.givenArguments schema).filterMap (GivenArgument.fault? schema)) := by
  rw [Rules.knownArgumentNames_eq schema hexecutable, Document.givenArguments,
    List.filterMap_append, List.filterMap_flatMap, List.filterMap_flatMap]
  refine (Rule.run_onEnter_append_perm _ _ _).trans (.append ?_ ?_)
  · rw [run_typedFieldCheck_document _ schema hexecutable]
  · exact (readsDirectives_useCheck _ schema).run_document hexecutable

end

/-- The rules on directives and on argument names find exactly one fault for each directive that is
unknown or misplaced, and for each argument that its receiver does not declare. -/
structure Document.AttributedExactly (schema : Schema) (document : Document) : Prop where
  directives : ((Rules.knownDirectives schema document).run (document.events schema)).Perm
    (document.attachedDirectives.filterMap (AttachedDirective.fault? schema))
  arguments : ((Rules.knownArgumentNames schema document).run (document.events schema)).Perm
    ((document.givenArguments schema).filterMap (GivenArgument.fault? schema))

/-- Arguments of the given names. -/
def argumentsNamed (names : List String) : Option (Located (List Argument)) :=
  some (.unlocated (names.map fun name => ⟨.unlocated name, .unlocated .null⟩))

def yardSchema : Schema where
  description := none
  query := some "Yard"
  mutation := none
  subscription := none
  types := [{
    name := "Yard"
    shape := .object [] [{
      name := "crane", type := .named "Crane" false
      arguments := [{ name := "no", type := .named "Int" false }] }] }, {
    name := "Crane"
    shape := .object [] [{
      name := "lift", type := .named "Int" false
      arguments := [{ name := "tons", type := .named "Int" false }] }] }]
  directives := [{
    name := "slow", locations := [.field]
    arguments := [{ name := "by", type := .named "Int" false }] }]
  ambiguous := []
  assumeValid := false

/-- A directive that is allowed on one node and not on those around and inside it, and arguments
that stand between two owners. -/
def yardDocument : Document :=
  let slow : Located DirectiveUse := .unlocated ⟨.unlocated "slow", none⟩
  let lift : FieldHead := ⟨none, .unlocated "lift", argumentsNamed ["tons", "no"], []⟩
  let crane : FieldHead := ⟨none, .unlocated "crane", argumentsNamed ["no", "tons"], [
    .unlocated ⟨.unlocated "slow", argumentsNamed ["by", "no"]⟩,
    .unlocated ⟨.unlocated "fast", argumentsNamed ["by"]⟩]⟩
  [.operation (.unlocated ⟨.query, none, none, [slow], [.field (.unlocated crane) [
    .inline (.unlocated ⟨none, [slow]⟩) [.field (.unlocated lift) []]]]⟩)]

end GraphQL
