import GraphQL.Proofs.Tracing

/-!
# Parsers move forward

`Advances least p` says that the parser `p` never moves a cursor back, whether it succeeds or fails,
and that it has passed over at least `least` tokens when it succeeds. Only `Parser.next` moves a
cursor, by one token at a time, so this holds of whatever is built from it; each operation of which
parsers are built has one rule here, and each part of the grammar one lemma.

The parts that are read in a loop advance by a token at least. This is what ends the loops.
-/

namespace GraphQL

/-- A cursor has moved over some tokens, towards the same end of the text. -/
structure Cursor.Passes (c : Cursor) (tokens : List (Located Token)) (c' : Cursor) : Prop
    extends Cursor.Moves c tokens c' where
  finish : c'.finish = c.finish

namespace Cursor.Passes

variable {c c' c'' : Cursor} {tokens more : List (Located Token)}

theorem refl (c : Cursor) : c.Passes [] c :=
  ⟨.refl c, rfl⟩

theorem trans (h : c.Passes tokens c') (h' : c'.Passes more c'') :
    c.Passes (tokens ++ more) c'' :=
  ⟨h.toMoves.trans h'.toMoves, h'.finish.trans h.finish⟩

theorem length_ahead (h : c.Passes tokens c') :
    c.ahead.length = tokens.length + c'.ahead.length := by
  rw [h.ahead, List.length_append]

end Cursor.Passes

/-- A parser that goes on after another one fails if either does. -/
theorem error_of_bind {α β : Type} {p : Parser α} {q : α → Parser β} {c c'' : Cursor}
    {e : Located ParseError} (h : (p >>= q) c = .error e c'') :
    p c = .error e c'' ∨ ∃ a c', p c = .ok a c' ∧ q a c' = .error e c'' := by
  simp only [Bind.bind, EStateM.bind] at h
  split at h
  · rename_i a c' hp
    exact .inr ⟨a, c', hp, h⟩
  · rename_i e' c' hp
    cases h
    exact .inl hp

/-- A parser only moves forward, and succeeds only behind at least so many tokens. -/
structure Advances {α : Type} (least : Nat) (p : Parser α) : Prop where
  ok : ∀ {c a c'}, p c = .ok a c' → ∃ tokens, c.Passes tokens c' ∧ least ≤ tokens.length
  error : ∀ {c e c'}, p c = .error e c' → ∃ tokens, c.Passes tokens c'

section Rules

variable {α β : Type} {m n : Nat}

theorem Advances.mono {p : Parser α} (hp : Advances n p) (h : m ≤ n) : Advances m p where
  ok hrun := by
    obtain ⟨tokens, hpasses, hlength⟩ := hp.ok hrun
    exact ⟨tokens, hpasses, Nat.le_trans h hlength⟩
  error := hp.error

/-- Whatever a parser needs in order to succeed, it moves forward. -/
theorem Advances.forward {p : Parser α} (hp : Advances n p) : Advances 0 p :=
  hp.mono (Nat.zero_le n)

theorem Advances.pure (a : α) : Advances 0 (Pure.pure a : Parser α) where
  ok hrun := by
    cases hrun
    exact ⟨[], .refl _, Nat.le_refl 0⟩
  error hrun := nomatch hrun

theorem Advances.throw (e : Located ParseError) : Advances n (throw e : Parser α) where
  ok hrun := nomatch hrun
  error hrun := by
    cases hrun
    exact ⟨[], .refl _⟩

/-- Tokens that are needed one after the other add up. -/
theorem Advances.bind {p : Parser α} {q : α → Parser β} (hp : Advances m p)
    (hq : ∀ a, Advances n (q a)) : Advances (m + n) (p >>= q) where
  ok hrun := by
    obtain ⟨a, c', hfirst, hsecond⟩ := ok_of_bind hrun
    obtain ⟨tokens, hpasses, hm⟩ := hp.ok hfirst
    obtain ⟨more, hpasses', hn⟩ := (hq a).ok hsecond
    refine ⟨tokens ++ more, hpasses.trans hpasses', ?_⟩
    rw [List.length_append]
    exact Nat.add_le_add hm hn
  error hrun := by
    obtain hfirst | ⟨a, c', hfirst, hsecond⟩ := error_of_bind hrun
    · exact hp.error hfirst
    · obtain ⟨tokens, hpasses, -⟩ := hp.ok hfirst
      obtain ⟨more, hpasses'⟩ := (hq a).error hsecond
      exact ⟨tokens ++ more, hpasses.trans hpasses'⟩

/-- The first parser passes over what is needed. -/
theorem Advances.andThen {p : Parser α} {q : α → Parser β} (hp : Advances n p)
    (hq : ∀ a, Advances 0 (q a)) : Advances n (p >>= q) :=
  hp.bind hq

/-- The parser that goes on passes over what is needed. -/
theorem Advances.after {p : Parser α} {q : α → Parser β} (hp : Advances 0 p)
    (hq : ∀ a, Advances n (q a)) : Advances n (p >>= q) :=
  (hp.bind hq).mono (Nat.le_add_left n 0)

theorem Advances.map {p : Parser α} {f : α → β} (hp : Advances n p) : Advances n (f <$> p) := by
  rw [map_eq_pure_bind]
  exact hp.andThen fun a => .pure (f a)

theorem advances_peek : Advances 0 Parser.peek where
  ok hrun := by
    cases hrun
    exact ⟨[], .refl _, Nat.le_refl 0⟩
  error hrun := nomatch hrun

theorem Advances.peek {q : Located Token → Parser β} (hq : ∀ t, Advances n (q t)) :
    Advances n (Parser.peek >>= q) :=
  advances_peek.after hq

theorem Advances.ite {condition : Prop} [Decidable condition] {p q : Parser α}
    (hp : Advances n p) (hq : Advances n q) : Advances n (if condition then p else q) := by
  split
  · exact hp
  · exact hq

theorem advances_next : Advances 1 Parser.next where
  ok {c t c'} hrun := by
    obtain ⟨-, hmoves⟩ := next_eq_ok hrun
    refine ⟨[t], ⟨hmoves, ?_⟩, Nat.le_refl 1⟩
    unfold Parser.next at hrun
    split at hrun <;> cases hrun
    rfl
  error {c e c'} hrun := by
    unfold Parser.next at hrun
    split at hrun <;> cases hrun
    exact ⟨[], .refl c⟩

/-- What always fails needs as many tokens as one likes. -/
theorem advances_unexpected : Advances n (Parser.unexpected : Parser α) where
  ok hrun := (ok_of_unexpected hrun).elim
  error hrun := (advances_next.bind fun _ => Advances.throw (n := 0) _).error hrun

theorem advances_bounded {body : Parser α → Parser α}
    (h : ∀ p, Advances n p → Advances n (body p)) (bound : Nat) :
    Advances n (Parser.bounded body bound) :=
  bounded_induction advances_unexpected h bound

theorem Advances.fix {body : Parser α → Parser α}
    (h : ∀ p, Advances n p → Advances n (body p)) : Advances n (Parser.fix body) where
  ok {c _ _} hrun := (advances_bounded h (c.ahead.length + 1)).ok hrun
  error {c _ _} hrun := (advances_bounded h (c.ahead.length + 1)).error hrun

theorem advances_get : Advances 0 (get : Parser Cursor) where
  ok hrun := by
    cases hrun
    exact ⟨[], .refl _, Nat.le_refl 0⟩
  error hrun := nomatch hrun

theorem Advances.located {p : Parser α} (hp : Advances n p) : Advances n (Parser.located p) :=
  .peek fun _ => hp.andThen fun _ => advances_get.andThen fun _ => .pure _

/-! ## Single tokens -/

theorem advances_expect (token : Token) : Advances 1 (Parser.expect token) :=
  .peek fun _ => .ite advances_next advances_unexpected

theorem advances_expectMark (p : Punctuator) : Advances 1 (Parser.expectMark p) :=
  (advances_expect (.mark p)).map

theorem advances_expectKeyword (word : String) : Advances 1 (Parser.expectKeyword word) :=
  (advances_expect (.name word)).map

theorem advances_skip (token : Token) : Advances 0 (Parser.skip token) :=
  .peek fun _ => .ite advances_next.forward.map (.ite (.throw _) (.pure none))

theorem advances_accept (token : Token) : Advances 0 (Parser.accept token) :=
  .peek fun _ => .ite advances_next.forward.map (.pure none)

theorem advances_acceptMark (p : Punctuator) : Advances 0 (Parser.acceptMark p) :=
  (advances_accept (.mark p)).map

theorem advances_acceptKeyword (word : String) : Advances 0 (Parser.acceptKeyword word) :=
  (advances_accept (.name word)).map

theorem advances_atMark (p : Punctuator) : Advances 0 (Parser.atMark p) :=
  .peek fun _ => .pure _

theorem advances_name : Advances 1 Parser.name := by
  refine .peek fun t => ?_
  split
  · exact advances_next.andThen fun _ => .pure _
  · exact advances_unexpected

/-! ## Lists -/

variable {item : Parser α}

theorem advances_itemsUntil (hitem : Advances n item) (closing : Token) :
    Advances 0 (Parser.itemsUntil item closing) := by
  refine .fix fun more hmore => (advances_skip closing).andThen fun _ => .ite (.pure []) ?_
  exact hitem.forward.andThen fun _ => hmore.andThen fun _ => .pure _

theorem advances_delimited (hitem : Advances n item) (opening closing : Token) :
    Advances 1 (Parser.delimited opening item closing) :=
  (advances_expect opening).andThen fun _ => advances_itemsUntil hitem closing

theorem advances_delimitedNonempty (hitem : Advances n item) (opening closing : Token) :
    Advances 1 (Parser.delimitedNonempty opening item closing) :=
  (advances_expect opening).andThen fun _ => hitem.forward.andThen fun _ =>
    (advances_itemsUntil hitem closing).andThen fun _ => .pure _

theorem advances_optionalList (hitem : Advances n item) (opening closing : Punctuator) :
    Advances 0 (Parser.optionalList opening item closing) :=
  (advances_atMark opening).andThen fun _ =>
    .ite (advances_delimitedNonempty hitem _ _).forward (.pure [])

theorem advances_separated (hitem : Advances n item) (separator : Punctuator) :
    Advances 0 (Parser.separated separator item) := by
  have hrest : Advances 0 (Parser.separatedRest separator item) := by
    refine .fix fun more hmore => (advances_acceptMark separator).andThen fun _ => ?_
    exact .ite (hitem.forward.andThen fun _ => hmore.andThen fun _ => .pure _) (.pure [])
  exact (advances_acceptMark separator).andThen fun _ => hitem.forward.andThen fun _ =>
    hrest.andThen fun _ => .pure _

end Rules

/-! ## Values and types -/

theorem advances_scalar : Advances 1 Parser.scalar := by
  refine advances_next.andThen fun t => ?_
  split
  · exact .pure _
  · exact .throw _

theorem advances_objectEntry {n : Nat} {value : Parser (Located Value)}
    (hvalue : Advances n value) : Advances 1 (Parser.objectEntry value) :=
  advances_name.andThen fun _ => (advances_expectMark .colon).forward.andThen fun _ =>
    hvalue.forward.andThen fun _ => .pure _

theorem advances_valueBody (constant : Bool) {n : Nat} {value : Parser (Located Value)}
    (hvalue : Advances n value) : Advances 1 (Parser.valueBody constant value) := by
  refine .located (.peek fun t => ?_)
  split
  · exact (advances_delimited hvalue _ _).map
  · exact (advances_delimited (advances_objectEntry hvalue) _ _).map
  · refine .ite advances_unexpected ?_
    exact (advances_expectMark .dollar).andThen fun _ => advances_name.forward.andThen fun _ =>
      .pure _
  · exact advances_scalar
  · exact advances_scalar
  · exact advances_scalar
  · exact advances_scalar
  · exact advances_name.andThen fun _ => .pure _
  · exact advances_unexpected

theorem advances_value (constant : Bool) : Advances 1 (Parser.value constant) :=
  .fix fun _ hvalue => advances_valueBody constant hvalue

theorem advances_typeBody {n : Nat} (hn : n ≤ 1) {type : Parser TypeLiteral}
    (htype : Advances n type) : Advances n (Parser.typeBody type) := by
  have hrequired (t : TypeLiteral) : Advances 0 (do
      if ← Parser.acceptMark .exclamation then return t.required else return t) :=
    (advances_acceptMark .exclamation).andThen fun _ => .ite (.pure _) (.pure _)
  refine (advances_acceptMark .bracketOpen).after fun found => ?_
  cases found with
  | true =>
      exact htype.andThen fun _ => (advances_expectMark .bracketClose).forward.andThen fun _ =>
        hrequired _
  | false => exact (advances_name.mono hn).andThen fun _ => hrequired _

theorem advances_type : Advances 1 Parser.type :=
  .located (.fix fun _ htype => advances_typeBody (Nat.le_refl 1) htype)

/-! ## Selections -/

theorem advances_argument : Advances 1 Parser.argument :=
  advances_name.andThen fun _ => (advances_expectMark .colon).forward.andThen fun _ =>
    (advances_value false).forward.andThen fun _ => .pure _

/-- Items in parentheses, if there are any. -/
theorem advances_parenthesized {α : Type} {n : Nat} {item : Parser α} (hitem : Advances n item) :
    Advances 0 (do
      if ← Parser.atMark .parenOpen then
        some <$> Parser.located
          (Parser.delimitedNonempty (.mark .parenOpen) item (.mark .parenClose))
      else return none) :=
  (advances_atMark .parenOpen).andThen fun _ =>
    .ite (advances_delimitedNonempty hitem _ _).forward.located.map (.pure none)

theorem advances_arguments : Advances 0 Parser.arguments :=
  advances_parenthesized advances_argument

theorem advances_directive : Advances 1 Parser.directive :=
  .located ((advances_expectMark .atSign).andThen fun _ => advances_name.forward.andThen fun _ =>
    advances_arguments.andThen fun _ => .pure _)

theorem advances_directives : Advances 0 Parser.directives := by
  refine .fix fun more hmore => (advances_atMark .atSign).andThen fun _ => .ite ?_ (.pure [])
  exact advances_directive.forward.andThen fun _ => hmore.andThen fun _ => .pure _

theorem advances_fieldHead : Advances 1 Parser.fieldHead := by
  have hrest (responseAlias : Option Name) (name : Name) : Advances 0 (do
      let arguments ← Parser.arguments
      return (⟨responseAlias, name, arguments, ← Parser.directives⟩ : FieldHead)) :=
    advances_arguments.andThen fun _ => advances_directives.andThen fun _ => .pure _
  refine advances_name.andThen fun first => (advances_skip (.mark .colon)).andThen fun found => ?_
  cases found with
  | some _ => exact advances_name.forward.andThen fun name => hrest (some first) name
  | none => exact hrest none first

section

variable {n : Nat} {selections : Parser (List Selection)} (hselections : Advances n selections)

include hselections

theorem advances_withSelections {α : Type} {m : Nat} {head : Parser α} (hhead : Advances m head) :
    Advances m (Parser.withSelections head selections) := by
  have hboth : Advances m (do
      let head ← head
      return (head, ← selections)) :=
    hhead.andThen fun _ => hselections.forward.andThen fun _ => .pure _
  exact hboth.located.andThen fun _ => .pure _

theorem advances_field : Advances 1 (Parser.field selections) := by
  have hoptional : Advances 0 (do if ← Parser.atMark .braceOpen then selections else return []) :=
    (advances_atMark .braceOpen).andThen fun _ => .ite hselections.forward (.pure [])
  exact (advances_withSelections hoptional advances_fieldHead).andThen fun _ => .pure _

theorem advances_afterEllipsis : Advances 0 (Parser.afterEllipsis selections) := by
  have hinline (condition : Option Name) : Advances 0 (do
      let directives ← Parser.directives
      return (.inr (⟨condition, directives⟩, ← selections) :
        FragmentSpread ⊕ InlineHead × List Selection)) :=
    advances_directives.andThen fun _ => hselections.forward.andThen fun _ => .pure _
  refine .peek fun t => ?_
  split
  · exact (advances_expectKeyword "on").forward.andThen fun _ =>
      advances_name.forward.andThen fun condition => hinline (some condition)
  · exact hinline none
  · exact hinline none
  · exact advances_name.forward.andThen fun _ => advances_directives.andThen fun _ => .pure _
  · exact advances_unexpected

theorem advances_fragment : Advances 1 (Parser.fragment selections) := by
  have hpart : Advances 1 (do
      Parser.expectMark .ellipsis
      Parser.afterEllipsis selections) :=
    (advances_expectMark .ellipsis).andThen fun _ => advances_afterEllipsis hselections
  refine hpart.located.andThen fun part => ?_
  obtain ⟨span, spread | ⟨head, selections⟩⟩ := part
  · exact .pure _
  · exact .pure _

theorem advances_selection : Advances 1 (Parser.selection selections) :=
  (advances_atMark .ellipsis).after fun _ =>
    .ite (advances_fragment hselections) (advances_field hselections)

end

theorem advances_selections : Advances 1 Parser.selections :=
  .fix fun _ hselections => advances_delimitedNonempty (advances_selection hselections) _ _

/-! ## Operations and fragments -/

theorem advances_variableDefinition : Advances 1 Parser.variableDefinition := by
  have hname : Advances 1 (do
      Parser.expectMark .dollar
      return (← Parser.name).item) :=
    (advances_expectMark .dollar).andThen fun _ => advances_name.forward.andThen fun _ => .pure _
  have hrest (name : Name) (type : Located TypeLiteral) (default : Option (Located Value)) :
      Advances 0 (do
        return (⟨name, type, default, ← Parser.directives⟩ : VariableDefinition)) :=
    advances_directives.andThen fun _ => .pure _
  refine hname.located.andThen fun name => (advances_expectMark .colon).forward.andThen fun _ => ?_
  refine advances_type.forward.andThen fun type => (advances_skip (.mark .equals)).andThen ?_
  intro found
  cases found with
  | some _ => exact (advances_value true).forward.map.andThen fun _ => hrest name type _
  | none => exact hrest name type none

theorem advances_variableDefinitions : Advances 0 Parser.variableDefinitions :=
  advances_parenthesized advances_variableDefinition

theorem advances_operationKind : Advances 1 Parser.operationKind := by
  refine .peek fun t => ?_
  split
  · split
    · exact (advances_expectKeyword _).andThen fun _ => .pure _
    · exact advances_unexpected
  · exact advances_unexpected

theorem advances_optionalName : Advances 0 Parser.optionalName := by
  refine .peek fun t => ?_
  split
  · exact advances_name.forward.map
  · exact .pure none

theorem advances_operation : Advances 1 Parser.operation := by
  refine (advances_atMark .braceOpen).after fun _ => .ite ?_ ?_
  · exact advances_selections.andThen fun _ => .pure _
  · exact advances_operationKind.andThen fun _ => advances_optionalName.andThen fun _ =>
      advances_variableDefinitions.andThen fun _ => advances_directives.andThen fun _ =>
        advances_selections.forward.andThen fun _ => .pure _

theorem advances_fragmentDefinition : Advances 1 Parser.fragmentDefinition := by
  have hname : Advances 0 Parser.fragmentName :=
    advances_name.forward.andThen fun _ => .ite (.throw _) (.pure _)
  exact (advances_expectKeyword "fragment").andThen fun _ => hname.andThen fun _ =>
    (advances_expectKeyword "on").forward.andThen fun _ => advances_name.forward.andThen fun _ =>
      advances_directives.andThen fun _ => advances_selections.forward.andThen fun _ => .pure _

/-! ## Type systems -/

theorem advances_description : Advances 0 Parser.description := by
  refine .peek fun t => ?_
  split
  · exact advances_scalar.forward.located.andThen fun _ => .pure _
  · exact advances_scalar.forward.located.andThen fun _ => .pure _
  · exact .pure none

theorem advances_inputValueDefinition : Advances 1 Parser.inputValueDefinition := by
  have hrest (description : Option Name) (name : Name) (type : Located TypeLiteral)
      (default : Option (Located Value)) : Advances 0 (do
        return (⟨description, name, type, default, ← Parser.directives⟩ : InputValueDefinition)) :=
    advances_directives.andThen fun _ => .pure _
  refine .located (advances_description.after fun description => advances_name.andThen ?_)
  refine fun name => (advances_expectMark .colon).forward.andThen fun _ => ?_
  refine advances_type.forward.andThen fun type => (advances_acceptMark .equals).andThen ?_
  intro found
  cases found with
  | true => exact (advances_value true).forward.map.andThen fun _ => hrest description name type _
  | false => exact hrest description name type none

theorem advances_argumentDefinitions : Advances 0 Parser.argumentDefinitions :=
  advances_optionalList advances_inputValueDefinition .parenOpen .parenClose

theorem advances_fieldDefinition : Advances 1 Parser.fieldDefinition :=
  .located (advances_description.after fun _ => advances_name.andThen fun _ =>
    advances_argumentDefinitions.andThen fun _ =>
      (advances_expectMark .colon).forward.andThen fun _ => advances_type.forward.andThen fun _ =>
        advances_directives.andThen fun _ => .pure _)

theorem advances_enumValueDefinition : Advances 1 Parser.enumValueDefinition :=
  .located (advances_description.after fun _ => advances_name.andThen fun _ =>
    advances_directives.andThen fun _ => .pure _)

theorem advances_rootDefinition : Advances 1 Parser.rootDefinition :=
  .located (advances_operationKind.andThen fun _ => (advances_expectMark .colon).forward.andThen
    fun _ => advances_name.forward.andThen fun _ => .pure _)

theorem advances_implemented : Advances 0 Parser.implemented :=
  (advances_acceptKeyword "implements").andThen fun _ =>
    .ite (advances_separated advances_name .ampersand) (.pure [])

theorem advances_unionMembers : Advances 0 Parser.unionMembers :=
  (advances_acceptMark .equals).andThen fun _ =>
    .ite (advances_separated advances_name .pipe) (.pure [])

theorem advances_schemaDefinition (extension : Bool) (description : Option Name) :
    Advances 1 (Parser.schemaDefinition extension description) := by
  have hroots (directives : List (Located DirectiveUse)) (bare : Bool) : Advances 0 (do
      let roots ←
        if bare then pure []
        else Parser.delimitedNonempty (.mark .braceOpen) Parser.rootDefinition (.mark .braceClose)
      return (⟨extension, description, directives, roots⟩ : SchemaDefinition)) := by
    refine .ite ((Advances.pure []).andThen fun _ => .pure _) ?_
    exact (advances_delimitedNonempty advances_rootDefinition _ _).forward.andThen fun _ => .pure _
  refine (advances_expectKeyword "schema").andThen fun _ => advances_directives.andThen ?_
  refine fun directives => .ite ?_ ?_
  · exact (advances_atMark .braceOpen).map.andThen fun bare => hroots directives bare
  · exact (Advances.pure false).andThen fun bare => hroots directives bare

theorem advances_typeBodyOf {word : String} {body : Parser (List (Located DirectiveUse) × TypeBody)}
    (h : Parser.typeBodyOf word = some body) : Advances 0 body := by
  unfold Parser.typeBodyOf at h
  split at h <;> cases h
  · exact advances_directives.andThen fun _ => .pure _
  · exact advances_implemented.andThen fun _ => advances_directives.andThen fun _ =>
      (advances_optionalList advances_fieldDefinition _ _).andThen fun _ => .pure _
  · exact advances_implemented.andThen fun _ => advances_directives.andThen fun _ =>
      (advances_optionalList advances_fieldDefinition _ _).andThen fun _ => .pure _
  · exact advances_directives.andThen fun _ => advances_unionMembers.andThen fun _ => .pure _
  · exact advances_directives.andThen fun _ =>
      (advances_optionalList advances_enumValueDefinition _ _).andThen fun _ => .pure _
  · exact advances_directives.andThen fun _ =>
      (advances_optionalList advances_inputValueDefinition _ _).andThen fun _ => .pure _

theorem advances_directiveLocation : Advances 1 Parser.directiveLocation := by
  refine advances_name.andThen fun name => ?_
  split
  · exact .pure _
  · exact .throw _

theorem advances_directiveDefinition (description : Option Name) :
    Advances 1 (Parser.directiveDefinition description) :=
  (advances_expectKeyword "directive").andThen fun _ =>
    (advances_expectMark .atSign).forward.andThen fun _ => advances_name.forward.andThen fun _ =>
      advances_argumentDefinitions.andThen fun _ =>
        (advances_acceptKeyword "repeatable").andThen fun _ =>
          (advances_expectKeyword "on").forward.andThen fun _ =>
            (advances_separated advances_directiveLocation .pipe).andThen fun _ => .pure _

theorem advances_typeSystemDefinition (extension : Bool) (description : Option Name) :
    Advances 1 (Parser.typeSystemDefinition extension description) := by
  refine .peek fun t => ?_
  split
  · refine .ite (advances_schemaDefinition extension description).map ?_
    refine .ite (advances_directiveDefinition description).map ?_
    split
    · rename_i body hbody
      refine Advances.map (advances_next.andThen fun _ => advances_name.forward.andThen fun _ => ?_)
      exact (advances_typeBodyOf hbody).andThen fun _ => .pure _
    · exact advances_unexpected
  · exact advances_unexpected

theorem advances_described (description : Option Name) :
    Advances 1 (Parser.described description) := by
  refine .ite (advances_typeSystemDefinition false description) (.peek fun t => ?_)
  split
  · exact advances_operation.map
  · exact advances_operation.map
  · exact advances_operation.map
  · exact advances_operation.map
  · exact advances_fragmentDefinition.map
  · exact (advances_expectKeyword "extend").andThen fun _ =>
      (advances_typeSystemDefinition true none).forward
  · exact advances_typeSystemDefinition false none

theorem advances_definition : Advances 1 Parser.definition := by
  have hdefined : Advances 1 (do Parser.described (← Parser.description)) :=
    advances_description.after advances_described
  exact hdefined.located.andThen fun _ => .pure _

end GraphQL
