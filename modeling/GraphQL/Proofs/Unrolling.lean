import GraphQL.Proofs.Progress
import Mathlib.Logic.Function.Iterate

/-!
# Reading ends

A parser made by `Parser.fix` runs its body as often as the bound allows, so it does what its body
says only if the bound is never felt. It is not, since every body reads a token before it comes to
itself again: what it does with some tokens ahead depends only on what the parser for the inner part
does with fewer (`Productive`). So if a body is unrolled more often than there are tokens ahead, it
makes no difference which parser stands for the part that was not unrolled
(`Productive.iterate_eq`): the loop has ended, or the inmost nesting has been reached, before it
comes to that parser.
-/

namespace GraphQL

/-- With fewer tokens ahead than given, two parsers do the same. -/
def AgreeBelow {α : Type} (n : Nat) (p q : Parser α) : Prop :=
  ∀ c : Cursor, c.ahead.length < n → p c = q c

section Rules

variable {α β : Type} {m n : Nat}

theorem AgreeBelow.refl (p : Parser α) : AgreeBelow n p p :=
  fun _ _ => rfl

/-- What goes on behind a parser has fewer tokens ahead, by as many as the parser needs. -/
theorem AgreeBelow.bind_advances {p p' : Parser α} {q q' : α → Parser β}
    (hp : AgreeBelow (n + m) p p') (hadvances : Advances m p')
    (hq : ∀ a, AgreeBelow n (q a) (q' a)) : AgreeBelow (n + m) (p >>= q) (p' >>= q') := by
  intro c hc
  simp only [Bind.bind, EStateM.bind, hp c hc]
  cases hrun : p' c with
  | ok a c' =>
      obtain ⟨tokens, hpasses, hleast⟩ := hadvances.ok hrun
      have hlength := hpasses.length_ahead
      exact hq a c' (by omega)
  | error e c' => rfl

theorem AgreeBelow.bind {p p' : Parser α} {q q' : α → Parser β} (hp : AgreeBelow n p p')
    (hforward : Advances m p') (hq : ∀ a, AgreeBelow n (q a) (q' a)) :
    AgreeBelow n (p >>= q) (p' >>= q') :=
  .bind_advances (m := 0) hp hforward.forward hq

theorem AgreeBelow.behind {p : Parser α} {q q' : α → Parser β} (hp : Advances 1 p)
    (hq : ∀ a, AgreeBelow n (q a) (q' a)) : AgreeBelow (n + 1) (p >>= q) (p >>= q') :=
  .bind_advances (.refl p) hp hq

/-- Nothing has to be known of what goes on in the same way. -/
theorem AgreeBelow.bind_same {p p' : Parser α} (hp : AgreeBelow n p p') (q : α → Parser β) :
    AgreeBelow n (p >>= q) (p' >>= q) := by
  intro c hc
  simp only [Bind.bind, EStateM.bind, hp c hc]

theorem AgreeBelow.map {p p' : Parser α} (hp : AgreeBelow n p p') (f : α → β) :
    AgreeBelow n (f <$> p) (f <$> p') := by
  intro c hc
  simp only [Functor.map, EStateM.map, hp c hc]

theorem AgreeBelow.peek {q q' : Located Token → Parser β} (hq : ∀ t, AgreeBelow n (q t) (q' t)) :
    AgreeBelow n (Parser.peek >>= q) (Parser.peek >>= q') :=
  .bind (.refl _) advances_peek hq

theorem AgreeBelow.ite {condition : Prop} [Decidable condition] {p p' q q' : Parser α}
    (hp : AgreeBelow n p p') (hq : AgreeBelow n q q') :
    AgreeBelow n (if condition then p else q) (if condition then p' else q') := by
  split
  · exact hp
  · exact hq

theorem AgreeBelow.located {p p' : Parser α} (hp : AgreeBelow n p p') :
    AgreeBelow n (Parser.located p) (Parser.located p') :=
  .peek fun _ => hp.bind_same _

/-- A mark that comes next is read. -/
theorem AgreeBelow.acceptMark {mark : Punctuator} {q q' : Bool → Parser β}
    (htrue : AgreeBelow n (q true) (q' true)) (hfalse : AgreeBelow (n + 1) (q false) (q' false)) :
    AgreeBelow (n + 1) (Parser.acceptMark mark >>= q) (Parser.acceptMark mark >>= q') := by
  have hmark : Lays (fun _ => True) (Parser.acceptMark mark) [] fun found =>
      Layout.present found (Layout.mark mark) := lays_acceptMark mark
  intro c hc
  simp only [Bind.bind, EStateM.bind]
  cases hrun : Parser.acceptMark mark c with
  | ok found c' =>
      obtain ⟨tokens, hmoves, hlays⟩ := hmark c found c' trivial hrun
      have hlength : c.ahead.length = tokens.length + c'.ahead.length := by
        rw [hmoves.ahead, List.length_append]
      cases found with
      | true =>
          obtain ⟨t, rfl, -⟩ := Layout.spelledBy_seq_singleton.mp (hlays [] rfl)
          rw [List.length_singleton] at hlength
          exact htrue c' (by omega)
      | false => exact hfalse c' (by omega)
  | error e c' => rfl

/-- A body moves forward if the parser for the inner part does, and comes to it only behind a
token. -/
structure Productive (body : Parser α → Parser α) : Prop where
  forward : ∀ p, Advances 0 p → Advances 0 (body p)
  guarded : ∀ n p q, Advances 0 q → AgreeBelow n p q → AgreeBelow (n + 1) (body p) (body q)

theorem bounded_eq_iterate (body : Parser α → Parser α) (bound : Nat) :
    Parser.bounded body bound = body^[bound] Parser.unexpected := by
  induction bound with
  | zero => rfl
  | succ bound ih => rw [Parser.bounded, ih, Function.iterate_succ_apply']

/-- Where it is unrolled often enough, a body does what it does with a greater bound. -/
theorem Productive.agreeBelow_bounded {body : Parser α → Parser α} (h : Productive body)
    (p : Parser α) (n extra : Nat) :
    AgreeBelow n (body^[n] p) (Parser.bounded body (n + extra)) := by
  induction n with
  | zero => exact fun c hc => absurd hc (Nat.not_lt_zero _)
  | succ n ih =>
      rw [Function.iterate_succ_apply', Nat.succ_add]
      exact h.guarded n _ _ (advances_bounded h.forward _) ih

/-- **Unrolling.**  If a body is unrolled more often than there are tokens ahead, then whatever
parser stands for the inmost part, this is the parser that the body makes. -/
theorem Productive.iterate_eq {body : Parser α → Parser α} (h : Productive body) (p : Parser α)
    {c : Cursor} {n : Nat} (hn : c.ahead.length < n) : body^[n] p c = Parser.fix body c := by
  obtain ⟨extra, rfl⟩ := Nat.exists_eq_add_of_lt hn
  have hunrolled := h.agreeBelow_bounded p (c.ahead.length + extra + 1) 0 c (by omega)
  have hbound := h.agreeBelow_bounded Parser.unexpected (c.ahead.length + 1) extra c (by omega)
  rw [← bounded_eq_iterate, Nat.add_right_comm] at hbound
  exact hunrolled.trans hbound.symm

end Rules

/-! ## Lists -/

namespace Parser

variable {α : Type}

/-- One round of the loop that reads items up to a closing mark. -/
def itemsBody (item : Parser α) (closing : Token) (more : Parser (List α)) : Parser (List α) := do
  if (← skip closing).isSome then return []
  let first ← item
  let rest ← more
  return first :: rest

/-- One round of the loop that reads items behind separating marks. -/
def separatedBody (separator : Punctuator) (item : Parser α) (more : Parser (List α)) :
    Parser (List α) := do
  if ← acceptMark separator then
    let first ← item
    let rest ← more
    return first :: rest
  else return []

/-- One round of the loop that reads directives. -/
def directivesBody (more : Parser (List (Located DirectiveUse))) :
    Parser (List (Located DirectiveUse)) := do
  if ← atMark .atSign then
    let first ← directive
    let rest ← more
    return first :: rest
  else return []

/-- Reads a selection set, given how to read the selection sets inside it. -/
def selectionsBody (selections : Parser (List Selection)) : Parser (List Selection) :=
  delimitedNonempty (.mark .braceOpen) (selection selections) (.mark .braceClose)

/-- One round of the loop that reads definitions. -/
def documentBody (more : Parser Document) : Parser Document := do
  let first ← definition
  if (← peek).item = .endOfFile then return [first]
  let rest ← more
  return first :: rest

end Parser

section Lists

variable {α : Type} {m n : Nat} {item item' : Parser α}

theorem AgreeBelow.itemsUntil (hitem : AgreeBelow n item item') (hforward : Advances m item')
    (closing : Token) :
    AgreeBelow n (Parser.itemsUntil item closing) (Parser.itemsUntil item' closing) := by
  have hbounded (bound : Nat) : AgreeBelow n (Parser.bounded (Parser.itemsBody item closing) bound)
      (Parser.bounded (Parser.itemsBody item' closing) bound) := by
    induction bound with
    | zero => exact .refl _
    | succ bound ih =>
        refine .bind (.refl _) (advances_skip closing) fun found => .ite (.refl _) ?_
        exact hitem.bind hforward fun first => ih.bind_same _
  exact fun c hc => hbounded (c.ahead.length + 1) c hc

/-- What stands between two marks is read with fewer tokens ahead. -/
theorem AgreeBelow.delimited (hitem : AgreeBelow n item item') (hforward : Advances m item')
    (opening closing : Token) : AgreeBelow (n + 1) (Parser.delimited opening item closing)
      (Parser.delimited opening item' closing) :=
  .behind (advances_expect opening) fun _ => hitem.itemsUntil hforward closing

theorem AgreeBelow.delimitedNonempty (hitem : AgreeBelow n item item')
    (hforward : Advances m item') (opening closing : Token) :
    AgreeBelow (n + 1) (Parser.delimitedNonempty opening item closing)
      (Parser.delimitedNonempty opening item' closing) :=
  .behind (advances_expect opening) fun _ => hitem.bind hforward fun _ =>
    (hitem.itemsUntil hforward closing).bind_same _

theorem productive_itemsBody (hitem : Advances 1 item) (closing : Token) :
    Productive (Parser.itemsBody item closing) where
  forward _ hmore := by
    refine (advances_skip closing).andThen fun _ => .ite (.pure []) ?_
    exact hitem.forward.andThen fun _ => hmore.andThen fun _ => .pure _
  guarded _ _ _ _ h := by
    refine .bind (.refl _) (advances_skip closing) fun _ => .ite (.refl _) ?_
    exact .behind hitem fun _ => h.bind_same _

theorem productive_separatedBody (hitem : Advances m item) (separator : Punctuator) :
    Productive (Parser.separatedBody separator item) where
  forward _ hmore := by
    refine (advances_acceptMark separator).andThen fun _ => .ite ?_ (.pure [])
    exact hitem.forward.andThen fun _ => hmore.andThen fun _ => .pure _
  guarded _ _ _ _ h :=
    .acceptMark (.bind (.refl _) hitem fun _ => h.bind_same _) (.refl _)

end Lists

theorem productive_directivesBody : Productive Parser.directivesBody where
  forward _ hmore := by
    refine (advances_atMark .atSign).andThen fun _ => .ite ?_ (.pure [])
    exact advances_directive.forward.andThen fun _ => hmore.andThen fun _ => .pure _
  guarded _ _ _ _ h := by
    refine .bind (.refl _) (advances_atMark .atSign) fun _ => .ite ?_ (.refl _)
    exact .behind advances_directive fun _ => h.bind_same _

theorem productive_documentBody : Productive Parser.documentBody where
  forward _ hmore := by
    refine advances_definition.forward.andThen fun _ => .peek fun _ => .ite (.pure _) ?_
    exact hmore.andThen fun _ => .pure _
  guarded _ _ _ _ h :=
    .behind advances_definition fun _ => .peek fun _ => .ite (.refl _) (h.bind_same _)

/-! ## Nested parts -/

theorem productive_valueBody (constant : Bool) : Productive (Parser.valueBody constant) where
  forward _ hvalue := (advances_valueBody constant hvalue).forward
  guarded n value value' hvalue h := by
    have hentry : AgreeBelow n (Parser.objectEntry value) (Parser.objectEntry value') :=
      .bind (.refl _) advances_name fun _ => .bind (.refl _) (advances_expectMark .colon) fun _ =>
        h.bind_same _
    refine .located (.peek fun t => ?_)
    split
    · exact (h.delimited hvalue _ _).map _
    · exact (hentry.delimited (advances_objectEntry hvalue) _ _).map _
    all_goals exact .refl _

theorem productive_typeBody : Productive Parser.typeBody where
  forward _ htype := advances_typeBody (Nat.zero_le 1) htype
  guarded _ _ _ _ h := .acceptMark (h.bind_same _) (.refl _)

section

variable {n : Nat} {selections selections' : Parser (List Selection)}
  (h : AgreeBelow n selections selections')

include h

theorem AgreeBelow.withSelections {α : Type} {m : Nat} {head : Parser α}
    (hhead : Advances m head) : AgreeBelow n (Parser.withSelections head selections)
      (Parser.withSelections head selections') :=
  .bind_same (.located (.bind (.refl _) hhead fun _ => h.bind_same _)) _

theorem AgreeBelow.field : AgreeBelow n (Parser.field selections) (Parser.field selections') := by
  have hoptional : AgreeBelow n
      (do if ← Parser.atMark .braceOpen then selections else return [])
      (do if ← Parser.atMark .braceOpen then selections' else return []) :=
    .bind (.refl _) (advances_atMark .braceOpen) fun _ => .ite h (.refl _)
  exact (hoptional.withSelections advances_fieldHead).bind_same _

theorem AgreeBelow.afterEllipsis :
    AgreeBelow n (Parser.afterEllipsis selections) (Parser.afterEllipsis selections') := by
  refine .peek fun t => ?_
  split
  · refine .bind (.refl _) (advances_expectKeyword "on") fun _ => .bind (.refl _) advances_name ?_
    exact fun _ => .bind (.refl _) advances_directives fun _ => h.bind_same _
  · exact .bind (.refl _) advances_directives fun _ => h.bind_same _
  · exact .bind (.refl _) advances_directives fun _ => h.bind_same _
  · exact .refl _
  · exact .refl _

theorem AgreeBelow.selection :
    AgreeBelow n (Parser.selection selections) (Parser.selection selections') := by
  have hpart : AgreeBelow n
      (do
        Parser.expectMark .ellipsis
        Parser.afterEllipsis selections)
      (do
        Parser.expectMark .ellipsis
        Parser.afterEllipsis selections') :=
    .bind (.refl _) (advances_expectMark .ellipsis) fun _ => h.afterEllipsis
  refine .bind (.refl _) (advances_atMark .ellipsis) fun _ => .ite ?_ h.field
  exact hpart.located.bind_same _

end

theorem productive_selectionsBody : Productive Parser.selectionsBody where
  forward _ hselections :=
    (advances_delimitedNonempty (advances_selection hselections) _ _).forward
  guarded _ _ _ hselections h :=
    h.selection.delimitedNonempty (advances_selection hselections) _ _

end GraphQL
