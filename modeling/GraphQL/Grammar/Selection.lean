import GraphQL.Grammar.Value
import GraphQL.Language.Document

/-!
# Reading selection sets

Arguments, directives, and the fields and fragments of selection sets.
-/

namespace GraphQL.Parser

/-- Reads one argument that is given. -/
def argument : Parser Argument := do
  let name ← name
  expectMark .colon
  return ⟨name, ← value false⟩

/-- Reads the arguments that are given in parentheses, if any. -/
def arguments : Parser (Option (Located (List Argument))) := do
  if ← atMark .parenOpen then
    some <$> located (delimitedNonempty (.mark .parenOpen) argument (.mark .parenClose))
  else return none

/-- Reads a directive that is applied. -/
def directive : Parser (Located DirectiveUse) :=
  located do
    expectMark .atSign
    let name ← name
    return ⟨name, ← arguments⟩

/-- Reads the directives that are applied, if any. -/
def directives : Parser (List (Located DirectiveUse)) :=
  fix fun more => do
    if ← atMark .atSign then
      let first ← directive
      let rest ← more
      return first :: rest
    else return []

/-- Reads something and a selection set behind it, and notes the stretch that both take. -/
def withSelections {α : Type} (head : Parser α) (selections : Parser (List Selection)) :
    Parser (Located α × List Selection) := do
  let both ← located do
    let head ← head
    return (head, ← selections)
  return (both.map Prod.fst, both.item.2)

/-- Reads a field up to its selection set. -/
def fieldHead : Parser FieldHead := do
  let first ← name
  let aliased := (← skip (.mark .colon)).isSome
  let (responseAlias, name) ← if aliased then pure (some first, ← name) else pure (none, first)
  let arguments ← arguments
  return ⟨responseAlias, name, arguments, ← directives⟩

/-- Reads a field, given how to read its selection set. -/
def field (selections : Parser (List Selection)) : Parser Selection := do
  let optional : Parser (List Selection) := do
    if ← atMark .braceOpen then selections else return []
  let (node, selections) ← withSelections fieldHead optional
  return .field node selections

/-- Reads what follows the three points of a fragment: a name that is spread, or an inline fragment
with or without a type condition. -/
def afterEllipsis (selections : Parser (List Selection)) :
    Parser (FragmentSpread ⊕ InlineHead × List Selection) := do
  match (← peek).item with
  | .name "on" =>
    expectKeyword "on"
    let condition ← name
    let directives ← directives
    return .inr (⟨some condition, directives⟩, ← selections)
  | .mark .braceOpen | .mark .atSign =>
    let directives ← directives
    return .inr (⟨none, directives⟩, ← selections)
  | .name _ =>
    let name ← name
    return .inl ⟨name, ← directives⟩
  | _ => unexpected

/-- Reads a fragment in a selection set. -/
def fragment (selections : Parser (List Selection)) : Parser Selection := do
  let ⟨span, part⟩ ← located do
    expectMark .ellipsis
    afterEllipsis selections
  match part with
  | .inl spread => return .spread ⟨span, spread⟩
  | .inr (head, selections) => return .inline ⟨span, head⟩ selections

/-- Reads one entry of a selection set. -/
def selection (selections : Parser (List Selection)) : Parser Selection := do
  if ← atMark .ellipsis then fragment selections else field selections

/-- Reads a selection set. -/
def selections : Parser (List Selection) :=
  fix fun selections =>
    delimitedNonempty (.mark .braceOpen) (selection selections) (.mark .braceClose)

end GraphQL.Parser
