import GraphQL.Graph.Reach
import GraphQL.Validity.Rule

/-!
# What operations use

An operation uses the fragments it spreads, those that these spread, and all variables in them.
`Usage` remembers from a walk which operation or fragment spreads what and which variables it holds;
whatever stands between two of them counts for the first one.
-/

namespace GraphQL

/-- What a node belongs to. Operations are numbered, since they need not have names. -/
inductive Scope where
  | operation (index : Nat)
  | fragment (name : String)
deriving DecidableEq, Repr

/-- A variable that is used somewhere. -/
structure VariableUse where
  scope : Scope
  name : Name
  /-- The type that is expected of it. -/
  expected : Option TypeLiteral
deriving Repr

/-- What is known about operations, fragments and what they use. -/
structure Usage where
  current : Option Scope := none
  operations : List (Located Operation) := []
  fragments : List (Located Fragment) := []
  spreads : List (Scope × Located FragmentSpread) := []
  variableUses : List VariableUse := []
deriving Repr

namespace Usage

/-- What is known after a visit. -/
def remember (usage : Usage) (event : Event) : Usage :=
  match event.phase, event.node with
  | .enter, .operation node =>
    { usage with
      current := some (.operation usage.operations.length)
      operations := usage.operations ++ [node] }
  | .enter, .fragment node =>
    { usage with
      current := some (.fragment node.item.name.item)
      fragments := usage.fragments ++ [node] }
  | .enter, .spread node =>
    match usage.current with
    | some scope => { usage with spreads := usage.spreads ++ [(scope, node)] }
    | none => usage
  | .enter, .value ⟨span, .variable name⟩ =>
    match usage.current with
    | some scope =>
      { usage with
        variableUses := usage.variableUses ++ [⟨scope, ⟨span, name⟩, event.place.input⟩] }
    | none => usage
  | _, _ => usage

/-- The fragments that are spread directly in an operation or fragment. -/
def spreadsIn (usage : Usage) (scope : Scope) : List (Located FragmentSpread) :=
  (usage.spreads.filter (·.1 = scope)).map Prod.snd

/-- An operation and all fragments that it spreads, directly or not. -/
def reachable (usage : Usage) (operation : Nat) : List Scope :=
  Graph.reachable (usage.spreads.map Prod.fst)
    (fun scope => (usage.spreadsIn scope).map fun spread => .fragment spread.item.name.item)
    [.operation operation]

/-- The variables that an operation uses. -/
def variablesOf (usage : Usage) (operation : Nat) : List VariableUse :=
  let scopes := usage.reachable operation
  usage.variableUses.filter fun use => scopes.contains use.scope

/-- The operations with their numbers. -/
def numbered (usage : Usage) : List (Located Operation × Nat) :=
  usage.operations.zipIdx

end Usage

/-- A rule on what operations use. -/
def Rule.onUsage (check : Usage → List Fault) : Rule :=
  .afterwards {} Usage.remember check

end GraphQL
