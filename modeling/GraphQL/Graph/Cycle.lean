import GraphQL.Graph.Reach

/-!
# Cycles

Searches a directed graph with labelled edges for cycles, depth first. The nodes on the path from
the node where the search began are open; an edge that leads to an open node closes a cycle. Each
node is entered once, so of the cycles that share an entered part only those closed first are found;
a graph with a cycle has at least one found.
-/

namespace GraphQL.Graph

variable {α β : Type} [DecidableEq α]

/-- An edge as seen from where it starts. -/
structure Edge (α β : Type) where
  target : α
  label : β
deriving DecidableEq, Repr

/-- An open node: the edge by which it was entered, if any, and its edges that are still to be
followed. -/
structure Open (α β : Type) where
  node : α
  entry : Option (Edge α β)
  ahead : List (Edge α β)
deriving Repr

/-- A cycle: its edges in order, the last of which leads back to where the first one starts. -/
structure Cycle (α β : Type) where
  node : α
  edges : List (Edge α β)
deriving Repr

/-- The cycle that an edge closes at an open node. -/
def Cycle.closedBy (path : List (Open α β)) (edge : Edge α β) : Cycle α β :=
  ⟨edge.target,
    ((path.takeWhile (·.node ≠ edge.target)).filterMap Open.entry).reverse ++ [edge]⟩

/-- How many edges and nodes are still to be left behind on a path. -/
def remaining (path : List (Open α β)) : Nat :=
  path.foldr (fun node rest => node.ahead.length + 1 + rest) 0

/-- Follows the path, innermost open node first, and returns the nodes entered so far together with
the cycles that are found. -/
def followPath (nodes : List α) (edges : α → List (Edge α β)) (path : List (Open α β))
    (entered : List α) : List α × List (Cycle α β) :=
  match path with
  | [] => (entered, [])
  | ⟨_, _, []⟩ :: outer => followPath nodes edges outer entered
  | ⟨node, entry, edge :: ahead⟩ :: outer =>
    let path := ⟨node, entry, ahead⟩ :: outer
    if path.any (·.node = edge.target) then
      let (entered, cycles) := followPath nodes edges path entered
      (entered, .closedBy path edge :: cycles)
    else if edge.target ∈ nodes ∧ edge.target ∉ entered then
      followPath nodes edges (⟨edge.target, some edge, edges edge.target⟩ :: path)
        (edge.target :: entered)
    else followPath nodes edges path entered
termination_by ((unseen nodes entered).length, remaining path)
decreasing_by
  · exact Prod.Lex.right _ (by simp [remaining])
  · exact Prod.Lex.right _ (by simp [remaining])
  · have h := ‹edge.target ∈ nodes ∧ edge.target ∉ entered›
    exact Prod.Lex.left _ _ (length_unseen_lt h.1 h.2)
  · exact Prod.Lex.right _ (by simp [remaining])

/-- Begins a search at each node that has not been entered before. -/
def searchFrom (nodes : List α) (edges : α → List (Edge α β)) :
    (starts entered : List α) → List α × List (α × List (Cycle α β))
  | [], entered => (entered, [])
  | start :: starts, entered =>
    if start ∈ entered then searchFrom nodes edges starts entered
    else
      let (entered, cycles) :=
        followPath nodes edges [⟨start, none, edges start⟩] (start :: entered)
      let (entered, found) := searchFrom nodes edges starts entered
      (entered, (start, cycles) :: found)

/-- The cycles found, by the node at which the search that found them began. -/
def cyclesByStart (nodes : List α) (edges : α → List (Edge α β)) : List (α × List (Cycle α β)) :=
  (searchFrom nodes edges nodes []).2

/-- The cycles found, in the order in which they are closed. -/
def cycles (nodes : List α) (edges : α → List (Edge α β)) : List (Cycle α β) :=
  (cyclesByStart nodes edges).flatMap Prod.snd

end GraphQL.Graph
