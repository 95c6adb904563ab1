/-!
# Reachability

Which nodes of a directed graph can be reached from some nodes. A graph is given by the list of its
inner nodes and the successors of each; a node outside the list is an end.

Each step of the search either enters an inner node that it has not seen, of which there are
finitely many, or drops one node that waits. `length_unseen_lt` says that entering leaves fewer
nodes to enter.
-/

namespace GraphQL.Graph

variable {α : Type} [DecidableEq α]

/-- The nodes that have not been seen. -/
def unseen (nodes seen : List α) : List α :=
  nodes.filter (· ∉ seen)

/-- Seeing one more node removes it from the unseen ones. -/
theorem unseen_cons (nodes seen : List α) (a : α) :
    unseen nodes (a :: seen) = (unseen nodes seen).filter (· ≠ a) := by
  simp only [unseen, List.filter_filter]
  congr 1
  funext b
  simp [not_or]

/-- Seeing more leaves no more nodes unseen. -/
theorem length_unseen_le (nodes seen : List α) (a : α) :
    (unseen nodes (a :: seen)).length ≤ (unseen nodes seen).length := by
  rw [unseen_cons]
  exact List.length_filter_le _ _

/-- Seeing a node for the first time leaves fewer nodes unseen. -/
theorem length_unseen_lt {nodes seen : List α} {a : α} (h : a ∈ nodes) (ha : a ∉ seen) :
    (unseen nodes (a :: seen)).length < (unseen nodes seen).length := by
  rw [unseen_cons, List.length_filter_lt_length_iff_exists]
  exact ⟨a, by simp [unseen, h, ha], by simp⟩

/-- All nodes that have been seen once everything that waits has been followed, the last one
first. -/
def reach (nodes : List α) (next : α → List α) (waiting seen : List α) : List α :=
  match waiting with
  | [] => seen
  | a :: waiting =>
    if a ∈ seen then reach nodes next waiting seen
    else if a ∈ nodes then reach nodes next (next a ++ waiting) (a :: seen)
    else reach nodes next waiting (a :: seen)
termination_by ((unseen nodes seen).length, waiting.length)
decreasing_by
  · exact Prod.Lex.right _ (by simp)
  · exact Prod.Lex.left _ _ (length_unseen_lt ‹a ∈ nodes› ‹a ∉ seen›)
  · have := length_unseen_le nodes seen a
    rcases Nat.lt_or_eq_of_le this with h | h
    · exact Prod.Lex.left _ _ h
    · rw [h]
      exact Prod.Lex.right _ (by simp)

/-- The nodes that a walk along some edges can reach from the given ones, these included. -/
def reachable (nodes : List α) (next : α → List α) (start : List α) : List α :=
  reach nodes next start []

end GraphQL.Graph
