import GraphQL.Graph.Reach
import Mathlib.Data.List.Chain
import Mathlib.Data.List.Flatten
import Mathlib.Logic.Relation

/-!
# What a search reaches

A search finds exactly the nodes that stand at the end of a path from a node it starts at. A path
leaves inner nodes only, since a node outside the list of inner nodes is an end.

One direction holds along every run: whatever is added to the nodes seen was waiting, and what waits
is the end of a path. For the other, the nodes seen are closed under steps up to the nodes that
still wait, and nothing waits when the search stops.

The search stops on every graph. Each step takes one node that waits, and only a node that is seen
for the first time makes others wait, so there are no more steps than successors in the whole graph
and nodes to start at (`searchEnds`).
-/

namespace GraphQL.Graph

variable {α : Type} [DecidableEq α]

/-- A step from an inner node to one of its successors. -/
def StepsTo (nodes : List α) (next : α → List α) (a b : α) : Prop :=
  a ∈ nodes ∧ b ∈ next a

/-- A path along any number of steps. -/
abbrev LeadsTo (nodes : List α) (next : α → List α) : α → α → Prop :=
  Relation.ReflTransGen (StepsTo nodes next)

/-- Everything that a search has seen at its end was seen before or stands at the end of a path from
a node that waited. -/
theorem path_of_mem_reach (nodes : List α) (next : α → List α) (waiting seen : List α) {b : α}
    (h : b ∈ reach nodes next waiting seen) :
    b ∈ seen ∨ ∃ a ∈ waiting, LeadsTo nodes next a b := by
  fun_induction reach nodes next waiting seen with
  | case1 seen => exact .inl h
  | case2 seen a waiting hseen ih =>
      rcases ih h with hb | ⟨c, hc, hpath⟩
      · exact .inl hb
      · exact .inr ⟨c, List.mem_cons_of_mem _ hc, hpath⟩
  | case3 seen a waiting hseen hinner ih =>
      rcases ih h with hb | ⟨c, hc, hpath⟩
      · rcases List.mem_cons.mp hb with rfl | hb
        · exact .inr ⟨b, List.mem_cons_self, .refl⟩
        · exact .inl hb
      · rcases List.mem_append.mp hc with hc | hc
        · exact .inr ⟨a, List.mem_cons_self, .head ⟨hinner, hc⟩ hpath⟩
        · exact .inr ⟨c, List.mem_cons_of_mem _ hc, hpath⟩
  | case4 seen a waiting hseen hinner ih =>
      rcases ih h with hb | ⟨c, hc, hpath⟩
      · rcases List.mem_cons.mp hb with rfl | hb
        · exact .inr ⟨b, List.mem_cons_self, .refl⟩
        · exact .inl hb
      · exact .inr ⟨c, List.mem_cons_of_mem _ hc, hpath⟩

/-- What has been seen or waits is seen at the end of a search. -/
theorem mem_reach_of_mem (nodes : List α) (next : α → List α) (waiting seen : List α) {b : α}
    (h : b ∈ seen ∨ b ∈ waiting) : b ∈ reach nodes next waiting seen := by
  fun_induction reach nodes next waiting seen with
  | case1 seen => simpa using h
  | case2 seen a waiting hseen ih =>
      apply ih
      rcases h with h | h
      · exact .inl h
      · rcases List.mem_cons.mp h with rfl | h
        · exact .inl hseen
        · exact .inr h
  | case3 seen a waiting hseen hinner ih =>
      apply ih
      simp only [List.mem_cons, List.mem_append] at h ⊢
      grind
  | case4 seen a waiting hseen hinner ih =>
      apply ih
      simp only [List.mem_cons] at h ⊢
      grind

/-- If every step from a node seen leads to a node that is seen or waits, then every step from a
node that is seen at the end leads to one that is seen at the end. -/
theorem reach_closed (nodes : List α) (next : α → List α) (waiting seen : List α)
    (hclosed : ∀ a ∈ seen, ∀ b, StepsTo nodes next a b → b ∈ seen ∨ b ∈ waiting) :
    ∀ a ∈ reach nodes next waiting seen, ∀ b, StepsTo nodes next a b →
      b ∈ reach nodes next waiting seen := by
  fun_induction reach nodes next waiting seen with
  | case1 seen => simpa using hclosed
  | case2 seen c waiting hseen ih =>
      apply ih
      intro a ha b hedge
      rcases hclosed a ha b hedge with hb | hb
      · exact .inl hb
      · rcases List.mem_cons.mp hb with rfl | hb
        · exact .inl hseen
        · exact .inr hb
  | case3 seen c waiting hseen hinner ih =>
      apply ih
      intro a ha b hedge
      rcases List.mem_cons.mp ha with rfl | ha
      · exact .inr (List.mem_append_left _ hedge.2)
      · have := hclosed a ha b hedge
        simp only [List.mem_cons, List.mem_append] at this ⊢
        grind
  | case4 seen c waiting hseen hinner ih =>
      apply ih
      intro a ha b hedge
      rcases List.mem_cons.mp ha with rfl | ha
      · exact absurd hedge.1 hinner
      · have := hclosed a ha b hedge
        simp only [List.mem_cons] at this ⊢
        grind

/-- **Reachable nodes.**  A node is reachable exactly if a path leads to it from a node that the
search starts at. -/
theorem mem_reachable_iff (nodes : List α) (next : α → List α) (start : List α) (b : α) :
    b ∈ reachable nodes next start ↔ ∃ a ∈ start, LeadsTo nodes next a b := by
  constructor
  · intro h
    rcases path_of_mem_reach nodes next start [] h with h | h
    · cases h
    · exact h
  · rintro ⟨a, ha, hpath⟩
    induction hpath with
    | refl => exact mem_reach_of_mem nodes next start [] (.inr ha)
    | tail _ hedge ih =>
        exact reach_closed nodes next start [] (by simp) _ ih _ hedge

/-! ## How a search ends -/

/-- One step of a search, which goes from the nodes that wait and those that have been seen to what
waits and has been seen next. -/
inductive Advances (nodes : List α) (next : α → List α) :
    List α × List α → List α × List α → Prop
  /-- A node has been seen before. -/
  | pass {a waiting seen} : a ∈ seen →
      Advances nodes next (a :: waiting, seen) (waiting, seen)
  /-- An inner node is seen, and its successors wait. -/
  | enter {a waiting seen} : a ∉ seen → a ∈ nodes →
      Advances nodes next (a :: waiting, seen) (next a ++ waiting, a :: seen)
  /-- A node is seen that is an end. -/
  | stop {a waiting seen} : a ∉ seen → a ∉ nodes →
      Advances nodes next (a :: waiting, seen) (waiting, a :: seen)

/-- What a search has still to take: the nodes that wait and the successors of those that have not
been seen. -/
def pending (nodes : List α) (next : α → List α) (state : List α × List α) : Nat :=
  state.1.length + ((unseen nodes state.2).flatMap next).length

/-- The successors of a node are not counted among those of the other nodes. -/
theorem length_flatMap_filter_ne_add_le {γ : Type} (next : α → List γ) {list : List α} {a : α}
    (h : a ∈ list) :
    ((list.filter (· ≠ a)).flatMap next).length + (next a).length ≤
      (list.flatMap next).length := by
  induction list with
  | nil => cases h
  | cons b rest ih =>
      rw [List.filter_cons, List.flatMap_cons, List.length_append]
      by_cases hb : b = a
      · have hrest : ((rest.filter (· ≠ a)).flatMap next).length ≤ (rest.flatMap next).length :=
          (List.filter_sublist.flatMap next).length_le
        rw [if_neg (by simp [hb]), hb]
        omega
      · have hrest := ih (List.mem_of_ne_of_mem (Ne.symm hb) h)
        rw [if_pos (by simp [hb]), List.flatMap_cons, List.length_append]
        omega

variable {nodes : List α} {next : α → List α} {s t u : List α × List α}

/-- Each step takes something. -/
theorem Advances.pending_lt (h : Advances nodes next s t) :
    pending nodes next t < pending nodes next s := by
  cases h with
  | pass hseen => simp [pending]
  | @enter a waiting seen hnew hinner =>
      have hunseen : a ∈ unseen nodes seen := by simp [unseen, hinner, hnew]
      have hless := length_flatMap_filter_ne_add_le next hunseen
      simp only [pending, unseen_cons, List.length_append, List.length_cons]
      omega
  | @stop a waiting seen hnew hend =>
      have hless : (((unseen nodes seen).filter (· ≠ a)).flatMap next).length ≤
          ((unseen nodes seen).flatMap next).length :=
        (List.filter_sublist.flatMap next).length_le
      simp only [pending, unseen_cons, List.length_cons]
      omega

omit [DecidableEq α] in
/-- What waits and has been seen decides what happens next. -/
theorem Advances.unique (h : Advances nodes next s t) (h' : Advances nodes next s u) : t = u := by
  cases h <;> cases h' <;> first | rfl | contradiction

/-- A search comes to an end: it takes at most one step for each successor in the graph and for each
node to start at, and it can always be carried on until nothing waits; by then it has seen the given
nodes. -/
structure SearchEnds (nodes : List α) (next : α → List α) (start found : List α) : Prop where
  length_le : ∀ states, List.IsChain (Advances nodes next) ((start, []) :: states) →
    states.length ≤ start.length + (nodes.flatMap next).length
  finish : ∀ state, Relation.ReflTransGen (Advances nodes next) (start, []) state →
    Relation.ReflTransGen (Advances nodes next) state ([], found)

/-- A run takes no more steps than there is to take. -/
theorem length_le_pending {states : List (List α × List α)}
    (h : List.IsChain (Advances nodes next) (s :: states)) :
    states.length ≤ pending nodes next s := by
  induction states generalizing s with
  | nil => exact Nat.zero_le _
  | cons t states ih =>
      obtain ⟨hstep, hrest⟩ := List.isChain_cons_cons.mp h
      have hless := hstep.pending_lt
      have hlater := ih hrest
      rw [List.length_cons]
      omega

/-- The search is a run that ends when nothing waits. -/
theorem advances_reach (nodes : List α) (next : α → List α) (waiting seen : List α) :
    Relation.ReflTransGen (Advances nodes next) (waiting, seen)
      ([], reach nodes next waiting seen) := by
  fun_induction reach nodes next waiting seen with
  | case1 seen => exact .refl
  | case2 seen a waiting hseen ih => exact .head (.pass hseen) ih
  | case3 seen a waiting hseen hinner ih => exact .head (.enter hseen hinner) ih
  | case4 seen a waiting hseen hinner ih => exact .head (.stop hseen hinner) ih

/-- **Searches end.**  Whatever the graph is, a search through it comes to an end. -/
theorem searchEnds (nodes : List α) (next : α → List α) (start : List α) :
    SearchEnds nodes next start (reachable nodes next start) where
  length_le states h := by
    have hunseen : unseen nodes [] = nodes := by simp [unseen]
    have hpending := length_le_pending h
    rwa [pending, hunseen] at hpending
  finish state h := by
    have hend := advances_reach nodes next start []
    have hunique : Relator.RightUnique (Advances nodes next) := fun _ _ _ => Advances.unique
    rcases Relation.ReflTransGen.total_of_right_unique hunique h hend with hrest | hback
    · exact hrest
    · -- nothing waits at the end, so a run from there is empty
      rcases Relation.ReflTransGen.cases_head hback with rfl | ⟨_, hstep, _⟩
      · exact .refl
      · cases hstep

end GraphQL.Graph
