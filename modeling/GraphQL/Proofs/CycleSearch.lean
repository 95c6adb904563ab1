import GraphQL.Graph.Cycle
import GraphQL.Proofs.Reachability
import Mathlib.Data.List.Nodup
import Mathlib.Data.List.TakeWhile
import Mathlib.Logic.Relation

/-!
# Searching for cycles

A search for cycles goes from state to state: `Search.Step` says what one step can do, and every
fact about a whole search is kept by its steps.

* Each step leaves behind an edge, an open node or a node to begin at, and a node is entered only
  once. So no run is longer than the graph is large (`Search.ends`).
* The open nodes form a path without repetitions (`Opened`), since a node is entered by an edge of
  the one that is open around it, and only if it is not open itself. So what an edge closes when it
  leads back to an open node is a cycle that comes through no node twice (`isCycle_of_mem_cycles`).
* As long as no cycle has been found, no path without an end starts at a node that has been left
  (`Explored`): all edges of such a node lead to others that had been left before, or out of the
  graph. At the end every node has been left, so if nothing was found there was nothing to find
  (`cycles_eq_nil_iff`).
-/

namespace GraphQL.Graph

variable {α β : Type}

/-! ## Cycles of a graph -/

/-- Edges that lead from one node to another, one after the other. `R a label b` says that the graph
has an edge with this label from `a` to `b`. -/
inductive Trail (R : α → β → α → Prop) : α → List (Edge α β) → α → Prop
  | nil (a : α) : Trail R a [] a
  | cons {a b : α} {edge : Edge α β} {rest : List (Edge α β)} :
      R a edge.label edge.target → Trail R edge.target rest b → Trail R a (edge :: rest) b

/-- An edge with some label leads from one node to another. -/
def Joined (R : α → β → α → Prop) (a b : α) : Prop :=
  ∃ label, R a label b

/-- A cycle of a graph: its edges lead from its node back to it, and through no node twice. -/
structure IsCycle (R : α → β → α → Prop) (cycle : Cycle α β) : Prop where
  edges_ne_nil : cycle.edges ≠ []
  trail : Trail R cycle.node cycle.edges cycle.node
  nodup : (cycle.edges.map Edge.target).Nodup

/-- From a node, edges with the given labels lead to the first of the others, from there to the next
one and so on, from the last of them back to the node, and through no node twice. -/
structure Circle (R : α → β → α → Prop) (a : α) (others : List α) (labels : List β) : Prop where
  length_labels : labels.length = others.length + 1
  trail : Trail R a (List.zipWith Edge.mk (others ++ [a]) labels) a
  nodup : (a :: others).Nodup

section

variable {R : α → β → α → Prop}

/-- One more edge at the end. -/
theorem Trail.concat {a b : α} {trail : List (Edge α β)} (h : Trail R a trail b) {edge : Edge α β}
    (hedge : R b edge.label edge.target) : Trail R a (trail ++ [edge]) edge.target := by
  induction h with
  | nil a => exact .cons hedge (.nil _)
  | cons hfirst _ ih => exact .cons hfirst (ih hedge)

/-- Each edge of a trail is one of the graph. -/
theorem Trail.edge {a b : α} {trail : List (Edge α β)} (h : Trail R a trail b) {edge : Edge α β}
    (hedge : edge ∈ trail) : ∃ c, R c edge.label edge.target := by
  induction h with
  | nil a => cases hedge
  | cons hfirst _ ih =>
      rcases List.mem_cons.mp hedge with rfl | hrest
      · exact ⟨_, hfirst⟩
      · exact ih hrest

/-- What is left of a trail without its labels. -/
theorem Trail.reflTransGen {a b : α} {trail : List (Edge α β)} (h : Trail R a trail b) :
    Relation.ReflTransGen (Joined R) a b := by
  induction h with
  | nil a => exact .refl
  | cons hfirst _ ih => exact .head ⟨_, hfirst⟩ ih

/-- A trail comes through all nodes that its edges lead to, and last to where it ends. -/
theorem Trail.targets_eq {a b : α} {trail : List (Edge α β)} (h : Trail R a trail b)
    (hne : trail ≠ []) :
    trail.map Edge.target = trail.dropLast.map Edge.target ++ [b] := by
  induction h with
  | nil a => exact absurd rfl hne
  | @cons a b edge rest _ hrest ih =>
      cases rest with
      | nil =>
          cases hrest
          rfl
      | cons next rest => simpa using ih (List.cons_ne_nil next rest)

/-- The nodes and the labels along a cycle. -/
theorem IsCycle.circle {cycle : Cycle α β} (h : IsCycle R cycle) :
    Circle R cycle.node (cycle.edges.dropLast.map Edge.target) (cycle.edges.map Edge.label) := by
  have htargets := h.trail.targets_eq h.edges_ne_nil
  refine ⟨?_, ?_, ?_⟩
  · simpa using congrArg List.length htargets
  · have hedges : List.zipWith Edge.mk (cycle.edges.map Edge.target) (cycle.edges.map Edge.label) =
        cycle.edges := by
      simp [List.zipWith_map, List.zipWith_self]
    rw [← htargets, hedges]
    exact h.trail
  · have hnodup := h.nodup
    rwa [htargets, List.nodup_append_comm, List.singleton_append] at hnodup

/-- From the node of a cycle a path leads back to it. -/
theorem IsCycle.transGen {cycle : Cycle α β} (h : IsCycle R cycle) :
    Relation.TransGen (Joined R) cycle.node cycle.node := by
  obtain ⟨node, edges⟩ := cycle
  obtain ⟨hne, htrail, _⟩ := h
  cases htrail with
  | nil => exact absurd rfl hne
  | cons hfirst hrest => exact .head' ⟨_, hfirst⟩ hrest.reflTransGen

end

/-! ## Steps of a search -/

/-- A search under way. -/
structure Search (α β : Type) where
  /-- The open nodes, innermost first. -/
  path : List (Open α β)
  /-- The nodes entered so far. -/
  entered : List α
  /-- The nodes at which the search may begin again. -/
  starts : List α
  /-- The cycles found so far. -/
  found : List (Cycle α β)

namespace Search

/-- A search that has not begun. -/
def initial (nodes : List α) : Search α β :=
  ⟨[], [], nodes, []⟩

variable [DecidableEq α]

/-- One step of a search through the graph of some nodes and their edges. -/
inductive Step (nodes : List α) (edges : α → List (Edge α β)) : Search α β → Search α β → Prop
  /-- A node has been entered before, so nothing begins there. -/
  | pass {entered start starts found} : start ∈ entered →
      Step nodes edges ⟨[], entered, start :: starts, found⟩ ⟨[], entered, starts, found⟩
  /-- The search begins at a node. -/
  | begin {entered start starts found} : start ∉ entered →
      Step nodes edges ⟨[], entered, start :: starts, found⟩
        ⟨[⟨start, none, edges start⟩], start :: entered, starts, found⟩
  /-- A node has no edges ahead. -/
  | leave {node entry outer entered starts found} :
      Step nodes edges ⟨⟨node, entry, []⟩ :: outer, entered, starts, found⟩
        ⟨outer, entered, starts, found⟩
  /-- An edge leads back to an open node. -/
  | close {node entry edge ahead outer entered starts found} :
      (∃ visit ∈ ⟨node, entry, ahead⟩ :: outer, visit.node = edge.target) →
      Step nodes edges ⟨⟨node, entry, edge :: ahead⟩ :: outer, entered, starts, found⟩
        ⟨⟨node, entry, ahead⟩ :: outer, entered, starts,
          found ++ [.closedBy (⟨node, entry, ahead⟩ :: outer) edge]⟩
  /-- An edge leads to a node that has not been entered. -/
  | enter {node entry edge ahead outer entered starts found} :
      (∀ visit ∈ ⟨node, entry, ahead⟩ :: outer, visit.node ≠ edge.target) →
      edge.target ∈ nodes → edge.target ∉ entered →
      Step nodes edges ⟨⟨node, entry, edge :: ahead⟩ :: outer, entered, starts, found⟩
        ⟨⟨edge.target, some edge, edges edge.target⟩ :: ⟨node, entry, ahead⟩ :: outer,
          edge.target :: entered, starts, found⟩
  /-- An edge leads out of the graph or to a node that has been left. -/
  | skip {node entry edge ahead outer entered starts found} :
      (∀ visit ∈ ⟨node, entry, ahead⟩ :: outer, visit.node ≠ edge.target) →
      (edge.target ∈ nodes → edge.target ∈ entered) →
      Step nodes edges ⟨⟨node, entry, edge :: ahead⟩ :: outer, entered, starts, found⟩
        ⟨⟨node, entry, ahead⟩ :: outer, entered, starts, found⟩

/-- A run of so many steps. -/
inductive Runs (nodes : List α) (edges : α → List (Edge α β)) :
    Nat → Search α β → Search α β → Prop
  | done (s : Search α β) : Runs nodes edges 0 s s
  | step {n s t u} : Step nodes edges s t → Runs nodes edges n t u → Runs nodes edges (n + 1) s u

variable {nodes : List α} {edges : α → List (Edge α β)} {s t u : Search α β} {m n : Nat}

theorem Runs.trans (h : Runs nodes edges m s t) (h' : Runs nodes edges n t u) :
    ∃ k, Runs nodes edges k s u := by
  induction h with
  | done s => exact ⟨n, h'⟩
  | step hstep _ ih =>
      obtain ⟨k, hrun⟩ := ih h'
      exact ⟨k + 1, .step hstep hrun⟩

/-- What every step keeps, a run keeps. -/
theorem Runs.keeps {P : Search α β → Prop} (hstep : ∀ s t, Step nodes edges s t → P s → P t)
    (h : Runs nodes edges n s t) (hs : P s) : P t := by
  induction h with
  | done s => exact hs
  | step hfirst _ ih => exact ih (hstep _ _ hfirst hs)

/-- The state decides what happens next. -/
theorem Step.unique (h : Step nodes edges s t) (h' : Step nodes edges s u) : t = u := by
  cases h <;> cases h' <;> grind

/-- A search that has ended makes no more steps. -/
theorem not_step_of_ended {entered : List α} {found : List (Cycle α β)} :
    ¬ Step nodes edges ⟨[], entered, [], found⟩ t :=
  nofun

/-- A node that has been entered stays so. -/
theorem Step.entered_subset (h : Step nodes edges s t) : s.entered ⊆ t.entered := by
  cases h <;> simp

/-- If one run comes to an end, every other run from the same state can be carried on to this
end. -/
theorem Runs.carryOn {entered : List α} {found : List (Cycle α β)}
    (h : Runs nodes edges m s t) (hend : Runs nodes edges n s ⟨[], entered, [], found⟩) :
    ∃ k, Runs nodes edges k t ⟨[], entered, [], found⟩ := by
  induction h generalizing n with
  | done s => exact ⟨n, hend⟩
  | step hstep _ ih =>
      cases hend with
      | done => exact absurd hstep not_step_of_ended
      | step hother hrest =>
          obtain rfl := hstep.unique hother
          exact ih hrest

/-! ### How long a search takes -/

/-- What a search has still to leave behind: the nodes to enter with their edges, the open nodes
with their edges ahead, and the nodes to begin at. -/
def work (nodes : List α) (edges : α → List (Edge α β)) (s : Search α β) : Nat :=
  ((unseen nodes s.entered).flatMap edges).length + (unseen nodes s.entered).length +
    remaining s.path + s.starts.length

/-- A node that is entered is no longer counted among those to enter, nor are its edges. -/
theorem length_unseen_enter (edges : α → List (Edge α β)) {a : α} {entered : List α}
    (ha : a ∈ nodes) (hnew : a ∉ entered) :
    ((unseen nodes (a :: entered)).flatMap edges).length + (unseen nodes (a :: entered)).length +
      (edges a).length < ((unseen nodes entered).flatMap edges).length +
        (unseen nodes entered).length := by
  have hnodes := length_unseen_lt ha hnew
  have hunseen : a ∈ unseen nodes entered := by simp [unseen, ha, hnew]
  have hedges := length_flatMap_filter_ne_add_le edges hunseen
  rw [← unseen_cons] at hedges
  omega

/-- Each step leaves something behind. -/
theorem Step.work_lt (h : Step nodes edges s t) (hstarts : s.starts ⊆ nodes) :
    t.work nodes edges < s.work nodes edges := by
  cases h with
  | pass hentered => simp [work]
  | begin hnew =>
      have hless := length_unseen_enter edges (hstarts List.mem_cons_self) hnew
      simp only [work, remaining, List.length_cons, List.foldr]
      omega
  | leave => simp [work, remaining]
  | close _ => simp [work, remaining]
  | enter _ hnode hnew =>
      have hless := length_unseen_enter edges hnode hnew
      simp only [work, remaining, List.length_cons, List.foldr]
      omega
  | skip _ _ => simp [work, remaining]

/-- A step adds no nodes to begin at. -/
theorem Step.starts_subset (h : Step nodes edges s t) : t.starts ⊆ s.starts := by
  cases h <;> simp

/-- A run takes no more steps than there is to leave behind. -/
theorem Runs.add_work_le (h : Runs nodes edges n s t) (hstarts : s.starts ⊆ nodes) :
    n + t.work nodes edges ≤ s.work nodes edges := by
  induction h with
  | done s => simp
  | step hstep _ ih =>
      have hfirst := hstep.work_lt hstarts
      have hrest := ih (List.Subset.trans hstep.starts_subset hstarts)
      omega

/-- Before a search begins, there are the nodes to enter and to begin at, and all their edges. -/
theorem work_initial (nodes : List α) (edges : α → List (Edge α β)) :
    (initial nodes).work nodes edges = 2 * nodes.length + (nodes.flatMap edges).length := by
  have hunseen : unseen nodes [] = nodes := by simp [unseen]
  simp only [work, initial, hunseen, remaining, List.foldr_nil]
  omega

/-! ### Where a search ends -/

/-- Following a path is a run that leaves all nodes that are open. -/
theorem runs_followPath (nodes : List α) (edges : α → List (Edge α β)) (path : List (Open α β))
    (entered starts : List α) (found : List (Cycle α β)) :
    ∃ n, Runs nodes edges n ⟨path, entered, starts, found⟩
      ⟨[], (followPath nodes edges path entered).1, starts,
        found ++ (followPath nodes edges path entered).2⟩ := by
  fun_induction followPath nodes edges path entered generalizing found with
  | case1 entered => exact ⟨0, by simpa using .done _⟩
  | case2 entered node entry outer ih =>
      obtain ⟨n, hrun⟩ := ih found
      exact ⟨n + 1, .step .leave hrun⟩
  | case3 entered node entry edge ahead outer path hopen after cycles hfollow ih =>
      obtain ⟨visit, hvisit, htarget⟩ := List.any_eq_true.mp hopen
      obtain ⟨n, hrun⟩ := ih (found ++ [.closedBy path edge])
      rw [hfollow] at hrun
      refine ⟨n + 1, .step (.close ⟨visit, hvisit, of_decide_eq_true htarget⟩) ?_⟩
      simpa using hrun
  | case4 entered node entry edge ahead outer path hopen hnew ih =>
      have hclosed : ∀ visit ∈ path, visit.node ≠ edge.target := by simpa using hopen
      obtain ⟨n, hrun⟩ := ih found
      exact ⟨n + 1, .step (.enter hclosed hnew.1 hnew.2) hrun⟩
  | case5 entered node entry edge ahead outer path hopen hold ih =>
      have hclosed : ∀ visit ∈ path, visit.node ≠ edge.target := by simpa using hopen
      obtain ⟨n, hrun⟩ := ih found
      exact ⟨n + 1, .step (.skip hclosed (by simpa using hold)) hrun⟩

/-- Nodes that had been entered before a path is followed stay so. -/
theorem entered_subset_of_followPath {path : List (Open α β)} {entered after : List α}
    {cycles : List (Cycle α β)} (h : followPath nodes edges path entered = (after, cycles)) :
    entered ⊆ after := by
  obtain ⟨n, hrun⟩ := runs_followPath nodes edges path entered [] []
  rw [h] at hrun
  exact hrun.keeps (P := fun s => entered ⊆ s.entered)
    (fun _ _ hstep hs => List.Subset.trans hs hstep.entered_subset) (List.Subset.refl entered)

/-- Beginning at one node after the other is a run to the end. -/
theorem runs_searchFrom (nodes : List α) (edges : α → List (Edge α β)) (starts entered : List α)
    (found : List (Cycle α β)) :
    ∃ n, Runs nodes edges n ⟨[], entered, starts, found⟩
      ⟨[], (searchFrom nodes edges starts entered).1, [],
        found ++ (searchFrom nodes edges starts entered).2.flatMap Prod.snd⟩ := by
  fun_induction searchFrom nodes edges starts entered generalizing found with
  | case1 entered => exact ⟨0, by simpa using .done _⟩
  | case2 start starts entered hentered ih =>
      obtain ⟨n, hrun⟩ := ih found
      exact ⟨n + 1, .step (.pass hentered) hrun⟩
  | case3 start starts entered hentered after cycles hfollow after' more hsearch ih =>
      obtain ⟨m, hfirst⟩ := runs_followPath nodes edges [⟨start, none, edges start⟩]
        (start :: entered) starts found
      rw [hfollow] at hfirst
      obtain ⟨n, hrest⟩ := ih (found ++ cycles)
      rw [hsearch] at hrest
      have hrest : Runs nodes edges n ⟨[], after, starts, found ++ cycles⟩
          ⟨[], after', [], found ++ ((start, cycles) :: more).flatMap Prod.snd⟩ := by
        simpa using hrest
      exact (Runs.step (.begin hentered) hfirst).trans hrest

/-- Each search begins at one of the nodes to begin at, and at none that has been entered. -/
theorem start_of_mem_searchFrom {starts entered : List α} {start : α}
    (h : start ∈ (searchFrom nodes edges starts entered).2.map Prod.fst) :
    start ∈ starts ∧ start ∉ entered := by
  fun_induction searchFrom nodes edges starts entered with
  | case1 entered => cases h
  | case2 first starts entered hentered ih =>
      exact ⟨List.mem_cons_of_mem first (ih h).1, (ih h).2⟩
  | case3 first starts entered hentered after cycles hfollow after' more hsearch ih =>
      rcases List.mem_cons.mp h with rfl | hlater
      · exact ⟨List.mem_cons_self, hentered⟩
      · rw [hsearch] at ih
        have hkept := List.subset_of_cons_subset (entered_subset_of_followPath hfollow)
        exact ⟨List.mem_cons_of_mem first (ih hlater).1, fun hold => (ih hlater).2 (hkept hold)⟩

/-- No two searches begin at the same node. -/
theorem nodup_starts_searchFrom (nodes : List α) (edges : α → List (Edge α β))
    (starts entered : List α) :
    ((searchFrom nodes edges starts entered).2.map Prod.fst).Nodup := by
  fun_induction searchFrom nodes edges starts entered with
  | case1 entered => exact List.nodup_nil
  | case2 first starts entered hentered ih => exact ih
  | case3 first starts entered hentered after cycles hfollow after' more hsearch ih =>
      refine List.nodup_cons.mpr ⟨fun hlater => ?_, by rwa [hsearch] at ih⟩
      have hagain : first ∈ (searchFrom nodes edges starts after).2.map Prod.fst := by
        rw [hsearch]
        exact hlater
      exact (start_of_mem_searchFrom hagain).2
        (entered_subset_of_followPath hfollow List.mem_cons_self)

/-- A search comes to an end: it takes at most two steps for each node and one for each edge, and it
can always be carried on until no node is open and there is none to begin at; by then it has found
the given cycles. -/
structure Ends (nodes : List α) (edges : α → List (Edge α β)) (found : List (Cycle α β)) :
    Prop where
  length_le : ∀ n s, Runs nodes edges n (initial nodes) s →
    n ≤ 2 * nodes.length + (nodes.flatMap edges).length
  finish : ∀ n s, Runs nodes edges n (initial nodes) s →
    ∃ k entered, Runs nodes edges k s ⟨[], entered, [], found⟩

/-- **Searches end.**  Whatever the graph is, the search comes to an end. -/
theorem ends (nodes : List α) (edges : α → List (Edge α β)) :
    Ends nodes edges (cycles nodes edges) where
  length_le n s h := by
    have hwork := h.add_work_le (by simp [initial])
    rw [work_initial] at hwork
    omega
  finish n s h := by
    obtain ⟨k, hend⟩ := runs_searchFrom nodes edges nodes [] []
    obtain ⟨k, hrest⟩ := h.carryOn hend
    exact ⟨k, _, hrest⟩

end Search

/-! ## What is found -/

/-- Open nodes, innermost first: the outermost one is where the search began, each other one was
entered by an edge of the one around it, none is open twice, and what is ahead of a node are edges
of its own. -/
inductive Opened (edges : α → List (Edge α β)) : List (Open α β) → Prop
  | nil : Opened edges []
  | start {node ahead} : ahead ⊆ edges node → Opened edges [⟨node, none, ahead⟩]
  | enter {edge ahead outer path} : edge ∈ edges outer.node → ahead ⊆ edges edge.target →
      (∀ visit ∈ outer :: path, visit.node ≠ edge.target) → Opened edges (outer :: path) →
      Opened edges (⟨edge.target, some edge, ahead⟩ :: outer :: path)

/-- An edge with a label leads from one node to another. -/
def Leads (edges : α → List (Edge α β)) (a : α) (label : β) (b : α) : Prop :=
  ⟨b, label⟩ ∈ edges a

/-- A node from which no edge leads on has no edges. -/
theorem edges_eq_nil_of_not_leads {edges : α → List (Edge α β)} {a : α}
    (h : ∀ label b, ¬ Leads edges a label b) : edges a = [] :=
  List.eq_nil_iff_forall_not_mem.mpr fun edge => h edge.label edge.target

namespace Opened

variable {edges : α → List (Edge α β)} {path outer : List (Open α β)}

theorem tail {inner : Open α β} (h : Opened edges (inner :: outer)) : Opened edges outer := by
  cases h with
  | start _ => exact .nil
  | enter _ _ _ houter => exact houter

/-- What is ahead of the innermost node are edges of its own. -/
theorem ahead_subset {inner : Open α β} (h : Opened edges (inner :: outer)) :
    inner.ahead ⊆ edges inner.node := by
  cases h with
  | start hahead => exact hahead
  | enter _ hahead _ _ => exact hahead

/-- Fewer edges ahead of the innermost node. -/
theorem advance {node : α} {entry : Option (Edge α β)} {edge : Edge α β}
    {ahead : List (Edge α β)} (h : Opened edges (⟨node, entry, edge :: ahead⟩ :: outer)) :
    Opened edges (⟨node, entry, ahead⟩ :: outer) := by
  cases h with
  | start hahead => exact .start (List.subset_of_cons_subset hahead)
  | enter hedge hahead hclosed houter =>
      exact .enter hedge (List.subset_of_cons_subset hahead) hclosed houter

/-- No node is open twice. -/
theorem nodup (h : Opened edges path) : (path.map Open.node).Nodup := by
  induction h with
  | nil => simp
  | start _ => simp
  | enter _ _ hclosed _ ih =>
      refine List.nodup_cons.mpr ⟨fun hmem => ?_, ih⟩
      obtain ⟨visit, hvisit, hnode⟩ := List.mem_map.mp hmem
      exact hclosed visit hvisit hnode

variable [DecidableEq α]

/-- Of the open nodes, those inside a given one. -/
def inside (path : List (Open α β)) (a : α) : List (Open α β) :=
  path.takeWhile (·.node ≠ a)

/-- The edges by which the nodes inside an open node were entered lead from it to the innermost
one. -/
theorem trail_inside (h : Opened edges path) {a : α} (hopen : ∃ visit ∈ path, visit.node = a)
    {inner : Open α β} (hinner : path.head? = some inner) :
    Trail (Leads edges) a ((inside path a).filterMap Open.entry).reverse inner.node := by
  induction h generalizing inner with
  | nil => cases hinner
  | start _ =>
      cases hinner
      obtain ⟨visit, hvisit, rfl⟩ := hopen
      obtain rfl := List.mem_singleton.mp hvisit
      simpa [inside] using .nil _
  | @enter edge ahead outer path hedge _ _ _ ih =>
      cases hinner
      by_cases hnode : edge.target = a
      · subst hnode
        simpa [inside] using .nil _
      · have hopen : ∃ visit ∈ outer :: path, visit.node = a := by
          simpa [hnode] using hopen
        have htrail : Trail (Leads edges) a _ edge.target := (ih hopen rfl).concat hedge
        simpa [inside, hnode] using htrail

/-- The edges by which the nodes inside an open node were entered lead to these nodes. -/
theorem targets_inside (h : Opened edges path) {a : α} (hopen : ∃ visit ∈ path, visit.node = a) :
    ((inside path a).filterMap Open.entry).map Edge.target = (inside path a).map Open.node := by
  induction h with
  | nil => rfl
  | start _ =>
      obtain ⟨visit, hvisit, rfl⟩ := hopen
      obtain rfl := List.mem_singleton.mp hvisit
      simp [inside]
  | @enter edge ahead outer path hedge _ _ _ ih =>
      by_cases hnode : edge.target = a
      · simp [inside, hnode]
      · have hopen : ∃ visit ∈ outer :: path, visit.node = a := by
          simpa [hnode] using hopen
        simpa [inside, hnode] using ih hopen

/-- An edge from the innermost node to an open one closes a cycle. -/
theorem isCycle_closedBy {inner : Open α β} (h : Opened edges (inner :: outer)) {edge : Edge α β}
    (hedge : edge ∈ edges inner.node)
    (hopen : ∃ visit ∈ inner :: outer, visit.node = edge.target) :
    IsCycle (Leads edges) (.closedBy (inner :: outer) edge) where
  edges_ne_nil := by simp [Cycle.closedBy]
  trail := (h.trail_inside hopen rfl).concat hedge
  nodup := by
    have htargets := h.targets_inside hopen
    have hnodes : ((inside (inner :: outer) edge.target).map Open.node).Nodup :=
      ((List.takeWhile_sublist _).map _).nodup h.nodup
    have hlast : edge.target ∉ (inside (inner :: outer) edge.target).map Open.node := by
      intro hmem
      obtain ⟨visit, hvisit, hnode⟩ := List.mem_map.mp hmem
      simpa [hnode] using List.mem_takeWhile_imp hvisit
    change ((((inside (inner :: outer) edge.target).filterMap Open.entry).reverse ++ [edge]).map
      Edge.target).Nodup
    rw [List.map_append, List.map_reverse, htargets, List.map_singleton, ← List.reverse_cons,
      List.nodup_reverse]
    exact List.nodup_cons.mpr ⟨hlast, hnodes⟩

end Opened

variable {nodes : List α} {edges : α → List (Edge α β)}

/-- What is known of a search at any time: its open nodes form a path, and what it has found are
cycles. -/
structure Search.Sound (edges : α → List (Edge α β)) (s : Search α β) : Prop where
  path : Opened edges s.path
  found : ∀ cycle ∈ s.found, IsCycle (Leads edges) cycle

namespace Search

variable [DecidableEq α] {s t : Search α β}

theorem Sound.step (h : Step nodes edges s t) (hs : s.Sound edges) : t.Sound edges := by
  obtain ⟨hpath, hfound⟩ := hs
  cases h with
  | pass _ => exact ⟨.nil, hfound⟩
  | begin _ => exact ⟨.start fun _ h => h, hfound⟩
  | leave => exact ⟨hpath.tail, hfound⟩
  | close hopen =>
      refine ⟨hpath.advance, fun cycle hcycle => ?_⟩
      rcases List.mem_append.mp hcycle with hcycle | hcycle
      · exact hfound cycle hcycle
      · obtain rfl := List.mem_singleton.mp hcycle
        exact hpath.advance.isCycle_closedBy (hpath.ahead_subset List.mem_cons_self) hopen
  | enter hclosed _ _ =>
      exact ⟨.enter (hpath.ahead_subset List.mem_cons_self) (fun _ h => h) hclosed hpath.advance,
        hfound⟩
  | skip _ _ => exact ⟨hpath.advance, hfound⟩

end Search

/-- **What is found are cycles.** -/
theorem isCycle_of_mem_cycles [DecidableEq α] {cycle : Cycle α β} (h : cycle ∈ cycles nodes edges) :
    IsCycle (Leads edges) cycle := by
  obtain ⟨n, hrun⟩ := Search.runs_searchFrom nodes edges nodes [] []
  have hstart : (Search.initial nodes).Sound edges := ⟨.nil, by simp [Search.initial]⟩
  exact (hrun.keeps (fun _ _ => Search.Sound.step) hstart).found cycle h

/-! ## That something is found -/

/-- Every path from a node comes to an end. -/
def Finishes (edges : α → List (Edge α β)) (a : α) : Prop :=
  Acc (fun b a => Joined (Leads edges) a b) a

/-- Paths from a node come to an end if those from the nodes behind its edges do. -/
theorem Finishes.of_edges {a : α} (h : ∀ edge ∈ edges a, Finishes edges edge.target) :
    Finishes edges a := by
  refine Acc.intro a ?_
  rintro b ⟨label, hedge⟩
  exact h ⟨b, label⟩ hedge

/-- No path leads from such a node back to it. -/
theorem Finishes.not_transGen {a : α} (h : Finishes edges a) :
    ¬ Relation.TransGen (Joined (Leads edges)) a a := by
  induction h with
  | intro a _ ih =>
      intro hcycle
      obtain ⟨b, hab, hba⟩ := Relation.TransGen.head'_iff.mp hcycle
      exact ih b hab (.tail' hba hab)

/-- The edges that have been followed from the open nodes lead to nodes from which all paths come to
an end, or to the next node inside. -/
def Followed (edges : α → List (Edge α β)) : (inner : Option α) → List (Open α β) → Prop
  | _, [] => True
  | inner, visit :: outer =>
    (∀ edge ∈ edges visit.node,
      edge ∈ visit.ahead ∨ Finishes edges edge.target ∨ inner = some edge.target) ∧
      Followed edges (some visit.node) outer

/-- Once all paths from the innermost node come to an end, it can be left. -/
theorem Followed.leave {inner : α} {path : List (Open α β)} (h : Followed edges (some inner) path)
    (hinner : Finishes edges inner) : Followed edges none path := by
  cases path with
  | nil => trivial
  | cons visit outer =>
      refine ⟨fun edge hedge => ?_, h.2⟩
      rcases h.1 edge hedge with hahead | hfinishes | htarget
      · exact .inl hahead
      · exact .inr (.inl hfinishes)
      · cases htarget
        exact .inr (.inl hinner)

/-- An edge of the innermost node has been followed. -/
theorem Followed.advance {node : α} {entry : Option (Edge α β)} {edge : Edge α β}
    {ahead : List (Edge α β)} {outer : List (Open α β)}
    (h : Followed edges none (⟨node, entry, edge :: ahead⟩ :: outer)) {inner : Option α}
    (hedge : Finishes edges edge.target ∨ inner = some edge.target) :
    Followed edges inner (⟨node, entry, ahead⟩ :: outer) := by
  refine ⟨fun other hother => ?_, h.2⟩
  rcases h.1 other hother with hahead | hfinishes | htarget
  · rcases List.mem_cons.mp hahead with rfl | hahead
    · exact .inr hedge
    · exact .inl hahead
  · exact .inr (.inl hfinishes)
  · cases htarget

/-- What is known of a search that has found nothing: each node has been entered or is one to begin
at, all paths from nodes that have been left come to an end, and the edges that have been followed
from open nodes lead to such nodes or further inside. -/
structure Search.Explored (nodes : List α) (edges : α → List (Edge α β)) (s : Search α β) :
    Prop where
  started : ∀ a ∈ nodes, a ∈ s.entered ∨ a ∈ s.starts
  left : ∀ a ∈ s.entered, (∀ visit ∈ s.path, visit.node ≠ a) → Finishes edges a
  followed : Followed edges none s.path

variable [DecidableEq α]

namespace Search

variable {s t : Search α β} {n : Nat}

theorem Explored.step (hends : ∀ a ∉ nodes, edges a = []) (h : Step nodes edges s t)
    (hnone : t.found = []) (hs : s.Explored nodes edges) : t.Explored nodes edges := by
  obtain ⟨hstarted, hleft, hfollowed⟩ := hs
  cases h with
  | pass hentered =>
      refine ⟨fun a ha => ?_, hleft, trivial⟩
      rcases hstarted a ha with ha | ha
      · exact .inl ha
      · rcases List.mem_cons.mp ha with rfl | ha
        · exact .inl hentered
        · exact .inr ha
  | @begin entered start starts _ _ =>
      refine ⟨fun a ha => ?_, fun a ha hclosed => ?_, fun _ hedge => .inl hedge, trivial⟩
      · rcases hstarted a ha with ha | ha
        · exact .inl (List.mem_cons_of_mem _ ha)
        · rcases List.mem_cons.mp ha with rfl | ha
          · exact .inl List.mem_cons_self
          · exact .inr ha
      · have hne := hclosed _ List.mem_cons_self
        exact hleft a (List.mem_of_ne_of_mem (Ne.symm hne) ha) (by simp)
  | @leave node entry outer _ _ _ =>
      have hnode : Finishes edges node := by
        refine .of_edges fun edge hedge => ?_
        rcases hfollowed.1 edge hedge with hahead | hfinishes | hinner
        · cases hahead
        · exact hfinishes
        · cases hinner
      refine ⟨hstarted, fun a ha hclosed => ?_, hfollowed.2.leave hnode⟩
      by_cases hsame : node = a
      · exact hsame ▸ hnode
      · exact hleft a ha (List.forall_mem_cons.mpr ⟨hsame, hclosed⟩)
  | close hopen => simp at hnone
  | @enter node entry edge ahead outer entered starts _ hclosed hnode hnew =>
      -- the edge leads to the node that is open now
      refine ⟨fun a ha => ?_, fun a ha hclosed => ?_, fun _ hedge => .inl hedge,
        hfollowed.advance (.inr rfl)⟩
      · rcases hstarted a ha with ha | ha
        · exact .inl (List.mem_cons_of_mem _ ha)
        · exact .inr ha
      · obtain ⟨hne, hclosed⟩ := List.forall_mem_cons.mp hclosed
        exact hleft a (List.mem_of_ne_of_mem (Ne.symm hne) ha) (by simpa using hclosed)
  | @skip node entry edge ahead outer entered starts _ hclosed hold =>
      -- the edge leads to a node that has been left, or to one without edges
      have htarget : Finishes edges edge.target := by
        by_cases hnode : edge.target ∈ nodes
        · exact hleft _ (hold hnode) (by simpa using hclosed)
        · exact .of_edges (by simp [hends _ hnode])
      exact ⟨hstarted, fun a ha hclosed => hleft a ha (by simpa using hclosed),
        hfollowed.advance (.inl htarget)⟩

/-- Nothing that has been found is forgotten. -/
theorem Runs.found_eq_nil (h : Runs nodes edges n s t) (hnone : t.found = []) : s.found = [] := by
  induction h with
  | done s => exact hnone
  | step hstep _ ih =>
      have hfound := ih hnone
      cases hstep <;> simp_all

theorem Explored.run (hends : ∀ a ∉ nodes, edges a = []) (h : Runs nodes edges n s t)
    (hnone : t.found = []) (hs : s.Explored nodes edges) : t.Explored nodes edges := by
  induction h with
  | done s => exact hs
  | step hstep hrest ih => exact ih hnone (hs.step hends hstep (hrest.found_eq_nil hnone))

end Search

/-- **Cycles are found.**  If no edge leads on from where the nodes end, nothing is found exactly if
no path leads from a node back to it. -/
theorem cycles_eq_nil_iff (hends : ∀ a ∉ nodes, edges a = []) :
    cycles nodes edges = [] ↔ ∀ a, ¬ Relation.TransGen (Joined (Leads edges)) a a := by
  constructor
  · intro hnone a
    obtain ⟨n, hrun⟩ := Search.runs_searchFrom nodes edges nodes [] []
    have hstart : (Search.initial nodes).Explored nodes edges :=
      ⟨fun a ha => .inr ha, by simp [Search.initial], trivial⟩
    have hexplored := hstart.run hends hrun hnone
    refine Finishes.not_transGen ?_
    by_cases ha : a ∈ nodes
    · rcases hexplored.started a ha with ha | ha
      · exact hexplored.left a ha (by simp)
      · cases ha
    · exact .of_edges (by simp [hends a ha])
  · intro hacyclic
    refine List.eq_nil_iff_forall_not_mem.mpr fun cycle hcycle => ?_
    exact hacyclic cycle.node (isCycle_of_mem_cycles hcycle).transGen

end GraphQL.Graph
