import Mathlib
import GraphQL.Proofs.CycleSearch
import GraphQL.Proofs.Expansion
import GraphQL.Proofs.Registry
import GraphQL.Proofs.Usage

/-!
# Fragments that spread themselves

The rule on fragment cycles searches a graph whose edges are the spreads that the walk meets. The
walk meets a spread exactly if it stands somewhere inside a fragment, so this graph is the one that
the document shows (`Document.SpreadsAt`): a name leads to whatever a fragment of this name spreads,
known or not. What holds of every search therefore holds of the rule.

* `noFragmentCycles_silent`: where each name has one fragment and no fragment spreads itself, the
  rule is silent;
* `Document.fragmentCyclesExact`: the rule reports something exactly if there is a cycle, every
  report names one with the places of its spreads, and the search ends.
-/

namespace GraphQL

/-- A fragment of the first name has, at any depth, a spread of the second one at a place. -/
def Document.SpreadsAt (document : Document) (a : String) (position : Position) (b : String) :
    Prop :=
  ∃ node ∈ document.fragments, node.item.name.item = a ∧
    ∃ selections spread, Nested node.item.selections selections ∧ .spread spread ∈ selections ∧
      spread.item.name.item = b ∧ spread.span.start = position

/-- A node, if it is a spread, stands somewhere inside a selection set. -/
def SpreadInside (root : List Selection) (visited : Node) : Prop :=
  ∀ spread, visited = .spread spread →
    ∃ selections, Nested root selections ∧ .spread spread ∈ selections

theorem SpreadInside.holdsOfParts (root : List Selection) :
    HoldsOfParts (Nested root) (SpreadInside root) := by
  refine ⟨⟨nofun, nofun, nofun, nofun⟩, fun _ _ => nofun, ?_, ?_, ?_⟩
  · exact fun selections node below hnested hmem => ⟨nofun, hnested.field hmem⟩
  · rintro selections spread hnested hmem _ ⟨⟩
    exact ⟨selections, hnested, hmem⟩
  · exact fun selections node body hnested hmem => ⟨nofun, hnested.inline hmem⟩

/-- The spreads that a walk meets around a definition stand inside its selection set, if it meets
none before, and all of them are met. -/
theorem mem_spreadsAlong_around_iff (schema : Schema) {place : Surroundings} {node : Node}
    {before : List Event} {root : List Selection} (hnode : SpreadInside root node)
    (hbefore : NodesSatisfy (SpreadInside root) before) {spread : Located FragmentSpread} :
    spread ∈ spreadsAlong (Event.around place node
        (before ++ selectionSetEvents schema place root)) ↔
      ∃ selections, Nested root selections ∧ .spread spread ∈ selections := by
  constructor
  · intro h
    have hnodes : NodesSatisfy (SpreadInside root) (Event.around place node
        (before ++ selectionSetEvents schema place root)) :=
      .around hnode (.append hbefore
        (selectionSetEvents_satisfy schema (SpreadInside.holdsOfParts root) .root _))
    obtain ⟨event, hevent, hspread⟩ := List.mem_filterMap.mp h
    split at hspread
    · rename_i other hphase hnode
      cases hspread
      exact hnodes event hevent spread hnode
    · cases hspread
  · rintro ⟨selections, hnested, hmem⟩
    obtain ⟨inside, hinside⟩ := hnested.exists_listEvents_subset schema place
    have hvisit : ⟨.enter, .spread spread, inside⟩ ∈ Event.around place node
        (before ++ selectionSetEvents schema place root) :=
      Event.mem_around_of_mem (List.mem_append_right _ (hinside
        (Selection.events_subset_listEvents schema inside hmem (Event.enter_mem_around _ _ _))))
    exact List.mem_filterMap.mpr ⟨_, hvisit, rfl⟩

/-- The spreads that a walk through a fragment meets are those inside its selection set. -/
theorem mem_spreadsAlong_fragment_iff (schema : Schema) {node : Located Fragment}
    {spread : Located FragmentSpread} :
    spread ∈ spreadsAlong ((Definition.fragment node).events schema) ↔
      ∃ selections, Nested node.item.selections selections ∧ .spread spread ∈ selections := by
  have huses := (SpreadInside.holdsOfParts node.item.selections).toHoldsOfUses
  have hnode : SpreadInside node.item.selections (.fragment node) := nofun
  exact mem_spreadsAlong_around_iff schema hnode (directiveEvents_satisfy schema huses _ _)

/-- The spreads that the walk through a document meets, by the fragments they stand in. -/
def Document.spreadEdges (schema : Schema) (document : Document) :
    String → List (Graph.Edge String Position) :=
  Rules.spreadEdges ((document.events schema).foldl Usage.remember {})

/-- What users are told about a cycle of fragments. -/
def cycleFault (cycle : Graph.Cycle String Position) : Fault :=
  ⟨.fragmentCycle cycle.node (cycle.edges.dropLast.map Graph.Edge.target),
    cycle.edges.map Graph.Edge.label⟩

/-- A fragment is found by its name if no other one has it. -/
theorem Document.fragment?_of_mem {document : Document}
    (hunique : (document.fragments.map (·.item.name.item)).Nodup) {node : Located Fragment}
    (hmem : node ∈ document.fragments) :
    document.fragment? node.item.name.item = some node.item := by
  have hfind := (find?_key_iff hunique).mpr ⟨hmem, rfl⟩
  rw [Document.fragment?, hfind]
  rfl

section

variable (schema : Schema) {document : Document}
  (hexecutable : ∀ definition ∈ document, definition.isExecutable = true)

include hexecutable

/-- The edges that are searched are the spreads in fragments. -/
theorem Document.leads_spreadEdges :
    Graph.Leads (document.spreadEdges schema) = document.SpreadsAt := by
  have h := Usage.Describes.walk schema hexecutable
  funext a position b
  rw [spreadEdges, Graph.Leads, Rules.spreadEdges]
  generalize (document.events schema).foldl Usage.remember {} = usage at h
  have hspreads (spread : Located FragmentSpread) :
      spread ∈ usage.spreadsIn (.fragment a) ↔ ∃ node ∈ document.fragments,
        node.item.name.item = a ∧ ∃ selections, Nested node.item.selections selections ∧
          .spread spread ∈ selections := by
    have hmem : spread ∈ usage.spreadsIn (.fragment a) ↔
        (Scope.fragment a, spread) ∈ usage.spreads := by
      simp [Usage.spreadsIn]
    rw [hmem, h.spreads]
    constructor
    · rintro ⟨_, ⟨node, hnode, hname, rfl⟩, hspread⟩
      exact ⟨node, hnode, hname, (mem_spreadsAlong_fragment_iff schema).mp hspread⟩
    · rintro ⟨node, hnode, hname, hinside⟩
      exact ⟨_, ⟨node, hnode, hname, rfl⟩, (mem_spreadsAlong_fragment_iff schema).mpr hinside⟩
  simp only [List.mem_map, hspreads, Graph.Edge.mk.injEq, SpreadsAt, eq_iff_iff]
  constructor
  · rintro ⟨spread, ⟨node, hnode, hname, selections, hnested, hmem⟩, htarget, hposition⟩
    exact ⟨node, hnode, hname, selections, spread, hnested, hmem, htarget, hposition⟩
  · rintro ⟨node, hnode, hname, selections, spread, hnested, hmem, htarget, hposition⟩
    exact ⟨spread, ⟨node, hnode, hname, selections, hnested, hmem⟩, htarget, hposition⟩

/-- A name that no fragment has leads nowhere. -/
theorem Document.spreadEdges_eq_nil {name : String}
    (h : name ∉ document.fragments.map (·.item.name.item)) :
    document.spreadEdges schema name = [] := by
  refine Graph.edges_eq_nil_of_not_leads fun position b hleads => h ?_
  rw [leads_spreadEdges schema hexecutable] at hleads
  obtain ⟨node, hnode, rfl, _⟩ := hleads
  exact List.mem_map_of_mem hnode

/-- The rule reports the cycles that a search through the spreads finds. -/
theorem noFragmentCycles_run :
    Rules.noFragmentCycles.run (document.events schema) =
      (Graph.cycles (document.fragments.map (·.item.name.item))
        (document.spreadEdges schema)).map cycleFault := by
  rw [Rules.noFragmentCycles, Rule.run_onUsage, (Usage.Describes.walk schema hexecutable).fragments]
  rfl

/-- The rule is silent exactly if no path of spreads leads from a fragment back to it. -/
theorem noFragmentCycles_silent_iff :
    Rules.noFragmentCycles.run (document.events schema) = [] ↔
      ∀ name, ¬ Relation.TransGen (Graph.Joined document.SpreadsAt) name name := by
  rw [noFragmentCycles_run schema hexecutable, List.map_eq_nil_iff,
    Graph.cycles_eq_nil_iff fun name => Document.spreadEdges_eq_nil schema hexecutable,
    Document.leads_spreadEdges schema hexecutable]

/-- **Fragments that do not spread themselves.**  The rule on fragment cycles is silent. -/
theorem noFragmentCycles_silent
    (hunique : (document.fragments.map (·.item.name.item)).Nodup)
    (hacyclic : Merging.Acyclic document) :
    Rules.noFragmentCycles.run (document.events schema) = [] := by
  refine (noFragmentCycles_silent_iff schema hexecutable).mpr fun name hcycle => hacyclic name ?_
  -- each name has one fragment, so whatever spreads under a name is the fragment found by it
  refine hcycle.lift id ?_
  rintro a b ⟨position, node, hnode, rfl, selections, spread, hnested, hmem, hname, _⟩
  exact ⟨node.item, Document.fragment?_of_mem hunique hnode, selections, spread, hnested, hmem,
    hname⟩

end

/-! ## What is reported -/

/-- What the rule on fragment cycles does with a document: it reports something exactly if a path of
spreads leads from a fragment back to it; each report names fragments that spread one another in a
circle, with the places of the spreads; and the search comes to an end. -/
structure Document.FragmentCyclesExact (schema : Schema) (document : Document) : Prop where
  reports_iff : Rules.noFragmentCycles.run (document.events schema) ≠ [] ↔
    ∃ name, Relation.TransGen (Graph.Joined document.SpreadsAt) name name
  reported : ∀ fault ∈ Rules.noFragmentCycles.run (document.events schema),
    ∃ fragment others, fault.violation = .fragmentCycle fragment others ∧
      Graph.Circle document.SpreadsAt fragment others fault.locations
  ends : ∃ found, Rules.noFragmentCycles.run (document.events schema) = found.map cycleFault ∧
    Graph.Search.Ends (document.fragments.map (·.item.name.item)) (document.spreadEdges schema)
      found

/-- **Fragment cycles are found exactly.**  This holds of every document with operations and
fragments only, whether its spreads are of known fragments or not. -/
theorem Document.fragmentCyclesExact (schema : Schema) {document : Document}
    (hexecutable : ∀ definition ∈ document, definition.isExecutable = true) :
    document.FragmentCyclesExact schema where
  reports_iff := by
    rw [Ne, noFragmentCycles_silent_iff schema hexecutable, not_forall_not]
  reported := by
    rw [noFragmentCycles_run schema hexecutable, List.forall_mem_map]
    intro cycle hcycle
    have hisCycle := Graph.isCycle_of_mem_cycles hcycle
    rw [leads_spreadEdges schema hexecutable] at hisCycle
    exact ⟨_, _, rfl, hisCycle.circle⟩
  ends := ⟨_, noFragmentCycles_run schema hexecutable, Graph.Search.ends _ _⟩

/-- Nodes, each with a next one. -/
def nodeSchema : Schema where
  description := none
  query := some "Node"
  mutation := none
  subscription := none
  types := [{
    name := "Node"
    shape := .object [] [{ name := "next", arguments := [], type := .named "Node" false }] }]
  directives := []
  ambiguous := []
  assumeValid := false

/-- A spread on a line of its own. -/
def spreadOnLine (line : Nat) (name : String) : Selection :=
  .spread ⟨⟨⟨line, line, 0⟩, ⟨line, line, 0⟩⟩, .unlocated name, []⟩

/-- A fragment without directives. -/
def nodeFragment (name : String) (selections : List Selection) : Definition :=
  .fragment (.unlocated ⟨.unlocated name, .unlocated "Node", [], selections⟩)

/-- Two cycles that share a fragment, one of which is closed inside an inline fragment; a fragment
that spreads itself below a field; and one that is not defined. -/
def tangledDocument : Document := [
  .operation (.unlocated ⟨.query, none, none, [], [spreadOnLine 1 "A"]⟩),
  nodeFragment "A" [spreadOnLine 2 "B", spreadOnLine 3 "Missing"],
  nodeFragment "B" [.field (.unlocated ⟨none, .unlocated "next", none, []⟩) [spreadOnLine 4 "B"],
    spreadOnLine 5 "C"],
  nodeFragment "C" [.inline (.unlocated ⟨none, []⟩) [spreadOnLine 6 "A"], spreadOnLine 7 "B"]]

/-- All three cycles are found, each with the lines of its spreads. -/
theorem tangledDocument_cycles :
    (∀ definition ∈ tangledDocument, definition.isExecutable = true) ∧
    Rules.noFragmentCycles.run (tangledDocument.events nodeSchema) = [
      ⟨.fragmentCycle "B" [], [⟨4, 4, 0⟩]⟩,
      ⟨.fragmentCycle "A" ["B", "C"], [⟨2, 2, 0⟩, ⟨5, 5, 0⟩, ⟨6, 6, 0⟩]⟩,
      ⟨.fragmentCycle "B" ["C"], [⟨5, 5, 0⟩, ⟨7, 7, 0⟩]⟩] ∧
    tangledDocument.FragmentCyclesExact nodeSchema := by
  have hexecutable : ∀ definition ∈ tangledDocument, definition.isExecutable = true := by decide
  exact ⟨hexecutable, by cbv, Document.fragmentCyclesExact nodeSchema hexecutable⟩

end GraphQL
