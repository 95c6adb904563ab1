import GraphQL.Proofs.FragmentCycles

/-!
# Fragments that are used

An operation uses the fragments that stand at the end of a path of spreads from its selection set
(`Document.Reaches`): a spread, at any depth, leads to all fragments of its name, and from there to
whatever these spread. The rules on fragments and variables search for these by scopes that a walk
has numbered and named. What the search finds is the operation itself and the names that the
selection set reaches (`Usage.Describes.mem_reachable_iff`), whatever the order of the definitions
is, whether spreads lead back to where they come from, and whether their names have one fragment,
several or none.
-/

namespace GraphQL

/-! ## What a selection set reaches -/

/-- A fragment of a name is spread somewhere in a selection set. -/
def SpreadsWithin (root : List Selection) (name : String) : Prop :=
  ∃ selections spread, Nested root selections ∧ .spread spread ∈ selections ∧
    spread.item.name.item = name

/-- A path of spreads leads from a selection set to the fragments of a name. -/
def Document.Reaches (document : Document) (root : List Selection) (name : String) : Prop :=
  ∃ first, SpreadsWithin root first ∧
    Relation.ReflTransGen (Graph.Joined document.SpreadsAt) first name

/-- Some operation reaches the fragments of a name. -/
def Document.UsesFragment (document : Document) (name : String) : Prop :=
  ∃ operation ∈ document.operations, document.Reaches operation.item.selections name

/-- A name leads to those that are spread in one of its fragments. -/
theorem Document.joined_spreadsAt_iff {document : Document} {a b : String} :
    Graph.Joined document.SpreadsAt a b ↔
      ∃ node ∈ document.fragments, node.item.name.item = a ∧
        SpreadsWithin node.item.selections b := by
  constructor
  · intro h
    obtain ⟨_, node, hnode, hname, selections, spread, hnested, hmem, htarget, _⟩ := h
    exact ⟨node, hnode, hname, selections, spread, hnested, hmem, htarget⟩
  · intro h
    obtain ⟨node, hnode, hname, selections, spread, hnested, hmem, htarget⟩ := h
    exact ⟨_, node, hnode, hname, selections, spread, hnested, hmem, htarget, rfl⟩

/-! ### Deciding it -/

mutual

theorem nested_of_mem_setsInOne {selections : List Selection} : (selection : Selection) →
    selection ∈ selections → ∀ set ∈ setsInOne selection, Nested selections set
  | .field _ below, hmem, set, hset => by
      have hbelow : Nested selections below := .field .root hmem
      rcases List.mem_cons.mp hset with rfl | hset
      · exact hbelow
      · exact hbelow.trans (nested_of_mem_setsIn below (fun _ h => h) set hset)
  | .spread _, _, _, hset => by cases hset
  | .inline _ body, hmem, set, hset => by
      have hbody : Nested selections body := .inline .root hmem
      rcases List.mem_cons.mp hset with rfl | hset
      · exact hbody
      · exact hbody.trans (nested_of_mem_setsIn body (fun _ h => h) set hset)

/-- The sets that are listed for a set stand inside it. -/
theorem nested_of_mem_setsIn {selections : List Selection} : (part : List Selection) →
    part ⊆ selections → ∀ set ∈ setsIn part, Nested selections set
  | [], _, _, hset => by cases hset
  | selection :: rest, hpart, set, hset => by
      rw [setsIn, List.mem_append] at hset
      rcases hset with hset | hset
      · exact nested_of_mem_setsInOne selection (hpart List.mem_cons_self) set hset
      · exact nested_of_mem_setsIn rest (List.subset_of_cons_subset hpart) set hset

end

/-- The names that are spread in a selection set, at any depth. -/
def spreadNames (root : List Selection) : List String :=
  (root :: setsIn root).flatMap fun selections => selections.filterMap fun
    | .spread node => some node.item.name.item
    | _ => none

theorem mem_spreadNames_iff {root : List Selection} {name : String} :
    name ∈ spreadNames root ↔ SpreadsWithin root name := by
  have hsets (selections : List Selection) :
      selections ∈ root :: setsIn root ↔ Nested root selections := by
    rw [List.mem_cons]
    refine ⟨fun h => ?_, Nested.mem_setsIn⟩
    rcases h with rfl | h
    · exact .root
    · exact nested_of_mem_setsIn root (fun _ hmem => hmem) selections h
  rw [spreadNames, List.mem_flatMap]
  constructor
  · intro h
    obtain ⟨selections, hset, hname⟩ := h
    obtain ⟨selection, hmem, hspread⟩ := List.mem_filterMap.mp hname
    cases selection with
    | spread node =>
        have hnested := (hsets selections).mp hset
        exact ⟨selections, node, hnested, hmem, Option.some.inj hspread⟩
    | field _ _ | inline _ _ => cases hspread
  · intro h
    obtain ⟨selections, spread, hnested, hmem, rfl⟩ := h
    exact ⟨selections, (hsets selections).mpr hnested, List.mem_filterMap.mpr ⟨_, hmem, rfl⟩⟩

namespace Document

/-- The names that are spread in the fragments of a name. -/
def spreadBy (document : Document) (name : String) : List String :=
  (document.fragments.filter (·.item.name.item = name)).flatMap (spreadNames ·.item.selections)

/-- What is reached can be searched for. -/
theorem mem_reachable_spreadBy_iff {document : Document} {root : List Selection} {name : String} :
    name ∈ Graph.reachable (document.fragments.map (·.item.name.item)) document.spreadBy
        (spreadNames root) ↔ document.Reaches root name := by
  have hsteps : Graph.StepsTo (document.fragments.map (·.item.name.item)) document.spreadBy =
      Graph.Joined document.SpreadsAt := by
    funext a b
    rw [eq_iff_iff, joined_spreadsAt_iff, Graph.StepsTo, spreadBy]
    simp only [List.mem_flatMap, List.mem_filter, decide_eq_true_eq, mem_spreadNames_iff,
      List.mem_map, and_assoc]
    exact ⟨fun h => h.2, fun h => ⟨h.imp fun _ hnode => ⟨hnode.1, hnode.2.1⟩, h⟩⟩
  rw [Graph.mem_reachable_iff, Graph.LeadsTo, hsteps]
  exact exists_congr fun first => and_congr_left fun _ => mem_spreadNames_iff

instance (document : Document) (root : List Selection) (name : String) :
    Decidable (document.Reaches root name) :=
  decidable_of_iff _ mem_reachable_spreadBy_iff

instance (document : Document) (name : String) : Decidable (document.UsesFragment name) :=
  inferInstanceAs (Decidable (∃ operation ∈ document.operations, _))

end Document

/-! ## What the search finds -/

/-- The spreads that a walk through an operation meets are those inside its selection set. -/
theorem mem_spreadsAlong_operation_iff (schema : Schema) {node : Located Operation}
    {spread : Located FragmentSpread} :
    spread ∈ spreadsAlong ((Definition.operation node).events schema) ↔
      ∃ selections, Nested node.item.selections selections ∧ .spread spread ∈ selections := by
  have huses := (SpreadInside.holdsOfParts node.item.selections).toHoldsOfUses
  have hnode : SpreadInside node.item.selections (.operation node) := nofun
  exact mem_spreadsAlong_around_iff schema hnode
    (.append (variableEvents_satisfy schema huses (fun _ _ => nofun) _ _)
      (directiveEvents_satisfy schema huses _ _))

namespace Usage.Describes

variable {schema : Schema} {document : Document} {usage : Usage}
  (h : usage.Describes schema document)

include h

/-- From an operation, a step of the search leads to a fragment that is spread in it. -/
theorem stepsTo_operation_iff {operation : Located Operation} {index : Nat}
    (hoperation : document.operations[index]? = some operation) {next : Scope} :
    Graph.StepsTo (usage.spreads.map Prod.fst)
        (fun scope => (usage.spreadsIn scope).map fun spread => .fragment spread.item.name.item)
        (.operation index) next ↔
      ∃ name, next = .fragment name ∧ SpreadsWithin operation.item.selections name := by
  rw [h.stepsTo_iff]
  constructor
  · intro hstep
    obtain ⟨_, ⟨node, hnode, rfl⟩, spread, hspread, rfl⟩ := hstep
    obtain rfl : operation = node := Option.some.inj (hoperation.symm.trans hnode)
    obtain ⟨selections, hnested, hmem⟩ := (mem_spreadsAlong_operation_iff schema).mp hspread
    exact ⟨_, rfl, selections, spread, hnested, hmem, rfl⟩
  · intro hwithin
    obtain ⟨_, rfl, selections, spread, hnested, hmem, rfl⟩ := hwithin
    have hspread := (mem_spreadsAlong_operation_iff schema).mpr ⟨selections, hnested, hmem⟩
    exact ⟨_, ⟨operation, hoperation, rfl⟩, spread, hspread, rfl⟩

/-- From a name, a step of the search leads to a fragment that is spread under this name. -/
theorem stepsTo_fragment_iff {name : String} {next : Scope} :
    Graph.StepsTo (usage.spreads.map Prod.fst)
        (fun scope => (usage.spreadsIn scope).map fun spread => .fragment spread.item.name.item)
        (.fragment name) next ↔
      ∃ other, next = .fragment other ∧ Graph.Joined document.SpreadsAt name other := by
  rw [h.stepsTo_iff]
  simp only [Document.joined_spreadsAt_iff]
  constructor
  · intro hstep
    obtain ⟨_, ⟨node, hnode, hname, rfl⟩, spread, hspread, rfl⟩ := hstep
    obtain ⟨selections, hnested, hmem⟩ := (mem_spreadsAlong_fragment_iff schema).mp hspread
    exact ⟨_, rfl, node, hnode, hname, selections, spread, hnested, hmem, rfl⟩
  · intro hjoined
    obtain ⟨_, rfl, node, hnode, hname, selections, spread, hnested, hmem, rfl⟩ := hjoined
    have hspread := (mem_spreadsAlong_fragment_iff schema).mpr ⟨selections, hnested, hmem⟩
    exact ⟨_, ⟨node, hnode, hname, rfl⟩, spread, hspread, rfl⟩

/-- The search from an operation finds the operation and the names that its selection set
reaches. -/
theorem mem_reachable_iff {operation : Located Operation} {index : Nat}
    (hoperation : document.operations[index]? = some operation) {scope : Scope} :
    scope ∈ usage.reachable index ↔ scope = .operation index ∨
      ∃ name, scope = .fragment name ∧ document.Reaches operation.item.selections name := by
  simp only [Usage.reachable, Graph.mem_reachable_iff, List.mem_singleton, exists_eq_left]
  constructor
  · intro hpath
    induction hpath with
    | refl => exact .inl rfl
    | tail _ hstep ih =>
        right
        rcases ih with rfl | ⟨name, rfl, first, hfirst, hpath⟩
        · obtain ⟨next, rfl, hwithin⟩ := (h.stepsTo_operation_iff hoperation).mp hstep
          exact ⟨next, rfl, next, hwithin, .refl⟩
        · obtain ⟨next, rfl, hjoined⟩ := h.stepsTo_fragment_iff.mp hstep
          exact ⟨next, rfl, first, hfirst, hpath.tail hjoined⟩
  · intro hscope
    rcases hscope with rfl | ⟨name, rfl, first, hfirst, hpath⟩
    · exact .refl
    · induction hpath with
      | refl => exact .single ((h.stepsTo_operation_iff hoperation).mpr ⟨_, rfl, hfirst⟩)
      | tail _ hjoined ih => exact ih.tail (h.stepsTo_fragment_iff.mpr ⟨_, rfl, hjoined⟩)

/-- The searches from all operations find the names that are used. -/
theorem usesFragment_iff {name : String} :
    .fragment name ∈ (usage.numbered.flatMap fun entry => usage.reachable entry.2) ↔
      document.UsesFragment name := by
  rw [List.mem_flatMap]
  constructor
  · intro hfound
    obtain ⟨⟨operation, index⟩, hentry, hreached⟩ := hfound
    have hindex := h.mem_numbered_iff.mp hentry
    rcases (h.mem_reachable_iff hindex).mp hreached with hscope | ⟨_, hscope, hreaches⟩
    · cases hscope
    · cases hscope
      exact ⟨operation, List.mem_of_getElem? hindex, hreaches⟩
  · intro huses
    obtain ⟨operation, hoperation, hreaches⟩ := huses
    obtain ⟨index, hindex⟩ := List.mem_iff_getElem?.mp hoperation
    exact ⟨(operation, index), h.mem_numbered_iff.mpr hindex,
      (h.mem_reachable_iff hindex).mpr (.inr ⟨name, rfl, hreaches⟩)⟩

end Usage.Describes

/-! ## The rule -/

/-- What users are told about a fragment that is not used. -/
def unusedFragmentFault (node : Located Fragment) : Fault :=
  ⟨.unusedFragment node.item.name.item, [node.span.start]⟩

/-- **Unused fragments are found exactly.**  The rule reports one fault for each fragment whose name
no operation reaches, and nothing else. -/
theorem noUnusedFragments_exact (schema : Schema) {document : Document}
    (hexecutable : ∀ definition ∈ document, definition.isExecutable = true) :
    Rules.noUnusedFragments.run (document.events schema) =
      (document.fragments.filter fun node => ¬ document.UsesFragment node.item.name.item).map
        unusedFragmentFault := by
  have h := Usage.Describes.walk schema hexecutable
  rw [Rules.noUnusedFragments, Rule.run_onUsage]
  generalize (document.events schema).foldl Usage.remember {} = usage at h
  have hfilter : (usage.fragments.filter fun node => !(usage.numbered.flatMap fun entry =>
      usage.reachable entry.2).contains (.fragment node.item.name.item)) =
      document.fragments.filter fun node => ¬ document.UsesFragment node.item.name.item := by
    rw [h.fragments]
    refine List.filter_congr fun node _ => ?_
    rw [Bool.eq_iff_iff, Bool.not_eq_true', ← Bool.not_eq_true, List.contains_iff_mem,
      h.usesFragment_iff, decide_eq_true_eq]
  exact congrArg (List.map unusedFragmentFault) hfilter

/-- A fragment on a line of its own. -/
def fragmentOnLine (line : Nat) (name : String) (selections : List Selection) : Definition :=
  .fragment ⟨⟨⟨line, line, 0⟩, ⟨line, line, 0⟩⟩,
    .unlocated name, .unlocated "Node", [], selections⟩

/-- An operation that reaches a cycle of two fragments, one of which is there twice, and spreads one
that is not; and a cycle that nothing leads to, though it leads to the first. -/
def looseDocument : Document := [
  fragmentOnLine 1 "Loose" [spreadOnLine 2 "Looser", spreadOnLine 3 "Used"],
  .operation (.unlocated ⟨.query, none, none, [], [
    .field (.unlocated ⟨none, .unlocated "next", none, []⟩) [spreadOnLine 4 "Used"],
    spreadOnLine 5 "Missing"]⟩),
  fragmentOnLine 6 "Used" [.inline (.unlocated ⟨none, []⟩) [spreadOnLine 7 "Back"]],
  fragmentOnLine 8 "Back" [spreadOnLine 9 "Used"],
  fragmentOnLine 10 "Back" [],
  fragmentOnLine 11 "Looser" [spreadOnLine 12 "Loose"]]

/-- Only the cycle that nothing leads to is reported. -/
theorem looseDocument_unused :
    (∀ definition ∈ looseDocument, definition.isExecutable = true) ∧
    Rules.noUnusedFragments.run (looseDocument.events nodeSchema) = [
      ⟨.unusedFragment "Loose", [⟨1, 1, 0⟩]⟩, ⟨.unusedFragment "Looser", [⟨11, 11, 0⟩]⟩] ∧
    Rules.noUnusedFragments.run (looseDocument.events nodeSchema) =
      (looseDocument.fragments.filter fun node =>
        ¬ looseDocument.UsesFragment node.item.name.item).map unusedFragmentFault := by
  have hexecutable : ∀ definition ∈ looseDocument, definition.isExecutable = true := by decide
  exact ⟨hexecutable, by cbv, noUnusedFragments_exact nodeSchema hexecutable⟩

end GraphQL
