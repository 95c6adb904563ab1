import GraphQL.Proofs.Definitions
import GraphQL.Proofs.Merging

/-!
# Merging in another order

Which fields can be merged is a matter of expansions, and an expansion looks at a document only to
find a fragment by its name. So documents that find the same fragments have the same expansions and
the same conflicts, in whatever order the definitions stand.

The search behind the rule on mergeable fields does depend on this order, but only in what it
compares first. It is held against expansions in both documents: where it is silent in the one,
nothing conflicts there, so nothing conflicts in the other, where it cannot report anything then.
For the first step no name may be given twice, which two other rules see to
(`distinctNames_of_silent`).
-/

namespace GraphQL

/-! ## No name is given twice -/

/-- A rule on single nodes that is silent on a walk is silent on a part of it. -/
theorem Rule.run_onEnter_of_subset {check : Surroundings → Node → List Fault}
    {events more : List Event} (hsubset : events ⊆ more) (h : (onEnter check).run more = []) :
    (onEnter check).run events = [] := by
  rw [run_onEnter, List.flatMap_eq_nil_iff] at h ⊢
  exact fun event hevent => h event (hsubset hevent)

namespace Value

mutual

theorem distinctKeys_of_silent (schema : Schema) (place : Surroundings) (span : Span) :
    (v : Value) → Rules.uniqueInputFieldNames.run (v.events schema place span) = [] →
      v.distinctKeys = true
  | .list items, h => by
      simp only [Rules.uniqueInputFieldNames, Value.events, Rule.run_onEnter_around,
        List.nil_append] at h
      exact distinctKeysInItems_of_silent schema _ items h
  | .object entries, h => by
      simp only [Rules.uniqueInputFieldNames, Value.events, Rule.run_onEnter_around,
        List.append_eq_nil_iff, repetitions_eq_nil_iff, List.map_map] at h
      simp only [distinctKeys, Bool.and_eq_true, decide_eq_true_eq]
      exact ⟨h.1, distinctKeysInEntries_of_silent schema place entries h.2⟩
  | .null, _ => rfl
  | .int _, _ => rfl
  | .float _, _ => rfl
  | .string _, _ => rfl
  | .boolean _, _ => rfl
  | .enum _, _ => rfl
  | .variable _, _ => rfl

theorem distinctKeysInItems_of_silent (schema : Schema) (place : Surroundings) :
    (items : List (Located Value)) →
      Rules.uniqueInputFieldNames.run (Value.itemEvents schema place items) = [] →
      distinctKeysInItems items = true
  | [], _ => rfl
  | ⟨span, v⟩ :: rest, h => by
      rw [Value.itemEvents, Rules.uniqueInputFieldNames, Rule.run_onEnter_append,
        List.append_eq_nil_iff] at h
      rw [distinctKeysInItems, Bool.and_eq_true]
      exact ⟨distinctKeys_of_silent schema place span v h.1,
        distinctKeysInItems_of_silent schema place rest h.2⟩

theorem distinctKeysInEntries_of_silent (schema : Schema) (place : Surroundings) :
    (entries : List (Name × Located Value)) →
      Rules.uniqueInputFieldNames.run (Value.entryEvents schema place entries) = [] →
      distinctKeysInEntries entries = true
  | [], _ => rfl
  | (key, ⟨span, v⟩) :: rest, h => by
      rw [Value.entryEvents, Rules.uniqueInputFieldNames, Rule.run_onEnter_append,
        List.append_eq_nil_iff, Rule.run_onEnter_around, List.nil_append] at h
      rw [distinctKeysInEntries, Bool.and_eq_true]
      exact ⟨distinctKeys_of_silent schema _ span v h.1,
        distinctKeysInEntries_of_silent schema place rest h.2⟩

end

end Value

/-- Every selection set of a document is walked through. -/
theorem Document.HasSet.exists_listEvents_subset (schema : Schema) {document : Document}
    {selections : List Selection} (h : document.HasSet selections) :
    ∃ place, Selection.listEvents schema place selections ⊆ document.events schema := by
  obtain ⟨root, hroot, hnested⟩ := h
  rcases List.mem_append.mp hroot with hroot | hroot
  · obtain ⟨node, hnode, rfl⟩ := List.mem_map.mp hroot
    obtain ⟨place, hplace⟩ := hnested.exists_listEvents_subset schema _
    exact ⟨place, fun event hevent => mem_events_of_mem (mem_operations.mp hnode)
      (Event.mem_around_of_mem (List.mem_append_right _ (hplace hevent)))⟩
  · obtain ⟨node, hnode, rfl⟩ := List.mem_map.mp hroot
    obtain ⟨place, hplace⟩ := hnested.exists_listEvents_subset schema _
    exact ⟨place, fun event hevent => mem_events_of_mem (mem_fragments.mp hnode)
      (Event.mem_around_of_mem (List.mem_append_right _ (hplace hevent)))⟩

namespace Merging

variable {schema : Schema} {document other : Document}

/-- The rules on arguments and on entries of objects see to it that no name is given twice. -/
theorem distinctNames_of_silent
    (harguments : Rules.uniqueArgumentNames.run (document.events schema) = [])
    (hentries : Rules.uniqueInputFieldNames.run (document.events schema) = []) :
    DistinctNames document := by
  rintro a ⟨selections, hset, hmem⟩ arguments hgiven
  obtain ⟨place, hplace⟩ := hset.exists_listEvents_subset schema
  have hfield := List.Subset.trans (Selection.events_subset_listEvents schema place hmem) hplace
  have hsome : a.node.item.arguments = some arguments := hgiven
  constructor
  · have hnil := Rule.check_eq_nil_of_run harguments (hfield (Event.enter_mem_around _ _ _))
    simpa [Rules.uniqueArgumentNames.check, Rules.givenArguments, hsome, repetitions_eq_nil_iff,
      Located.start, Function.comp_def] using hnil
  · intro argument hargument
    refine Value.distinctKeys_of_silent schema _ argument.value.span _
      (Rule.run_onEnter_of_subset (fun event hevent => hfield
        (Selection.argumentEvents_subset_field _ _ _ _ (List.mem_flatMap.mpr
          ⟨argument, ?_, Event.mem_around_of_mem hevent⟩))) hentries)
    simpa [hsome] using hargument

/-! ## Documents that find the same fragments -/

section

variable (hsame : ∀ name, document.fragment? name = other.fragment? name)

include hsame

theorem Occurs.of_same {site : Site} {path : List Nat} {owner : Option NamedType}
    {selections : List Selection} {x : Occurrence}
    (h : Occurs schema document site path owner selections x) :
    Occurs schema other site path owner selections x := by
  induction h with
  | field hi => exact .field hi
  | inline hi _ ih => exact .inline hi ih
  | spread hi hfragment _ ih => exact .spread hi ((hsame _).symm.trans hfragment) ih

theorem Conflicts.of_same {exclusive : Bool} {x y : Occurrence}
    (h : Conflicts schema document exclusive x y) : Conflicts schema other exclusive x y := by
  induction h with
  | fields hmeet hdiffer => exact .fields hmeet hdiffer
  | types ht hu htypes => exact .types ht hu htypes
  | nested ha hb hnode hname _ ih =>
      exact .nested (ha.of_same hsame) (hb.of_same hsame) hnode hname ih
  | symm _ ih => exact .symm ih

/-- What cannot be merged in one document cannot be merged in the other. -/
theorem Unmergeable.of_same {owner : Option NamedType} {selections : List Selection}
    (h : Unmergeable schema document owner selections) :
    Unmergeable schema other owner selections := by
  obtain ⟨x, y, hx, hy, hnode, hname, hconflicts⟩ := h
  exact ⟨x, y, hx.of_same hsame, hy.of_same hsame, hnode, hname, hconflicts.of_same hsame⟩

/-- Fragments that do not spread themselves do not do so in the other document. -/
theorem Acyclic.of_same (h : Acyclic document) : Acyclic other := by
  have hspreads (a b : String) (hb : Spreads other a b) : Spreads document a b := by
    obtain ⟨fragment, hfragment, hinside⟩ := hb
    exact ⟨fragment, (hsame a).trans hfragment, hinside⟩
  exact fun name hcycle => h name (hcycle.lift id hspreads)

end

/-! ## The rule -/

/-- If the rule is silent, then nothing that the walk enters is unmergeable. -/
theorem not_unmergeable_of_silent (hacyclic : Acyclic document) (hdistinct : DistinctNames document)
    (hsilent : (Rules.mergeableFields schema document).run (document.events schema) = [])
    {event : Event} (hmem : event ∈ document.events schema) {selections : List Selection}
    (henters : Enters event selections) :
    ¬ Unmergeable schema document event.place.parent selections := by
  rintro ⟨x, y, hx, hy, hnode, hname, hconflicts⟩
  obtain ⟨rank, hranked⟩ := exists_ranked hacyclic
  have hsets := Document.events_satisfy schema document
  obtain ⟨compared, hgrows, hwithin⟩ := settled_of_runFrom_eq_nil hranked hsets hsilent
  have hfinished : Finished schema document compared := by
    refine ⟨fun hcovers => ?_, fun hfragment => ?_⟩
    · exact (hgrows.closed _ _ _ hcovers).resolve_left (by simp [Rules.mergeableFields,
        Compared.covers])
    · obtain ⟨entry, hentry, hentered, hparent⟩ := exists_enters_of_fragment? schema hfragment
      rw [← hparent]
      exact hwithin entry hentry _ hentered
  have hset := hsets event hmem selections henters.2
  have hsettled := hfinished.settles_set (hwithin event hmem selections henters) hx hy hnode hname
  exact hfinished.not_conflicts hdistinct (hx.standsIn hset) (hy.standsIn hset) hsettled hconflicts

/-- **Mergeable fields in another order.**  If the rule is silent on a document, then it is silent
on every other one that finds the same fragments and has no more selection sets. -/
theorem mergeableFields_silent_of_same
    (hsame : ∀ name, document.fragment? name = other.fragment? name)
    (hevents : ∀ event ∈ other.events schema, ∀ selections, Enters event selections →
      event ∈ document.events schema)
    (hacyclic : Acyclic document) (hdistinct : DistinctNames document)
    (hsilent : (Rules.mergeableFields schema document).run (document.events schema) = []) :
    (Rules.mergeableFields schema other).run (other.events schema) = [] := by
  by_contra hreports
  obtain ⟨event, hmem, selections, henters, hfinds⟩ := finds_of_runFrom_ne_nil hreports
  obtain ⟨x, y, hx, hy, hnode, hname, hfinds⟩ := hfinds.of_compareWithin
  have hother : Unmergeable schema other event.place.parent selections :=
    ⟨x, y, hx, hy, hnode, hname, conflicts_of_finds hnode hfinds⟩
  exact not_unmergeable_of_silent hacyclic hdistinct hsilent
    (hevents event hmem selections henters) henters (hother.of_same fun name => (hsame name).symm)

end Merging

end GraphQL
