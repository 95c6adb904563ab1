import GraphQL.Proofs.Fusion
import GraphQL.Proofs.MergeSearch
import GraphQL.Proofs.Pointing

/-!
# Reports point at tokens

The rule on fields that cannot be merged is the only one that looks beyond the node it visits, into
the fragments of the document. Its clashes name two lists of places, which are put together from
clashes below; both are places of fields of the document (`FindsOnly` follows a search whatever it
remembers). With this, every rule takes its places from the document, and a document that is read
from a text has its places start at tokens of the text. So every report points at tokens.
-/

namespace GraphQL

open Layout

namespace Merging

/-! ## What a search finds -/

/-- A search only finds clashes of a certain sort, whatever it remembers. -/
def FindsOnly (sort : Clash → Prop) (search : Search (List Clash)) : Prop :=
  ∀ compared, ∀ clash ∈ (search.run compared).1, sort clash

variable {sort : Clash → Prop}

theorem FindsOnly.nothing : FindsOnly sort (pure []) :=
  fun _ => List.forall_mem_nil _

theorem FindsOnly.andThen {first second : Search (List Clash)} (h : FindsOnly sort first)
    (h' : FindsOnly sort second) : FindsOnly sort (andThen first second) :=
  fun compared => List.forall_mem_append.mpr ⟨h compared, h' (first.run compared).2⟩

theorem FindsOnly.searchAll {α : Type} {search : α → Search (List Clash)} {list : List α}
    (h : ∀ a ∈ list, FindsOnly sort (search a)) : FindsOnly sort (searchAll search list) := by
  induction list with
  | nil => exact .nothing
  | cons a rest ih =>
      obtain ⟨hfirst, hrest⟩ := List.forall_mem_cons.mp h
      rw [searchAll_cons]
      exact hfirst.andThen (ih hrest)

section

variable {schema : Schema} {document : Document}
  {compare : Bool → Selected → Selected → Search (List Clash)} {good : Selected → Prop}
  (hcompare : ∀ exclusive a b, good a → good b → FindsOnly sort (compare exclusive a b))
  (hfragments : ∀ name set, fragmentSet? schema document name = some set →
    ∀ selected ∈ set.fields, good selected)

include hcompare

theorem findsOnly_compareFields (exclusive : Bool) {left right : List Selected}
    (hleft : ∀ selected ∈ left, good selected) (hright : ∀ selected ∈ right, good selected) :
    FindsOnly sort (compareFields compare exclusive left right) := by
  refine .searchAll fun ⟨a, b⟩ hpair => ?_
  obtain ⟨ha, hb, -⟩ := mem_pairsBetween_iff.mp hpair
  exact hcompare exclusive a b (hleft a ha) (hright b hb)

include hfragments

theorem findsOnly_compareWithFragment (exclusive : Bool) {fields : List Selected}
    (hfields : ∀ selected ∈ fields, good selected) (fragment : String) :
    FindsOnly sort (compareWithFragment schema document compare exclusive fields fragment) := by
  refine .searchAll fun name _ => ?_
  split
  · rename_i set hset
    exact findsOnly_compareFields hcompare exclusive hfields (hfragments name set hset)
  · exact .nothing

theorem findsOnly_compareFragments (exclusive : Bool) (fuel : Nat) (a b : String) :
    FindsOnly sort (compareFragments schema document compare exclusive fuel a b) := by
  induction fuel generalizing a b with
  | zero => exact .nothing
  | succ fuel ih =>
      intro compared
      rw [compareFragments_succ]
      split
      · exact List.forall_mem_nil _
      · split
        · rename_i left right hleft hright
          have hfields := findsOnly_compareFields hcompare exclusive (hfragments a left hleft)
            (hfragments b right hright)
          exact ((hfields.andThen (.searchAll fun c _ => ih a c)).andThen
            (.searchAll fun c _ => ih c b)) _
        · exact List.forall_mem_nil _

theorem findsOnly_compareSets (exclusive : Bool) {left right : FieldSet}
    (hleft : ∀ selected ∈ left.fields, good selected)
    (hright : ∀ selected ∈ right.fields, good selected) :
    FindsOnly sort (compareSets schema document compare exclusive left right) := by
  rw [compareSets_eq]
  have hfields := findsOnly_compareFields hcompare exclusive hleft hright
  have hspreads {fields : List Selected} (h : ∀ selected ∈ fields, good selected)
      (names : List String) : FindsOnly sort
        (searchAll (compareWithFragment schema document compare exclusive fields) names) :=
    .searchAll fun name _ =>
      findsOnly_compareWithFragment hcompare hfragments exclusive h name
  refine ((hfields.andThen (hspreads hleft _)).andThen (hspreads hright _)).andThen ?_
  exact .searchAll fun a _ => .searchAll fun b _ =>
    findsOnly_compareFragments hcompare hfragments exclusive _ a b

theorem findsOnly_compareWithin {set : FieldSet}
    (hfields : ∀ selected ∈ set.fields, good selected) :
    FindsOnly sort (compareWithin schema document compare set) := by
  have hgo : ∀ names, FindsOnly sort (compareWithin.go schema document compare set names) := by
    intro names
    induction names with
    | nil => exact .nothing
    | cons name rest ih =>
        rw [compareWithin_go_cons]
        have hfragment := findsOnly_compareWithFragment hcompare hfragments false hfields name
        exact (hfragment.andThen (.searchAll fun other _ =>
          findsOnly_compareFragments hcompare hfragments false _ name other)).andThen ih
  rw [compareWithin_eq]
  refine .andThen (.searchAll fun ⟨a, b⟩ hpair => ?_) (hgo set.spreads)
  have hpair := (mem_pairsWithin_iff.mp hpair).1.subset
  exact hcompare false a b (hfields a (hpair (.head _))) (hfields b (hpair (.tail _ (.head _))))

end

/-! ## Places of clashes -/

variable {starts : Position → Prop}

/-- A clash names places of its left side, and all its places are at certain positions. -/
structure Clash.PointsTo (starts : Position → Prop) (clash : Clash) : Prop where
  somewhere : clash.left ≠ []
  left : ∀ p ∈ clash.left, starts p
  right : ∀ p ∈ clash.right, starts p

/-- All places in a field start at certain positions. -/
def Selected.StartsIn (starts : Position → Prop) (selected : Selected) : Prop :=
  (Selection.field selected.node selected.selections).layout.StartsIn starts

mutual

theorem startsIn_fieldsOfOne (schema : Schema) (owner : Option NamedType) :
    (selection : Selection) → selection.layout.StartsIn starts →
      ∀ selected ∈ fieldsOfOne schema owner selection, selected.StartsIn starts
  | .field _ _, h => List.forall_mem_singleton.mpr h
  | .spread _, _ => List.forall_mem_nil _
  | .inline _ selections, h =>
      startsIn_fieldsOf schema _ selections (Selection.startsIn_inline.mp h).2.2

/-- The fields of a selection set stand in it. -/
theorem startsIn_fieldsOf (schema : Schema) (owner : Option NamedType) :
    (selections : List Selection) →
      (∀ selection ∈ selections, selection.layout.StartsIn starts) →
      ∀ selected ∈ fieldsOf schema owner selections, selected.StartsIn starts
  | [], _ => List.forall_mem_nil _
  | selection :: rest, h => by
      obtain ⟨hfirst, hrest⟩ := List.forall_mem_cons.mp h
      exact List.forall_mem_append.mpr ⟨startsIn_fieldsOfOne schema owner selection hfirst,
        startsIn_fieldsOf schema owner rest hrest⟩

end

theorem FieldSet.startsIn_of (schema : Schema) (owner : Option NamedType)
    {selections : List Selection}
    (h : ∀ selection ∈ selections, selection.layout.StartsIn starts) :
    ∀ selected ∈ (FieldSet.of schema owner selections).fields, selected.StartsIn starts :=
  startsIn_fieldsOf schema owner selections h

section

variable (schema : Schema) {document : Document} (h : document.layout.StartsIn starts)

include h

/-- The fields of a fragment of the document stand in the document. -/
theorem startsIn_fragmentSet? {name : String} {set : FieldSet}
    (hset : fragmentSet? schema document name = some set) :
    ∀ selected ∈ set.fields, selected.StartsIn starts := by
  obtain ⟨fragment, hfragment, rfl⟩ := fragmentSet?_eq_some_iff.mp hset
  obtain ⟨node, hmem, rfl⟩ := Document.mem_of_fragment? hfragment
  have hparts := startsIn_seq.mp (Document.startsIn_layout.mp h _ hmem).2
  exact FieldSet.startsIn_of schema _ (Fragment.startsIn_parts.mp hparts).2.2.2

/-- Comparing two fields finds clashes at them and at fields below. -/
theorem findsOnly_compareSelected (fuel : Nat) (exclusive : Bool) (a b : Selected)
    (ha : a.StartsIn starts) (hb : b.StartsIn starts) :
    FindsOnly (Clash.PointsTo starts) (compareSelected schema document fuel exclusive a b) := by
  induction fuel generalizing exclusive a b with
  | zero => exact .nothing
  | succ fuel ih =>
      obtain ⟨hleft, -, hbelow⟩ := Selection.startsIn_field.mp ha
      obtain ⟨hright, -, hbelow'⟩ := Selection.startsIn_field.mp hb
      intro compared
      rw [compareSelected_succ]
      dsimp only
      split
      · exact List.forall_mem_singleton.mpr ⟨List.cons_ne_nil _ _,
          List.forall_mem_singleton.mpr hleft, List.forall_mem_singleton.mpr hright⟩
      · split
        · exact List.forall_mem_nil _
        · have hnested := findsOnly_compareSets ih
            (fun name set => startsIn_fragmentSet? schema h) (exclusive || neverMeet a b)
            (FieldSet.startsIn_of schema (innerOwner schema a) hbelow)
            (FieldSet.startsIn_of schema (innerOwner schema b) hbelow') compared
          split
          · exact List.forall_mem_nil _
          · refine List.forall_mem_singleton.mpr ⟨List.cons_ne_nil _ _, ?_, ?_⟩
            · refine List.forall_mem_cons.mpr ⟨hleft, List.forall_mem_flatMap.mpr ?_⟩
              exact fun clash hclash => (hnested clash hclash).left
            · refine List.forall_mem_cons.mpr ⟨hright, List.forall_mem_flatMap.mpr ?_⟩
              exact fun clash hclash => (hnested clash hclash).right

end

end Merging

open Merging in
theorem Rules.mergeableFields_pointsTo {starts : Position → Prop} (schema : Schema)
    {document : Document} (h : document.layout.StartsIn starts) :
    (mergeableFields schema document).PointsTo starts := by
  intro events hevents
  -- The induction is on the walk, with whatever has been compared before.
  suffices hrun : ∀ compared : Compared,
      ∀ fault ∈ (mergeableFields schema document).runFrom compared events,
        fault.PointsTo starts from hrun []
  induction events with
  | nil => exact fun _ => List.forall_mem_nil _
  | cons event events ih =>
      obtain ⟨hevent, hrest⟩ := List.forall_mem_cons.mp hevents
      intro compared
      refine List.forall_mem_append.mpr ⟨?_, ih hrest _⟩
      dsimp only [mergeableFields]
      split
      · rename_i selections _ hnode
        rw [hnode] at hevent
        have hset := Selection.startsIn_listLayouts.mp (startsIn_seq.mp hevent)
        have hclashes := findsOnly_compareWithin
          (findsOnly_compareSelected schema h (depthBound document))
          (fun name set => startsIn_fragmentSet? schema h)
          (FieldSet.startsIn_of schema event.place.parent hset) compared
        refine List.forall_mem_map.mpr fun clash hclash => ?_
        have hclash := hclashes clash hclash
        exact ⟨List.append_ne_nil_of_left_ne_nil hclash.somewhere _,
          List.forall_mem_append.mpr ⟨hclash.left, hclash.right⟩⟩
      · exact List.forall_mem_nil _

/-! ## All rules -/

section

variable {starts : Position → Prop} (schema : Schema) {document : Document}
  (h : document.layout.StartsIn starts)

include h

theorem Rules.executable_pointsTo :
    ∀ rule ∈ Rules.executable schema document, rule.PointsTo starts := by
  simp only [Rules.executable, List.forall_mem_cons]
  exact ⟨executableDefinitions_pointsTo, argumentValues_pointsTo schema,
    defaultValues_pointsTo schema, fieldsOnType_pointsTo schema,
    compositeConditions_pointsTo schema, knownArgumentNames_pointsTo schema document,
    knownDirectives_pointsTo schema document, knownFragmentNames_pointsTo document,
    knownTypeNames_pointsTo schema document [], loneAnonymousOperation_pointsTo,
    noFragmentCycles_pointsTo, noUndefinedVariables_pointsTo, noUnusedFragments_pointsTo,
    noUnusedVariables_pointsTo, mergeableFields_pointsTo schema h,
    possibleSpreads_pointsTo schema document, providedArguments_pointsTo schema,
    leafSelections_pointsTo schema, uniqueArgumentNames_pointsTo,
    uniqueDirectivesPerLocation_pointsTo schema document, uniqueFragmentNames_pointsTo,
    uniqueInputFieldNames_pointsTo, uniqueOperationNames_pointsTo, uniqueVariableNames_pointsTo,
    variablesAreInputs_pointsTo schema, variablePositions_pointsTo schema, List.forall_mem_nil _⟩

omit h in
theorem Rules.typeSystem_pointsTo :
    ∀ rule ∈ Rules.typeSystem schema document, rule.PointsTo starts := by
  simp only [Rules.typeSystem, List.forall_mem_cons]
  exact ⟨loneSchemaDefinition_pointsTo, uniqueOperationTypes_pointsTo, uniqueTypeNames_pointsTo,
    uniqueEnumValueNames_pointsTo, uniqueFieldDefinitionNames_pointsTo,
    uniqueArgumentDefinitionNames_pointsTo, uniqueDirectiveNames_pointsTo,
    knownTypeNames_pointsTo schema document builtinScalarNames,
    knownDirectives_pointsTo schema document,
    uniqueDirectivesPerLocation_pointsTo schema document,
    knownArgumentNames_pointsTo schema document, List.forall_mem_nil _⟩

/-- A check with rules that point at the document points at it. -/
theorem Document.check_pointsTo {rules : List Rule}
    (hrules : ∀ rule ∈ rules, rule.PointsTo starts) :
    ∀ report ∈ document.check schema rules,
      report.locations ≠ [] ∧ ∀ p ∈ report.locations, starts p := by
  intro report hreport
  obtain ⟨fault, hfault, rfl⟩ := List.mem_map.mp (List.mem_mergeSort.mp hreport)
  obtain ⟨rule, hrule, hfault⟩ :=
    List.mem_flatMap.mp ((Rule.run_all_perm rules _).mem_iff.mp hfault)
  have hfault := hrules rule hrule _ (Document.events_startIn schema h) fault hfault
  exact ⟨hfault.somewhere, hfault.starts⟩

end

/-- Reports name tokens of a text, and stand in the order of their places and then of their
messages. -/
structure PointsInto (source : String) (reports : List Report) : Prop where
  somewhere : ∀ report ∈ reports, report.locations ≠ []
  tokens : ∀ report ∈ reports, ∀ p ∈ report.locations,
    ∃ token ∈ (Lexer.run source).tokens, token.span.start = p
  ordered : reports.Pairwise fun a b =>
    (compareLex (compareOn Report.locations) (compareOn Report.message) a b).isLE

theorem Document.pointsInto_check {source : String} {document : Document}
    (h : Document.parse source = .ok document) (schema : Schema) {rules : List Rule}
    (hrules : ∀ rule ∈ rules,
      rule.PointsTo fun p => ∃ token ∈ (Lexer.run source).tokens, token.span.start = p) :
    PointsInto source (document.check schema rules) := by
  have hreports := Document.check_pointsTo schema (spelledBy_of_parse h).startsIn hrules
  refine ⟨fun report hreport => (hreports report hreport).1,
    fun report hreport => (hreports report hreport).2, ?_⟩
  rw [← Report.compare_eq]
  exact Report.ordered_sort _

/-- **Reports point at tokens.**  Whatever schema a document is checked against, and with either
option, each report names at least one place, each place is the start of a token of the text, and
the reports are in order; the same holds for documents that define a schema. -/
theorem Document.pointsInto_of_parse {source : String} {document : Document}
    (h : Document.parse source = .ok document) :
    (∀ schema options, PointsInto source (document.validate schema options)) ∧
      PointsInto source document.validateTypeSystem := by
  have hstarts := (spelledBy_of_parse h).startsIn
  refine ⟨fun schema options => pointsInto_check h schema ?_,
    pointsInto_check h .standard (Rules.typeSystem_pointsTo .standard)⟩
  refine List.forall_mem_append.mpr ⟨Rules.executable_pointsTo schema hstarts, ?_⟩
  split
  · exact List.forall_mem_singleton.mpr Rules.noIntrospection_pointsTo
  · exact List.forall_mem_nil _

/-- Two fields that do not merge, fragments of one name that spread themselves, and variables that
do not fit each other. -/
def faultyText : String :=
  "query ($n: Int) \x7b a: x ...Loop a: y @skip(if: $m) \x7d " ++
    "fragment Loop on Query \x7b ...Loop \x7d fragment Loop on None \x7b x \x7d type Query"

theorem faultyText_pointsInto : ∃ document, Document.parse faultyText = .ok document ∧
    document.validate .standard {} ≠ [] ∧
    PointsInto faultyText (document.validate .standard {}) ∧
    PointsInto faultyText document.validateTypeSystem := by
  have hread : (Document.parse faultyText).toOption.map (fun document =>
      (Rules.uniqueFragmentNames.run (document.events .standard)).length) = some 1 := by
    decide +kernel
  cases h : Document.parse faultyText with
  | ok document =>
      rw [h] at hread
      have hone : (Rules.uniqueFragmentNames.run (document.events .standard)).length = 1 :=
        Option.some.inj hread
      have hreports := Document.pointsInto_of_parse h
      refine ⟨document, rfl, fun hnil => ?_, hreports.1 .standard {}, hreports.2⟩
      have hsilent := (Document.check_eq_nil_iff _ _ _).mp hnil Rules.uniqueFragmentNames
        (by simp [Rules.executable])
      rw [hsilent] at hone
      cases hone
  | error e =>
      rw [h] at hread
      cases hread

end GraphQL
