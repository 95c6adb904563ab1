import Mathlib
import GraphQL.Proofs.Alike
import GraphQL.Proofs.MergeMemory
import GraphQL.Proofs.Registry

/-!
# Merging is decided by expansion

The rule on mergeable fields never expands a selection set, and compares each pair of fragments at
most twice in a document. Here it is held against the plain definition: a selection set that the
walk visits has two different nodes of one response name in its expansion that conflict.

Whatever the rule reports is such a conflict. The other direction needs that it does not matter
which of two fields is looked at first. It does matter if an argument is given twice: the arguments
of the first field are looked up in those of the second, so a field with `a` twice has the same
arguments as one with `a` and `b`, but not the other way round. Since two fragments are only
compared in the order in which they are met first, the rule then misses conflicts. Where no name is
given twice, the order does not matter (`sameArguments_comm`) and the rule reports exactly if there
is a conflict.
-/

namespace GraphQL.Merging

variable {schema : Schema} {document : Document}

/-- A field with everything below it stands in a selection set of the document. -/
def StandsIn (document : Document) (a : Selected) : Prop :=
  ∃ selections, document.HasSet selections ∧ .field a.node a.selections ∈ selections

/-- What stands below a field of a document is a set of the document. -/
theorem StandsIn.below {a : Selected} (h : StandsIn document a) : document.HasSet a.selections := by
  obtain ⟨selections, ⟨root, hroot, hnested⟩, hmem⟩ := h
  exact ⟨root, hroot, hnested.field hmem⟩

/-- What occurs in an expansion stands in the document. -/
theorem Occurs.standsIn {site : Site} {path : List Nat} {owner : Option NamedType}
    {selections : List Selection} {x : Occurrence}
    (h : Occurs schema document site path owner selections x)
    (hset : document.HasSet selections) : StandsIn document x.selected := by
  induction h with
  | field hi => exact ⟨_, hset, List.mem_of_getElem? hi⟩
  | inline hi _ ih =>
      obtain ⟨root, hroot, hnested⟩ := hset
      exact ih ⟨root, hroot, hnested.inline (List.mem_of_getElem? hi)⟩
  | spread hi hfragment _ ih => exact ih (hasSet_of_fragment? hfragment)

/-- No field of a document is given an argument twice, or an object that has two entries of one
name. -/
def DistinctNames (document : Document) : Prop :=
  ∀ a, StandsIn document a → ∀ arguments ∈ a.node.item.arguments, DistinctArguments arguments.item

theorem typesConflict_comm (t u : TypeLiteral) :
    typesConflict schema t u = typesConflict schema u t := by
  induction t generalizing u with
  | named a r =>
      cases u with
      | named b s =>
          simp only [typesConflict, bne_comm (a := r), ne_comm (a := a),
            Bool.or_comm (typesConflict.isLeaf schema a)]
      | list u s => rfl
  | list t r ih =>
      cases u with
      | named b s => rfl
      | list u s => simp only [typesConflict, bne_comm (a := r), ih]

theorem neverMeet_comm (a b : Selected) : neverMeet a b = neverMeet b a := by
  simp only [neverMeet, ne_comm, Bool.and_assoc, Bool.and_comm a.onObject]

namespace Finished

variable {compared : Compared} (h : Finished schema document compared)

include h

/-- Different nodes in the expansion of a set that has been looked at are settled. -/
theorem settles_set {site : Site} {owner : Option NamedType} {selections : List Selection}
    (hwithin : SettledWithin schema document compared owner selections) {x y : Occurrence}
    (hx : Occurs schema document site [] owner selections x)
    (hy : Occurs schema document site [] owner selections y) (hnode : ¬ x.SameNode y)
    (hname : x.name = y.name) : SettledEitherWay schema document compared false x y := by
  rcases occurs_iff.mp hx with hx | ⟨a, ha, hx⟩
  · rcases occurs_iff.mp hy with hy | ⟨b, hb, hy⟩
    · exact hwithin.placed hx hy hnode hname
    · exact .inl (hwithin.withFragment b hb _ (selected_mem_fieldsOf schema hx) y hy hname)
  · rcases occurs_iff.mp hy with hy | ⟨b, hb, hy⟩
    · exact .inr (hwithin.withFragment a ha _ (selected_mem_fieldsOf schema hy) x hx hname.symm)
    · exact h.settles_fragments hx hy (hwithin.fragments a ha b hb) hnode hname

/-- Different nodes in the expansions below two settled fields are settled. -/
theorem settles_below {exclusive : Bool} {x y a b : Occurrence}
    (hsettled : Settled schema document compared exclusive x.selected y.selected)
    (ha : Occurs schema document x.inner [] (innerOwner schema x.selected) x.selected.selections a)
    (hb : Occurs schema document y.inner [] (innerOwner schema y.selected) y.selected.selections b)
    (hnode : ¬ a.SameNode b) (hname : a.name = b.name) :
    SettledEitherWay schema document compared
      (exclusive || neverMeet x.selected y.selected) a b := by
  obtain ⟨rfl, -, hfields, hright, hleft, hcovered⟩ := hsettled
  rcases occurs_iff.mp ha with ha | ⟨c, hc, ha⟩
  · have hmem := selected_mem_fieldsOf schema ha
    rcases occurs_iff.mp hb with hb | ⟨d, hd, hb⟩
    · exact .inl (hfields _ hmem _ (selected_mem_fieldsOf schema hb) hname)
    · exact .inl (hright _ hmem d hd b hb hname)
  · rcases occurs_iff.mp hb with hb | ⟨d, hd, hb⟩
    · exact .inr (hleft _ (selected_mem_fieldsOf schema hb) c hc a ha hname.symm)
    · exact h.settles_fragments ha hb (hcovered c hc d hd) hnode hname

/-- **Settled fields do not conflict**, if no name is given twice. -/
theorem not_conflicts (hdistinct : DistinctNames document) {exclusive : Bool} {x y : Occurrence}
    (hx : StandsIn document x.selected) (hy : StandsIn document y.selected)
    (hsettled : SettledEitherWay schema document compared exclusive x y) :
    ¬ Conflicts schema document exclusive x y := by
  intro hconflicts
  induction hconflicts with
  | @fields exclusive x y hmeet hdiffer =>
      rcases hsettled with ⟨rfl, hown, -⟩ | ⟨rfl, hown, -⟩
      · obtain ⟨hname, harguments⟩ := (ownConflict?_eq_none_iff.mp hown).1 hmeet
        rcases hdiffer with hdiffer | hdiffer
        · exact hdiffer hname
        · rw [harguments] at hdiffer
          cases hdiffer
      · -- arguments are compared in one order only; with distinct names it makes no difference
        rw [neverMeet_comm] at hmeet
        obtain ⟨hname, harguments⟩ := (ownConflict?_eq_none_iff.mp hown).1 hmeet
        rcases hdiffer with hdiffer | hdiffer
        · exact hdiffer hname.symm
        · rw [sameArguments_comm (hdistinct _ hx) (hdistinct _ hy), harguments] at hdiffer
          cases hdiffer
  | @types exclusive x y t u ht hu htypes =>
      rcases hsettled with ⟨rfl, hown, -⟩ | ⟨rfl, hown, -⟩
      · rw [(ownConflict?_eq_none_iff.mp hown).2 t u ht hu] at htypes
        cases htypes
      · rw [typesConflict_comm, (ownConflict?_eq_none_iff.mp hown).2 u t hu ht] at htypes
        cases htypes
  | @nested exclusive x y a b ha hb hnode hname _ ih =>
      refine ih (ha.standsIn hx.below) (hb.standsIn hy.below) ?_
      rcases hsettled with hsettled | hsettled
      · exact h.settles_below hsettled ha hb hnode hname
      · have hnode' : ¬ b.SameNode a := fun h => hnode ⟨h.1.symm, h.2.symm⟩
        rw [neverMeet_comm]
        exact (h.settles_below hsettled hb ha hnode' hname.symm).symm
  | symm _ ih => exact ih hy hx hsettled.symm

end Finished

/-! ## The rule -/

/-- A selection set that the walk enters cannot be merged, taken with the type that the walk has for
it. -/
def VisitsUnmergeable (schema : Schema) (document : Document) : Prop :=
  ∃ event ∈ document.events schema, ∃ selections, event.phase = .enter ∧
    event.node = .selectionSet selections ∧
    Unmergeable schema document event.place.parent selections

/-- The search that the rule makes when it enters a selection set. -/
abbrev setSearch (schema : Schema) (document : Document) (owner : Option NamedType)
    (selections : List Selection) : Search (List Clash) :=
  compareWithin schema document (compareSelected schema document (depthBound document))
    (.of schema owner selections)

/-- What an event has to be for the rule to look at it. -/
def Enters (event : Event) (selections : List Selection) : Prop :=
  event.phase = .enter ∧ event.node = .selectionSet selections

/-- On a selection set that is entered, the rule says what it finds inside. -/
theorem runFrom_of_enters {event : Event} {selections : List Selection}
    (h : Enters event selections) (compared : Compared) (events : List Event) :
    (Rules.mergeableFields schema document).runFrom compared (event :: events) =
      (((setSearch schema document event.place.parent selections).run compared).1.map fun clash =>
          ⟨.fieldConflict clash.name clash.conflict, clash.left ++ clash.right⟩) ++
        (Rules.mergeableFields schema document).runFrom
          ((setSearch schema document event.place.parent selections).run compared).2 events := by
  obtain ⟨phase, node, place⟩ := event
  obtain ⟨rfl, rfl⟩ := h
  rfl

/-- On anything else, the rule says nothing. -/
theorem runFrom_of_not_enters {event : Event} (h : ∀ selections, ¬ Enters event selections)
    (compared : Compared) (events : List Event) :
    (Rules.mergeableFields schema document).runFrom compared (event :: events) =
      (Rules.mergeableFields schema document).runFrom compared events := by
  have hobserve :
      (Rules.mergeableFields schema document).observe compared event = (compared, []) := by
    simp only [Rules.mergeableFields]
    split
    · rename_i selections hphase hnode
      exact absurd ⟨hphase, hnode⟩ (h selections)
    · rfl
  change ((Rules.mergeableFields schema document).observe compared event).2 ++
    (Rules.mergeableFields schema document).runFrom
      ((Rules.mergeableFields schema document).observe compared event).1 events = _
  rw [hobserve]
  rfl

/-- Whatever the rule reports was found inside a selection set that it entered. -/
theorem finds_of_runFrom_ne_nil {compared : Compared} {events : List Event}
    (h : (Rules.mergeableFields schema document).runFrom compared events ≠ []) :
    ∃ event ∈ events, ∃ selections, Enters event selections ∧
      Finds (setSearch schema document event.place.parent selections) := by
  induction events generalizing compared with
  | nil => exact absurd rfl h
  | cons event events ih =>
      by_cases henters : ∃ selections, Enters event selections
      · obtain ⟨selections, henters⟩ := henters
        rw [runFrom_of_enters henters] at h
        by_cases hnil :
            ((setSearch schema document event.place.parent selections).run compared).1 = []
        · rw [hnil] at h
          obtain ⟨later, hlater, hfinds⟩ := ih h
          exact ⟨later, List.mem_cons_of_mem _ hlater, hfinds⟩
        · exact ⟨event, List.mem_cons_self, selections, henters, compared, hnil⟩
      · rw [runFrom_of_not_enters (fun s hs => henters ⟨s, hs⟩)] at h
        obtain ⟨later, hlater, hfinds⟩ := ih h
        exact ⟨later, List.mem_cons_of_mem _ hlater, hfinds⟩

theorem SettledWithin.mono {compared compared' : Compared} {owner : Option NamedType}
    {selections : List Selection} (h : SettledWithin schema document compared owner selections)
    (hle : compared.Le compared') : SettledWithin schema document compared' owner selections where
  fields := h.fields.imp fun hsettled hname => (hsettled hname).mono hle id
  withFragment name hmem x hx y hy hname := (h.withFragment name hmem x hx y hy hname).mono hle id
  fragments a ha b hb := (h.fragments a ha b hb).mono hle id

/-- If the rule reports nothing, then the memory it ends with has grown from the one it started
with, and every set that it entered is settled with it. -/
theorem settled_of_runFrom_eq_nil {rank : String → Nat} (hranked : Ranked document rank)
    {compared : Compared} {events : List Event}
    (hsets : SetsSatisfy document.HasSet events)
    (h : (Rules.mergeableFields schema document).runFrom compared events = []) :
    ∃ compared', Grows schema document compared compared' ∧
      ∀ event ∈ events, ∀ selections, Enters event selections →
        SettledWithin schema document compared' event.place.parent selections := by
  induction events generalizing compared with
  | nil => exact ⟨compared, .refl compared, by simp⟩
  | cons event events ih =>
      have hlater := fun later hmem => hsets later (List.mem_cons_of_mem event hmem)
      by_cases henters : ∃ selections, Enters event selections
      · obtain ⟨selections, henters⟩ := henters
        rw [runFrom_of_enters henters] at h
        obtain ⟨hnil, hrest⟩ := List.append_eq_nil_iff.mp h
        have hset := hsets event List.mem_cons_self selections henters.2
        obtain ⟨hgrows, hwithin⟩ := clean_compareWithin
          (clean_compareSelected hranked (depthBound document)) hranked
          (fun x hx => (fits_depthBound hranked hset).shallow hranked hx) compared
          (List.map_eq_nil_iff.mp hnil)
        obtain ⟨compared', hgrows', hothers⟩ := ih hlater hrest
        refine ⟨compared', hgrows.trans hgrows', fun other hmem selections' henters' => ?_⟩
        rcases List.mem_cons.mp hmem with rfl | hmem
        · cases henters.2.symm.trans henters'.2
          exact hwithin.mono hgrows'.le
        · exact hothers other hmem selections' henters'
      · have hnot := fun selections hs => henters ⟨selections, hs⟩
        rw [runFrom_of_not_enters hnot] at h
        obtain ⟨compared', hgrows, hothers⟩ := ih hlater h
        refine ⟨compared', hgrows, fun other hmem selections' henters' => ?_⟩
        rcases List.mem_cons.mp hmem with rfl | hmem
        · exact absurd henters' (hnot selections')
        · exact hothers other hmem selections' henters'

/-- The walk enters the selection set of every fragment, with the type that the fragment is
about. -/
theorem exists_enters_of_fragment? (schema : Schema) {name : String} {fragment : Fragment}
    (h : document.fragment? name = some fragment) :
    ∃ event ∈ document.events schema, Enters event fragment.selections ∧
      event.place.parent = schema.type? fragment.condition.item := by
  obtain ⟨node, hmem, rfl⟩ := Document.mem_of_fragment? h
  have hevent : (⟨.enter, .selectionSet node.item.selections,
      (({} : Surroundings).on node.item.condition.item).within schema⟩ : Event) ∈
      (Definition.fragment node).events schema :=
    Event.mem_around_of_mem (List.mem_append_right _ (Event.enter_mem_around _ _ _))
  exact ⟨_, Document.mem_events_of_mem hmem hevent, ⟨rfl, rfl⟩, rfl⟩

/-- The walk enters the selection set of every operation, with the root type. -/
theorem visitsUnmergeable_of_operation {node : Located Operation}
    (hmem : Definition.operation node ∈ document)
    (h : Unmergeable schema document
      (((schema.root? node.item.kind).map fun t => TypeExpr.named t.name true).bind
        fun t => schema.type? t.innermost) node.item.selections) :
    VisitsUnmergeable schema document := by
  let place : Surroundings :=
    { output := (schema.root? node.item.kind).map fun t => .named t.name true }
  have hevent : (⟨.enter, .selectionSet node.item.selections, place.within schema⟩ : Event) ∈
      (Definition.operation node).events schema :=
    Event.mem_around_of_mem (List.mem_append_right _ (Event.enter_mem_around _ _ _))
  exact ⟨_, Document.mem_events_of_mem hmem hevent, _, rfl, rfl, h⟩

/-- **Mergeable fields.**  For documents whose fragments do not spread themselves: whatever the rule
reports, the expansion of some selection set has two nodes that conflict; and if there are two such
nodes, then the rule reports something, provided no argument and no entry of an object is given
twice. -/
theorem mergeableFields_reports_iff (hacyclic : Acyclic document) :
    ((Rules.mergeableFields schema document).run (document.events schema) ≠ [] →
      VisitsUnmergeable schema document) ∧
    (DistinctNames document → VisitsUnmergeable schema document →
      (Rules.mergeableFields schema document).run (document.events schema) ≠ []) := by
  constructor
  · intro h
    obtain ⟨event, hmem, selections, henters, hfinds⟩ := finds_of_runFrom_ne_nil h
    obtain ⟨x, y, hx, hy, hnode, hname, hfinds⟩ := hfinds.of_compareWithin
    exact ⟨event, hmem, selections, henters.1, henters.2, x, y, hx, hy, hnode, hname,
      conflicts_of_finds hnode hfinds⟩
  · rintro hdistinct ⟨event, hmem, selections, hphase, hnode, x, y, hx, hy, hxy, hname, hconflicts⟩
    intro hnil
    obtain ⟨rank, hranked⟩ := exists_ranked hacyclic
    have hsets := Document.events_satisfy schema document
    obtain ⟨compared, hgrows, hwithin⟩ := settled_of_runFrom_eq_nil hranked hsets hnil
    have hfinished : Finished schema document compared := by
      refine ⟨fun hcovers => ?_, fun hfragment => ?_⟩
      · exact (hgrows.closed _ _ _ hcovers).resolve_left (by simp [Rules.mergeableFields,
          Compared.covers])
      · obtain ⟨entry, hentry, henters, hparent⟩ := exists_enters_of_fragment? schema hfragment
        rw [← hparent]
        exact hwithin entry hentry _ henters
    have hset := hsets event hmem selections hnode
    have hsettled := hfinished.settles_set (hwithin event hmem selections ⟨hphase, hnode⟩) hx hy hxy
      hname
    exact hfinished.not_conflicts hdistinct (hx.standsIn hset) (hy.standsIn hset) hsettled
      hconflicts

/-! ## Two documents

The first has a conflict that is two fragments deep below two fields, and the rule reports it. In
the second, an argument is given twice, and the rule misses a conflict. -/

/-- Fragments whose ranks fall along every spread do not spread themselves. -/
theorem acyclic_of_ranks (rank : String → Nat)
    (h : ∀ node ∈ document.fragments, ∀ set ∈ node.item.selections :: setsIn node.item.selections,
      ∀ name ∈ spreadsOf set, rank name < rank node.item.name.item) : Acyclic document := by
  have hstep {a b : String} (hspreads : Spreads document a b) : rank b < rank a := by
    obtain ⟨fragment, hfragment, set, node, hnested, hmem, rfl⟩ := hspreads
    obtain ⟨found, hfound, rfl⟩ := Option.map_eq_some_iff.mp hfragment
    obtain rfl : found.item.name.item = a := by simpa using List.find?_some hfound
    obtain ⟨k, hk⟩ := List.mem_iff_getElem?.mp hmem
    exact h found (List.mem_of_find?_eq_some hfound) set (List.mem_cons.mpr hnested.mem_setsIn) _
      (mem_spreadsOf_iff.mpr ⟨k, _, hk, List.mem_singleton_self _⟩)
  have hrun {a b : String} (hpath : Relation.TransGen (Spreads document) a b) :
      rank b < rank a := by
    induction hpath with
    | single hspreads => exact hstep hspreads
    | tail _ hspreads ih => exact Nat.lt_trans (hstep hspreads) ih
  exact fun name hpath => Nat.lt_irrefl _ (hrun hpath)

/-- The arguments that are given to a selection. -/
def argumentsOf : Selection → Option (Located (List Argument))
  | .field node _ => node.item.arguments
  | _ => none

/-- Whether names are given twice can be seen from the sets of the document. -/
theorem distinctNames_of_sets (h : ∀ set ∈ document.sets, ∀ selection ∈ set,
    ∀ arguments ∈ argumentsOf selection, DistinctArguments arguments.item) :
    DistinctNames document := by
  rintro a ⟨set, hset, hmem⟩
  exact h set hset.mem_sets _ hmem

/-- An object with a field that takes two numbers, and a field of its own type. -/
def loopObject : NamedType where
  name := "Q"
  shape := .object [] [
    { name := "f", type := .named "Int" false, arguments := [
      { name := "a", type := .named "Int" false }, { name := "b", type := .named "Int" false }] },
    { name := "q", type := .named "Q" false }]

/-- The object with the standard types that every schema has. -/
def loopConfig : Schema.Config where
  query := some "Q"
  types := loopObject ::
    ((Standard.scalars.filter fun t => ["Int", "String", "Boolean"].contains t.name) ++
      Standard.introspection)
  directives := some []

/-- The configuration lists all types of its schema. -/
theorem loopConfig_closed : loopConfig.Closed where
  shared := Registry.shared_of_map_shared rfl
  nodup := by decide +kernel
  references := by decide +kernel
  others := by decide +kernel
  scalars := by decide +kernel

/-- A schema that starts with the object. -/
def loopSchema (others : List NamedType) : Schema where
  description := none
  query := some "Q"
  mutation := none
  subscription := none
  types := loopObject :: others
  directives := []
  ambiguous := []
  assumeValid := false

theorem ofConfig_loopConfig : ∃ others, Schema.ofConfig loopConfig = loopSchema others :=
  ⟨_, Schema.ofConfig_of_closed loopConfig_closed⟩

/-- A field with numbers as its arguments. -/
def numberField (label : Option String) (name : String) (numbers : List (String × Int))
    (below : List Selection) : Selection :=
  .field (.unlocated ⟨label.map .unlocated, .unlocated name,
    some (.unlocated (numbers.map fun (name, n) => ⟨.unlocated name, .unlocated (.int n)⟩)), []⟩)
    below

/-- A fragment that is spread without directives. -/
def plainSpread (name : String) : Selection :=
  .spread (.unlocated ⟨.unlocated name, []⟩)

/-- A query without variables and directives. -/
def plainQuery (name : String) (selections : List Selection) : Definition :=
  .operation (.unlocated ⟨.query, some (.unlocated name), none, [], selections⟩)

/-- A fragment about the only object of the schema. -/
def plainFragment (name : String) (selections : List Selection) : Definition :=
  .fragment (.unlocated ⟨.unlocated name, .unlocated "Q", [], selections⟩)

/-- Two fields `x`; below the one there is a field `y` two fragments away, below the other there is
one that has another number. -/
def deepDocument : Document := [
  plainQuery "A" [numberField (some "x") "q" [] [plainSpread "F"],
    numberField (some "x") "q" [] [numberField (some "y") "f" [("a", 1)] []]],
  plainFragment "F" [plainSpread "G"],
  plainFragment "G" [numberField (some "y") "f" [("a", 2)] []]]

/-- The rule reports the conflict. -/
theorem deepDocument_reported : Acyclic deepDocument ∧ DistinctNames deepDocument ∧
    (Rules.mergeableFields (Schema.ofConfig loopConfig) deepDocument).run
      (deepDocument.events (Schema.ofConfig loopConfig)) ≠ [] := by
  have hacyclic : Acyclic deepDocument :=
    acyclic_of_ranks (fun name => if name = "F" then 1 else 0) (by decide +kernel)
  have hdistinct : DistinctNames deepDocument := distinctNames_of_sets (by decide +kernel)
  refine ⟨hacyclic, hdistinct, (mergeableFields_reports_iff hacyclic).2 hdistinct ?_⟩
  obtain ⟨others, hschema⟩ := ofConfig_loopConfig
  rw [hschema]
  apply visitsUnmergeable_of_operation List.mem_cons_self
  refine ⟨_, _, .field (i := 0) rfl, .field (i := 1) rfl, by simp [Occurrence.SameNode], rfl, ?_⟩
  refine .nested (.spread (i := 0) rfl rfl (.spread (i := 0) rfl rfl (.field (i := 0) rfl)))
    (.field (i := 0) rfl) (by simp [Occurrence.SameNode, Occurrence.inner]) rfl ?_
  exact .fields rfl (.inr rfl)

/-- In the one query `F` is met first, in the other `G`. -/
def twiceDocument : Document := [
  plainQuery "A" [plainSpread "F", plainSpread "G"],
  plainQuery "B" [plainSpread "G", plainSpread "F"],
  plainFragment "G" [numberField none "f" [("a", 1), ("b", 2)] []],
  plainFragment "F" [numberField none "f" [("a", 1), ("a", 1)] []]]

/-- Where an argument is given twice the rule says nothing although there is a conflict. -/
theorem twiceDocument_unreported : Acyclic twiceDocument ∧
    VisitsUnmergeable (Schema.ofConfig loopConfig) twiceDocument ∧
    (Rules.mergeableFields (Schema.ofConfig loopConfig) twiceDocument).run
      (twiceDocument.events (Schema.ofConfig loopConfig)) = [] := by
  obtain ⟨others, hschema⟩ := ofConfig_loopConfig
  rw [hschema]
  refine ⟨acyclic_of_ranks (fun _ => 0) (by decide +kernel), ?_, by cbv⟩
  apply visitsUnmergeable_of_operation List.mem_cons_self
  refine ⟨_, _, .spread (i := 1) rfl rfl (.field (i := 0) rfl),
    .spread (i := 0) rfl rfl (.field (i := 0) rfl), ?_, rfl, .fields rfl (.inr rfl)⟩
  rintro ⟨hsite, -⟩
  simp [Located.unlocated] at hsite

end GraphQL.Merging
