import Mathlib.Data.List.Sort
import GraphQL.Proofs.Visits

/-!
# Rules that watch together

Checking a document with many rules in one walk gives what the rules give one by one, each in a walk
of its own, put together and in order. Two facts carry this. Rules that watch together find what
each of them finds alone, though in another order. And reports are ordered completely: two reports
that are not apart in the order are equal, so lists that differ in their order only have one and the
same ordered form.

Hence the order in which rules are combined does not matter, and a rule that is switched on by an
option only adds its own reports. The option against introspection adds one for each field, at any
depth, that asks for the schema.
-/

namespace GraphQL

/-! ## The order of reports -/

instance : Ord Position := ⟨Position.compare⟩

instance : Std.TransOrd Position :=
  inferInstanceAs (Std.TransCmp (compareLex (compareOn Position.index)
    (compareLex (compareOn Position.line) (compareOn Position.column))))

/-- Positions that are not apart in the order are equal. -/
instance : Std.LawfulEqOrd Position where
  eq_of_compare := by
    rintro ⟨index, line, column⟩ ⟨index', line', column'⟩ h
    change Position.compare _ _ = .eq at h
    simpa [Position.compare, Ordering.then_eq_eq] using h

namespace Report

/-- Lists of places are compared like words. -/
theorem compareLocations_eq (ps qs : List Position) :
    compareLocations ps qs = Ord.compare ps qs := by
  induction ps generalizing qs with
  | nil => cases qs <;> rfl
  | cons p ps ih =>
      cases qs with
      | nil => rfl
      | cons q qs =>
          rw [compareLocations, ih]
          exact List.compareLex_cons_cons.symm

/-- Comparing reports is comparing their places and then their texts. -/
theorem compare_eq :
    Report.compare = compareLex (compareOn Report.locations) (compareOn Report.message) := by
  funext a b
  rw [Report.compare, compareLocations_eq]
  rfl

instance : Std.TransCmp Report.compare := by
  rw [compare_eq]
  infer_instance

/-- Reports that are not apart in the order are equal. -/
theorem eq_of_compare {a b : Report} (h : a.compare b = .eq) : a = b := by
  obtain ⟨hlocations, hmessage⟩ := Ordering.then_eq_eq.mp h
  rw [compareLocations_eq] at hlocations
  have hplaces := Std.LawfulEqCmp.eq_of_compare hlocations
  have htexts := Std.LawfulEqCmp.eq_of_compare hmessage
  cases a
  cases b
  simp_all

/-- Reports that stand in order. -/
def Ordered (reports : List Report) : Prop :=
  reports.Pairwise fun a b => (a.compare b).isLE

/-- What has been put in order stands in order. -/
theorem ordered_sort (reports : List Report) : Ordered (sort reports) := by
  apply List.pairwise_mergeSort
  · intro a b c hab hbc
    exact Std.TransCmp.isLE_trans hab hbc
  · intro a b
    have hswap : a.compare b = (b.compare a).swap := Std.OrientedCmp.eq_swap
    rw [hswap]
    cases b.compare a <;> rfl

/-- Reports in order are determined by the reports, whatever order they came in. -/
theorem sort_eq_of_perm {reports others : List Report} (h : reports.Perm others) :
    sort reports = sort others := by
  have hperm : (sort reports).Perm (sort others) :=
    (List.mergeSort_perm reports _).trans (h.trans (List.mergeSort_perm others _).symm)
  refine List.Perm.eq_of_pairwise ?_ (ordered_sort reports) (ordered_sort others) hperm
  intro a b _ _ hab hba
  apply eq_of_compare
  have hswap : a.compare b = (b.compare a).swap := Std.OrientedCmp.eq_swap
  rw [hswap] at hab ⊢
  revert hab hba
  cases b.compare a <;> simp

/-- Putting a part in order first changes nothing. -/
theorem sort_sort_append (reports others : List Report) :
    sort (sort reports ++ others) = sort (reports ++ others) :=
  sort_eq_of_perm ((List.mergeSort_perm reports _).append_right others)

end Report

/-! ## Rules alone and together -/

namespace Document

/-- Everything that one rule reports in a walk of its own. -/
def alone (schema : Schema) (document : Document) (rule : Rule) : List Report :=
  (rule.run (document.events schema)).map Fault.report

/-- A check reports what its rules report alone, in order. -/
theorem check_eq_sort_alone (schema : Schema) (document : Document) (rules : List Rule) :
    document.check schema rules = Report.sort (rules.flatMap (document.alone schema)) := by
  have htogether := Rule.run_all_perm rules (document.events schema)
  have hreports := htogether.map Fault.report
  rw [List.map_flatMap] at hreports
  exact Report.sort_eq_of_perm hreports

/-- The order in which rules are combined does not matter. -/
theorem check_eq_of_perm (schema : Schema) (document : Document) {rules others : List Rule}
    (h : rules.Perm others) : document.check schema rules = document.check schema others := by
  rw [check_eq_sort_alone, check_eq_sort_alone]
  exact Report.sort_eq_of_perm (h.flatMap_right _)

/-- More rules only add what they report alone. -/
theorem check_append (schema : Schema) (document : Document) (rules more : List Rule) :
    document.check schema (rules ++ more) =
      Report.sort (document.check schema rules ++ more.flatMap (document.alone schema)) := by
  rw [check_eq_sort_alone, check_eq_sort_alone, Report.sort_sort_append, List.flatMap_append]

/-- Some reports are what rules report alone, in order, and they come from any combination of the
rules. -/
structure FusedFrom (schema : Schema) (document : Document) (rules : List Rule)
    (reports : List Report) : Prop where
  ordered : Report.Ordered reports
  alone : reports = Report.sort (rules.flatMap (document.alone schema))
  combined : ∀ order : List Rule, order.Perm rules → document.check schema order = reports

/-- Every check fuses its rules. -/
theorem fusedFrom_check (schema : Schema) (document : Document) (rules : List Rule) :
    document.FusedFrom schema rules (document.check schema rules) where
  ordered := Report.ordered_sort _
  alone := check_eq_sort_alone schema document rules
  combined _ horder := check_eq_of_perm schema document horder

end Document

/-! ## Fields that ask for the schema -/

mutual

/-- The fields of a selection, at any depth. -/
def Selection.fieldNodes : Selection → List (Located FieldHead)
  | .field node selections => node :: Selection.listFieldNodes selections
  | .spread _ => []
  | .inline _ selections => Selection.listFieldNodes selections

/-- The fields of the selections of a set, at any depth. -/
def Selection.listFieldNodes : List Selection → List (Located FieldHead)
  | [] => []
  | selection :: rest => selection.fieldNodes ++ Selection.listFieldNodes rest

end

/-- The fields of an operation or a fragment, at any depth. -/
def Definition.fieldNodes : Definition → List (Located FieldHead)
  | .operation node => Selection.listFieldNodes node.item.selections
  | .fragment node => Selection.listFieldNodes node.item.selections
  | _ => []

/-- The fields of all operations and fragments of a document, at any depth. -/
def Document.fieldNodes (document : Document) : List (Located FieldHead) :=
  document.flatMap Definition.fieldNodes

/-- A check that looks at fields only, and only at what stands before their selections. -/
def fieldCheck (f : Located FieldHead → List Fault) (_ : Surroundings) : Node → List Fault
  | .field node _ => f node
  | _ => []

section

variable (f : Located FieldHead → List Fault) (schema : Schema)

theorem fieldCheck_skipsLiterals : Rule.SkipsLiterals (fieldCheck f) :=
  .of_each (fun _ _ => rfl) (fun _ _ => rfl) (fun _ _ _ => rfl)

@[simp] theorem run_fieldCheck_arguments (place : Surroundings)
    (parameters : Option (List InputValue)) (arguments : Option (Located (List Argument))) :
    (Rule.onEnter (fieldCheck f)).run (argumentEvents schema place parameters arguments) = [] :=
  Rule.run_argumentEvents schema (fieldCheck_skipsLiterals f) place parameters arguments

@[simp] theorem run_fieldCheck_directives (place : Surroundings)
    (directives : List (Located DirectiveUse)) :
    (Rule.onEnter (fieldCheck f)).run (directiveEvents schema place directives) = [] := by
  rw [Rule.run_directiveEvents schema (fieldCheck_skipsLiterals f)]
  simp [fieldCheck]

mutual

/-- Along a selection, the fields in it are talked about, outer ones first. -/
theorem run_fieldCheck_selection (place : Surroundings) : (selection : Selection) →
    (Rule.onEnter (fieldCheck f)).run (selection.events schema place) =
      selection.fieldNodes.flatMap f
  | .field node selections => by
      rw [Selection.events, Selection.fieldNodes, List.flatMap_cons]
      simp only [Rule.run_onEnter_around, Rule.run_onEnter_append, run_fieldCheck_arguments,
        run_fieldCheck_directives, List.nil_append, fieldCheck]
      cases selections with
      | nil => rfl
      | cons first rest =>
          rw [if_neg (by simp), Rule.run_onEnter_around,
            run_fieldCheck_selections _ (first :: rest)]
          rfl
  | .spread node => by
      simp [Selection.events, Selection.fieldNodes, fieldCheck]
  | .inline node selections => by
      rw [Selection.events, Selection.fieldNodes, Rule.run_onEnter_around, Rule.run_onEnter_append,
        run_fieldCheck_directives, Rule.run_onEnter_around, run_fieldCheck_selections _ selections]
      rfl

theorem run_fieldCheck_selections (place : Surroundings) : (selections : List Selection) →
    (Rule.onEnter (fieldCheck f)).run (Selection.listEvents schema place selections) =
      (Selection.listFieldNodes selections).flatMap f
  | [] => rfl
  | selection :: rest => by
      rw [Selection.listEvents, Rule.run_onEnter_append, run_fieldCheck_selection place selection,
        run_fieldCheck_selections place rest, Selection.listFieldNodes, List.flatMap_append]

end

/-- Along a definition, the fields in it are talked about. -/
theorem run_fieldCheck_definition (definition : Definition) :
    (Rule.onEnter (fieldCheck f)).run (definition.events schema) =
      definition.fieldNodes.flatMap f := by
  have hskips := fieldCheck_skipsLiterals f
  cases definition with
  | operation node =>
      simp [Definition.events, selectionSetEvents, Definition.fieldNodes,
        Rule.run_variableEvents schema hskips, run_fieldCheck_selections, fieldCheck]
  | fragment node =>
      simp [Definition.events, selectionSetEvents, Definition.fieldNodes,
        run_fieldCheck_selections, fieldCheck]
  | schema node => simp [Definition.events, Definition.fieldNodes, fieldCheck]
  | type node =>
      have hbody : (Rule.onEnter (fieldCheck f)).run (node.item.body.events schema {}) = [] := by
        cases node.item.body <;>
          simp [TypeBody.events, TypeBody.events.fieldEvents,
            Rule.run_inputDefinitionEvents schema hskips, fieldCheck]
      simp [Definition.events, Definition.fieldNodes, hbody, fieldCheck]
  | directive node =>
      simp [Definition.events, Definition.fieldNodes,
        Rule.run_inputDefinitionEvents schema hskips, fieldCheck]

/-- A rule that looks at fields only talks about each field of the document once. -/
theorem run_fieldCheck_document (document : Document) :
    (Rule.onEnter (fieldCheck f)).run (document.events schema) =
      document.fieldNodes.flatMap f := by
  rw [Document.events, Rule.run_onEnter_around, Rule.run_onEnter_flatMap, Document.fieldNodes,
    List.flatMap_assoc]
  exact List.flatMap_congr fun definition _ => run_fieldCheck_definition f schema definition

end

/-- Whether a field asks for the schema. -/
def FieldHead.asksForSchema (head : FieldHead) : Bool :=
  head.name.item = "__schema" || head.name.item = "__type"

/-- What is reported about a field if introspection is not allowed. -/
def FieldHead.introspectionReport (head : FieldHead) : Report :=
  Fault.report ⟨.introspection head.name.item, [head.name.span.start]⟩

/-- The rule against introspection reports each field that asks for the schema, at any depth, and
nothing else. -/
theorem Document.alone_noIntrospection (schema : Schema) (document : Document) :
    document.alone schema Rules.noIntrospection =
      (document.fieldNodes.filter (·.item.asksForSchema)).map (·.item.introspectionReport) := by
  have hrule : Rules.noIntrospection = .onEnter (fieldCheck fun node =>
      if ["__schema", "__type"].contains node.item.name.item then
        [⟨.introspection node.item.name.item, [node.item.name.span.start]⟩]
      else []) := rfl
  rw [alone, hrule, run_fieldCheck_document, List.map_flatMap]
  induction document.fieldNodes with
  | nil => rfl
  | cons node nodes ih =>
      rw [List.flatMap_cons, ih, List.filter_cons]
      by_cases hasks : node.item.asksForSchema
      · have hname : ["__schema", "__type"].contains node.item.name.item := by
          simpa [FieldHead.asksForSchema] using hasks
        rw [if_pos hname, if_pos hasks]
        rfl
      · have hname : ¬ ["__schema", "__type"].contains node.item.name.item := by
          simpa [FieldHead.asksForSchema] using hasks
        rw [if_neg hname, if_neg hasks]
        rfl

example (schema : Schema) (document : Document) :
    (Rules.executable schema document).length = 26 ∧
      (Rules.typeSystem schema document).length = 11 := ⟨rfl, rfl⟩

end GraphQL
