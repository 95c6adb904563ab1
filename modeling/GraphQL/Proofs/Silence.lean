import GraphQL.Validity.Basic

/-!
# Checks that find nothing

Rules that watch a walk together do not disturb each other: what they find is, up to its order, what
each of them finds alone. So a check finds nothing exactly if every rule of it is silent on the
walk, and a rule that looks at single nodes is silent exactly if it has nothing to say at any node
that is entered.
-/

namespace GraphQL

namespace Rule

/-- Two rules that watch together find what both find alone, from any states on. -/
theorem runFrom_both_perm (r s : Rule) (events : List Event) :
    ∀ (a : r.State) (b : s.State),
      ((both r s).runFrom (a, b) events).Perm (r.runFrom a events ++ s.runFrom b events) := by
  induction events with
  | nil =>
      intro a b
      exact List.Perm.refl _
  | cons event events ih =>
      intro a b
      have htail := ih (r.observe a event).1 (s.observe b event).1
      show List.Perm
        (((r.observe a event).2 ++ (s.observe b event).2) ++
          (both r s).runFrom ((r.observe a event).1, (s.observe b event).1) events)
        (((r.observe a event).2 ++ r.runFrom (r.observe a event).1 events) ++
          ((s.observe b event).2 ++ s.runFrom (s.observe b event).1 events))
      have hswap : ((s.observe b event).2 ++ r.runFrom (r.observe a event).1 events).Perm
          (r.runFrom (r.observe a event).1 events ++ (s.observe b event).2) :=
        List.perm_append_comm
      have hmiddle := (hswap.append_right (s.runFrom (s.observe b event).1 events)).append_left
        (r.observe a event).2
      refine ((htail.append_left _).trans ?_).trans (hmiddle.trans ?_)
      · simp only [List.append_assoc]
        exact List.Perm.refl _
      · simp only [List.append_assoc]
        exact List.Perm.refl _

/-- The rule without a word finds nothing. -/
theorem runFrom_silent (events : List Event) : silent.runFrom () events = [] := by
  induction events with
  | nil => rfl
  | cons event events ih => exact ih

/-- Rules that watch together find what each of them finds alone. -/
theorem run_all_perm (rules : List Rule) (events : List Event) :
    ((all rules).run events).Perm (rules.flatMap (·.run events)) := by
  induction rules with
  | nil =>
      rw [List.flatMap_nil]
      exact List.Perm.of_eq (runFrom_silent events)
  | cons rule rules ih =>
      have hboth := runFrom_both_perm rule (all rules) events rule.start (all rules).start
      rw [List.flatMap_cons]
      exact hboth.trans (ih.append_left _)

/-- Rules that watch together are silent exactly if each of them is. -/
theorem run_all_eq_nil_iff (rules : List Rule) (events : List Event) :
    (all rules).run events = [] ↔ ∀ rule ∈ rules, rule.run events = [] := by
  have hperm := run_all_perm rules events
  constructor
  · intro h
    rw [h] at hperm
    exact List.flatMap_eq_nil_iff.mp hperm.symm.eq_nil
  · intro h
    rw [List.flatMap_eq_nil_iff.mpr h] at hperm
    exact hperm.eq_nil

/-- A rule on single nodes says what it has to say at each node that is entered. -/
theorem run_onEnter (check : Surroundings → Node → List Fault) (events : List Event) :
    (onEnter check).run events =
      events.flatMap fun event =>
        match event.phase with
        | .enter => check event.place event.node
        | .leave => [] := by
  show (onEnter check).runFrom () events = _
  induction events with
  | nil => rfl
  | cons event events ih =>
      rw [List.flatMap_cons, ← ih]
      rfl

/-- A rule on single nodes that is silent has nothing to say at any node that is entered. -/
theorem check_eq_nil_of_run {check : Surroundings → Node → List Fault} {events : List Event}
    (h : (onEnter check).run events = []) {place : Surroundings} {node : Node}
    (hmem : ⟨.enter, node, place⟩ ∈ events) : check place node = [] := by
  rw [run_onEnter] at h
  exact List.flatMap_eq_nil_iff.mp h _ hmem

/-- A rule on the document that is silent has nothing to say about the document walked through. -/
theorem check_eq_nil_of_run_onDocument {check : Document → List Fault} {schema : Schema}
    {document : Document} (h : (onDocument check).run (document.events schema) = []) :
    check document = [] := by
  have hmem : (⟨.enter, .document document, {}⟩ : Event) ∈ document.events schema := by
    simp [Document.events, Event.around]
  exact check_eq_nil_of_run h hmem

end Rule

/-- Putting reports in order loses none. -/
theorem Report.sort_eq_nil_iff (reports : List Report) : sort reports = [] ↔ reports = [] := by
  have hlength : (sort reports).length = reports.length := List.length_mergeSort reports
  rw [← List.length_eq_zero_iff, hlength, List.length_eq_zero_iff]

/-- A check finds nothing exactly if each of its rules is silent on the walk. -/
theorem Document.check_eq_nil_iff (schema : Schema) (document : Document) (rules : List Rule) :
    document.check schema rules = [] ↔
      ∀ rule ∈ rules, rule.run (document.events schema) = [] := by
  unfold Document.check
  rw [Report.sort_eq_nil_iff, List.map_eq_nil_iff, Rule.run_all_eq_nil_iff]

/-- No name is repeated exactly if the names are pairwise different. -/
theorem repetitions_eq_nil_iff {names : List (String × Position)}
    {violation : String → Violation} :
    repetitions names violation = [] ↔ (names.map Prod.fst).Nodup := by
  have hcount (name : String) :
      (names.map Prod.fst).count name = (names.filter (·.1 = name)).length := by
    rw [List.count_eq_countP, List.countP_map, List.countP_eq_length_filter]
    congr 1
  unfold repetitions repeated
  rw [List.map_eq_nil_iff, List.filterMap_eq_nil_iff, List.nodup_iff_count]
  constructor
  · intro h name
    rw [hcount]
    by_cases hmem : name ∈ names.map Prod.fst
    · have hone := h name (by simpa using hmem)
      split at hone
      · cases hone
      · rename_i hshort
        match hfilter : names.filter (·.1 = name) with
        | [] => simp [hfilter]
        | [_] => simp [hfilter]
        | first :: second :: rest => exact (hshort first second rest hfilter).elim
    · rw [← hcount, List.count_eq_zero_of_not_mem hmem]
      exact Nat.zero_le 1
  · intro h name _
    have hone := h name
    rw [hcount] at hone
    split
    · rename_i first second rest hfilter
      rw [hfilter] at hone
      simp at hone
    · rfl

end GraphQL
