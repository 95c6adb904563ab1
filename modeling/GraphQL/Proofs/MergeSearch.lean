import GraphQL.Proofs.Expansion
import Mathlib.Tactic.ByContra

/-!
# What a comparison finds

A search for fields that cannot be merged is a sequence of smaller searches. `andThen` puts two of
them in sequence, and the searches of the rule are read as sequences of this kind. A search that
finds something does so in one of its parts, whatever the memory was at that point, so each search
is traced back to two fields that are compared: `Finds` forgets the memory.

Fields of two sets are different nodes if the sets stand at different sites. Two fragments that are
compared are different, and the sets below two fields stand at different sites since the fields are
different nodes. This is all that `conflicts_of_finds` needs to turn a finding into a conflict of
the expansions.
-/

namespace GraphQL.Merging

variable (schema : Schema) (document : Document)
  (compare : Bool → Selected → Selected → Search (List Clash))

/-- Searches twice and puts together what is found. -/
def andThen (first second : Search (List Clash)) : Search (List Clash) := do
  let found ← first
  let more ← second
  return found ++ more

theorem searchAll_cons {α : Type} (search : α → Search (List Clash)) (a : α) (rest : List α) :
    searchAll search (a :: rest) = andThen (search a) (searchAll search rest) := rfl

theorem compareSets_eq (exclusive : Bool) (left right : FieldSet) :
    compareSets schema document compare exclusive left right =
      andThen (andThen (andThen
        (compareFields compare exclusive left.fields right.fields)
        (searchAll (compareWithFragment schema document compare exclusive left.fields)
          right.spreads))
        (searchAll (compareWithFragment schema document compare exclusive right.fields)
          left.spreads))
        (searchAll (fun a => searchAll (compareFragments schema document compare exclusive
          (spreadBound document) a) right.spreads) left.spreads) := rfl

theorem compareWithin_eq (set : FieldSet) :
    compareWithin schema document compare set =
      andThen (searchAll (fun pair => compare false pair.1 pair.2) (pairsWithin set.fields))
        (compareWithin.go schema document compare set set.spreads) := rfl

theorem compareWithin_go_cons (set : FieldSet) (a : String) (rest : List String) :
    compareWithin.go schema document compare set (a :: rest) =
      andThen (andThen (compareWithFragment schema document compare false set.fields a)
        (searchAll (compareFragments schema document compare false (spreadBound document) a) rest))
        (compareWithin.go schema document compare set rest) := rfl

/-- Comparing two fragments does nothing if it need not be done, and else remembers that it is done
before anything is compared. -/
theorem compareFragments_succ (exclusive : Bool) (fuel : Nat) (a b : String) (compared : Compared) :
    (compareFragments schema document compare exclusive (fuel + 1) a b).run compared =
      if a = b || compared.covers a b exclusive then ([], compared)
      else match fragmentSet? schema document a, fragmentSet? schema document b with
        | some left, some right =>
          (andThen (andThen (compareFields compare exclusive left.fields right.fields)
            (searchAll (compareFragments schema document compare exclusive fuel a) right.spreads))
            (searchAll (compareFragments schema document compare exclusive fuel · b)
              left.spreads)).run (compared.mark a b exclusive)
        | _, _ => ([], compared) := by
  rw [compareFragments]
  simp only [StateT.run_bind, StateT.run_get, pure_bind]
  by_cases h : (decide (a = b) || compared.covers a b exclusive) = true
  · rw [if_pos h, if_pos h]
    rfl
  · rw [if_neg h, if_neg h]
    cases fragmentSet? schema document a with
    | none => rfl
    | some left =>
        cases fragmentSet? schema document b with
        | none => rfl
        | some right => rfl

/-- Comparing two fields finds what conflicts about themselves, or else whether something below them
conflicts. -/
theorem compareSelected_succ (fuel : Nat) (parentsExclusive : Bool) (a b : Selected)
    (compared : Compared) :
    (compareSelected schema document (fuel + 1) parentsExclusive a b).run compared =
      let exclusive := parentsExclusive || neverMeet a b
      match ownConflict? schema exclusive a b with
      | some conflict => ([⟨a.name, conflict, [a.position], [b.position]⟩], compared)
      | none =>
        if a.selections.isEmpty || b.selections.isEmpty then ([], compared)
        else
          let nested := (compareSets schema document (compareSelected schema document fuel)
            exclusive (.of schema (innerOwner schema a) a.selections)
            (.of schema (innerOwner schema b) b.selections)).run compared
          if nested.1.isEmpty then ([], nested.2)
          else ([⟨a.name, .subfields (nested.1.map fun clash => (clash.name, clash.conflict)),
            a.position :: nested.1.flatMap Clash.left,
            b.position :: nested.1.flatMap Clash.right⟩], nested.2) := by
  rw [compareSelected]
  dsimp only
  cases ownConflict? schema (parentsExclusive || neverMeet a b) a b with
  | some conflict => rfl
  | none =>
      dsimp only
      by_cases h : (a.selections.isEmpty || b.selections.isEmpty) = true
      · rw [if_pos h, if_pos h]
        rfl
      · rw [if_neg h, if_neg h]
        simp only [StateT.run_bind]
        generalize StateT.run (compareSets _ _ _ _ _ _) compared = nested
        obtain ⟨found, compared'⟩ := nested
        cases found <;> rfl
/-- A search finds something, with some memory. -/
def Finds (search : Search (List Clash)) : Prop :=
  ∃ compared, (search.run compared).1 ≠ []

theorem not_finds_pure : ¬ Finds (pure []) := by
  rintro ⟨compared, h⟩
  exact h rfl

theorem Finds.of_andThen {first second : Search (List Clash)} (h : Finds (andThen first second)) :
    Finds first ∨ Finds second := by
  obtain ⟨compared, h⟩ := h
  by_cases hfirst : (first.run compared).1 = []
  · right
    refine ⟨(first.run compared).2, fun hsecond => h ?_⟩
    change (first.run compared).1 ++ (second.run (first.run compared).2).1 = []
    rw [hfirst, hsecond, List.append_nil]
  · exact .inl ⟨compared, hfirst⟩

theorem Finds.of_searchAll {α : Type} {search : α → Search (List Clash)} {list : List α}
    (h : Finds (searchAll search list)) : ∃ a ∈ list, Finds (search a) := by
  induction list with
  | nil => exact absurd h not_finds_pure
  | cons a rest ih =>
      rw [searchAll_cons] at h
      rcases h.of_andThen with h | h
      · exact ⟨a, List.mem_cons_self, h⟩
      · obtain ⟨b, hb, h⟩ := ih h
        exact ⟨b, List.mem_cons_of_mem _ hb, h⟩

/-- The pairs of two sets have one name. -/
theorem mem_pairsBetween_iff {left right : List Selected} {a b : Selected} :
    (a, b) ∈ pairsBetween left right ↔ a ∈ left ∧ b ∈ right ∧ a.name = b.name := by
  simp only [pairsBetween, responseNames, List.mem_flatMap, List.mem_map, List.mem_filter,
    List.mem_eraseDups, decide_eq_true_eq, Prod.mk.injEq]
  constructor
  · rintro ⟨name, -, c, ⟨hc, rfl⟩, d, ⟨hd, hname⟩, rfl, rfl⟩
    exact ⟨hc, hd, hname.symm⟩
  · rintro ⟨ha, hb, hname⟩
    exact ⟨a.name, ⟨a, ha, rfl⟩, a, ⟨ha, rfl⟩, b, ⟨hb, hname.symm⟩, rfl, rfl⟩

/-- The pairs of a list are its sublists of length two. -/
theorem mem_laterPairs_iff {α : Type} {list : List α} {a b : α} :
    (a, b) ∈ laterPairs list ↔ [a, b].Sublist list := by
  induction list with
  | nil => simp [laterPairs]
  | cons c rest ih =>
      simp only [laterPairs, List.mem_append, List.mem_map, Prod.mk.injEq, ih]
      constructor
      · rintro (⟨d, hd, rfl, rfl⟩ | h)
        · exact (List.singleton_sublist.mpr hd).cons_cons c
        · exact h.cons c
      · intro h
        cases h with
        | cons _ h => exact .inr h
        | cons_cons _ h => exact .inl ⟨b, List.singleton_sublist.mp h, rfl, rfl⟩

/-- The pairs of one set have one name and stand at different places of it. -/
theorem mem_pairsWithin_iff {fields : List Selected} {a b : Selected} :
    (a, b) ∈ pairsWithin fields ↔ [a, b].Sublist fields ∧ a.name = b.name := by
  simp only [pairsWithin, responseNames, List.mem_flatMap, List.mem_map, List.mem_eraseDups,
    mem_laterPairs_iff]
  constructor
  · rintro ⟨name, -, h⟩
    have ha := List.mem_filter.mp (h.subset (List.mem_cons_self (a := a)))
    have hb := List.mem_filter.mp (h.subset (List.mem_cons_of_mem a (List.mem_singleton_self b)))
    refine ⟨h.trans List.filter_sublist, ?_⟩
    simp only [decide_eq_true_eq] at ha hb
    rw [ha.2, hb.2]
  · rintro ⟨h, hname⟩
    refine ⟨a.name, ⟨a, h.subset List.mem_cons_self, rfl⟩, ?_⟩
    have := h.filter (·.name = a.name)
    simpa [hname] using this

variable {schema document compare}

theorem fragmentSet?_eq_some_iff {name : String} {set : FieldSet} :
    fragmentSet? schema document name = some set ↔
      ∃ fragment, document.fragment? name = some fragment ∧
        FieldSet.of schema (schema.type? fragment.condition.item) fragment.selections = set := by
  simp [fragmentSet?]

theorem mem_spreads_of {owner : Option NamedType} {selections : List Selection} {name : String} :
    name ∈ (FieldSet.of schema owner selections).spreads ↔ name ∈ spreadsOf selections := by
  simp [FieldSet.of]

/-- A comparison of two different nodes of one response name finds something; the one is among some
occurrences and the other among others. -/
def FindsBetween (compare : Bool → Selected → Selected → Search (List Clash)) (exclusive : Bool)
    (P Q : Occurrence → Prop) : Prop :=
  ∃ x y, P x ∧ Q y ∧ ¬ x.SameNode y ∧ x.name = y.name ∧
    Finds (compare exclusive x.selected y.selected)

theorem FindsBetween.mono {exclusive : Bool} {P P' Q Q' : Occurrence → Prop}
    (h : FindsBetween compare exclusive P Q) (hP : ∀ x, P x → P' x) (hQ : ∀ y, Q y → Q' y) :
    FindsBetween compare exclusive P' Q' := by
  obtain ⟨x, y, hx, hy, hrest⟩ := h
  exact ⟨x, y, hP x hx, hQ y hy, hrest⟩

/-- Comparing the fields of sets at different sites compares different nodes. -/
theorem Finds.of_compareFields {exclusive : Bool} (site site' : Site)
    {owner owner' : Option NamedType} {selections selections' : List Selection}
    (hsites : site ≠ site')
    (h : Finds (compareFields compare exclusive (fieldsOf schema owner selections)
      (fieldsOf schema owner' selections'))) :
    FindsBetween compare exclusive (· ∈ placed schema site [] 0 owner selections)
      (· ∈ placed schema site' [] 0 owner' selections') := by
  obtain ⟨⟨a, b⟩, hpair, h⟩ := h.of_searchAll
  obtain ⟨ha, hb, hname⟩ := mem_pairsBetween_iff.mp hpair
  obtain ⟨x, hx, rfl⟩ := exists_placed schema site ha
  obtain ⟨y, hy, rfl⟩ := exists_placed schema site' hb
  refine ⟨x, y, hx, hy, ?_, hname, h⟩
  rintro ⟨hsite, -⟩
  rw [(steps_of_mem_placed schema _ hx).1, (steps_of_mem_placed schema _ hy).1] at hsite
  exact hsites hsite

/-- Comparing the fields of a set with a fragment compares them with what comes from it. -/
theorem Finds.of_compareWithFragment {exclusive : Bool} {site : Site} {owner : Option NamedType}
    {selections : List Selection} {name : String} (hsite : ∀ other, site ≠ .fragment other)
    (h : Finds (compareWithFragment schema document compare exclusive
      (fieldsOf schema owner selections) name)) :
    FindsBetween compare exclusive (· ∈ placed schema site [] 0 owner selections)
      (FromFragment schema document name) := by
  obtain ⟨other, hother, h⟩ := h.of_searchAll
  cases hset : fragmentSet? schema document other with
  | none =>
      rw [hset] at h
      exact absurd h not_finds_pure
  | some set =>
      obtain ⟨fragment, hfragment, rfl⟩ := fragmentSet?_eq_some_iff.mp hset
      rw [hset] at h
      refine (Finds.of_compareFields site (.fragment other) (hsite other) h).mono
        (fun _ hx => hx) fun y hy => ?_
      exact fromFragment_iff.mpr ⟨other, hother, fragment, hfragment, hy⟩

/-- Comparing two fragments compares what comes from the one with what comes from the other. -/
theorem Finds.of_compareFragments {exclusive : Bool} {fuel : Nat} {a b : String}
    (h : Finds (compareFragments schema document compare exclusive fuel a b)) :
    FindsBetween compare exclusive (FromFragment schema document a)
      (FromFragment schema document b) := by
  induction fuel generalizing a b with
  | zero => exact absurd h not_finds_pure
  | succ fuel ih =>
      obtain ⟨compared, h⟩ := h
      rw [compareFragments_succ] at h
      split at h
      · exact absurd rfl h
      · rename_i hskip
        have hab : a ≠ b := by
          rintro rfl
          simp at hskip
        split at h
        · rename_i left right hleft hright
          obtain ⟨fragment, hfragment, rfl⟩ := fragmentSet?_eq_some_iff.mp hleft
          obtain ⟨fragment', hfragment', rfl⟩ := fragmentSet?_eq_some_iff.mp hright
          have hfinds : Finds _ := ⟨_, h⟩
          rcases hfinds.of_andThen with hfinds | hfinds
          · rcases hfinds.of_andThen with hfinds | hfinds
            · have hsites : Site.fragment a ≠ .fragment b := by simpa using hab
              refine (Finds.of_compareFields _ _ hsites hfinds).mono ?_ ?_
              · exact fun x hx => .own hfragment hx
              · exact fun y hy => .own hfragment' hy
            · obtain ⟨c, hc, hfinds⟩ := hfinds.of_searchAll
              refine (ih hfinds).mono (fun _ hx => hx) fun y hy => ?_
              exact .deeper hfragment' (mem_spreads_of.mp hc) hy
          · obtain ⟨c, hc, hfinds⟩ := hfinds.of_searchAll
            refine (ih hfinds).mono (fun x hx => ?_) fun _ hy => hy
            exact .deeper hfragment (mem_spreads_of.mp hc) hx
        · exact absurd rfl h

/-- Comparing the sets below two different nodes compares their expansions, in one order or the
other. -/
theorem Finds.of_compareSets {exclusive : Bool} {x y : Occurrence} (hnode : ¬ x.SameNode y)
    {owner owner' : Option NamedType} {selections selections' : List Selection}
    (h : Finds (compareSets schema document compare exclusive (.of schema owner selections)
      (.of schema owner' selections'))) :
    FindsBetween compare exclusive (Occurs schema document x.inner [] owner selections)
        (Occurs schema document y.inner [] owner' selections') ∨
      FindsBetween compare exclusive (Occurs schema document y.inner [] owner' selections')
        (Occurs schema document x.inner [] owner selections) := by
  have hsites : x.inner ≠ y.inner := by
    intro heq
    simp only [Occurrence.inner, Site.under.injEq] at heq
    exact hnode heq
  have hplaced (z : Occurrence) (site : Site) (owner : Option NamedType)
      (selections : List Selection) (hz : z ∈ placed schema site [] 0 owner selections) :
      Occurs schema document site [] owner selections z := occurs_iff.mpr (.inl hz)
  have hspread (z : Occurrence) (site : Site) {owner : Option NamedType}
      {selections : List Selection} {name : String}
      (hname : name ∈ (FieldSet.of schema owner selections).spreads)
      (hz : FromFragment schema document name z) :
      Occurs schema document site [] owner selections z :=
    occurs_iff.mpr (.inr ⟨name, mem_spreads_of.mp hname, hz⟩)
  rw [compareSets_eq] at h
  rcases h.of_andThen with h | h
  · rcases h.of_andThen with h | h
    · rcases h.of_andThen with h | h
      · exact .inl ((Finds.of_compareFields _ _ hsites h).mono
          (fun z hz => hplaced z _ _ _ hz) (fun z hz => hplaced z _ _ _ hz))
      · obtain ⟨name, hname, h⟩ := h.of_searchAll
        exact .inl ((Finds.of_compareWithFragment (by simp [Occurrence.inner]) h).mono
          (fun z hz => hplaced z _ _ _ hz) (fun z hz => hspread z _ hname hz))
    · obtain ⟨name, hname, h⟩ := h.of_searchAll
      exact .inr ((Finds.of_compareWithFragment (by simp [Occurrence.inner]) h).mono
        (fun z hz => hplaced z _ _ _ hz) (fun z hz => hspread z _ hname hz))
  · obtain ⟨name, hname, h⟩ := h.of_searchAll
    obtain ⟨name', hname', h⟩ := h.of_searchAll
    exact .inl (h.of_compareFragments.mono
      (fun z hz => hspread z _ hname hz) (fun z hz => hspread z _ hname' hz))

/-- Comparing the fragments that a set spreads, each with the fields and with those after it,
compares different nodes of its expansion. -/
theorem Finds.of_compareWithin_go {owner : Option NamedType} {selections : List Selection}
    {rest : List String} (hrest : ∀ name ∈ rest, name ∈ spreadsOf selections)
    (h : Finds (compareWithin.go schema document compare (.of schema owner selections) rest)) :
    FindsBetween compare false (Occurs schema document .here [] owner selections)
      (Occurs schema document .here [] owner selections) := by
  induction rest with
  | nil => exact absurd h not_finds_pure
  | cons name rest ih =>
      have hspread (z : Occurrence) {other : String} (hother : other ∈ name :: rest)
          (hz : FromFragment schema document other z) :
          Occurs schema document .here [] owner selections z :=
        occurs_iff.mpr (.inr ⟨other, hrest other hother, hz⟩)
      rw [compareWithin_go_cons] at h
      rcases h.of_andThen with h | h
      · rcases h.of_andThen with h | h
        · exact (Finds.of_compareWithFragment (by simp) h).mono
            (fun z hz => occurs_iff.mpr (.inl hz))
            (fun z hz => hspread z List.mem_cons_self hz)
        · obtain ⟨other, hother, h⟩ := h.of_searchAll
          exact h.of_compareFragments.mono (fun z hz => hspread z List.mem_cons_self hz)
            (fun z hz => hspread z (List.mem_cons_of_mem _ hother) hz)
      · exact ih (fun other hother => hrest other (List.mem_cons_of_mem _ hother)) h

/-- Comparing everything inside a set compares different nodes of its expansion. -/
theorem Finds.of_compareWithin {owner : Option NamedType} {selections : List Selection}
    (h : Finds (compareWithin schema document compare (.of schema owner selections))) :
    FindsBetween compare false (Occurs schema document .here [] owner selections)
      (Occurs schema document .here [] owner selections) := by
  rw [compareWithin_eq] at h
  rcases h.of_andThen with h | h
  · obtain ⟨⟨a, b⟩, hpair, h⟩ := h.of_searchAll
    obtain ⟨hsublist, hname⟩ := mem_pairsWithin_iff.mp hpair
    rw [FieldSet.of, ← map_placed schema .here [] 0, List.sublist_map_iff] at hsublist
    obtain ⟨pair, hsublist, hpair⟩ := hsublist
    obtain ⟨x, y, rfl, rfl, rfl⟩ : ∃ x y, pair = [x, y] ∧ x.selected = a ∧ y.selected = b := by
      match pair, hpair with
      | [x, y], hpair =>
          simp only [List.map_cons, List.map_nil, List.cons.injEq, and_true] at hpair
          exact ⟨x, y, rfl, hpair.1.symm, hpair.2.symm⟩
    have hnode := (pairwise_placed schema .here [] 0 owner selections).sublist hsublist
    refine ⟨x, y, ?_, ?_, by simpa using hnode, hname, h⟩
    · exact occurs_iff.mpr (.inl (hsublist.subset (by simp)))
    · exact occurs_iff.mpr (.inl (hsublist.subset (by simp)))
  · exact Finds.of_compareWithin_go (fun _ hname => mem_spreads_of.mp hname) h

/-- Two fields do not conflict about themselves exactly if they are the same field with the same
arguments, where they may meet, and their types do not conflict, where these are known. -/
theorem ownConflict?_eq_none_iff {exclusive : Bool} {a b : Selected} :
    ownConflict? schema exclusive a b = none ↔
      (exclusive = false → a.node.item.name.item = b.node.item.name.item ∧
        sameArguments a.node.item.arguments b.node.item.arguments = true) ∧
      ∀ t u, a.type? schema = some t → b.type? schema = some u →
        typesConflict schema t u = false := by
  unfold ownConflict?
  cases exclusive with
  | true => cases a.type? schema <;> cases b.type? schema <;> simp
  | false =>
      by_cases hname : a.node.item.name.item = b.node.item.name.item
      · by_cases harguments :
            sameArguments a.node.item.arguments b.node.item.arguments = true
        · cases a.type? schema <;> cases b.type? schema <;> simp [hname, harguments]
        · simp [hname, harguments]
      · simp [hname]

/-- **What a comparison finds.**  If the comparison of two different nodes finds something, then
they conflict. -/
theorem conflicts_of_finds {fuel : Nat} {exclusive : Bool} {x y : Occurrence}
    (hnode : ¬ x.SameNode y)
    (h : Finds (compareSelected schema document fuel exclusive x.selected y.selected)) :
    Conflicts schema document exclusive x y := by
  induction fuel generalizing exclusive x y with
  | zero => exact absurd h not_finds_pure
  | succ fuel ih =>
      obtain ⟨compared, h⟩ := h
      rw [compareSelected_succ] at h
      dsimp only at h
      split at h
      · rename_i conflict hown
        by_contra hfree
        have hnone : ownConflict? schema (exclusive || neverMeet x.selected y.selected)
            x.selected y.selected = none := by
          rw [ownConflict?_eq_none_iff]
          refine ⟨fun hmeet => ⟨?_, ?_⟩, fun t u ht hu => ?_⟩
          · by_contra hname
            exact hfree (.fields hmeet (.inl hname))
          · by_contra harguments
            exact hfree (.fields hmeet (.inr (by simpa using harguments)))
          · by_contra htypes
            exact hfree (.types ht hu (by simpa using htypes))
        rw [hnone] at hown
        cases hown
      · split at h
        · exact absurd rfl h
        · split at h
          · exact absurd rfl h
          · rename_i hnested
            have hfinds : Finds (compareSets schema document
                (compareSelected schema document fuel) _ _ _) :=
              ⟨compared, fun hnil => hnested (by rw [hnil]; rfl)⟩
            rcases hfinds.of_compareSets hnode with h | h
            · obtain ⟨a, b, ha, hb, hnode', hname, h⟩ := h
              exact .nested ha hb hnode' hname (ih hnode' h)
            · obtain ⟨b, a, hb, ha, hnode', hname, h⟩ := h
              have hab : ¬ a.SameNode b := fun h => hnode' ⟨h.1.symm, h.2.symm⟩
              exact .nested ha hb hab hname.symm (.symm (ih hnode' h))

end GraphQL.Merging
