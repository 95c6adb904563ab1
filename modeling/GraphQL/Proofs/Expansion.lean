import GraphQL.Proofs.Reachability
import GraphQL.Proofs.Walk
import GraphQL.Validity.Merging

/-!
# Expanding a selection set

The fields that a selection set stands for: its own, those in its inline fragments, and those of the
fragments that it spreads, directly or not. `Occurs` says so by the syntax alone, and `Conflicts`
says when two such fields cannot be merged, again by expanding the selection sets below them.

Two fields of an expansion are told apart by where they are written and not by what they say, so an
occurrence has the site of its selection set and the steps that lead from there through inline
fragments. A fragment is one site however often it is spread.

No search runs on these relations. What a search does run on are the fields that a set holds
directly (`placed`, a copy of `fieldsOf` with places) and the fragments that it spreads;
`occurs_iff` says that an expansion is made of these.
-/

namespace GraphQL.Merging

/-- Where a selection set is written: it is the one at hand, the one of a fragment, or the one below
a field of another. -/
inductive Site where
  | here
  | fragment (name : String)
  | under (site : Site) (steps : List Nat)
deriving DecidableEq, Repr

/-- A field of an expansion with its place: the steps lead to it from its site through inline
fragments. -/
structure Occurrence where
  site : Site
  steps : List Nat
  selected : Selected
deriving Repr

namespace Occurrence

/-- The name under which the field occurs in a response. -/
abbrev name (x : Occurrence) : String :=
  x.selected.name

/-- The site of the selections below the field. -/
def inner (x : Occurrence) : Site :=
  .under x.site x.steps

/-- Whether two occurrences are one node of the document. -/
def SameNode (x y : Occurrence) : Prop :=
  x.site = y.site ∧ x.steps = y.steps

end Occurrence

variable (schema : Schema) (document : Document)

/-- The type that the fields of an inline fragment belong to: its condition, or what it stands in if
it has none that is known. -/
def inlineOwner (owner : Option NamedType) (head : InlineHead) : Option NamedType :=
  (head.condition.bind fun name => schema.type? name.item).or owner

/-- A field occurs in the full expansion of a selection set: inline fragments are flattened, and
each spread stands for the fields of its fragment, which belong to the condition of the fragment. -/
inductive Occurs :
    Site → List Nat → Option NamedType → List Selection → Occurrence → Prop
  | field {site path owner} {selections : List Selection} {i : Nat} {node below} :
      selections[i]? = some (.field node below) →
      Occurs site path owner selections ⟨site, path ++ [i], ⟨owner, node, below⟩⟩
  | inline {site path owner} {selections : List Selection} {i : Nat} {node body x} :
      selections[i]? = some (.inline node body) →
      Occurs site (path ++ [i]) (inlineOwner schema owner node.item) body x →
      Occurs site path owner selections x
  | spread {site path owner} {selections : List Selection} {i : Nat} {node fragment x} :
      selections[i]? = some (.spread node) →
      document.fragment? node.item.name.item = some fragment →
      Occurs (.fragment node.item.name.item) [] (schema.type? fragment.condition.item)
        fragment.selections x →
      Occurs site path owner selections x

/-- Two fields of one response name conflict, where `exclusive` says that the fields they stand
below never meet in one response. -/
inductive Conflicts : Bool → Occurrence → Occurrence → Prop
  /-- They may meet and are different fields, or have different arguments. -/
  | fields {exclusive x y} :
      (exclusive || neverMeet x.selected y.selected) = false →
      (x.selected.node.item.name.item ≠ y.selected.node.item.name.item ∨
        sameArguments x.selected.node.item.arguments y.selected.node.item.arguments = false) →
      Conflicts exclusive x y
  /-- Their values have different shapes. -/
  | types {exclusive x y t u} :
      x.selected.type? schema = some t → y.selected.type? schema = some u →
      typesConflict schema t u = true → Conflicts exclusive x y
  /-- Something below the one conflicts with something below the other. -/
  | nested {exclusive x y a b} :
      Occurs schema document x.inner [] (innerOwner schema x.selected) x.selected.selections a →
      Occurs schema document y.inner [] (innerOwner schema y.selected) y.selected.selections b →
      ¬ a.SameNode b → a.name = b.name →
      Conflicts (exclusive || neverMeet x.selected y.selected) a b → Conflicts exclusive x y
  /-- Which of the two comes first does not matter. -/
  | symm {exclusive x y} : Conflicts exclusive y x → Conflicts exclusive x y

/-- The expansion of a selection set has two nodes of one response name that conflict. -/
def Unmergeable (owner : Option NamedType) (selections : List Selection) : Prop :=
  ∃ x y, Occurs schema document .here [] owner selections x ∧
    Occurs schema document .here [] owner selections y ∧
    ¬ x.SameNode y ∧ x.name = y.name ∧ Conflicts schema document false x y

/-! ## The fields and fragments that a set holds directly -/

mutual

/-- The fields of one selection with their places, those in inline fragments included. -/
def placedOne (site : Site) (path : List Nat) (owner : Option NamedType) :
    Selection → List Occurrence
  | .field node selections => [⟨site, path, ⟨owner, node, selections⟩⟩]
  | .spread _ => []
  | .inline node selections => placed site path 0 (inlineOwner schema owner node.item) selections

/-- The fields of a selection set with their places, counted from `i`. -/
def placed (site : Site) (path : List Nat) (i : Nat) (owner : Option NamedType) :
    List Selection → List Occurrence
  | [] => []
  | selection :: rest =>
    placedOne site (path ++ [i]) owner selection ++ placed site path (i + 1) owner rest

end

mutual

theorem map_placedOne (site : Site) (path : List Nat) (owner : Option NamedType) :
    (selection : Selection) → (placedOne schema site path owner selection).map Occurrence.selected =
      fieldsOfOne schema owner selection
  | .field _ _ => rfl
  | .spread _ => rfl
  | .inline _ selections => map_placed site path 0 _ selections

/-- Without their places, these are the fields of the set. -/
theorem map_placed (site : Site) (path : List Nat) (i : Nat) (owner : Option NamedType) :
    (selections : List Selection) →
      (placed schema site path i owner selections).map Occurrence.selected =
        fieldsOf schema owner selections
  | [] => rfl
  | selection :: rest => by
      simp only [placed, fieldsOf, List.map_append]
      rw [map_placedOne, map_placed]

end

/-- A field of a set has a place. -/
theorem exists_placed {owner : Option NamedType} {selections : List Selection} {a : Selected}
    (site : Site) (h : a ∈ fieldsOf schema owner selections) :
    ∃ x ∈ placed schema site [] 0 owner selections, x.selected = a := by
  rw [← map_placed schema site [] 0 owner selections] at h
  obtain ⟨x, hx, rfl⟩ := List.mem_map.mp h
  exact ⟨x, hx, rfl⟩

/-- A placed field is a field of the set. -/
theorem selected_mem_fieldsOf {site : Site} {path : List Nat} {i : Nat} {owner : Option NamedType}
    {selections : List Selection} {x : Occurrence}
    (h : x ∈ placed schema site path i owner selections) :
    x.selected ∈ fieldsOf schema owner selections := by
  rw [← map_placed schema site path i owner selections]
  exact List.mem_map_of_mem h

/-- The places of a set are those of its selections. -/
theorem mem_placed_iff {site : Site} {path : List Nat} {i : Nat} {owner : Option NamedType}
    {selections : List Selection} {x : Occurrence} :
    x ∈ placed schema site path i owner selections ↔
      ∃ (k : Nat) (selection : Selection), selections[k]? = some selection ∧
        x ∈ placedOne schema site (path ++ [i + k]) owner selection := by
  induction selections generalizing i with
  | nil => simp [placed]
  | cons first rest ih =>
      rw [placed, List.mem_append, ih]
      constructor
      · rintro (h | ⟨k, selection, hk, hx⟩)
        · exact ⟨0, first, rfl, h⟩
        · refine ⟨k + 1, selection, by simpa using hk, ?_⟩
          rwa [show i + (k + 1) = i + 1 + k by omega]
      · rintro ⟨k, selection, hk, hx⟩
        cases k with
        | zero =>
            obtain rfl : first = selection := by simpa using hk
            exact .inl hx
        | succ k =>
            refine .inr ⟨k, selection, by simpa using hk, ?_⟩
            rwa [show i + 1 + k = i + (k + 1) by omega]

/-- The spreads of a set are those of its selections. -/
theorem mem_spreadsOf_iff {selections : List Selection} {name : String} :
    name ∈ spreadsOf selections ↔
      ∃ (k : Nat) (selection : Selection), selections[k]? = some selection ∧
        name ∈ spreadsOfOne selection := by
  induction selections with
  | nil => simp [spreadsOf]
  | cons first rest ih =>
      rw [spreadsOf, List.mem_append, ih]
      constructor
      · rintro (h | ⟨k, selection, hk, hname⟩)
        · exact ⟨0, first, rfl, h⟩
        · exact ⟨k + 1, selection, by simpa using hk, hname⟩
      · rintro ⟨k, selection, hk, hname⟩
        cases k with
        | zero =>
            obtain rfl : first = selection := by simpa using hk
            exact .inl hname
        | succ k => exact .inr ⟨k, selection, by simpa using hk, hname⟩

mutual

theorem steps_of_mem_placedOne {site : Site} {path : List Nat} {owner : Option NamedType}
    {x : Occurrence} : (selection : Selection) → x ∈ placedOne schema site path owner selection →
      x.site = site ∧ ∃ more, x.steps = path ++ more
  | .field node selections, h => by
      obtain rfl := List.mem_singleton.mp h
      exact ⟨rfl, [], by simp⟩
  | .spread _, h => by cases h
  | .inline node selections, h => by
      obtain ⟨hsite, k, -, more, hsteps⟩ := steps_of_mem_placed selections h
      exact ⟨hsite, k :: more, hsteps⟩

/-- The place of a field of a set is at its site and starts with the index of a selection. -/
theorem steps_of_mem_placed {site : Site} {path : List Nat} {i : Nat} {owner : Option NamedType}
    {x : Occurrence} : (selections : List Selection) →
      x ∈ placed schema site path i owner selections →
      x.site = site ∧ ∃ k, i ≤ k ∧ ∃ more, x.steps = path ++ k :: more
  | [], h => by cases h
  | selection :: rest, h => by
      rcases List.mem_append.mp h with h | h
      · obtain ⟨hsite, more, hsteps⟩ := steps_of_mem_placedOne selection h
        exact ⟨hsite, i, Nat.le_refl i, more, by simpa using hsteps⟩
      · obtain ⟨hsite, k, hk, more, hsteps⟩ := steps_of_mem_placed rest h
        exact ⟨hsite, k, by omega, more, hsteps⟩

end

mutual

theorem pairwise_placedOne (site : Site) (path : List Nat) (owner : Option NamedType) :
    (selection : Selection) →
      (placedOne schema site path owner selection).Pairwise fun x y => ¬ x.SameNode y
  | .field _ _ => List.pairwise_singleton _ _
  | .spread _ => .nil
  | .inline _ selections => pairwise_placed site path 0 _ selections

/-- The places of the fields of a set are different. -/
theorem pairwise_placed (site : Site) (path : List Nat) (i : Nat) (owner : Option NamedType) :
    (selections : List Selection) →
      (placed schema site path i owner selections).Pairwise fun x y => ¬ x.SameNode y
  | [] => .nil
  | selection :: rest => by
      refine List.pairwise_append.mpr ⟨pairwise_placedOne site _ owner selection,
        pairwise_placed site path (i + 1) owner rest, ?_⟩
      rintro x hx y hy ⟨-, hsteps⟩
      obtain ⟨-, more, hmore⟩ := steps_of_mem_placedOne schema selection hx
      obtain ⟨-, k, hk, more', hmore'⟩ := steps_of_mem_placed schema rest hy
      have heq : i :: more = k :: more' := by
        rw [hmore, hmore', List.append_assoc] at hsteps
        exact List.append_cancel_left hsteps
      have : i = k := (List.cons.inj heq).1
      omega

end

/-- A field comes from a fragment: it is one of its own or comes from a fragment that it spreads. -/
inductive FromFragment : String → Occurrence → Prop
  | own {name fragment x} :
      document.fragment? name = some fragment →
      x ∈ placed schema (.fragment name) [] 0 (schema.type? fragment.condition.item)
        fragment.selections →
      FromFragment name x
  | deeper {name fragment other x} :
      document.fragment? name = some fragment → other ∈ spreadsOf fragment.selections →
      FromFragment other x → FromFragment name x

variable {schema document}

/-- A field from a fragment comes from a fragment that there is. -/
theorem FromFragment.exists_fragment {name : String} {x : Occurrence}
    (h : FromFragment schema document name x) :
    ∃ fragment, document.fragment? name = some fragment := by
  cases h with
  | own hfragment _ => exact ⟨_, hfragment⟩
  | deeper hfragment _ _ => exact ⟨_, hfragment⟩

/-- An expansion has nothing but the fields that a set holds and those from the fragments that it
spreads. -/
theorem Occurs.placed_or_fromFragment {site : Site} {path : List Nat} {owner : Option NamedType}
    {selections : List Selection} {x : Occurrence}
    (h : Occurs schema document site path owner selections x) :
    x ∈ placed schema site path 0 owner selections ∨
      ∃ name ∈ spreadsOf selections, FromFragment schema document name x := by
  induction h with
  | @field site path owner selections i node below hi =>
      left
      rw [mem_placed_iff]
      exact ⟨i, _, hi, by simp [placedOne]⟩
  | inline hi _ ih =>
      rcases ih with hplaced | ⟨name, hname, hfrom⟩
      · left
        rw [mem_placed_iff]
        exact ⟨_, _, hi, by simpa [placedOne] using hplaced⟩
      · exact .inr ⟨name, mem_spreadsOf_iff.mpr ⟨_, _, hi, hname⟩, hfrom⟩
  | spread hi hfragment _ ih =>
      refine .inr ⟨_, mem_spreadsOf_iff.mpr ⟨_, _, hi, List.mem_singleton_self _⟩, ?_⟩
      rcases ih with hplaced | ⟨name, hname, hfrom⟩
      · exact .own hfragment hplaced
      · exact .deeper hfragment hname hfrom

mutual

theorem occurs_of_mem_placedOne {site : Site} {path : List Nat} {owner : Option NamedType}
    {x : Occurrence} {whole : List Selection} {k : Nat} :
    (selection : Selection) → whole[k]? = some selection →
      x ∈ placedOne schema site (path ++ [k]) owner selection →
      Occurs schema document site path owner whole x
  | .field node selections, hk, h => by
      obtain rfl := List.mem_singleton.mp h
      exact .field hk
  | .spread _, _, h => by cases h
  | .inline node body, hk, h => .inline hk (occurs_of_mem_placed body (fun k => by simp) h)

/-- The fields that a set holds occur in its expansion; the induction is on the end of the set that
starts at `i`. -/
theorem occurs_of_mem_placed {site : Site} {path : List Nat} {owner : Option NamedType}
    {x : Occurrence} {whole : List Selection} {i : Nat} :
    (rest : List Selection) → (∀ k, rest[k]? = whole[i + k]?) →
      x ∈ placed schema site path i owner rest → Occurs schema document site path owner whole x
  | [], _, h => by cases h
  | selection :: rest, hrest, h => by
      rcases List.mem_append.mp h with h | h
      · exact occurs_of_mem_placedOne selection (hrest 0).symm h
      · refine occurs_of_mem_placed rest (fun k => ?_) h
        have := hrest (k + 1)
        rwa [List.getElem?_cons_succ, show i + (k + 1) = i + 1 + k by omega] at this

end

mutual

theorem occurs_of_mem_spreadsOfOne {site : Site} {path : List Nat} {owner : Option NamedType}
    {x : Occurrence} {name : String} {fragment : Fragment} {whole : List Selection} {k : Nat}
    (hfragment : document.fragment? name = some fragment)
    (hx : Occurs schema document (.fragment name) [] (schema.type? fragment.condition.item)
      fragment.selections x) :
    (selection : Selection) → whole[k]? = some selection → name ∈ spreadsOfOne selection →
      Occurs schema document site path owner whole x
  | .field _ _, _, h => by cases h
  | .spread node, hk, h => by
      obtain rfl := List.mem_singleton.mp h
      exact .spread hk hfragment hx
  | .inline node body, hk, h =>
      .inline hk (occurs_of_mem_spreadsOf hfragment hx body (i := 0) (fun k => by simp) h)

/-- What a fragment expands to occurs wherever the fragment is spread. -/
theorem occurs_of_mem_spreadsOf {site : Site} {path : List Nat} {owner : Option NamedType}
    {x : Occurrence} {name : String} {fragment : Fragment} {whole : List Selection} {i : Nat}
    (hfragment : document.fragment? name = some fragment)
    (hx : Occurs schema document (.fragment name) [] (schema.type? fragment.condition.item)
      fragment.selections x) :
    (rest : List Selection) → (∀ k, rest[k]? = whole[i + k]?) → name ∈ spreadsOf rest →
      Occurs schema document site path owner whole x
  | [], _, h => by cases h
  | selection :: rest, hrest, h => by
      rcases List.mem_append.mp h with h | h
      · exact occurs_of_mem_spreadsOfOne hfragment hx selection (hrest 0).symm h
      · refine occurs_of_mem_spreadsOf hfragment hx (i := i + 1) rest (fun k => ?_) h
        have := hrest (k + 1)
        rwa [List.getElem?_cons_succ, show i + (k + 1) = i + 1 + k by omega] at this

end

/-- What comes from a fragment occurs in the expansion of its selections. -/
theorem FromFragment.occurs {name : String} {x : Occurrence}
    (h : FromFragment schema document name x) :
    ∃ fragment, document.fragment? name = some fragment ∧
      Occurs schema document (.fragment name) [] (schema.type? fragment.condition.item)
        fragment.selections x := by
  induction h with
  | own hfragment hx =>
      exact ⟨_, hfragment, occurs_of_mem_placed _ (fun k => by simp) hx⟩
  | @deeper name fragment other x hfragment hother _ ih =>
      obtain ⟨deep, hdeep, hx⟩ := ih
      exact ⟨fragment, hfragment,
        occurs_of_mem_spreadsOf (i := 0) hdeep hx fragment.selections (fun k => by simp) hother⟩

/-- **The parts of an expansion.**  A field occurs in an expansion exactly if the set holds it or it
comes from a fragment that the set spreads. -/
theorem occurs_iff {site : Site} {owner : Option NamedType} {selections : List Selection}
    {x : Occurrence} :
    Occurs schema document site [] owner selections x ↔
      x ∈ placed schema site [] 0 owner selections ∨
        ∃ name ∈ spreadsOf selections, FromFragment schema document name x := by
  refine ⟨Occurs.placed_or_fromFragment, ?_⟩
  rintro (hx | ⟨name, hname, hx⟩)
  · exact occurs_of_mem_placed selections (fun k => by simp) hx
  · obtain ⟨fragment, hfragment, hx⟩ := hx.occurs
    exact occurs_of_mem_spreadsOf (i := 0) hfragment hx selections (fun k => by simp) hname

/-- A fragment that is found is one of the document, under its name. -/
theorem mem_names_of_fragment? {name : String} {fragment : Fragment}
    (h : document.fragment? name = some fragment) :
    name ∈ document.fragments.map (·.item.name.item) := by
  obtain ⟨node, hnode, rfl⟩ := Option.map_eq_some_iff.mp h
  have hname : node.item.name.item = name := by simpa using List.find?_some hnode
  exact List.mem_map.mpr ⟨node, List.mem_of_find?_eq_some hnode, hname⟩

/-- What comes from a fragment is held by one of the fragments that the search lists for it, and the
other way round. -/
theorem fromFragment_iff {name : String} {x : Occurrence} :
    FromFragment schema document name x ↔
      ∃ other ∈ expansion document name, ∃ fragment, document.fragment? other = some fragment ∧
        x ∈ placed schema (.fragment other) [] 0 (schema.type? fragment.condition.item)
          fragment.selections := by
  simp only [expansion, List.mem_reverse, Graph.mem_reachable_iff, List.mem_singleton,
    exists_eq_left]
  constructor
  · intro h
    induction h with
    | own hfragment hx => exact ⟨_, .refl, _, hfragment, hx⟩
    | deeper hfragment hother _ ih =>
        obtain ⟨last, hpath, hlast⟩ := ih
        refine ⟨last, .head ⟨mem_names_of_fragment? hfragment, ?_⟩ hpath, hlast⟩
        simpa [hfragment] using hother
  · rintro ⟨last, hpath, fragment, hfragment, hx⟩
    induction hpath using Relation.ReflTransGen.head_induction_on with
    | refl => exact .own hfragment hx
    | @head a b hedge _ ih =>
        obtain ⟨-, hnext⟩ := hedge
        cases hfirst : document.fragment? a with
        | none => simp [hfirst] at hnext
        | some first => exact .deeper hfirst (by simpa [hfirst] using hnext) ih

/-! ## Nesting -/

/-- A selection has no more fields than the set it is in. -/
theorem fieldCountOfOne_le {selections : List Selection} {selection : Selection}
    (h : selection ∈ selections) : fieldCountOfOne selection ≤ fieldCount selections := by
  induction selections with
  | nil => cases h
  | cons first rest ih =>
      rw [fieldCount]
      rcases List.mem_cons.mp h with rfl | h
      · omega
      · have := ih h
        omega

/-- What stands inside a set has no more fields. -/
theorem fieldCount_le_of_nested {root selections : List Selection} (h : Nested root selections) :
    fieldCount selections ≤ fieldCount root := by
  induction h with
  | root => exact Nat.le_refl _
  | field _ hmem ih =>
      have := fieldCountOfOne_le hmem
      rw [fieldCountOfOne] at this
      omega
  | inline _ hmem ih =>
      have := fieldCountOfOne_le hmem
      rw [fieldCountOfOne] at this
      omega

/-- A fragment is spread somewhere inside a selection set. -/
def SpreadsInside (root : List Selection) (name : String) : Prop :=
  ∃ selections node, Nested root selections ∧ .spread node ∈ selections ∧ node.item.name.item = name

/-- What is spread inside a part of a set is spread inside the set. -/
theorem SpreadsInside.of_nested {root selections : List Selection} {name : String}
    (h : SpreadsInside selections name) (hnested : Nested root selections) :
    SpreadsInside root name := by
  obtain ⟨inner, node, hinner, hmem, rfl⟩ := h
  exact ⟨inner, node, hnested.trans hinner, hmem, rfl⟩

mutual

theorem spreadsInside_of_mem_one {root whole : List Selection} {name : String}
    (hnested : Nested root whole) : (selection : Selection) → selection ∈ whole →
      name ∈ spreadsOfOne selection → SpreadsInside root name
  | .field _ _, _, h => by cases h
  | .spread node, hmem, h => by
      obtain rfl := List.mem_singleton.mp h
      exact ⟨whole, node, hnested, hmem, rfl⟩
  | .inline _ body, hmem, h =>
      spreadsInside_of_mem_all (hnested.inline hmem) body (fun _ h => h) h

theorem spreadsInside_of_mem_all {root whole : List Selection} {name : String}
    (hnested : Nested root whole) : (part : List Selection) → (∀ one ∈ part, one ∈ whole) →
      name ∈ spreadsOf part → SpreadsInside root name
  | [], _, h => by cases h
  | selection :: rest, hpart, h => by
      rcases List.mem_append.mp h with h | h
      · exact spreadsInside_of_mem_one hnested selection (hpart _ List.mem_cons_self) h
      · exact spreadsInside_of_mem_all hnested rest
          (fun one hone => hpart one (List.mem_cons_of_mem _ hone)) h

end

/-- What a set spreads directly is spread inside it. -/
theorem spreadsInside_of_mem {selections : List Selection} {name : String}
    (h : name ∈ spreadsOf selections) : SpreadsInside selections name :=
  spreadsInside_of_mem_all .root selections (fun _ h => h) h

/-- A fragment spreads another, at any depth. -/
def Spreads (document : Document) (a b : String) : Prop :=
  ∃ fragment, document.fragment? a = some fragment ∧ SpreadsInside fragment.selections b

/-- No fragment spreads itself, directly or through others. -/
def Acyclic (document : Document) : Prop :=
  ∀ name, ¬ Relation.TransGen (Spreads document) name name

/-- Fragments are ranked above those that they spread, and there are no more ranks than
fragments. -/
structure Ranked (document : Document) (rank : String → Nat) : Prop where
  lt_of_spreads {a b : String} : Spreads document a b → (document.fragment? b).isSome →
    rank b < rank a
  lt_length {a : String} : (document.fragment? a).isSome → rank a < document.fragments.length

open Classical in
/-- Fragments that do not spread themselves can be ranked by the number of fragments below them. -/
theorem exists_ranked (hacyclic : Acyclic document) : ∃ rank, Ranked document rank := by
  let names := document.fragments.map (·.item.name.item)
  let below (a : String) : List String := names.filter (Relation.TransGen (Spreads document) a ·)
  have hknown {a : String} (ha : (document.fragment? a).isSome) : a ∈ names := by
    obtain ⟨fragment, hfragment⟩ := Option.isSome_iff_exists.mp ha
    exact mem_names_of_fragment? hfragment
  refine ⟨fun a => (below a).length, ?_, ?_⟩
  · intro a b hspreads hb
    -- everything below `b` is below `a`, and `b` itself is below `a` but not below `b`
    have hfilter : below b = (below a).filter (Relation.TransGen (Spreads document) b ·) := by
      simp only [below, List.filter_filter]
      apply List.filter_congr
      intro c _
      have : Relation.TransGen (Spreads document) b c → Relation.TransGen (Spreads document) a c :=
        fun h => .head hspreads h
      simpa using this
    rw [hfilter, List.length_filter_lt_length_iff_exists]
    refine ⟨b, ?_, by simpa using hacyclic b⟩
    simpa [below] using ⟨hknown hb, .single hspreads⟩
  · intro a ha
    have hlt : (below a).length < names.length := by
      rw [List.length_filter_lt_length_iff_exists]
      exact ⟨a, hknown ha, by simpa using hacyclic a⟩
    simpa [names] using hlt

/-! ## How deeply fields are nested -/

theorem fieldCount_append (left right : List Selection) :
    fieldCount (left ++ right) = fieldCount left + fieldCount right := by
  induction left with
  | nil => simp [fieldCount]
  | cons first rest ih =>
      simp only [List.cons_append, fieldCount, ih]
      omega

/-- One of several selection sets has no more fields than all of them. -/
theorem fieldCount_le_flatMap {α : Type} {list : List α} {a : α} (selections : α → List Selection)
    (h : a ∈ list) : fieldCount (selections a) ≤ fieldCount (list.flatMap selections) := by
  induction list with
  | nil => cases h
  | cons first rest ih =>
      rw [List.flatMap_cons, fieldCount_append]
      rcases List.mem_cons.mp h with rfl | h
      · omega
      · have := ih h
        omega

/-- A selection set of a document has no more fields than the document. -/
theorem fieldCount_le_document {selections : List Selection} (h : document.HasSet selections) :
    fieldCount selections ≤ documentFieldCount document := by
  obtain ⟨root, hroot, hnested⟩ := h
  have hcount : fieldCount root ≤ documentFieldCount document := by
    rw [documentFieldCount]
    rcases List.mem_append.mp hroot with hroot | hroot
    · obtain ⟨node, hnode, rfl⟩ := List.mem_map.mp hroot
      have := fieldCount_le_flatMap (·.item.selections) hnode
      omega
    · obtain ⟨node, hnode, rfl⟩ := List.mem_map.mp hroot
      have := fieldCount_le_flatMap (·.item.selections) hnode
      omega
  exact Nat.le_trans (fieldCount_le_of_nested hnested) hcount

/-- The selection set of a fragment that is found is one of the document. -/
theorem hasSet_of_fragment? {name : String} {fragment : Fragment}
    (h : document.fragment? name = some fragment) : document.HasSet fragment.selections := by
  obtain ⟨node, hmem, rfl⟩ := Document.mem_of_fragment? h
  exact ⟨_, Document.root_of_fragment hmem, .root⟩

/-- The fields in the expansion of a set are nested at most `depth` deep: as deep as the set has
fields, and for each rank of the fragments inside it as deep as the document has fields. -/
def Fits (document : Document) (rank : String → Nat) (depth : Nat) (selections : List Selection) :
    Prop :=
  ∃ r, (∀ name, SpreadsInside selections name → (document.fragment? name).isSome → rank name < r) ∧
    fieldCount selections + documentFieldCount document * r ≤ depth

section

variable {rank : String → Nat} {depth : Nat} {selections : List Selection}

/-- The bound for a set holds for the set of an inline fragment in it. -/
theorem Fits.inline (h : Fits document rank depth selections) {node : Located InlineHead}
    {body : List Selection} (hmem : .inline node body ∈ selections) :
    Fits document rank depth body := by
  obtain ⟨r, hr, hdepth⟩ := h
  have hnested : Nested selections body := Nested.root.inline hmem
  have := fieldCount_le_of_nested hnested
  exact ⟨r, fun name hname => hr name (hname.of_nested hnested), by omega⟩

/-- The bound for a set holds for the fragments that it spreads. -/
theorem Fits.fragment (hranked : Ranked document rank) (h : Fits document rank depth selections)
    {name : String} {fragment : Fragment} (hname : SpreadsInside selections name)
    (hfragment : document.fragment? name = some fragment) :
    Fits document rank depth fragment.selections := by
  obtain ⟨r, hr, hdepth⟩ := h
  have hlt : rank name < r := hr name hname (by simp [hfragment])
  refine ⟨rank name, fun other hother => ?_, ?_⟩
  · exact hranked.lt_of_spreads ⟨fragment, hfragment, hother⟩
  · have hcount := fieldCount_le_document (hasSet_of_fragment? hfragment)
    have hmul := Nat.mul_le_mul_left (documentFieldCount document) hlt
    rw [Nat.mul_succ] at hmul
    omega

/-- The bound for a set is larger than one for what stands below a field of its expansion. -/
theorem Fits.below (hranked : Ranked document rank) {site : Site} {path : List Nat}
    {owner : Option NamedType} {x : Occurrence} (h : Fits document rank depth selections)
    (hx : Occurs schema document site path owner selections x) :
    ∃ less < depth, Fits document rank less x.selected.selections := by
  induction hx with
  | @field site path owner selections i node below hi =>
      obtain ⟨r, hr, hdepth⟩ := h
      have hmem := List.mem_of_getElem? hi
      have hcount := fieldCountOfOne_le hmem
      rw [fieldCountOfOne] at hcount
      refine ⟨fieldCount below + documentFieldCount document * r, by omega, r, ?_, Nat.le_refl _⟩
      exact fun name hname => hr name (hname.of_nested (Nested.root.field hmem))
  | inline hi _ ih => exact ih (h.inline (List.mem_of_getElem? hi))
  | @spread site path owner selections i node fragment x hi hfragment _ ih =>
      have hspread := List.mem_of_getElem? hi
      exact ih (h.fragment hranked ⟨selections, node, .root, hspread, rfl⟩ hfragment)

end

/-- Every selection set of a document is within the bound on the depth of a comparison. -/
theorem fits_depthBound {rank : String → Nat} {selections : List Selection}
    (hranked : Ranked document rank) (h : document.HasSet selections) :
    Fits document rank (depthBound document) selections := by
  refine ⟨document.fragments.length, fun name _ hname => hranked.lt_length hname, ?_⟩
  have hcount := fieldCount_le_document h
  simp only [depthBound]
  generalize documentFieldCount document = n at hcount ⊢
  generalize document.fragments.length = k
  have hsize : n + n * k ≤ (k + 1) * (n + 1) := by
    rw [Nat.add_mul, Nat.mul_succ, Nat.mul_comm k n]
    omega
  have hsquare := Nat.le_mul_self ((k + 1) * (n + 1))
  omega

end GraphQL.Merging
