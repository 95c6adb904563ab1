import GraphQL.Proofs.MergeSearch

/-!
# What a comparison that finds nothing has settled

A search passes over two fragments that it remembers to have compared, even if that comparison is
still going on, and over a fragment and itself. So a search that finds nothing says nothing about
these pairs by itself; what it says is relative to the memory it leaves (`Settled`). The memory
makes up for it: each pair that a search adds is closed under it, which means that the fields of the
two fragments are settled and that the pairs of fragments below are remembered in turn (`Closed`).
Both only get easier to have as the memory grows, so the steps of a search can be put together
(`Clean.andThen`).

At the end of a walk every pair that is remembered is closed, and the selection set of each fragment
has been looked at on its own, which takes care of a fragment and itself. Then whatever comes from
two fragments is settled, by induction on how it comes from them (`Finished.settles_fragments`), and
settled fields do not conflict (`Finished.not_conflicts`).
-/

namespace GraphQL.Merging

namespace Compared

/-- The order of two fragments does not matter. -/
theorem key_comm (a b : String) : key a b = key b a := by
  unfold key
  by_cases hab : a ≤ b
  · by_cases hba : b ≤ a
    · rw [String.le_antisymm hab hba]
    · rw [if_pos hab, if_neg hba]
  · have hba : b ≤ a := (String.le_total a b).resolve_left hab
    rw [if_neg hab, if_pos hba]

/-- Two pairs are the same in one order or the other. -/
theorem eq_or_eq_of_key_eq {a b c d : String} (h : key c d = key a b) :
    (c = a ∧ d = b) ∨ (c = b ∧ d = a) := by
  unfold key at h
  split at h <;> split at h <;> simp only [Prod.mk.injEq] at h <;> grind

theorem covers_comm (compared : Compared) (a b : String) (exclusive : Bool) :
    compared.covers a b exclusive = compared.covers b a exclusive := by
  rw [covers, covers, key_comm]

/-- A pair that need not be compared for fields that may meet need not be compared at all. -/
theorem covers_mono {compared : Compared} {a b : String} {exclusive exclusive' : Bool}
    (h : compared.covers a b exclusive = true) (hle : exclusive = true → exclusive' = true) :
    compared.covers a b exclusive' = true := by
  unfold covers at h ⊢
  split at h
  · cases exclusive <;> cases exclusive' <;> simp_all
  · cases h

/-- What need not be compared after a comparison is remembered. -/
theorem covers_mark (compared : Compared) (a b c d : String) (exclusive exclusive' : Bool) :
    (compared.mark a b exclusive).covers c d exclusive' =
      if key c d = key a b then exclusive' || !exclusive else compared.covers c d exclusive' := by
  unfold covers mark
  by_cases h : key c d = key a b
  · simp [h]
  · have : (key c d == key a b) = false := by simpa using h
    simp [List.lookup_cons, h, this]

/-- Whatever need not be compared with the one memory need not be with the other. -/
def Le (compared compared' : Compared) : Prop :=
  ∀ a b exclusive, compared.covers a b exclusive = true → compared'.covers a b exclusive = true

theorem Le.refl (compared : Compared) : Le compared compared :=
  fun _ _ _ h => h

theorem Le.trans {first second third : Compared} (h : Le first second) (h' : Le second third) :
    Le first third :=
  fun a b exclusive hcovers => h' a b exclusive (h a b exclusive hcovers)

/-- Remembering a comparison that was needed forgets nothing. -/
theorem le_mark {compared : Compared} {a b : String} {exclusive : Bool}
    (h : compared.covers a b exclusive = false) : Le compared (compared.mark a b exclusive) := by
  intro c d exclusive' hcovers
  rw [covers_mark]
  split
  · rename_i hkey
    -- the pair was remembered for fields that never meet, and now is for all
    have hcovers' : compared.covers a b exclusive' = true := by
      rcases eq_or_eq_of_key_eq hkey with ⟨rfl, rfl⟩ | ⟨rfl, rfl⟩
      · exact hcovers
      · rwa [covers_comm]
    cases exclusive with
    | false => simp
    | true =>
        have htrue : compared.covers a b true = true := covers_mono hcovers' fun _ => rfl
        rw [h] at htrue
        cases htrue
  · exact hcovers

end Compared

variable (schema : Schema) (document : Document)

/-- Two fragments need not be compared: they are one, one of them is unknown, or they have been
compared. -/
def Covered (compared : Compared) (a b : String) (exclusive : Bool) : Prop :=
  a = b ∨ document.fragment? a = none ∨ document.fragment? b = none ∨
    compared.covers a b exclusive = true

/-- Two fields do not conflict as far as they have been compared: neither about themselves nor in
what stands directly below them, and the fragments that are spread below them need not be
compared. -/
inductive Settled (compared : Compared) : Bool → Selected → Selected → Prop
  | intro {parentsExclusive exclusive : Bool} {a b : Selected} :
      exclusive = (parentsExclusive || neverMeet a b) →
      ownConflict? schema exclusive a b = none →
      (∀ x ∈ fieldsOf schema (innerOwner schema a) a.selections,
        ∀ y ∈ fieldsOf schema (innerOwner schema b) b.selections,
          x.name = y.name → Settled compared exclusive x y) →
      (∀ x ∈ fieldsOf schema (innerOwner schema a) a.selections,
        ∀ name ∈ spreadsOf b.selections, ∀ y, FromFragment schema document name y →
          x.name = y.name → Settled compared exclusive x y.selected) →
      (∀ y ∈ fieldsOf schema (innerOwner schema b) b.selections,
        ∀ name ∈ spreadsOf a.selections, ∀ x, FromFragment schema document name x →
          y.name = x.name → Settled compared exclusive y x.selected) →
      (∀ name ∈ spreadsOf a.selections, ∀ name' ∈ spreadsOf b.selections,
        Covered document compared name name' exclusive) →
      Settled compared parentsExclusive a b

/-- The comparison of two fragments has been carried through: their fields are settled, and each
need not be compared with what the other spreads. -/
structure Closed (compared : Compared) (a b : String) (exclusive : Bool) : Prop where
  fields {left right : Fragment} : document.fragment? a = some left →
    document.fragment? b = some right →
    ∀ x ∈ fieldsOf schema (schema.type? left.condition.item) left.selections,
      ∀ y ∈ fieldsOf schema (schema.type? right.condition.item) right.selections,
        x.name = y.name → Settled schema document compared exclusive x y
  inRight {right : Fragment} : document.fragment? b = some right →
    ∀ c ∈ spreadsOf right.selections, Covered document compared a c exclusive
  inLeft {left : Fragment} : document.fragment? a = some left →
    ∀ c ∈ spreadsOf left.selections, Covered document compared c b exclusive

variable {schema document}

theorem Covered.refl (compared : Compared) (a : String) (exclusive : Bool) :
    Covered document compared a a exclusive :=
  .inl rfl

theorem Covered.symm {compared : Compared} {a b : String} {exclusive : Bool}
    (h : Covered document compared a b exclusive) : Covered document compared b a exclusive := by
  rcases h with h | h | h | h
  · exact .inl h.symm
  · exact .inr (.inr (.inl h))
  · exact .inr (.inl h)
  · exact .inr (.inr (.inr (by rwa [Compared.covers_comm])))

/-- Fragments stay compared as the memory grows, and when fields that may meet turn into fields that
never do. -/
theorem Covered.mono {compared compared' : Compared} {a b : String} {exclusive exclusive' : Bool}
    (h : Covered document compared a b exclusive) (hle : compared.Le compared')
    (hexclusive : exclusive = true → exclusive' = true) :
    Covered document compared' a b exclusive' := by
  rcases h with h | h | h | h
  · exact .inl h
  · exact .inr (.inl h)
  · exact .inr (.inr (.inl h))
  · exact .inr (.inr (.inr (Compared.covers_mono (hle a b exclusive h) hexclusive)))

/-- Fields that never meet conflict less. -/
theorem ownConflict?_mono {a b : Selected} {exclusive exclusive' : Bool}
    (h : ownConflict? schema exclusive a b = none)
    (hexclusive : exclusive = true → exclusive' = true) :
    ownConflict? schema exclusive' a b = none := by
  rw [ownConflict?_eq_none_iff] at h ⊢
  refine ⟨fun hmeet => h.1 ?_, h.2⟩
  cases exclusive with
  | false => rfl
  | true => rw [hexclusive rfl] at hmeet; cases hmeet

/-- Fields stay settled as the memory grows, and when fields that may meet turn into fields that
never do. -/
theorem Settled.mono {compared compared' : Compared} {exclusive exclusive' : Bool} {a b : Selected}
    (h : Settled schema document compared exclusive a b) (hle : compared.Le compared')
    (hexclusive : exclusive = true → exclusive' = true) :
    Settled schema document compared' exclusive' a b := by
  induction h generalizing exclusive' with
  | @intro parentsExclusive inner a b hinner hown _ _ _ hfragments hfields hright hleft =>
      have hmono : inner = true → (exclusive' || neverMeet a b) = true := by
        rw [hinner, Bool.or_eq_true, Bool.or_eq_true]
        exact Or.imp_left hexclusive
      refine .intro rfl (ownConflict?_mono hown hmono) ?_ ?_ ?_ ?_
      · exact fun x hx y hy hname => hfields x hx y hy hname hmono
      · exact fun x hx name hmem y hy hname => hright x hx name hmem y hy hname hmono
      · exact fun y hy name hmem x hx hname => hleft y hy name hmem x hx hname hmono
      · exact fun name hmem name' hmem' => (hfragments name hmem name' hmem').mono hle hmono

theorem Closed.mono {compared compared' : Compared} {exclusive exclusive' : Bool} {a b : String}
    (h : Closed schema document compared a b exclusive) (hle : compared.Le compared')
    (hexclusive : exclusive = true → exclusive' = true) :
    Closed schema document compared' a b exclusive' where
  fields hleft hright x hx y hy hname := (h.fields hleft hright x hx y hy hname).mono hle hexclusive
  inRight hright c hc := (h.inRight hright c hc).mono hle hexclusive
  inLeft hleft c hc := (h.inLeft hleft c hc).mono hle hexclusive

/-! ## Searches that find nothing -/

/-- The memory grows, and every pair that is new in it is closed, in one order or the other. -/
structure Grows (schema : Schema) (document : Document) (compared compared' : Compared) : Prop where
  le : compared.Le compared'
  closed (a b : String) (exclusive : Bool) : compared'.covers a b exclusive = true →
    compared.covers a b exclusive = true ∨ Closed schema document compared' a b exclusive ∨
      Closed schema document compared' b a exclusive

theorem Grows.refl (compared : Compared) : Grows schema document compared compared :=
  ⟨.refl compared, fun _ _ _ h => .inl h⟩

theorem Grows.trans {first second third : Compared} (h : Grows schema document first second)
    (h' : Grows schema document second third) : Grows schema document first third := by
  refine ⟨h.le.trans h'.le, fun a b exclusive hcovers => ?_⟩
  rcases h'.closed a b exclusive hcovers with hsecond | hclosed
  · rcases h.closed a b exclusive hsecond with hfirst | hclosed | hclosed
    · exact .inl hfirst
    · exact .inr (.inl (hclosed.mono h'.le id))
    · exact .inr (.inr (hclosed.mono h'.le id))
  · exact .inr hclosed

/-- A pair that is remembered and closed in the end is part of the growth. -/
theorem Grows.of_mark {compared compared' : Compared} {a b : String} {exclusive : Bool}
    (hnew : compared.covers a b exclusive = false)
    (h : Grows schema document (compared.mark a b exclusive) compared')
    (hclosed : Closed schema document compared' a b exclusive) :
    Grows schema document compared compared' := by
  refine ⟨(Compared.le_mark hnew).trans h.le, fun c d exclusive' hcovers => ?_⟩
  rcases h.closed c d exclusive' hcovers with hmark | hclosed'
  · rw [Compared.covers_mark] at hmark
    split at hmark
    · rename_i hkey
      have hle : exclusive = true → exclusive' = true := by
        intro htrue
        simpa [htrue] using hmark
      rcases Compared.eq_or_eq_of_key_eq hkey with ⟨rfl, rfl⟩ | ⟨rfl, rfl⟩
      · exact .inr (.inl (hclosed.mono (.refl _) hle))
      · exact .inr (.inr (hclosed.mono (.refl _) hle))
    · exact .inl hmark
  · exact .inr hclosed'

/-- What a search that finds nothing has settled, as a property of the memory that it leaves. -/
def Clean (schema : Schema) (document : Document) (search : Search (List Clash))
    (P : Compared → Prop) : Prop :=
  ∀ compared, (search.run compared).1 = [] →
    Grows schema document compared (search.run compared).2 ∧ P (search.run compared).2

/-- A property of memories that is kept as they grow. -/
def Kept (P : Compared → Prop) : Prop :=
  ∀ compared compared', compared.Le compared' → P compared → P compared'

namespace Clean

variable {P Q : Compared → Prop}

theorem nothing (h : ∀ compared, P compared) : Clean schema document (pure []) P :=
  fun compared _ => ⟨.refl compared, h compared⟩

theorem imp {search : Search (List Clash)} (h : Clean schema document search P)
    (himp : ∀ compared, P compared → Q compared) : Clean schema document search Q :=
  fun compared hnil => ⟨(h compared hnil).1, himp _ (h compared hnil).2⟩

/-- A sequence of two searches settles what the two settle. -/
theorem andThen {first second : Search (List Clash)} (hfirst : Clean schema document first P)
    (hkept : Kept P) (hsecond : Clean schema document second Q) :
    Clean schema document (andThen first second) fun compared => P compared ∧ Q compared := by
  intro compared hnil
  change (first.run compared).1 ++ (second.run (first.run compared).2).1 = [] at hnil
  obtain ⟨hnil, hnil'⟩ := List.append_eq_nil_iff.mp hnil
  obtain ⟨hgrows, hP⟩ := hfirst compared hnil
  obtain ⟨hgrows', hQ⟩ := hsecond _ hnil'
  exact ⟨hgrows.trans hgrows', hkept _ _ hgrows'.le hP, hQ⟩

/-- A search through a list settles what the searches for its entries settle. -/
theorem searchAll {α : Type} {search : α → Search (List Clash)} {P : α → Compared → Prop}
    {list : List α} (h : ∀ a ∈ list, Clean schema document (search a) (P a))
    (hkept : ∀ a, Kept (P a)) :
    Clean schema document (searchAll search list) fun compared => ∀ a ∈ list, P a compared := by
  induction list with
  | nil => exact nothing (by simp)
  | cons a rest ih =>
      rw [searchAll_cons]
      refine ((h a List.mem_cons_self).andThen (hkept a)
        (ih fun b hb => h b (List.mem_cons_of_mem _ hb))).imp ?_
      rintro compared ⟨ha, hrest⟩ b hb
      rcases List.mem_cons.mp hb with rfl | hb
      · exact ha
      · exact hrest b hb

end Clean

theorem kept_settled (exclusive : Bool) (a b : Selected) :
    Kept fun compared => Settled schema document compared exclusive a b :=
  fun _ _ hle h => h.mono hle id

theorem kept_covered (a b : String) (exclusive : Bool) :
    Kept fun compared => Covered document compared a b exclusive :=
  fun _ _ hle h => h.mono hle id

theorem Kept.and {P Q : Compared → Prop} (hP : Kept P) (hQ : Kept Q) :
    Kept fun compared => P compared ∧ Q compared :=
  fun compared compared' hle h => ⟨hP compared compared' hle h.1, hQ compared compared' hle h.2⟩

theorem Kept.forall {ι : Sort*} {P : ι → Compared → Prop} (h : ∀ i, Kept (P i)) :
    Kept fun compared => ∀ i, P i compared :=
  fun compared compared' hle hP i => h i compared compared' hle (hP i)

theorem kept_fields (exclusive : Bool) (left right : List Selected) :
    Kept fun compared => ∀ a ∈ left, ∀ b ∈ right, a.name = b.name →
      Settled schema document compared exclusive a b :=
  .forall fun a => .forall fun _ => .forall fun b => .forall fun _ => .forall fun _ =>
    kept_settled exclusive a b

theorem kept_withFragment (exclusive : Bool) (fields : List Selected) (name : String) :
    Kept fun compared => ∀ a ∈ fields, ∀ y, FromFragment schema document name y →
      a.name = y.name → Settled schema document compared exclusive a y.selected :=
  .forall fun a => .forall fun _ => .forall fun y => .forall fun _ => .forall fun _ =>
    kept_settled exclusive a y.selected

/-- The ranks of two fragments stay below the bound on how far they spread. -/
theorem Ranked.add_lt_spreadBound {rank : String → Nat} (hranked : Ranked document rank)
    {a b : String} (ha : (document.fragment? a).isSome) (hb : (document.fragment? b).isSome) :
    rank a + rank b < spreadBound document := by
  have hlt := hranked.lt_length ha
  have hlt' := hranked.lt_length hb
  unfold spreadBound
  generalize document.fragments.length = n at hlt hlt' ⊢
  cases n with
  | zero => omega
  | succ k =>
      rw [Nat.succ_mul, Nat.mul_succ]
      omega

section

variable {Ready : Selected → Prop} {owner : Option NamedType} {selections : List Selection}
  (hready : ∀ x, Occurs schema document .here [] owner selections x → Ready x.selected)

include hready

/-- What holds of all that occurs in a set holds of its own fields. -/
theorem ready_of_mem_fieldsOf : ∀ a ∈ fieldsOf schema owner selections, Ready a := by
  intro a ha
  obtain ⟨x, hx, rfl⟩ := exists_placed schema .here ha
  exact hready x (occurs_iff.mpr (.inl hx))

/-- What holds of all that occurs in a set holds of what comes from the fragments it spreads. -/
theorem ready_of_fromFragment {name : String} (hname : name ∈ spreadsOf selections) :
    ∀ x, FromFragment schema document name x → Ready x.selected :=
  fun x hx => hready x (occurs_iff.mpr (.inr ⟨name, hname, hx⟩))

end

/-- What holds of all that comes from a fragment holds of its own fields. -/
theorem ready_of_fragment {Ready : Selected → Prop} {name : String} {fragment : Fragment}
    (hfragment : document.fragment? name = some fragment)
    (hready : ∀ x, FromFragment schema document name x → Ready x.selected) :
    ∀ a ∈ fieldsOf schema (schema.type? fragment.condition.item) fragment.selections,
      Ready a := by
  intro a ha
  obtain ⟨x, hx, rfl⟩ := exists_placed schema (.fragment name) ha
  exact hready x (.own hfragment hx)

section

variable {compare : Bool → Selected → Selected → Search (List Clash)} {Ready : Selected → Prop}
  (hcompare : ∀ exclusive a b, Ready a → Ready b →
    Clean schema document (compare exclusive a b) (Settled schema document · exclusive a b))

include hcompare

theorem clean_compareFields (exclusive : Bool) {left right : List Selected}
    (hleft : ∀ a ∈ left, Ready a) (hright : ∀ b ∈ right, Ready b) :
    Clean schema document (compareFields compare exclusive left right) fun compared =>
      ∀ a ∈ left, ∀ b ∈ right, a.name = b.name →
        Settled schema document compared exclusive a b := by
  have hall : Clean schema document (compareFields compare exclusive left right) fun compared =>
      ∀ pair ∈ pairsBetween left right,
        Settled schema document compared exclusive pair.1 pair.2 := by
    refine .searchAll (fun pair hpair => ?_) fun pair => kept_settled exclusive pair.1 pair.2
    obtain ⟨ha, hb, -⟩ := mem_pairsBetween_iff.mp hpair
    exact hcompare exclusive pair.1 pair.2 (hleft _ ha) (hright _ hb)
  exact hall.imp fun compared h a ha b hb hname =>
    h (a, b) (mem_pairsBetween_iff.mpr ⟨ha, hb, hname⟩)

theorem clean_compareWithFragment {exclusive : Bool} {fields : List Selected} {name : String}
    (hfields : ∀ a ∈ fields, Ready a)
    (hname : ∀ y, FromFragment schema document name y → Ready y.selected) :
    Clean schema document (compareWithFragment schema document compare exclusive fields name)
      fun compared => ∀ a ∈ fields, ∀ y, FromFragment schema document name y → a.name = y.name →
        Settled schema document compared exclusive a y.selected := by
  have hall : Clean schema document
      (compareWithFragment schema document compare exclusive fields name) fun compared =>
      ∀ other ∈ expansion document name, ∀ fragment, document.fragment? other = some fragment →
        ∀ a ∈ fields, ∀ b ∈ fieldsOf schema (schema.type? fragment.condition.item)
          fragment.selections, a.name = b.name →
          Settled schema document compared exclusive a b := by
    refine .searchAll (fun other hother => ?_) ?_
    · cases hset : fragmentSet? schema document other with
      | none =>
          refine .nothing fun compared fragment hfragment => ?_
          simp [fragmentSet?, hfragment] at hset
      | some set =>
          obtain ⟨found, hfound, rfl⟩ := fragmentSet?_eq_some_iff.mp hset
          refine (clean_compareFields hcompare exclusive hfields ?_).imp ?_
          · intro b hb
            obtain ⟨y, hy, rfl⟩ := exists_placed schema (.fragment other) hb
            exact hname y (fromFragment_iff.mpr ⟨other, hother, found, hfound, hy⟩)
          · intro compared h fragment hfragment
            obtain rfl : found = fragment := by simpa [hfound] using hfragment
            exact h
    · exact fun other => .forall fun fragment => .forall fun _ => kept_fields exclusive fields _
  refine hall.imp fun compared h a ha y hy hsame => ?_
  obtain ⟨other, hother, fragment, hfragment, hplaced⟩ := fromFragment_iff.mp hy
  exact h other hother fragment hfragment a ha _ (selected_mem_fieldsOf schema hplaced) hsame

/-- The comparisons that follow from that of two fragments close the pair, if those with the
fragments below them leave these compared. -/
theorem clean_closed {exclusive : Bool} {a b : String} {fragment fragment' : Fragment}
    {below : String → String → Search (List Clash)}
    (hfragment : document.fragment? a = some fragment)
    (hfragment' : document.fragment? b = some fragment')
    (ha : ∀ x, FromFragment schema document a x → Ready x.selected)
    (hb : ∀ y, FromFragment schema document b y → Ready y.selected)
    (hright : ∀ c ∈ spreadsOf fragment'.selections,
      Clean schema document (below a c) (Covered document · a c exclusive))
    (hleft : ∀ c ∈ spreadsOf fragment.selections,
      Clean schema document (below c b) (Covered document · c b exclusive)) :
    Clean schema document (andThen (andThen
        (compareFields compare exclusive
          (fieldsOf schema (schema.type? fragment.condition.item) fragment.selections)
          (fieldsOf schema (schema.type? fragment'.condition.item) fragment'.selections))
        (searchAll (below a) (spreadsOf fragment'.selections).eraseDups))
        (searchAll (below · b) (spreadsOf fragment.selections).eraseDups))
      (Closed schema document · a b exclusive) := by
  have hready := ready_of_fragment hfragment ha
  have hready' := ready_of_fragment hfragment' hb
  have hspreads : Clean schema document
      (searchAll (below a) (spreadsOf fragment'.selections).eraseDups) fun compared =>
        ∀ c ∈ (spreadsOf fragment'.selections).eraseDups, Covered document compared a c exclusive :=
    .searchAll (fun c hc => hright c (by simpa using hc)) fun c => kept_covered a c exclusive
  have hspreads' : Clean schema document
      (searchAll (below · b) (spreadsOf fragment.selections).eraseDups) fun compared =>
        ∀ c ∈ (spreadsOf fragment.selections).eraseDups, Covered document compared c b exclusive :=
    .searchAll (fun c hc => hleft c (by simpa using hc)) fun c => kept_covered c b exclusive
  have hkept : Kept fun compared => ∀ c ∈ (spreadsOf fragment'.selections).eraseDups,
      Covered document compared a c exclusive :=
    .forall fun c => .forall fun _ => kept_covered a c exclusive
  refine (((clean_compareFields hcompare exclusive hready hready').andThen
    (kept_fields exclusive _ _) hspreads).andThen ((kept_fields exclusive _ _).and hkept)
    hspreads').imp ?_
  rintro compared ⟨⟨hfields, hinRight⟩, hinLeft⟩
  refine ⟨fun hl hr => ?_, fun hr c hc => ?_, fun hl c hc => ?_⟩
  · cases hfragment.symm.trans hl
    cases hfragment'.symm.trans hr
    exact hfields
  · cases hfragment'.symm.trans hr
    exact hinRight c (by simpa using hc)
  · cases hfragment.symm.trans hl
    exact hinLeft c (by simpa using hc)

/-- Comparing two fragments leaves them compared if the fuel exceeds their ranks. The pair is
remembered before its fields are compared, and closed once all of it has been compared. -/
theorem clean_compareFragments {rank : String → Nat} (hranked : Ranked document rank)
    {exclusive : Bool} {fuel : Nat} {a b : String}
    (hfuel : (document.fragment? a).isSome → (document.fragment? b).isSome →
      rank a + rank b < fuel)
    (ha : ∀ x, FromFragment schema document a x → Ready x.selected)
    (hb : ∀ y, FromFragment schema document b y → Ready y.selected) :
    Clean schema document (compareFragments schema document compare exclusive fuel a b)
      (Covered document · a b exclusive) := by
  induction fuel generalizing a b with
  | zero =>
      refine .nothing fun compared => ?_
      by_cases hknown : (document.fragment? a).isSome
      · by_cases hknown' : (document.fragment? b).isSome
        · exact absurd (hfuel hknown hknown') (Nat.not_lt_zero _)
        · exact .inr (.inr (.inl (by simpa using hknown')))
      · exact .inr (.inl (by simpa using hknown))
  | succ fuel ih =>
      intro compared hnil
      rw [compareFragments_succ] at hnil ⊢
      split
      · rename_i hskip
        refine ⟨.refl compared, ?_⟩
        rcases Bool.or_eq_true_iff.mp hskip with hab | hcovers
        · exact .inl (by simpa using hab)
        · exact .inr (.inr (.inr hcovers))
      · rename_i hskip
        rw [if_neg hskip] at hnil
        simp only [Bool.or_eq_true, decide_eq_true_eq, not_or, Bool.not_eq_true] at hskip
        cases hleft : fragmentSet? schema document a with
        | none =>
            refine ⟨.refl compared, .inr (.inl ?_)⟩
            simpa [fragmentSet?] using hleft
        | some left =>
            cases hright : fragmentSet? schema document b with
            | none =>
                refine ⟨.refl compared, .inr (.inr (.inl ?_))⟩
                simpa [fragmentSet?] using hright
            | some right =>
                obtain ⟨fragment, hfragment, rfl⟩ := fragmentSet?_eq_some_iff.mp hleft
                obtain ⟨fragment', hfragment', rfl⟩ := fragmentSet?_eq_some_iff.mp hright
                rw [hleft, hright] at hnil
                -- what the two fragments spread is ranked below them, so less fuel does for it
                have hrank {name other : String} {found : Fragment}
                    (hfound : document.fragment? name = some found)
                    (hother : other ∈ spreadsOf found.selections)
                    (hknown : (document.fragment? other).isSome) : rank other < rank name :=
                  hranked.lt_of_spreads ⟨found, hfound, spreadsInside_of_mem hother⟩ hknown
                have hbelow := hfuel (by simp [hfragment]) (by simp [hfragment'])
                have hinRight : ∀ c ∈ spreadsOf fragment'.selections, Clean schema document
                    (compareFragments schema document compare exclusive fuel a c)
                    (Covered document · a c exclusive) := by
                  intro c hc
                  refine ih (fun _ hc' => ?_) ha fun y hy => hb y (.deeper hfragment' hc hy)
                  have := hrank hfragment' hc hc'
                  omega
                have hinLeft : ∀ c ∈ spreadsOf fragment.selections, Clean schema document
                    (compareFragments schema document compare exclusive fuel c b)
                    (Covered document · c b exclusive) := by
                  intro c hc
                  refine ih (fun hc' _ => ?_) (fun x hx => ha x (.deeper hfragment hc hx)) hb
                  have := hrank hfragment hc hc'
                  omega
                have hclean := clean_closed hcompare hfragment hfragment' ha hb hinRight hinLeft
                obtain ⟨hgrows, hclosed⟩ := hclean _ hnil
                refine ⟨hgrows.of_mark hskip.2 hclosed, .inr (.inr (.inr ?_))⟩
                refine hgrows.le a b exclusive ?_
                rw [Compared.covers_mark, if_pos rfl]
                cases exclusive <;> rfl

/-- Comparing two sets settles their fields with each other and with what comes from the fragments
that the other spreads, and leaves these fragments compared. -/
theorem clean_compareSets {rank : String → Nat} (hranked : Ranked document rank) {exclusive : Bool}
    {owner owner' : Option NamedType} {selections selections' : List Selection}
    (hleft : ∀ x, Occurs schema document .here [] owner selections x → Ready x.selected)
    (hright : ∀ y, Occurs schema document .here [] owner' selections' y → Ready y.selected) :
    Clean schema document (compareSets schema document compare exclusive
        (.of schema owner selections) (.of schema owner' selections')) fun compared =>
      (((∀ x ∈ fieldsOf schema owner selections, ∀ y ∈ fieldsOf schema owner' selections',
          x.name = y.name → Settled schema document compared exclusive x y) ∧
        (∀ name ∈ (spreadsOf selections').eraseDups, ∀ x ∈ fieldsOf schema owner selections,
          ∀ y, FromFragment schema document name y → x.name = y.name →
            Settled schema document compared exclusive x y.selected)) ∧
        (∀ name ∈ (spreadsOf selections).eraseDups, ∀ y ∈ fieldsOf schema owner' selections',
          ∀ x, FromFragment schema document name x → y.name = x.name →
            Settled schema document compared exclusive y x.selected)) ∧
        (∀ name ∈ (spreadsOf selections).eraseDups, ∀ name' ∈ (spreadsOf selections').eraseDups,
          Covered document compared name name' exclusive) := by
  have hfields := ready_of_mem_fieldsOf hleft
  have hfields' := ready_of_mem_fieldsOf hright
  have hspreads : ∀ name ∈ (spreadsOf selections).eraseDups,
      ∀ x, FromFragment schema document name x → Ready x.selected :=
    fun name hname => ready_of_fromFragment hleft (by simpa using hname)
  have hspreads' : ∀ name ∈ (spreadsOf selections').eraseDups,
      ∀ y, FromFragment schema document name y → Ready y.selected :=
    fun name hname => ready_of_fromFragment hright (by simpa using hname)
  rw [compareSets_eq]
  refine .andThen (.andThen (.andThen ?_ ?_ ?_) ?_ ?_) ?_ ?_
  · exact clean_compareFields hcompare exclusive hfields hfields'
  · exact kept_fields exclusive _ _
  · exact .searchAll (fun name hname => clean_compareWithFragment hcompare hfields
      (hspreads' name hname)) fun name => kept_withFragment exclusive _ name
  · exact (kept_fields exclusive _ _).and
      (.forall fun name => .forall fun _ => kept_withFragment exclusive _ name)
  · exact .searchAll (fun name hname => clean_compareWithFragment hcompare hfields'
      (hspreads name hname)) fun name => kept_withFragment exclusive _ name
  · exact ((kept_fields exclusive _ _).and
      (.forall fun name => .forall fun _ => kept_withFragment exclusive _ name)).and
      (.forall fun name => .forall fun _ => kept_withFragment exclusive _ name)
  · refine .searchAll (fun name hname => .searchAll (fun name' hname' => ?_)
      fun name' => kept_covered name name' exclusive)
      fun name => .forall fun name' => .forall fun _ => kept_covered name name' exclusive
    exact clean_compareFragments hcompare hranked hranked.add_lt_spreadBound
      (hspreads name hname) (hspreads' name' hname')

/-- What has been settled about the expansion of one set. -/
structure SettledWithin (schema : Schema) (document : Document) (compared : Compared)
    (owner : Option NamedType) (selections : List Selection) : Prop where
  fields : (fieldsOf schema owner selections).Pairwise fun x y =>
    x.name = y.name → Settled schema document compared false x y
  withFragment : ∀ name ∈ spreadsOf selections, ∀ x ∈ fieldsOf schema owner selections,
    ∀ y, FromFragment schema document name y → x.name = y.name →
      Settled schema document compared false x y.selected
  fragments : ∀ a ∈ spreadsOf selections, ∀ b ∈ spreadsOf selections,
    Covered document compared a b false

/-- Comparing the fragments that a set spreads, each with the fields and with those after it,
settles the fields with what comes from the fragments and leaves these compared. -/
theorem clean_compareWithin_go {rank : String → Nat} (hranked : Ranked document rank)
    (set : FieldSet) (hfields : ∀ a ∈ set.fields, Ready a) {rest : List String}
    (hrest : ∀ name ∈ rest, ∀ x, FromFragment schema document name x → Ready x.selected) :
    Clean schema document (compareWithin.go schema document compare set rest) fun compared =>
      (∀ name ∈ rest, ∀ x ∈ set.fields, ∀ y, FromFragment schema document name y →
        x.name = y.name → Settled schema document compared false x y.selected) ∧
      rest.Pairwise fun a b => Covered document compared a b false := by
  induction rest with
  | nil => exact .nothing (by simp)
  | cons name rest ih =>
      have hname := hrest name List.mem_cons_self
      have hlater := fun other hother => hrest other (List.mem_cons_of_mem _ hother)
      have hfragments : Clean schema document (searchAll (compareFragments schema document compare
          false (spreadBound document) name) rest) fun compared =>
          ∀ other ∈ rest, Covered document compared name other false :=
        .searchAll (fun other hother => clean_compareFragments hcompare hranked
          hranked.add_lt_spreadBound hname (hlater other hother))
          fun other => kept_covered name other false
      rw [compareWithin_go_cons]
      refine (((clean_compareWithFragment hcompare hfields hname).andThen
        (kept_withFragment false _ name) hfragments).andThen ?_ (ih hlater)).imp ?_
      · exact (kept_withFragment false _ name).and
          (.forall fun other => .forall fun _ => kept_covered name other false)
      · rintro compared ⟨⟨hwith, hcovered⟩, hmore, hpairwise⟩
        refine ⟨fun other hother => ?_, .cons hcovered hpairwise⟩
        rcases List.mem_cons.mp hother with rfl | hother
        · exact hwith
        · exact hmore other hother

/-- Comparing everything inside a set settles its expansion. -/
theorem clean_compareWithin {rank : String → Nat} (hranked : Ranked document rank)
    {owner : Option NamedType} {selections : List Selection}
    (hready : ∀ x, Occurs schema document .here [] owner selections x → Ready x.selected) :
    Clean schema document (compareWithin schema document compare (.of schema owner selections))
      (SettledWithin schema document · owner selections) := by
  have hfields := ready_of_mem_fieldsOf hready
  have hpairs : Clean schema document (searchAll (fun pair => compare false pair.1 pair.2)
      (pairsWithin (fieldsOf schema owner selections))) fun compared =>
      ∀ pair ∈ pairsWithin (fieldsOf schema owner selections),
        Settled schema document compared false pair.1 pair.2 := by
    refine .searchAll (fun pair hpair => ?_) fun pair => kept_settled false pair.1 pair.2
    have hsublist := (mem_pairsWithin_iff.mp hpair).1
    exact hcompare false pair.1 pair.2 (hfields _ (hsublist.subset (by simp)))
      (hfields _ (hsublist.subset (by simp)))
  have hspreads : ∀ name ∈ (FieldSet.of schema owner selections).spreads,
      ∀ x, FromFragment schema document name x → Ready x.selected :=
    fun name hname => ready_of_fromFragment hready (mem_spreads_of.mp hname)
  have hfragments :=
    clean_compareWithin_go hcompare hranked (.of schema owner selections) hfields hspreads
  rw [compareWithin_eq]
  refine (hpairs.andThen (.forall fun pair => .forall fun _ => kept_settled false pair.1 pair.2)
    hfragments).imp ?_
  rintro compared ⟨hsettled, hwith, hcovered⟩
  refine ⟨?_, fun name hname => hwith name (mem_spreads_of.mpr hname), fun a ha b hb => ?_⟩
  · rw [List.pairwise_iff_forall_sublist]
    intro x y hsublist hname
    exact hsettled (x, y) (mem_pairsWithin_iff.mpr ⟨hsublist, hname⟩)
  · exact hcovered.forall_of_forall_of_flip (fun a _ => .refl compared a false)
      (hcovered.imp fun h => h.symm) (mem_spreads_of.mpr ha) (mem_spreads_of.mpr hb)

end

/-- Fields are nested less than `fuel` deep below a field. -/
def Shallow (document : Document) (rank : String → Nat) (fuel : Nat) (a : Selected) : Prop :=
  ∃ depth < fuel, Fits document rank depth a.selections

/-- What occurs in a set within the bound is nested less deep. -/
theorem Fits.shallow {rank : String → Nat} (hranked : Ranked document rank) {fuel : Nat}
    {selections : List Selection} (h : Fits document rank fuel selections) {site : Site}
    {path : List Nat} {owner : Option NamedType} {x : Occurrence}
    (hx : Occurs schema document site path owner selections x) :
    Shallow document rank fuel x.selected := by
  obtain ⟨less, hless, hfits⟩ := h.below hranked hx
  exact ⟨less, hless, hfits⟩

/-- What occurs below a field is nested less deep. -/
theorem Shallow.below {rank : String → Nat} (hranked : Ranked document rank) {fuel : Nat}
    {a : Selected} (h : Shallow document rank (fuel + 1) a) {site : Site} {path : List Nat}
    {owner : Option NamedType} {x : Occurrence}
    (hx : Occurs schema document site path owner a.selections x) :
    Shallow document rank fuel x.selected := by
  obtain ⟨depth, hdepth, hfits⟩ := h
  obtain ⟨less, hless, hfits'⟩ := hfits.below hranked hx
  exact ⟨less, by omega, hfits'⟩

/-- Comparing two fields settles them, if the fuel exceeds how deeply fields are nested below
them. -/
theorem clean_compareSelected {rank : String → Nat} (hranked : Ranked document rank) (fuel : Nat)
    (exclusive : Bool) (a b : Selected) (ha : Shallow document rank fuel a)
    (hb : Shallow document rank fuel b) :
    Clean schema document (compareSelected schema document fuel exclusive a b)
      (Settled schema document · exclusive a b) := by
  induction fuel generalizing exclusive a b with
  | zero =>
      obtain ⟨depth, hdepth, -⟩ := ha
      exact absurd hdepth (Nat.not_lt_zero depth)
  | succ fuel ih =>
      intro compared hnil
      rw [compareSelected_succ] at hnil ⊢
      dsimp only at hnil ⊢
      cases hown : ownConflict? schema (exclusive || neverMeet a b) a b with
      | some conflict =>
          rw [hown] at hnil
          cases hnil
      | none =>
          rw [hown] at hnil
          dsimp only at hnil ⊢
          by_cases hempty : (a.selections.isEmpty || b.selections.isEmpty) = true
          · rw [if_pos hempty]
            refine ⟨.refl compared, ?_⟩
            rcases Bool.or_eq_true_iff.mp hempty with hempty | hempty
            · have hnone : a.selections = [] := List.isEmpty_iff.mp hempty
              exact .intro rfl hown (by simp [hnone, fieldsOf]) (by simp [hnone, fieldsOf])
                (by simp [hnone, spreadsOf]) (by simp [hnone, spreadsOf])
            · have hnone : b.selections = [] := List.isEmpty_iff.mp hempty
              exact .intro rfl hown (by simp [hnone, fieldsOf]) (by simp [hnone, spreadsOf])
                (by simp [hnone, fieldsOf]) (by simp [hnone, spreadsOf])
          · rw [if_neg hempty] at hnil ⊢
            split at hnil
            · rename_i hnested
              rw [if_pos hnested]
              obtain ⟨hgrows, ⟨⟨hfields, hright⟩, hleft⟩, hcovered⟩ :=
                clean_compareSets ih hranked (fun _ hx => ha.below hranked hx)
                  (fun _ hy => hb.below hranked hy) compared (List.isEmpty_iff.mp hnested)
              refine ⟨hgrows, .intro rfl hown hfields ?_ ?_ ?_⟩
              · exact fun x hx name hname => hright name (by simpa using hname) x hx
              · exact fun y hy name hname => hleft name (by simpa using hname) y hy
              · exact fun name hname name' hname' =>
                  hcovered name (by simpa using hname) name' (by simpa using hname')
            · cases hnil

/-! ## At the end of a walk -/

/-- Two fields are settled in one order or the other. -/
def SettledEitherWay (schema : Schema) (document : Document) (compared : Compared)
    (exclusive : Bool) (x y : Occurrence) : Prop :=
  Settled schema document compared exclusive x.selected y.selected ∨
    Settled schema document compared exclusive y.selected x.selected

theorem SettledEitherWay.symm {compared : Compared} {exclusive : Bool} {x y : Occurrence}
    (h : SettledEitherWay schema document compared exclusive x y) :
    SettledEitherWay schema document compared exclusive y x :=
  Or.symm h

theorem SettledEitherWay.of_false {compared : Compared} {x y : Occurrence}
    (h : SettledEitherWay schema document compared false x y) (exclusive : Bool) :
    SettledEitherWay schema document compared exclusive x y :=
  h.imp (·.mono (.refl _) nofun) (·.mono (.refl _) nofun)

/-- Different nodes that a set holds are settled. -/
theorem SettledWithin.placed {compared : Compared} {owner : Option NamedType}
    {selections : List Selection} (h : SettledWithin schema document compared owner selections)
    {site : Site} {x y : Occurrence} (hx : x ∈ placed schema site [] 0 owner selections)
    (hy : y ∈ placed schema site [] 0 owner selections) (hnode : ¬ x.SameNode y)
    (hname : x.name = y.name) : SettledEitherWay schema document compared false x y := by
  have hpairs := h.fields
  rw [← map_placed schema site [] 0, List.pairwise_map] at hpairs
  have hall : ∀ x ∈ Merging.placed schema site [] 0 owner selections,
      ∀ y ∈ Merging.placed schema site [] 0 owner selections,
        x.SameNode y ∨ (x.name = y.name → SettledEitherWay schema document compared false x y) := by
    intro x hx y hy
    refine List.Pairwise.forall_of_forall_of_flip (R := fun x y => x.SameNode y ∨
      (x.name = y.name → SettledEitherWay schema document compared false x y)) ?_ ?_ ?_ hx hy
    · exact fun x _ => .inl ⟨rfl, rfl⟩
    · exact hpairs.imp fun hsettled => .inr fun hname => .inl (hsettled hname)
    · exact hpairs.imp fun hsettled => .inr fun hname => .inr (hsettled hname.symm)
  exact (hall x hx y hy).resolve_left hnode hname

/-- A memory at the end of a walk: every pair that is remembered is closed, and the selection set of
every fragment has been looked at. -/
structure Finished (schema : Schema) (document : Document) (compared : Compared) : Prop where
  closed {a b : String} {exclusive : Bool} : compared.covers a b exclusive = true →
    Closed schema document compared a b exclusive ∨ Closed schema document compared b a exclusive
  within {name : String} {fragment : Fragment} : document.fragment? name = some fragment →
    SettledWithin schema document compared (schema.type? fragment.condition.item)
      fragment.selections

namespace Finished

variable {compared : Compared} (h : Finished schema document compared)

include h

/-- A field of a fragment itself is settled with everything that comes from a fragment that it need
not be compared with. The induction is on how the other field comes from its fragment. -/
theorem settles_own {a b : String} {exclusive : Bool} {fragment : Fragment} {x y : Occurrence}
    (hfragment : document.fragment? a = some fragment)
    (hx : x ∈ placed schema (.fragment a) [] 0 (schema.type? fragment.condition.item)
      fragment.selections)
    (hy : FromFragment schema document b y) (hcovered : Covered document compared a b exclusive)
    (hnode : ¬ x.SameNode y) (hname : x.name = y.name) :
    SettledEitherWay schema document compared exclusive x y := by
  have hmem := selected_mem_fieldsOf schema hx
  induction hy with
  | @own b fragment' y hfragment' hy =>
      have hmem' := selected_mem_fieldsOf schema hy
      rcases hcovered with rfl | hnone | hnone | hcovers
      · cases hfragment.symm.trans hfragment'
        exact ((h.within hfragment).placed hx hy hnode hname).of_false exclusive
      · cases hnone.symm.trans hfragment
      · cases hnone.symm.trans hfragment'
      · rcases h.closed hcovers with hclosed | hclosed
        · exact .inl (hclosed.fields hfragment hfragment' _ hmem _ hmem' hname)
        · exact .inr (hclosed.fields hfragment' hfragment _ hmem' _ hmem hname.symm)
  | @deeper b fragment' c y hfragment' hc hy ih =>
      rcases hcovered with rfl | hnone | hnone | hcovers
      · cases hfragment.symm.trans hfragment'
        have hsettled := (h.within hfragment).withFragment c hc _ hmem y hy hname
        exact SettledEitherWay.of_false (.inl hsettled) exclusive
      · cases hnone.symm.trans hfragment
      · cases hnone.symm.trans hfragment'
      · rcases h.closed hcovers with hclosed | hclosed
        · exact ih (hclosed.inRight hfragment' c hc) hnode hname
        · exact ih (hclosed.inLeft hfragment' c hc).symm hnode hname

/-- **Fragments at the end of a walk.**  What comes from two fragments that need not be compared is
settled. The induction is on how the first field comes from its fragment. -/
theorem settles_fragments {a b : String} {exclusive : Bool} {x y : Occurrence}
    (hx : FromFragment schema document a x) (hy : FromFragment schema document b y)
    (hcovered : Covered document compared a b exclusive) (hnode : ¬ x.SameNode y)
    (hname : x.name = y.name) : SettledEitherWay schema document compared exclusive x y := by
  induction hx generalizing b y exclusive with
  | own hfragment hx => exact h.settles_own hfragment hx hy hcovered hnode hname
  | @deeper a fragment c x hfragment hc hx ih =>
      rcases hcovered with rfl | hnone | hnone | hcovers
      · -- both come from one fragment, whose set has been looked at
        have hwithin := h.within hfragment
        cases hy with
        | own hfragment' hy =>
            cases hfragment.symm.trans hfragment'
            have hmem := selected_mem_fieldsOf schema hy
            have hsettled := hwithin.withFragment c hc _ hmem x hx hname.symm
            exact SettledEitherWay.of_false (.inr hsettled) exclusive
        | @deeper _ fragment' d _ hfragment' hd hy =>
            cases hfragment.symm.trans hfragment'
            exact (ih hy (hwithin.fragments c hc d hd) hnode hname).of_false exclusive
      · cases hnone.symm.trans hfragment
      · obtain ⟨fragment', hfragment'⟩ := hy.exists_fragment
        cases hnone.symm.trans hfragment'
      · rcases h.closed hcovers with hclosed | hclosed
        · exact ih hy (hclosed.inLeft hfragment c hc) hnode hname
        · exact ih hy (hclosed.inRight hfragment c hc).symm hnode hname

end Finished

end GraphQL.Merging
