import GraphQL.Proofs.Alike
import GraphQL.Proofs.Writing
import Mathlib.Data.List.Forall2
import Mathlib.Logic.Relation

/-!
# Equality of values

`Value.alike` says whether two values mean the same. It does not look at places at all, and it looks
at the entries of an object only as a set; so values that differ in these two respects can stand for
each other on both sides of a comparison, at any depth (`Value.Interchangeable`).

Not every value is alike to itself, since no NaN is; and where an object has two entries of one
name, their likes can be found in another object that has entries of its own besides. Values without
either are definite, and among them `alike` is an equivalence (`Value.alike_isEquality`).
-/

namespace GraphQL

theorem Binary64.same_self {x : Binary64} (h : x.isNaN = false) : x.same x = true := by
  simp [same, h]

/-- A number that equals another one is not NaN; it has the same bits, or both are zeros. -/
theorem Binary64.same_iff {x y : Binary64} : x.same y = true ↔
    x.isNaN = false ∧ y.isNaN = false ∧ (x = y ∨ x.isZero = true ∧ y.isZero = true) := by
  have hbits : x.bits = y.bits ↔ x = y := by
    cases x
    cases y
    simp
  simp [same, hbits, and_assoc]

theorem Binary64.same_trans {x y z : Binary64} (hxy : x.same y = true) (hyz : y.same z = true) :
    x.same z = true := by
  rw [same_iff] at hxy hyz ⊢
  obtain ⟨hx, -, hxy⟩ := hxy
  obtain ⟨-, hz, hyz⟩ := hyz
  refine ⟨hx, hz, ?_⟩
  rcases hxy with rfl | ⟨hxzero, hyzero⟩
  · exact hyz
  · rcases hyz with rfl | ⟨-, hzzero⟩
    · exact .inr ⟨hxzero, hyzero⟩
    · exact .inr ⟨hxzero, hzzero⟩

namespace Value

/-! ## Comparing lists and objects -/

theorem itemsAlike_iff {left right : List (Located Value)} :
    itemsAlike left right = true ↔
      List.Forall₂ (fun a b => alike a.item b.item = true) left right := by
  induction left generalizing right with
  | nil => cases right <;> simp [itemsAlike]
  | cons first rest ih => cases right <;> simp [itemsAlike, ih]

theorem alike_list_iff {items : List (Located Value)} {w : Value} :
    alike (.list items) w = true ↔ ∃ others, w = .list others ∧
      List.Forall₂ (fun a b => alike a.item b.item = true) items others := by
  cases w <;> simp [alike, itemsAlike_iff]

theorem alike_object_iff {entries : List (Name × Located Value)} {w : Value} :
    alike (.object entries) w = true ↔ ∃ others, w = .object others ∧
      entries.length = others.length ∧ ∀ a ∈ entries, ∃ b ∈ others,
        a.1.item = b.1.item ∧ alike a.2.item b.2.item = true := by
  cases w <;> simp [alike, entriesAlike_iff]

/-- Whether a value has no parts and is not a number that can be equal to one with other bits. -/
def isAtom : Value → Bool
  | .float _ | .list _ | .object _ => false
  | _ => true

theorem alike_iff_eq {v w : Value} (h : v.isAtom = true) : alike v w = true ↔ v = w := by
  cases v <;> cases w <;> simp [alike, isAtom] at h ⊢

/-! ## Values that stand for each other -/

/-- Neither on the left nor on the right of a comparison does it matter which of the two stands
there. -/
def Interchangeable (v w : Value) : Prop :=
  ∀ u, alike v u = alike w u ∧ alike u v = alike u w

namespace Interchangeable

variable {v w u : Value}

/-- Both sides of a comparison may be changed at once. -/
theorem alike_eq {v' w' : Value} (hv : Interchangeable v v') (hw : Interchangeable w w') :
    alike v w = alike v' w' :=
  (hv w).1.trans (hw v').2

theorem refl (v : Value) : Interchangeable v v :=
  fun _ => ⟨rfl, rfl⟩

theorem trans (hvw : Interchangeable v w) (hwu : Interchangeable w u) : Interchangeable v u :=
  fun x => ⟨(hvw x).1.trans (hwu x).1, (hvw x).2.trans (hwu x).2⟩

theorem symm (h : Interchangeable v w) : Interchangeable w v :=
  fun x => ⟨(h x).1.symm, (h x).2.symm⟩

end Interchangeable

/-- Lists stand for each other if their items do, one by one. -/
theorem interchangeable_list {left right : List (Located Value)}
    (h : List.Forall₂ (fun a b => Interchangeable a.item b.item) left right) :
    Interchangeable (.list left) (.list right) := by
  have hitems (others : List (Located Value)) :
      itemsAlike left others = itemsAlike right others ∧
        itemsAlike others left = itemsAlike others right := by
    induction h generalizing others with
    | nil => exact ⟨rfl, rfl⟩
    | cons hfirst _ ih =>
        cases others with
        | nil => exact ⟨rfl, rfl⟩
        | cons other others => simp [itemsAlike, hfirst other.item, ih others]
  intro u
  cases u with
  | list others => exact hitems others
  | _ => exact ⟨rfl, rfl⟩

/-- Objects stand for each other if they are as long and their entries compare alike. -/
theorem interchangeable_of_entriesAlike {left right : List (Name × Located Value)}
    (hlength : left.length = right.length)
    (hleft : ∀ others, entriesAlike left others = entriesAlike right others)
    (hright : ∀ others, entriesAlike others left = entriesAlike others right) :
    Interchangeable (.object left) (.object right) := by
  intro u
  cases u with
  | object others => simp only [alike, hlength, hleft, hright, and_self]
  | _ => exact ⟨rfl, rfl⟩

/-- Objects stand for each other if they have the same keys in the same order, with values that
do. -/
theorem interchangeable_object {left right : List (Name × Located Value)}
    (h : List.Forall₂ (fun a b => a.1.item = b.1.item ∧ Interchangeable a.2.item b.2.item)
      left right) : Interchangeable (.object left) (.object right) := by
  have hany (key : String) (v : Value) :
      left.any (fun b => key = b.1.item && alike v b.2.item) =
        right.any fun b => key = b.1.item && alike v b.2.item := by
    induction h with
    | nil => rfl
    | cons hfirst _ ih => simp only [List.any_cons, hfirst.1, hfirst.2 v, ih]
  have hleft (others : List (Name × Located Value)) :
      entriesAlike left others = entriesAlike right others := by
    clear hany
    induction h with
    | nil => rfl
    | cons hfirst _ ih => simp [entriesAlike, hfirst.1, hfirst.2 _, ih]
  have hright (others : List (Name × Located Value)) :
      entriesAlike others left = entriesAlike others right := by
    induction others with
    | nil => rfl
    | cons other others ih => simp only [entriesAlike, hany, ih]
  exact interchangeable_of_entriesAlike h.length_eq hleft hright

/-- The order of the entries of an object does not matter. -/
theorem interchangeable_of_perm {left right : List (Name × Located Value)}
    (h : left.Perm right) : Interchangeable (.object left) (.object right) := by
  refine interchangeable_of_entriesAlike h.length_eq (fun others => ?_) fun others => ?_
  all_goals
    rw [Bool.eq_iff_iff, entriesAlike_iff, entriesAlike_iff]
    simp only [h.mem_iff]

/-! ## Values inside a value -/

/-- The items of a list, and the values in the entries of an object. -/
def inner : Value → List Value
  | .list items => items.map Located.item
  | .object entries => entries.map (·.2.item)
  | _ => []

theorem sizeOf_lt_of_mem_inner {v w : Value} (h : w ∈ v.inner) : sizeOf w < sizeOf v := by
  cases v with
  | list items =>
      obtain ⟨⟨span, item⟩, hmem, rfl⟩ := List.mem_map.mp h
      have hlt := List.sizeOf_lt_of_mem hmem
      simp only [Located.mk.sizeOf_spec, list.sizeOf_spec] at hlt ⊢
      omega
  | object entries =>
      obtain ⟨⟨key, span, item⟩, hmem, rfl⟩ := List.mem_map.mp h
      have hlt := List.sizeOf_lt_of_mem hmem
      simp only [Prod.mk.sizeOf_spec, Located.mk.sizeOf_spec, object.sizeOf_spec] at hlt ⊢
      omega
  | _ => cases h

/-- What a value has if all values in it have it, every value has. -/
theorem induction_inner {motive : Value → Prop}
    (step : ∀ v, (∀ w ∈ v.inner, motive w) → motive v) (v : Value) : motive v :=
  step v fun w _ => induction_inner step w
termination_by sizeOf v
decreasing_by exact sizeOf_lt_of_mem_inner ‹_›

/-- Places do not matter. -/
theorem interchangeable_bare (v : Value) : Interchangeable v v.bare := by
  induction v using induction_inner with
  | step v ih =>
      cases v with
      | list items =>
          rw [bare, bareItems_eq]
          refine interchangeable_list (List.forall₂_map_right_iff.mpr (List.forall₂_same.mpr ?_))
          exact fun item hitem => ih item.item (List.mem_map_of_mem hitem)
      | object entries =>
          rw [bare, bareEntries_eq]
          refine interchangeable_object (List.forall₂_map_right_iff.mpr (List.forall₂_same.mpr ?_))
          exact fun entry hentry => ⟨rfl, ih entry.2.item (List.mem_map_of_mem hentry)⟩
      | _ => exact .refl _

theorem interchangeable_of_bare_eq {v w : Value} (h : v.bare = w.bare) : Interchangeable v w :=
  (interchangeable_bare v).trans (h ▸ (interchangeable_bare w).symm)

/-- The entries of one object in a value, at any depth, are put in another order. -/
inductive Reorders : Value → Value → Prop
  | here {entries others : List (Name × Located Value)} (h : entries.Perm others) :
      Reorders (.object entries) (.object others)
  | item {v w : Value} (before : List (Located Value)) (span : Span)
      (after : List (Located Value)) (h : Reorders v w) :
      Reorders (.list (before ++ ⟨span, v⟩ :: after)) (.list (before ++ ⟨span, w⟩ :: after))
  | entry {v w : Value} (before : List (Name × Located Value)) (key : Name) (span : Span)
      (after : List (Name × Located Value)) (h : Reorders v w) :
      Reorders (.object (before ++ (key, ⟨span, v⟩) :: after))
        (.object (before ++ (key, ⟨span, w⟩) :: after))

theorem interchangeable_of_reorders {v w : Value} (h : Reorders v w) : Interchangeable v w := by
  induction h with
  | here h => exact interchangeable_of_perm h
  | item before span after _ ih =>
      have hsame (items : List (Located Value)) :
          List.Forall₂ (fun a b => Interchangeable a.item b.item) items items :=
        List.forall₂_same.mpr fun _ _ => .refl _
      exact interchangeable_list (List.rel_append (hsame before) (.cons ih (hsame after)))
  | entry before key span after _ ih =>
      have hsame (entries : List (Name × Located Value)) :
          List.Forall₂ (fun a b => a.1.item = b.1.item ∧ Interchangeable a.2.item b.2.item)
            entries entries :=
        List.forall₂_same.mpr fun _ _ => ⟨rfl, .refl _⟩
      exact interchangeable_object
        (List.rel_append (hsame before) (.cons ⟨rfl, ih⟩ (hsame after)))

/-- Any number of objects may be put in order, one after the other. -/
theorem interchangeable_of_reordered {v w : Value} (h : Relation.ReflTransGen Reorders v w) :
    Interchangeable v w := by
  induction h with
  | refl => exact .refl v
  | tail _ hstep ih => exact ih.trans (interchangeable_of_reorders hstep)

/-! ## Definite values -/

mutual

/-- No number in a value is NaN. -/
def withoutNaN : Value → Bool
  | .float x => !x.isNaN
  | .list items => withoutNaNInItems items
  | .object entries => withoutNaNInEntries entries
  | _ => true

/-- No number in the items of a list is NaN. -/
def withoutNaNInItems : List (Located Value) → Bool
  | [] => true
  | ⟨_, v⟩ :: rest => withoutNaN v && withoutNaNInItems rest

/-- No number in the entries of an object is NaN. -/
def withoutNaNInEntries : List (Name × Located Value) → Bool
  | [] => true
  | (_, ⟨_, v⟩) :: rest => withoutNaN v && withoutNaNInEntries rest

end

theorem withoutNaNInItems_eq (items : List (Located Value)) :
    withoutNaNInItems items = items.all (·.item.withoutNaN) := by
  induction items with
  | nil => rfl
  | cons item items ih => rw [withoutNaNInItems, ih, List.all_cons]

theorem withoutNaNInEntries_eq (entries : List (Name × Located Value)) :
    withoutNaNInEntries entries = entries.all (·.2.item.withoutNaN) := by
  induction entries with
  | nil => rfl
  | cons entry entries ih => rw [withoutNaNInEntries, ih, List.all_cons]

theorem withoutNaN_of_mem_inner {v w : Value} (h : v.withoutNaN = true) (hw : w ∈ v.inner) :
    w.withoutNaN = true := by
  cases v with
  | list items =>
      rw [withoutNaN, withoutNaNInItems_eq, List.all_eq_true] at h
      obtain ⟨item, hitem, rfl⟩ := List.mem_map.mp hw
      exact h item hitem
  | object entries =>
      rw [withoutNaN, withoutNaNInEntries_eq, List.all_eq_true] at h
      obtain ⟨entry, hentry, rfl⟩ := List.mem_map.mp hw
      exact h entry hentry
  | _ => cases hw

theorem alike_self {v : Value} (h : v.withoutNaN = true) : alike v v = true := by
  induction v using induction_inner with
  | step v ih =>
      have hinner (w : Value) (hw : w ∈ v.inner) : alike w w = true :=
        ih w hw (withoutNaN_of_mem_inner h hw)
      cases v with
      | float x =>
          rw [withoutNaN, Bool.not_eq_true'] at h
          exact Binary64.same_self h
      | list items =>
          refine alike_list_iff.mpr ⟨items, rfl, List.forall₂_same.mpr fun item hitem => ?_⟩
          exact hinner item.item (List.mem_map_of_mem hitem)
      | object entries =>
          refine alike_object_iff.mpr ⟨entries, rfl, rfl, fun entry hentry => ?_⟩
          exact ⟨entry, hentry, rfl, hinner entry.2.item (List.mem_map_of_mem hentry)⟩
      | _ => simp [alike]

/-- What is alike to the same is alike, whatever entries an object has. -/
theorem alike_trans {u v w : Value} (huv : alike u v = true) (hvw : alike v w = true) :
    alike u w = true := by
  induction u using induction_inner generalizing v w with
  | step u ih =>
      cases u with
      | list items =>
          obtain ⟨middle, rfl, hleft⟩ := alike_list_iff.mp huv
          obtain ⟨others, rfl, hright⟩ := alike_list_iff.mp hvw
          refine alike_list_iff.mpr ⟨others, rfl, ?_⟩
          have hitems (item : Located Value) (hitem : item ∈ items) {v w : Value}
              (hv : alike item.item v = true) (hw : alike v w = true) :
              alike item.item w = true := ih item.item (List.mem_map_of_mem hitem) hv hw
          clear ih huv hvw
          -- the first two lists have their items in pairs, and so have the last two
          induction hleft generalizing others with
          | nil =>
              cases hright
              exact .nil
          | cons hfirst _ ihrest =>
              cases hright with
              | cons hfirst' hrest =>
                  refine .cons (hitems _ List.mem_cons_self hfirst hfirst') (ihrest _ hrest ?_)
                  exact fun item hitem => hitems item (List.mem_cons_of_mem _ hitem)
      | object entries =>
          obtain ⟨middle, rfl, hlength, hleft⟩ := alike_object_iff.mp huv
          obtain ⟨others, rfl, hlength', hright⟩ := alike_object_iff.mp hvw
          refine alike_object_iff.mpr ⟨others, rfl, hlength.trans hlength', fun a ha => ?_⟩
          obtain ⟨b, hb, hab, hvalues⟩ := hleft a ha
          obtain ⟨c, hc, hbc, hvalues'⟩ := hright b hb
          exact ⟨c, hc, hab.trans hbc, ih a.2.item (List.mem_map_of_mem ha) hvalues hvalues'⟩
      | float x =>
          cases v with
          | float y =>
              cases w with
              | float z => exact Binary64.same_trans huv hvw
              | _ => cases hvw
          | _ => cases huv
      | _ =>
          obtain rfl := (alike_iff_eq rfl).mp huv
          exact hvw

/-- A value without NaN in which no object, at any depth, has two entries of one name. -/
structure Definite (v : Value) : Prop where
  distinct : v.distinctKeys = true
  numbers : v.withoutNaN = true

theorem Definite.keys_nodup {entries : List (Name × Located Value)}
    (h : (Value.object entries).Definite) : (entries.map (·.1.item)).Nodup := by
  have hdistinct := h.distinct
  rw [distinctKeys, Bool.and_eq_true] at hdistinct
  exact of_decide_eq_true hdistinct.1

/-- Objects in which no name is given twice are alike exactly if they have the same names, and
values that are alike at each of them. -/
theorem alike_object_iff_keys {left right : List (Name × Located Value)}
    (hleft : (left.map (·.1.item)).Nodup) (hright : (right.map (·.1.item)).Nodup) :
    alike (.object left) (.object right) = true ↔
      (∀ key, key ∈ left.map (·.1.item) ↔ key ∈ right.map (·.1.item)) ∧
        ∀ a ∈ left, ∀ b ∈ right, a.1.item = b.1.item → alike a.2.item b.2.item = true := by
  rw [alike_object_iff]
  constructor
  · rintro ⟨_, ⟨⟩, hlength, hlikes⟩
    have hback := likes_flip hleft hright hlength hlikes
    refine ⟨fun key => ⟨fun hkey => ?_, fun hkey => ?_⟩, fun a ha b hb hab => ?_⟩
    · obtain ⟨a, ha, rfl⟩ := List.mem_map.mp hkey
      obtain ⟨b, hb, hab, -⟩ := hlikes a ha
      exact List.mem_map.mpr ⟨b, hb, hab.symm⟩
    · obtain ⟨b, hb, rfl⟩ := List.mem_map.mp hkey
      obtain ⟨a, ha, hba, -⟩ := hback b hb
      exact List.mem_map.mpr ⟨a, ha, hba.symm⟩
    · -- the like that was found has the name of `b`, so it is `b`
      obtain ⟨c, hc, hac, hlike⟩ := hlikes a ha
      obtain rfl : c = b := List.inj_on_of_nodup_map hright hc hb (hac.symm.trans hab)
      exact hlike
  · rintro ⟨hkeys, hvalues⟩
    have hperm : (left.map (·.1.item)).Perm (right.map (·.1.item)) :=
      (List.perm_ext_iff_of_nodup hleft hright).mpr hkeys
    refine ⟨right, rfl, by simpa using hperm.length_eq, fun a ha => ?_⟩
    obtain ⟨b, hb, hba⟩ := List.mem_map.mp ((hkeys _).mp (List.mem_map_of_mem ha))
    exact ⟨b, hb, hba.symm, hvalues a ha b hb hba.symm⟩

/-- What makes `alike` an equality of values. -/
structure AlikeIsEquality : Prop where
  /-- Among definite values it is reflexive, symmetric and transitive. -/
  equivalence : Equivalence fun v w : {v : Value // v.Definite} => alike v w = true
  /-- It does not matter where the parts of the two values stand. -/
  places : ∀ v v' w w' : Value, v.bare = v'.bare → w.bare = w'.bare → alike v w = alike v' w'
  /-- It does not matter in which order the entries of the objects in the two values stand. -/
  order : ∀ v v' w w' : Value, Relation.ReflTransGen Reorders v v' →
    Relation.ReflTransGen Reorders w w' → alike v w = alike v' w'
  /-- Two definite objects are alike exactly if they have the same names, and values that are alike
  at each of them. -/
  objects : ∀ left right : List (Name × Located Value),
    (Value.object left).Definite → (Value.object right).Definite →
      (alike (.object left) (.object right) = true ↔
        (∀ key, key ∈ left.map (·.1.item) ↔ key ∈ right.map (·.1.item)) ∧
          ∀ a ∈ left, ∀ b ∈ right, a.1.item = b.1.item → alike a.2.item b.2.item = true)

/-- **Equality of values.**  Values are compared by what they mean. -/
theorem alike_isEquality : AlikeIsEquality where
  equivalence :=
    { refl := fun v => alike_self v.2.numbers
      symm := fun {v w} h => alike_symm v.1 w.1 v.2.distinct w.2.distinct h
      trans := fun huv hvw => alike_trans huv hvw }
  places := fun _ _ _ _ hv hw =>
    (interchangeable_of_bare_eq hv).alike_eq (interchangeable_of_bare_eq hw)
  order := fun _ _ _ _ hv hw =>
    (interchangeable_of_reordered hv).alike_eq (interchangeable_of_reordered hw)
  objects := fun _ _ hleft hright => alike_object_iff_keys hleft.keys_nodup hright.keys_nodup

/-- Where a name is given twice, one of two objects can be alike to the other but not conversely. -/
example :
    alike (ofEntries [("a", .null), ("a", .null)]) (ofEntries [("a", .null), ("b", .null)]) = true ∧
      alike (ofEntries [("a", .null), ("b", .null)]) (ofEntries [("a", .null), ("a", .null)]) =
        false := by
  decide

/-- An object with objects in it, one of them in a list, and with a zero. -/
def crate : Value :=
  ofEntries [
    ("size", ofEntries [("x", .float (.ofRatio false 5 2)), ("y", .float (.ofParts false 0))]),
    ("labels", ofItems [ofEntries [("text", .string "up"), ("lang", .enum "en")], .null])]

/-- The same as a text, where the entries of two of the objects stand in another order and the zero
has the other sign. -/
def crateText : String :=
  "\x7b labels: [\x7b lang: en, text: \"up\" \x7d, null], size: \x7b x: 2.5, y: -0.0 \x7d \x7d"

/-- The crate is alike to what is read from its text, in both directions. -/
theorem crate_alike_crateText : ∃ l, Value.parse crateText = .ok l ∧
    crate.Definite ∧ l.item.Definite ∧ alike crate l.item = true ∧ alike l.item crate = true := by
  have hread : (Value.parse crateText).toOption.any (fun l => l.item.distinctKeys &&
      l.item.withoutNaN && alike crate l.item) = true := by decide +kernel
  cases h : Value.parse crateText with
  | error e =>
      rw [h] at hread
      cases hread
  | ok l =>
      rw [h] at hread
      simp only [Except.toOption, Option.any_some, Bool.and_eq_true] at hread
      obtain ⟨⟨hdistinct, hnumbers⟩, halike⟩ := hread
      have hcrate : crate.Definite := ⟨by decide +kernel, by decide +kernel⟩
      have hl : l.item.Definite := ⟨hdistinct, hnumbers⟩
      have hback : alike l.item crate = true :=
        alike_isEquality.equivalence.symm (x := ⟨crate, hcrate⟩) (y := ⟨l.item, hl⟩) halike
      exact ⟨l, rfl, hcrate, hl, halike, hback⟩

end Value

end GraphQL
