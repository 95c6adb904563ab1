import GraphQL.Validity.Merging
import Mathlib.Data.List.Nodup
import Mathlib.Data.List.Perm.Subperm

/-!
# Values and arguments that are alike

Objects are compared by looking up the entries of the one in the other, and the arguments of two
fields likewise. Since the numbers of entries have to agree, this amounts to the same in both
directions, but only as long as no name is given twice: then what is found on the right are as many
different entries as there are on the left, so all of them (`likes_flip`).
-/

namespace GraphQL

/-- If each entry on the left has its like on the right, there are as many on both sides and no name
occurs twice on a side, then each entry on the right is the like of one on the left. -/
theorem likes_flip {α : Type} {key : α → String} {R : α → α → Prop} {left right : List α}
    (hleft : (left.map key).Nodup) (hright : (right.map key).Nodup)
    (hlength : left.length = right.length)
    (h : ∀ a ∈ left, ∃ b ∈ right, key a = key b ∧ R a b) :
    ∀ b ∈ right, ∃ a ∈ left, key b = key a ∧ R a b := by
  intro b hb
  have hsubset : left.map key ⊆ right.map key := by
    intro name hname
    obtain ⟨a, ha, rfl⟩ := List.mem_map.mp hname
    obtain ⟨c, hc, hkey, -⟩ := h a ha
    exact List.mem_map.mpr ⟨c, hc, hkey.symm⟩
  have hperm : (left.map key).Perm (right.map key) :=
    (List.subperm_of_subset hleft hsubset).perm_of_length_le (by simp [hlength])
  obtain ⟨a, ha, hab⟩ := List.mem_map.mp (hperm.mem_iff.mpr (List.mem_map_of_mem hb))
  obtain ⟨c, hc, hac, hR⟩ := h a ha
  -- the like of `a` has the name of `b`, so it is `b`
  obtain rfl : c = b := List.inj_on_of_nodup_map hright hc hb (hac.symm.trans hab)
  exact ⟨a, ha, hab.symm, hR⟩

namespace Value

mutual

/-- No object in a value has two entries of one name. -/
def distinctKeys : Value → Bool
  | .list items => distinctKeysInItems items
  | .object entries => (entries.map (·.1.item)).Nodup && distinctKeysInEntries entries
  | _ => true

/-- No object in the items of a list has two entries of one name. -/
def distinctKeysInItems : List (Located Value) → Bool
  | [] => true
  | ⟨_, v⟩ :: rest => distinctKeys v && distinctKeysInItems rest

/-- No object in the entries of an object has two entries of one name. -/
def distinctKeysInEntries : List (Name × Located Value) → Bool
  | [] => true
  | (_, ⟨_, v⟩) :: rest => distinctKeys v && distinctKeysInEntries rest

end

theorem distinctKeys_of_mem_entries {entries : List (Name × Located Value)}
    (h : distinctKeysInEntries entries = true) {entry : Name × Located Value}
    (hmem : entry ∈ entries) : entry.2.item.distinctKeys = true := by
  induction entries with
  | nil => cases hmem
  | cons first rest ih =>
      rw [distinctKeysInEntries, Bool.and_eq_true] at h
      rcases List.mem_cons.mp hmem with rfl | hmem
      · exact h.1
      · exact ih h.2 hmem

theorem entriesAlike_iff {left right : List (Name × Located Value)} :
    entriesAlike left right = true ↔
      ∀ a ∈ left, ∃ b ∈ right, a.1.item = b.1.item ∧ alike a.2.item b.2.item = true := by
  induction left with
  | nil => simp [entriesAlike]
  | cons first rest ih => simp [entriesAlike, ih]

theorem same_comm (x y : Binary64) : x.same y = y.same x := by
  simp only [Binary64.same, eq_comm (a := x.bits), Bool.and_comm x.isZero,
    Bool.and_comm (!x.isNaN)]

mutual

/-- Values without repeated names that are alike are alike the other way round. -/
theorem alike_symm : (v w : Value) → v.distinctKeys = true → w.distinctKeys = true →
    alike v w = true → alike w v = true
  | .null, w, _, _, h => by cases w <;> simp_all [alike]
  | .int _, w, _, _, h => by cases w <;> simp_all [alike]
  | .float x, w, _, _, h => by cases w <;> simp_all [alike, same_comm x]
  | .string _, w, _, _, h => by cases w <;> simp_all [alike]
  | .boolean _, w, _, _, h => by cases w <;> simp_all [alike]
  | .enum _, w, _, _, h => by cases w <;> simp_all [alike]
  | .variable _, w, _, _, h => by cases w <;> simp_all [alike]
  | .list items, w, hv, hw, h => by
      cases w with
      | list items' =>
          rw [distinctKeys] at hv hw
          rw [alike] at h ⊢
          exact itemsAlike_symm items items' hv hw h
      | _ => cases h
  | .object entries, w, hv, hw, h => by
      cases w with
      | object entries' =>
          simp only [distinctKeys, Bool.and_eq_true, decide_eq_true_eq] at hv hw
          simp only [alike, Bool.and_eq_true, decide_eq_true_eq] at h ⊢
          refine ⟨h.1.symm, entriesAlike_iff.mpr ?_⟩
          exact likes_flip hv.1 hw.1 h.1 (entriesAlike_symm entries entries' hv.2 hw.2 h.2)
      | _ => cases h

theorem itemsAlike_symm : (left right : List (Located Value)) →
    distinctKeysInItems left = true → distinctKeysInItems right = true →
    itemsAlike left right = true → itemsAlike right left = true
  | [], right, _, _, h => by cases right <;> simp_all [itemsAlike]
  | ⟨_, v⟩ :: rest, right, hleft, hright, h => by
      cases right with
      | nil => cases h
      | cons w rest' =>
          simp only [distinctKeysInItems, Bool.and_eq_true] at hleft hright
          simp only [itemsAlike, Bool.and_eq_true] at h ⊢
          exact ⟨alike_symm v w.item hleft.1 hright.1 h.1,
            itemsAlike_symm rest rest' hleft.2 hright.2 h.2⟩

/-- Each entry on the left has its like on the right, compared the other way round. -/
theorem entriesAlike_symm : (left right : List (Name × Located Value)) →
    distinctKeysInEntries left = true → distinctKeysInEntries right = true →
    entriesAlike left right = true →
    ∀ a ∈ left, ∃ b ∈ right, a.1.item = b.1.item ∧ alike b.2.item a.2.item = true
  | [], _, _, _, _ => by simp
  | (key, ⟨span, v⟩) :: rest, right, hleft, hright, h => by
      simp only [distinctKeysInEntries, Bool.and_eq_true] at hleft
      simp only [entriesAlike, Bool.and_eq_true, List.any_eq_true, decide_eq_true_eq] at h
      obtain ⟨⟨b, hb, hkey, halike⟩, hrest⟩ := h
      intro a ha
      rcases List.mem_cons.mp ha with rfl | ha
      · exact ⟨b, hb, hkey,
          alike_symm v b.2.item hleft.1 (distinctKeys_of_mem_entries hright hb) halike⟩
      · exact entriesAlike_symm rest right hleft.2 hright hrest a ha

end

end Value

namespace Merging

/-- No argument is given twice, and no object in an argument has two entries of one name. -/
structure DistinctArguments (arguments : List Argument) : Prop where
  names : (arguments.map (·.name.item)).Nodup
  values : ∀ argument ∈ arguments, argument.value.item.distinctKeys = true

instance (arguments : List Argument) : Decidable (DistinctArguments arguments) :=
  decidable_of_iff ((arguments.map (·.name.item)).Nodup ∧
    ∀ argument ∈ arguments, argument.value.item.distinctKeys = true)
    ⟨fun h => ⟨h.1, h.2⟩, fun h => ⟨h.names, h.values⟩⟩

/-- Where no argument is given twice, looking one up finds any that has the name. -/
theorem find?_eq_some_iff {arguments : List Argument} (h : DistinctArguments arguments)
    {name : String} {value : Located Value} :
    Argument.find? arguments name = some value ↔
      ∃ argument ∈ arguments, name = argument.name.item ∧ argument.value = value := by
  simp only [Argument.find?, Option.map_eq_some_iff]
  constructor
  · rintro ⟨argument, hfind, rfl⟩
    have hname : argument.name.item = name := by simpa using List.find?_some hfind
    exact ⟨argument, List.mem_of_find?_eq_some hfind, hname.symm, rfl⟩
  · rintro ⟨argument, hmem, rfl, rfl⟩
    have hsome : (arguments.find? (·.name.item = argument.name.item)).isSome := by
      rw [List.find?_isSome]
      exact ⟨argument, hmem, by simp⟩
    obtain ⟨found, hfound⟩ := Option.isSome_iff_exists.mp hsome
    have hname : found.name.item = argument.name.item := by simpa using List.find?_some hfound
    obtain rfl : found = argument :=
      List.inj_on_of_nodup_map h.names (List.mem_of_find?_eq_some hfound) hmem hname
    exact ⟨found, hfound, rfl⟩

/-- Arguments without repeated names are the same exactly if there are as many and each has its
like. -/
theorem sameArguments_some_iff {left right : Located (List Argument)}
    (hright : DistinctArguments right.item) :
    sameArguments (some left) (some right) = true ↔ left.item.length = right.item.length ∧
      ∀ a ∈ left.item, ∃ b ∈ right.item, a.name.item = b.name.item ∧
        a.value.item.alike b.value.item = true := by
  simp only [sameArguments, Bool.and_eq_true, decide_eq_true_eq, List.all_eq_true,
    Option.any_eq_true, find?_eq_some_iff hright]
  refine and_congr_right fun _ => forall_congr' fun a => imp_congr_right fun _ => ?_
  constructor
  · rintro ⟨value, ⟨b, hb, hname, rfl⟩, halike⟩
    exact ⟨b, hb, hname, halike⟩
  · rintro ⟨b, hb, hname, halike⟩
    exact ⟨b.value, ⟨b, hb, hname, rfl⟩, halike⟩

theorem sameArguments_symm {left right : Located (List Argument)}
    (hleft : DistinctArguments left.item) (hright : DistinctArguments right.item)
    (h : sameArguments (some left) (some right) = true) :
    sameArguments (some right) (some left) = true := by
  rw [sameArguments_some_iff hright] at h
  rw [sameArguments_some_iff hleft]
  obtain ⟨hlength, hlikes⟩ := h
  have hback : ∀ a ∈ left.item, ∃ b ∈ right.item, a.name.item = b.name.item ∧
      b.value.item.alike a.value.item = true := by
    intro a ha
    obtain ⟨b, hb, hname, halike⟩ := hlikes a ha
    exact ⟨b, hb, hname, Value.alike_symm _ _ (hleft.values a ha) (hright.values b hb) halike⟩
  exact ⟨hlength.symm, likes_flip hleft.names hright.names hlength hback⟩

/-- **Same arguments, both ways.**  Where no name is given twice, it does not matter whose arguments
are looked up in whose. -/
theorem sameArguments_comm {left right : Option (Located (List Argument))}
    (hleft : ∀ arguments ∈ left, DistinctArguments arguments.item)
    (hright : ∀ arguments ∈ right, DistinctArguments arguments.item) :
    sameArguments left right = sameArguments right left := by
  cases left with
  | none => cases right <;> rfl
  | some left =>
      cases right with
      | none => rfl
      | some right =>
          rw [Bool.eq_iff_iff]
          exact ⟨sameArguments_symm (hleft left rfl) (hright right rfl),
            sameArguments_symm (hright right rfl) (hleft left rfl)⟩

end Merging

end GraphQL
