import Mathlib.Data.List.Induction
import Mathlib.Data.List.Nodup
import GraphQL.Schema.Registry

/-!
# What making a schema guarantees

A registry only ever grows at its end, and what is added without being given is a standard type of a
name that was not given. So in the types of a schema no name occurs twice, every given type keeps
its place, and a type that has the name and the kind of a standard type is that standard type.

`Registry.Extends` says what one addition, and so every run of additions, does to a registry;
`Registry.Collects` is the invariant of going through the given types one by one.
-/

namespace GraphQL

/-- Where no key occurs twice, looking a key up finds whatever has it. -/
theorem find?_key_iff {α : Type} {list : List α} {key : α → String}
    (h : (list.map key).Nodup) {name : String} {a : α} :
    list.find? (key · = name) = some a ↔ a ∈ list ∧ key a = name := by
  constructor
  · intro hfind
    exact ⟨List.mem_of_find?_eq_some hfind, by simpa using List.find?_some hfind⟩
  · rintro ⟨hmem, rfl⟩
    cases hfind : list.find? (key · = key a) with
    | none =>
        have hnone := List.find?_eq_none.mp hfind a hmem
        simp at hnone
    | some b =>
        have hkey : key b = key a := by simpa using List.find?_some hfind
        exact congrArg some
          (List.inj_on_of_nodup_map h (List.mem_of_find?_eq_some hfind) hmem hkey)

namespace Standard

/-- A standard type is found under its own name. -/
theorem name_of_type? {name : String} {t : NamedType} (h : type? name = some t) :
    t.name = name := by
  simpa using List.find?_some h

/-- The standard type found under a name is found under its own name. -/
theorem type?_name {name : String} {t : NamedType} (h : type? name = some t) :
    type? t.name = some t := by
  rw [name_of_type? h]
  exact h

/-- A standard type stands for itself. -/
theorem of?_self {name : String} {t : NamedType} (h : type? name = some t) : of? t = some t := by
  unfold of?
  rw [type?_name h]
  simp

/-- What another type stands for has its name and kind. -/
theorem of?_eq_some {t u : NamedType} (h : of? t = some u) :
    type? t.name = some u ∧ u.name = t.name ∧ u.kind = t.kind := by
  unfold of? at h
  rw [Option.filter_eq_some_iff] at h
  exact ⟨h.1, name_of_type? h.1, by simpa using h.2⟩

/-- Built-in scalars refer to nothing. -/
theorem references_builtinScalar {t : NamedType} (h : t ∈ types)
    (hname : t.name ∈ builtinScalarNames) : t.references = [] := by
  have hall : types.all (fun t =>
      !builtinScalarNames.contains t.name || t.references.isEmpty) = true := by decide
  have ht := List.all_eq_true.mp hall t h
  simpa [hname] using ht

end Standard

namespace Registry

/-- Sharing keeps the name. -/
@[simp] theorem name_shared (t : NamedType) : (shared t).name = t.name := by
  unfold shared
  cases h : Standard.of? t with
  | none => rfl
  | some u => exact (Standard.of?_eq_some h).2.1

/-- Sharing keeps the kind. -/
@[simp] theorem kind_shared (t : NamedType) : (shared t).kind = t.kind := by
  unfold shared
  cases h : Standard.of? t with
  | none => rfl
  | some u => exact (Standard.of?_eq_some h).2.2

/-- Types are given as they are shared if their list is. -/
theorem shared_of_map_shared {types : List NamedType} (h : types.map shared = types) :
    ∀ t ∈ types, shared t = t :=
  List.map_inj_left.mp (h.trans (List.map_id types).symm)

/-- What is shared is not changed by sharing it again. -/
theorem shared_shared (t : NamedType) : shared (shared t) = shared t := by
  cases h : Standard.of? t with
  | none =>
      have hself : shared t = t := by simp [shared, h]
      rw [hself, hself]
  | some u =>
      have hself : shared t = u := by simp [shared, h]
      rw [hself]
      simp [shared, Standard.of?_self (Standard.of?_eq_some h).1]

/-- A type that sharing leaves alone and that has the name and kind of a standard type is it. -/
theorem eq_of_shared_eq {t u : NamedType} (hshared : shared t = t)
    (hname : Standard.type? t.name = some u) (hkind : u.kind = t.kind) : t = u := by
  have hstandard : shared t = u := by simp [shared, Standard.of?, hname, Option.filter, hkind]
  exact hshared.symm.trans hstandard

/-- A type that is its own standard type is a standard type. -/
theorem mem_standard_of_shared {t u : NamedType} (hshared : shared t = t)
    (hof : Standard.of? t = some u) : u = t ∧ t ∈ Standard.types := by
  have hself : u = t := by simpa [shared, hof] using hshared
  refine ⟨hself, ?_⟩
  rw [← hself]
  exact List.mem_of_find?_eq_some (Standard.of?_eq_some hof).1

/-- The names of the first types are those of all types. -/
theorem mem_names_firsts {types : List NamedType} {name : String} :
    name ∈ names (firsts types) ↔ name ∈ names types := by
  induction types with
  | nil => simp [firsts]
  | cons t rest ih =>
      by_cases h : name = t.name
      · simp [firsts, names, h]
      · have hne : ∀ u ∈ rest, u.name = name → u.name ≠ t.name := by
          intro u _ hu heq
          exact h (hu.symm.trans heq)
        simp only [names, firsts, List.map_cons, List.mem_cons, List.mem_map,
          List.mem_filter] at ih ⊢
        constructor
        · rintro (rfl | ⟨u, ⟨hu, _⟩, rfl⟩)
          · exact Or.inl rfl
          · exact Or.inr (ih.mp ⟨u, hu, rfl⟩)
        · rintro (rfl | hrest)
          · exact Or.inl rfl
          · obtain ⟨u, hu, rfl⟩ := ih.mpr hrest
            exact Or.inr ⟨u, ⟨hu, by simpa using h⟩, rfl⟩

/-- The first types are among all types. -/
theorem mem_of_mem_firsts {types : List NamedType} {t : NamedType} (h : t ∈ firsts types) :
    t ∈ types := by
  induction types with
  | nil => simp [firsts] at h
  | cons u rest ih =>
      simp only [firsts, List.mem_cons, List.mem_filter] at h
      rcases h with rfl | ⟨hmem, _⟩
      · exact List.mem_cons_self
      · exact List.mem_cons_of_mem _ (ih hmem)

/-- No two of the first types have the same name. -/
theorem nodup_names_firsts (types : List NamedType) : (names (firsts types)).Nodup := by
  induction types with
  | nil => simp [firsts, names]
  | cons t rest ih =>
      simp only [firsts, names, List.map_cons, List.nodup_cons, List.mem_map, List.mem_filter]
      constructor
      · rintro ⟨u, ⟨_, hne⟩, heq⟩
        simp [heq] at hne
      · exact List.Sublist.nodup (List.Sublist.map _ List.filter_sublist) ih

/-- Types of different names are their own first types. -/
theorem firsts_eq_self {types : List NamedType} (h : (names types).Nodup) :
    firsts types = types := by
  induction types with
  | nil => rfl
  | cons t rest ih =>
      simp only [names, List.map_cons, List.nodup_cons, List.mem_map] at h
      rw [firsts, ih h.2]
      congr 1
      rw [List.filter_eq_self]
      intro u hu
      have hne : u.name ≠ t.name := fun heq => h.1 ⟨u, hu, heq⟩
      simpa using hne

/-- Types of different names are not ambiguous. -/
theorem ambiguous_eq_nil {types : List NamedType} (h : (names types).Nodup) :
    ambiguous types = [] := by
  have hgo : ∀ rest earlier : List NamedType, (names (earlier ++ rest)).Nodup →
      ambiguous.go earlier rest = [] := by
    intro rest
    induction rest with
    | nil =>
        intro earlier _
        rfl
    | cons t rest ih =>
        intro earlier hnodup
        have hfresh : earlier.find? (·.name = t.name) = none := by
          rw [List.find?_eq_none]
          intro u hu heq
          simp only [names, List.map_append, List.map_cons, List.nodup_append] at hnodup
          exact hnodup.2.2 u.name (List.mem_map_of_mem hu) t.name List.mem_cons_self
            (by simpa using heq)
        rw [ambiguous.go, hfresh]
        exact ih (earlier ++ [t]) (by simpa using hnodup)
  have hnil := hgo types [] (by simpa using h)
  unfold ambiguous
  rw [hnil]
  rfl

/-- What additions do to a registry: it grows at its end by standard types whose names were not
given and are new. -/
structure Extends (given : List String) (registry result : List NamedType) : Prop where
  keeps : ∀ t ∈ registry, t ∈ result
  added : ∀ t ∈ result, t ∈ registry ∨ (Standard.type? t.name = some t ∧ t.name ∉ given)
  nodup : (names registry).Nodup → (names result).Nodup

namespace Extends

variable {given : List String} {registry middle result : List NamedType}

/-- Adding nothing. -/
theorem refl (registry : List NamedType) : Extends given registry registry :=
  ⟨fun _ h => h, fun _ h => Or.inl h, fun h => h⟩

/-- Adding twice. -/
theorem trans (h : Extends given registry middle) (h' : Extends given middle result) :
    Extends given registry result := by
  refine ⟨fun t ht => h'.keeps t (h.keeps t ht), ?_, fun hn => h'.nodup (h.nodup hn)⟩
  intro t ht
  rcases h'.added t ht with hmiddle | hnew
  · exact h.added t hmiddle
  · exact Or.inr hnew

/-- Adding one standard type under a new name that was not given. -/
theorem add {name : String} {t : NamedType} (ht : Standard.type? name = some t)
    (hgiven : name ∉ given) (hnew : name ∉ names registry) :
    Extends given registry (registry ++ [t]) := by
  have hname := Standard.name_of_type? ht
  refine ⟨fun u hu => List.mem_append_left _ hu, ?_, ?_⟩
  · intro u hu
    rcases List.mem_append.mp hu with hold | hlast
    · exact Or.inl hold
    · have heq : u = t := by simpa using hlast
      subst heq
      exact Or.inr ⟨Standard.type?_name ht, by rw [hname]; exact hgiven⟩
  · intro hnodup
    simp only [names, List.map_append, List.map_cons, List.map_nil]
    rw [List.nodup_append]
    refine ⟨hnodup, by simp, ?_⟩
    intro a ha b hb heq
    have hb' : b = t.name := by simpa using hb
    apply hnew
    rw [← hname, ← hb', ← heq]
    exact ha

end Extends

/-- Adding the standard types that wait extends the registry. -/
theorem addStandard_extends (given waiting : List String) (registry : List NamedType) :
    Extends given registry (addStandard given waiting registry) := by
  fun_induction addStandard given waiting registry with
  | case1 registry => exact Extends.refl registry
  | case2 registry name waiting h ih => exact ih
  | case3 registry name waiting h hnone ih => exact ih
  | case4 registry name waiting h t ht ih =>
      have hgiven : name ∉ given := fun hm => h (Or.inl hm)
      have hnew : name ∉ names registry := fun hm => h (Or.inr hm)
      exact (Extends.add ht hgiven hnew).trans ih

/-- A standard name that waits is given, or in the registry in the end. -/
theorem mem_addStandard_of_waiting (given waiting : List String) (registry : List NamedType) :
    ∀ name ∈ waiting, (Standard.type? name).isSome →
      name ∈ given ∨ name ∈ names (addStandard given waiting registry) := by
  fun_induction addStandard given waiting registry with
  | case1 registry =>
      intro name hname
      cases hname
  | case2 registry other waiting h ih =>
      intro name hname hstandard
      rcases List.mem_cons.mp hname with rfl | hrest
      · rcases h with hgiven | hthere
        · exact Or.inl hgiven
        · obtain ⟨t, ht, heq⟩ := List.mem_map.mp hthere
          have hkept := (addStandard_extends given waiting registry).keeps t ht
          exact Or.inr (List.mem_map.mpr ⟨t, hkept, heq⟩)
      · exact ih name hrest hstandard
  | case3 registry other waiting h hnone ih =>
      intro name hname hstandard
      rcases List.mem_cons.mp hname with rfl | hrest
      · rw [hnone] at hstandard
        cases hstandard
      · exact ih name hrest hstandard
  | case4 registry other waiting h t ht ih =>
      intro name hname hstandard
      rcases List.mem_cons.mp hname with rfl | hrest
      · have hkept := (addStandard_extends given (t.references ++ waiting) (registry ++ [t])).keeps
          t (by simp)
        exact Or.inr (List.mem_map.mpr ⟨t, hkept, Standard.name_of_type? ht⟩)
      · exact ih name (List.mem_append_right _ hrest) hstandard

/-- What is added is closed: the standard names that an added type refers to are given, or in the
registry in the end. -/
theorem addStandard_closed (given waiting : List String) (registry : List NamedType) :
    ∀ t ∈ addStandard given waiting registry, t ∈ registry ∨
      ∀ name ∈ t.references, (Standard.type? name).isSome →
        name ∈ given ∨ name ∈ names (addStandard given waiting registry) := by
  fun_induction addStandard given waiting registry with
  | case1 registry => exact fun t ht => Or.inl ht
  | case2 registry name waiting h ih => exact ih
  | case3 registry name waiting h hnone ih => exact ih
  | case4 registry name waiting h t ht ih =>
      intro u hu
      rcases ih u hu with hold | hclosed
      · rcases List.mem_append.mp hold with hthere | hlast
        · exact Or.inl hthere
        · -- The references of the type just added wait.
          obtain rfl : u = t := by simpa using hlast
          refine Or.inr fun other hother hstandard => ?_
          exact mem_addStandard_of_waiting given (u.references ++ waiting) (registry ++ [u]) other
            (List.mem_append_left _ hother) hstandard
      · exact Or.inr hclosed

/-- Whether a type is called like a built-in scalar and was not given. -/
def isUngivenScalar (given : List String) (t : NamedType) : Bool :=
  builtinScalarNames.contains t.name && !given.contains t.name

/-- If every standard name that waits is given or one of a built-in scalar, nothing but built-in
scalars is added: they refer to nothing, so that nothing else comes to wait. -/
theorem filter_addStandard {given waiting : List String} {registry : List NamedType}
    (h : ∀ name ∈ waiting, (Standard.type? name).isSome →
      name ∈ given ∨ name ∈ builtinScalarNames) :
    (addStandard given waiting registry).filter (!isUngivenScalar given ·) =
      registry.filter (!isUngivenScalar given ·) := by
  fun_induction addStandard given waiting registry with
  | case1 registry => rfl
  | case2 registry name waiting _ ih =>
      exact ih fun other hother => h other (List.mem_cons_of_mem _ hother)
  | case3 registry name waiting _ _ ih =>
      exact ih fun other hother => h other (List.mem_cons_of_mem _ hother)
  | case4 registry name waiting hnew t ht ih =>
      obtain ⟨hgiven, _⟩ := not_or.mp hnew
      have hscalar : name ∈ builtinScalarNames :=
        (h name List.mem_cons_self (by rw [ht]; rfl)).resolve_left hgiven
      have hname := Standard.name_of_type? ht
      have hnone : t.references = [] :=
        Standard.references_builtinScalar (List.mem_of_find?_eq_some ht) (hname ▸ hscalar)
      have hungiven : isUngivenScalar given t = true := by
        simp [isUngivenScalar, hname, hscalar, hgiven]
      rw [ih, List.filter_append]
      · simp [hungiven]
      · intro other hother
        rw [hnone, List.nil_append] at hother
        exact h other (List.mem_cons_of_mem _ hother)

/-- The invariant of going through the given types: those passed are registered, everything else in
the registry is a standard type whose name is not given, and no name occurs twice. -/
structure Collects (given passed registry : List NamedType) : Prop where
  keeps : ∀ t ∈ passed, t ∈ registry
  added : ∀ t ∈ registry, t ∈ passed ∨ (Standard.type? t.name = some t ∧ t.name ∉ names given)
  nodup : (names registry).Nodup

/-- Passing one more given type keeps the invariant. -/
theorem Collects.step {given passed registry : List NamedType} {t : NamedType}
    (h : Collects given passed registry) (ht : t ∈ given) (hnew : t.name ∉ names passed) :
    Collects given (passed ++ [t])
      (addStandard (names given) t.references (registry ++ [t])) := by
  have hext := addStandard_extends (names given) t.references (registry ++ [t])
  refine ⟨?_, ?_, hext.nodup ?_⟩
  · intro u hu
    apply hext.keeps
    rcases List.mem_append.mp hu with hold | hlast
    · exact List.mem_append_left _ (h.keeps u hold)
    · exact List.mem_append_right _ hlast
  · intro u hu
    rcases hext.added u hu with hold | hstandard
    · rcases List.mem_append.mp hold with hreg | hlast
      · rcases h.added u hreg with hpassed | hstandard
        · exact Or.inl (List.mem_append_left _ hpassed)
        · exact Or.inr hstandard
      · exact Or.inl (List.mem_append_right _ hlast)
    · exact Or.inr hstandard
  · simp only [names, List.map_append, List.map_cons, List.map_nil]
    rw [List.nodup_append]
    refine ⟨h.nodup, by simp, ?_⟩
    intro a ha b hb heq
    have hb' : b = t.name := by simpa using hb
    obtain ⟨u, hu, rfl⟩ := List.mem_map.mp ha
    rcases h.added u hu with hpassed | ⟨_, hfree⟩
    · apply hnew
      rw [← hb', ← heq]
      exact List.mem_map_of_mem hpassed
    · apply hfree
      rw [heq, hb']
      exact List.mem_map_of_mem ht

/-- Going through all given types, whose names are different, establishes the invariant for them. -/
theorem collects_collect {given : List NamedType} (h : (names given).Nodup) :
    Collects given given (collect given) := by
  have hrun : ∀ rest passed registry : List NamedType, passed ++ rest = given →
      Collects given passed registry →
      Collects given given
        (rest.foldl (fun registry t => addStandard (names given) t.references (registry ++ [t]))
          registry) := by
    intro rest
    induction rest with
    | nil =>
        intro passed registry hsplit hinv
        rw [List.append_nil] at hsplit
        rw [List.foldl_nil, ← hsplit]
        rw [← hsplit] at hinv
        exact hinv
    | cons t rest ih =>
        intro passed registry hsplit hinv
        rw [List.foldl_cons]
        have hmem : t ∈ given := by
          rw [← hsplit]
          simp
        have hnew : t.name ∉ names passed := by
          rw [← hsplit] at h
          simp only [names, List.map_append, List.map_cons] at h
          rw [List.nodup_append] at h
          intro hthere
          exact h.2.2 t.name hthere t.name List.mem_cons_self rfl
        exact ih (passed ++ [t]) _ (by simpa using hsplit) (hinv.step hmem hnew)
  exact hrun given [] [] rfl ⟨by simp, by simp, by simp [names]⟩

/-- What the registry of a schema consists of before built-in scalars are left out. -/
theorem collects_all {given : List NamedType} (h : (names given).Nodup) (waiting : List String) :
    Collects given given (addStandard (names given) waiting (collect given)) := by
  have hinv := collects_collect h
  have hext := addStandard_extends (names given) waiting (collect given)
  refine ⟨fun t ht => hext.keeps t (hinv.keeps t ht), ?_, hext.nodup hinv.nodup⟩
  intro t ht
  rcases hext.added t ht with hold | hstandard
  · exact hinv.added t hold
  · exact Or.inr hstandard

/-- If the given types name no standard type that is not given too, apart from built-in scalars, then
they are all that is registered, apart from built-in scalars. -/
theorem filter_collect {given : List NamedType}
    (h : ∀ t ∈ given, ∀ name ∈ t.references, (Standard.type? name).isSome →
      name ∈ names given ∨ name ∈ builtinScalarNames) :
    (collect given).filter (!isUngivenScalar (names given) ·) = given := by
  have hrun : ∀ rest registry : List NamedType, (∀ t ∈ rest, t ∈ given) →
      (rest.foldl (fun registry t => addStandard (names given) t.references (registry ++ [t]))
        registry).filter (!isUngivenScalar (names given) ·) =
      registry.filter (!isUngivenScalar (names given) ·) ++ rest := by
    intro rest
    induction rest with
    | nil =>
        intro registry _
        rw [List.foldl_nil, List.append_nil]
    | cons t rest ih =>
        intro registry hsub
        have ht := hsub t List.mem_cons_self
        have hname : t.name ∈ names given := List.mem_map_of_mem ht
        have hgiven : isUngivenScalar (names given) t = false := by
          simp [isUngivenScalar, hname]
        rw [List.foldl_cons, ih _ (fun u hu => hsub u (List.mem_cons_of_mem _ hu)),
          filter_addStandard (h t ht), List.filter_append]
        simp [hgiven]
  exact hrun given [] (fun t ht => ht)

/-- If nothing but built-in scalars is added to the given types, then fields and inputs have the same
types as before: the built-in scalars refer to nothing. -/
theorem mem_valueReferences_iff {given all : List NamedType} (hinv : Collects given given all)
    (hall : all.filter (!isUngivenScalar (names given) ·) = given) (directives : List Directive)
    {name : String} :
    name ∈ valueReferences all directives ↔ name ∈ valueReferences given directives := by
  simp only [valueReferences, List.mem_append, List.mem_flatMap]
  refine or_congr_left ⟨?_, fun ⟨t, ht, hname⟩ => ⟨t, hinv.keeps t ht, hname⟩⟩
  rintro ⟨t, ht, hname⟩
  rcases hinv.added t ht with hgiven | ⟨hstandard, hnew⟩
  · exact ⟨t, hgiven, hname⟩
  · have hscalar : t.name ∈ builtinScalarNames := by
      by_contra hother
      have hkept : t ∈ all.filter (!isUngivenScalar (names given) ·) :=
        List.mem_filter.mpr ⟨ht, by simp [isUngivenScalar, hother]⟩
      rw [hall] at hkept
      exact hnew (List.mem_map_of_mem hkept)
    have hnone := Standard.references_builtinScalar (List.mem_of_find?_eq_some hstandard) hscalar
    have hmem : name ∈ t.references := List.mem_append_right _ hname
    rw [hnone] at hmem
    cases hmem

/-- Given types that name no standard type that is not given, apart from built-in scalars, are the
types of a schema as they are, if those built-in scalars are given that fields and inputs have. -/
theorem types_eq_self {given : List NamedType} {roots : List String} {directives : List Directive}
    (hnodup : (names given).Nodup)
    (htypes : ∀ t ∈ given, ∀ name ∈ t.references, (Standard.type? name).isSome →
      name ∈ names given ∨ name ∈ builtinScalarNames)
    (hothers : ∀ name ∈ roots ++ directives.flatMap Directive.references ++ [Standard.schema.name],
      (Standard.type? name).isSome → name ∈ names given ∨ name ∈ builtinScalarNames)
    (hscalars : ∀ name ∈ builtinScalarNames,
      name ∈ names given ↔ name ∈ valueReferences given directives) :
    types given roots directives = given := by
  have hinv := collects_all hnodup
    (roots ++ directives.flatMap Directive.references ++ [Standard.schema.name])
  have hall := (filter_addStandard hothers).trans (filter_collect htypes)
  refine Eq.trans (List.filter_congr fun t _ => ?_) hall
  -- A built-in scalar is kept exactly if it was given.
  by_cases hname : t.name ∈ builtinScalarNames
  · have hkept := (mem_valueReferences_iff hinv hall directives).trans (hscalars t.name hname).symm
    simpa [isUngivenScalar, hname] using hkept
  · simp [isUngivenScalar, hname]

/-- An item is put in the place of the one of its name, or at the end. -/
structure PutsByName {α : Type} (put : α → List α → List α) (name : α → String) : Prop where
  nil : ∀ a, put a [] = [a]
  cons : ∀ a other rest,
    put a (other :: rest) = if name other = name a then a :: rest else other :: put a rest

/-- The invariant of putting items into a list one by one: it has exactly the names of those passed,
each once, and holds no other items. -/
structure Distinct {α : Type} (name : α → String) (passed found : List α) : Prop where
  nodup : (found.map name).Nodup
  names : ∀ n, n ∈ found.map name ↔ n ∈ passed.map name
  passed : ∀ a ∈ found, a ∈ passed

namespace PutsByName

variable {α : Type} {put : α → List α → List α} {name : α → String} (h : PutsByName put name)

include h

/-- An item of a new name is put at the end. -/
theorem of_new {a : α} {found : List α} (hnew : name a ∉ found.map name) :
    put a found = found ++ [a] := by
  induction found with
  | nil => exact h.nil a
  | cons other rest ih =>
      simp only [List.map_cons, List.mem_cons, not_or] at hnew
      rw [h.cons, if_neg (Ne.symm hnew.1), ih hnew.2, List.cons_append]

/-- An item of a name that is there changes no name. -/
theorem names_of_mem {a : α} {found : List α} (hmem : name a ∈ found.map name) :
    (put a found).map name = found.map name := by
  induction found with
  | nil => cases hmem
  | cons other rest ih =>
      rw [h.cons]
      by_cases hsame : name other = name a
      · rw [if_pos hsame, List.map_cons, List.map_cons, hsame]
      · have hrest : name a ∈ rest.map name :=
          (List.mem_cons.mp hmem).resolve_left (Ne.symm hsame)
        rw [if_neg hsame, List.map_cons, List.map_cons, ih hrest]

theorem eq_or_mem {a b : α} {found : List α} (hb : b ∈ put a found) : b = a ∨ b ∈ found := by
  induction found with
  | nil =>
      rw [h.nil] at hb
      exact .inl (List.mem_singleton.mp hb)
  | cons other rest ih =>
      rw [h.cons] at hb
      split at hb
      · rcases List.mem_cons.mp hb with hself | hrest
        · exact .inl hself
        · exact .inr (List.mem_cons_of_mem _ hrest)
      · rcases List.mem_cons.mp hb with hother | hrest
        · exact .inr (hother ▸ List.mem_cons_self)
        · exact (ih hrest).imp_right (List.mem_cons_of_mem _)

/-- Putting one more item keeps the invariant. -/
theorem distinct_step {a : α} {passed found : List α} (hfound : Distinct name passed found) :
    Distinct name (passed ++ [a]) (put a found) := by
  have hpassed : ∀ b ∈ put a found, b ∈ passed ++ [a] := by
    intro b hb
    rcases h.eq_or_mem hb with rfl | hold
    · simp
    · exact List.mem_append_left _ (hfound.passed b hold)
  by_cases hmem : name a ∈ found.map name
  · have hnames := h.names_of_mem hmem
    refine ⟨hnames ▸ hfound.nodup, fun n => ?_, hpassed⟩
    rw [hnames, hfound.names, List.map_append, List.mem_append]
    refine ⟨.inl, fun hn => hn.elim id fun hlast => ?_⟩
    rw [List.mem_singleton.mp hlast]
    exact (hfound.names _).mp hmem
  · have hput := h.of_new hmem
    refine ⟨?_, fun n => ?_, hpassed⟩
    · rw [hput, List.map_append]
      refine List.nodup_append.mpr ⟨hfound.nodup, List.nodup_singleton _, ?_⟩
      intro b hb c hc heq
      rw [List.mem_singleton.mp hc] at heq
      exact hmem (heq ▸ hb)
    · rw [hput, List.map_append, List.map_append, List.mem_append, List.mem_append, hfound.names]

/-- Putting all items establishes the invariant for them. -/
theorem distinct_foldl (items : List α) :
    Distinct name items (items.foldl (fun found a => put a found) []) := by
  induction items using List.reverseRecOn with
  | nil => exact ⟨List.nodup_nil, fun _ => Iff.rfl, fun _ ha => ha⟩
  | append_singleton items a ih =>
      rw [List.foldl_append]
      exact h.distinct_step ih

/-- Items of different names are all kept, in their order. -/
theorem foldl_eq_self {items : List α} (hnodup : (items.map name).Nodup) :
    items.foldl (fun found a => put a found) [] = items := by
  induction items using List.reverseRecOn with
  | nil => rfl
  | append_singleton items a ih =>
      rw [List.map_append] at hnodup
      obtain ⟨hitems, _, hnew⟩ := List.nodup_append.mp hnodup
      rw [List.foldl_append, ih hitems]
      exact h.of_new fun hmem => hnew _ hmem _ List.mem_cons_self rfl

end PutsByName

theorem putsByName_directive : PutsByName putDirective Directive.name :=
  ⟨fun _ => rfl, fun _ _ _ => rfl⟩

/-- No two directives of a schema have the same name. -/
theorem nodup_names_directives (given : List Directive) :
    ((directives given).map Directive.name).Nodup :=
  (putsByName_directive.distinct_foldl given).nodup

/-- Directives of different names are all kept, in their order. -/
theorem directives_eq_self {given : List Directive} (h : (given.map Directive.name).Nodup) :
    directives given = given :=
  putsByName_directive.foldl_eq_self h

end Registry

namespace Schema

/-- The types that the types of a schema are collected from. -/
def givenTypes (config : Config) : List NamedType :=
  Registry.firsts (config.types.map Registry.shared)

/-- The types of a schema are collected from the given ones, less some built-in scalars. -/
theorem mem_types_ofConfig {config : Config} {t : NamedType} (h : t ∈ (ofConfig config).types) :
    t ∈ givenTypes config ∨
      (Standard.type? t.name = some t ∧ t.name ∉ Registry.names (givenTypes config)) := by
  have hall := (List.mem_filter.mp h).1
  exact (Registry.collects_all (Registry.nodup_names_firsts _) _).added t hall

/-- No two types of a schema have the same name. -/
theorem nodup_names_types (config : Config) :
    (Registry.names (ofConfig config).types).Nodup := by
  have hall := (Registry.collects_all
    (Registry.nodup_names_firsts (config.types.map Registry.shared))
    ([config.query, config.mutation, config.subscription].filterMap id ++
      (Registry.directives (config.directives.getD Directive.specified)).flatMap
        Directive.references ++ [Standard.schema.name])).nodup
  exact List.Sublist.nodup (List.Sublist.map _ List.filter_sublist) hall

/-- Sharing leaves the types of a schema alone. -/
theorem shared_of_mem_types {config : Config} {t : NamedType} (h : t ∈ (ofConfig config).types) :
    Registry.shared t = t := by
  rcases mem_types_ofConfig h with hgiven | ⟨hstandard, _⟩
  · have hmem := Registry.mem_of_mem_firsts hgiven
    obtain ⟨u, _, rfl⟩ := List.mem_map.mp hmem
    exact Registry.shared_shared u
  · simp [Registry.shared, Standard.of?_self hstandard]

/-- A type that is found is one of the schema's, under its own name. -/
theorem mem_of_type? {schema : Schema} {name : String} {t : NamedType}
    (h : schema.type? name = some t) : t ∈ schema.types ∧ t.name = name :=
  ⟨List.mem_of_find?_eq_some h, by simpa using List.find?_some h⟩

/-- In a schema without repeated names, each type is found under its name. -/
theorem type?_of_mem {schema : Schema} (hnodup : (Registry.names schema.types).Nodup)
    {t : NamedType} (h : t ∈ schema.types) : schema.type? t.name = some t :=
  (find?_key_iff hnodup).mpr ⟨h, rfl⟩

/-- A name is found exactly if a type has it. -/
theorem isSome_type?_iff {schema : Schema} {name : String} :
    (schema.type? name).isSome ↔ name ∈ Registry.names schema.types := by
  simp [type?, Registry.names]

/-- The type that describes schemas is registered in every schema. -/
theorem schema_mem_types (config : Config) :
    ∃ t ∈ (ofConfig config).types, t.name = Standard.schema.name := by
  let given := givenTypes config
  let directives := Registry.directives (config.directives.getD Directive.specified)
  let roots := [config.query, config.mutation, config.subscription].filterMap id
  let waiting := roots ++ directives.flatMap Directive.references ++ [Standard.schema.name]
  let all := Registry.addStandard (Registry.names given) waiting (Registry.collect given)
  have hinv : Registry.Collects given given all :=
    Registry.collects_all (Registry.nodup_names_firsts _) waiting
  have hstandard : (Standard.type? Standard.schema.name).isSome := by decide
  have hname : Standard.schema.name ∈ Registry.names all := by
    rcases Registry.mem_addStandard_of_waiting (Registry.names given) waiting
        (Registry.collect given) Standard.schema.name (by simp [waiting]) hstandard with
      hgiven | hthere
    · obtain ⟨t, ht, heq⟩ := List.mem_map.mp hgiven
      exact List.mem_map.mpr ⟨t, hinv.keeps t ht, heq⟩
    · exact hthere
  obtain ⟨t, ht, heq⟩ := List.mem_map.mp hname
  refine ⟨t, List.mem_filter.mpr ⟨ht, ?_⟩, heq⟩
  rw [heq]
  rfl

/-- The names of the root types that are given. -/
def Config.roots (config : Config) : List String :=
  [config.query, config.mutation, config.subscription].filterMap id

/-- The directives of the schema of a configuration. -/
def Config.distinctDirectives (config : Config) : List Directive :=
  Registry.directives (config.directives.getD Directive.specified)

/-- A configuration that lists all types of its schema: standard types are given as they are, every
standard type that is named is given, no name is given twice, and no built-in scalar is given in
vain. -/
structure Config.Closed (config : Config) : Prop where
  shared : ∀ t ∈ config.types, Registry.shared t = t
  nodup : (Registry.names config.types).Nodup
  references : ∀ t ∈ config.types, ∀ name ∈ t.references,
    (Standard.type? name).isSome → name ∈ Registry.names config.types
  others : ∀ name ∈ config.roots ++ config.distinctDirectives.flatMap Directive.references ++
      [Standard.schema.name],
    (Standard.type? name).isSome → name ∈ Registry.names config.types
  scalars : ∀ t ∈ config.types, t.name ∈ builtinScalarNames →
    t.name ∈ Registry.valueReferences config.types config.distinctDirectives

/-- A configuration that lists the types of its schema. Unlike in a closed one, built-in scalars may
be named without being given, in unions, as interfaces or as roots; fields and inputs have exactly
those that are given. -/
structure Config.Complete (config : Config) : Prop where
  shared : ∀ t ∈ config.types, Registry.shared t = t
  nodup : (Registry.names config.types).Nodup
  references : ∀ t ∈ config.types, ∀ name ∈ t.references, (Standard.type? name).isSome →
    name ∈ Registry.names config.types ∨ name ∈ builtinScalarNames
  others : ∀ name ∈ config.roots ++ config.distinctDirectives.flatMap Directive.references ++
      [Standard.schema.name],
    (Standard.type? name).isSome →
      name ∈ Registry.names config.types ∨ name ∈ builtinScalarNames
  scalars : ∀ name ∈ builtinScalarNames, name ∈ Registry.names config.types ↔
    name ∈ Registry.valueReferences config.types config.distinctDirectives

/-- A closed configuration is complete. -/
theorem Config.Closed.complete {config : Config} (h : config.Closed) : config.Complete where
  shared := h.shared
  nodup := h.nodup
  references t ht name hname hstandard := .inl (h.references t ht name hname hstandard)
  others name hname hstandard := .inl (h.others name hname hstandard)
  scalars := by
    intro name hscalar
    have hstandard : (Standard.type? name).isSome := by
      revert name
      decide
    constructor
    · intro hgiven
      obtain ⟨t, ht, rfl⟩ := List.mem_map.mp hgiven
      exact h.scalars t ht hscalar
    · intro hreferenced
      rcases List.mem_append.mp hreferenced with htypes | hdirectives
      · obtain ⟨t, ht, hname⟩ := List.mem_flatMap.mp htypes
        exact h.references t ht name (List.mem_append_right _ hname) hstandard
      · exact h.others name (by simp [hdirectives]) hstandard

/-- The schema of a configuration that lists its types has exactly these types. -/
theorem ofConfig_of_complete {config : Config} (h : config.Complete) :
    ofConfig config =
      { description := config.description
        query := config.query
        mutation := config.mutation
        subscription := config.subscription
        types := config.types
        directives := config.distinctDirectives
        ambiguous := []
        assumeValid := config.assumeValid } := by
  have hshared : config.types.map Registry.shared = config.types := by
    conv => rhs; rw [← List.map_id config.types]
    exact List.map_congr_left h.shared
  have htypes : Registry.types config.types config.roots config.distinctDirectives =
      config.types :=
    Registry.types_eq_self h.nodup h.references h.others h.scalars
  have hambiguous := Registry.ambiguous_eq_nil h.nodup
  unfold ofConfig
  simp only [hshared, Registry.firsts_eq_self h.nodup, hambiguous]
  exact congrArg (fun types => (⟨_, _, _, _, types, _, _, _⟩ : Schema)) htypes

/-- The schema of a configuration that lists all its types has exactly these types. -/
theorem ofConfig_of_closed {config : Config} (h : config.Closed) :
    ofConfig config =
      { description := config.description
        query := config.query
        mutation := config.mutation
        subscription := config.subscription
        types := config.types
        directives := config.distinctDirectives
        ambiguous := []
        assumeValid := config.assumeValid } :=
  ofConfig_of_complete h.complete

end Schema

end GraphQL
