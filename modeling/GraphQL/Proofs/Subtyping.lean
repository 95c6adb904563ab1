import GraphQL.Proofs.Interfaces

/-!
# The order of types

In a consistent schema, standing in for another type is a partial order. Between named types there
are three ways to stand in: to be the same type, to list the other as an interface, or to be listed
by it as a member. Consistency rules out that the last two meet: what a type lists as an interface
is an interface, what a union lists as a member is an object, and neither is a union. So a chain of
two ways is either trivial or leads through interfaces only, which are closed.

Lists and the exclusion of null are compared layer by layer and add nothing to the argument.
-/

namespace GraphQL

/-- A type that lists interfaces is an object or an interface. -/
theorem NamedType.kind_of_mem_interfaces {t : NamedType} {name : String}
    (h : name ∈ t.interfaces) : t.isObject ∨ t.isInterface := by
  unfold NamedType.interfaces at h
  split at h
  · rename_i hshape
    left
    simp [isObject, kind, hshape, Shape.kind]
  · rename_i hshape
    right
    simp [isInterface, kind, hshape, Shape.kind]
  · cases h

/-- A type that lists members is a union. -/
theorem NamedType.kind_of_mem_members {t : NamedType} {name : String} (h : name ∈ t.members) :
    t.kind = .union := by
  unfold NamedType.members at h
  split at h
  · rename_i hshape
    simp [kind, hshape, Shape.kind]
  · cases h

namespace Schema

variable {schema : Schema}

/-- The types that a schema gives to expressions are registered. -/
theorem innermost_mem_of_resolve {type : TypeLiteral} {t : ResolvedType}
    (h : schema.resolve type = some t) : TypeExpr.innermost t ∈ schema.types := by
  unfold resolve at h
  induction type generalizing t with
  | named name required =>
      obtain ⟨core, hcore, rfl⟩ := Option.map_eq_some_iff.mp h
      exact (mem_of_type? hcore).1
  | list item required ih =>
      obtain ⟨inner, hinner, rfl⟩ := Option.map_eq_some_iff.mp h
      exact ih (t := inner) hinner

/-- If each of two steps only lets null out, so do both together. -/
theorem required_trans {r s q : Bool} (h : r || !s) (h' : s || !q) : r || !q := by
  cases r <;> cases s <;> cases q <;> simp_all

/-- If neither of two layers excludes more than the other, both exclude the same. -/
theorem required_antisymm {r s : Bool} (h : r || !s) (h' : s || !r) : r = s := by
  cases r <;> cases s <;> simp_all

/-- Every type stands in for itself. -/
theorem isSubtypeOf_refl (t : ResolvedType) : schema.isSubtypeOf t t := by
  induction t with
  | named core required => simp [isSubtypeOf]
  | list item required ih => simp [isSubtypeOf, ih]

/-- A named type stands in for another one: it is the same type, lists it as an interface, or is
listed by it as a member. -/
def Below (t u : NamedType) : Prop :=
  t = u ∨ u.name ∈ t.interfaces ∨ t.name ∈ u.members

section

variable (h : schema.inconsistencies = []) (hnodup : (Registry.names schema.types).Nodup)

include h hnodup

/-- A listed interface is an interface. -/
theorem isInterface_of_listed {t u : NamedType} (ht : t ∈ schema.types) (hu : u ∈ schema.types)
    (hlisted : u.name ∈ t.interfaces) : u.isInterface := by
  obtain ⟨v, hv, hinterface, _⟩ := interface_registered h ht hlisted
  obtain rfl : u = v := Option.some.inj ((type?_of_mem hnodup hu).symm.trans hv)
  exact hinterface

/-- A member of a union is an object. -/
theorem isObject_of_listed {t u : NamedType} (ht : t ∈ schema.types) (hu : u ∈ schema.types)
    (hlisted : t.name ∈ u.members) : t.isObject := by
  obtain ⟨v, hv, hobject⟩ := member_registered h hu hlisted
  obtain rfl : t = v := Option.some.inj ((type?_of_mem hnodup ht).symm.trans hv)
  exact hobject

/-- Possible types of an abstract type are those that list it or are listed by it. -/
theorem isPossible_iff {t u : NamedType} (ht : t ∈ schema.types) (hu : u ∈ schema.types) :
    u.kind.isAbstract ∧ schema.isPossible u t ↔ u.name ∈ t.interfaces ∨ t.name ∈ u.members := by
  constructor
  · rintro ⟨_, hpossible⟩
    unfold isPossible at hpossible
    split at hpossible
    · rename_i members hshape
      right
      simpa [NamedType.members, hshape] using hpossible
    · left
      exact (implements_iff h ht).mp hpossible
    · cases hpossible
  · rintro (hlisted | hlisted)
    · have hinterface := isInterface_of_listed h hnodup ht hu hlisted
      have hkind : u.kind = .interface := by simpa [NamedType.isInterface] using hinterface
      refine ⟨by simp [hkind, TypeKind.isAbstract], ?_⟩
      have himplements := (implements_iff (u := u) h ht).mpr hlisted
      unfold isPossible
      cases hshape : u.shape <;> simp_all [NamedType.kind, Shape.kind]
    · have hkind := NamedType.kind_of_mem_members hlisted
      refine ⟨by simp [hkind, TypeKind.isAbstract], ?_⟩
      unfold isPossible
      cases hshape : u.shape <;> simp_all [NamedType.kind, Shape.kind, NamedType.members]

/-- A type that is listed by another one, or lists it, is an object or interface. -/
theorem isObject_or_isInterface {t u : NamedType} (ht : t ∈ schema.types) (hu : u ∈ schema.types)
    (hlisted : u.name ∈ t.interfaces ∨ t.name ∈ u.members) : t.isObject ∨ t.isInterface := by
  rcases hlisted with hlisted | hlisted
  · exact NamedType.kind_of_mem_interfaces hlisted
  · exact .inl (isObject_of_listed h hnodup ht hu hlisted)

/-- Between named types, standing in is what `Below` says, and null is not let in. -/
theorem isSubtypeOf_named_iff {t u : NamedType} (ht : t ∈ schema.types) (hu : u ∈ schema.types)
    {r s : Bool} :
    schema.isSubtypeOf (.named t r) (.named u s) ↔ (r || !s) ∧ Below t u := by
  have hsame : t.name = u.name ↔ t = u :=
    ⟨fun hname => List.inj_on_of_nodup_map hnodup ht hu hname, congrArg NamedType.name⟩
  have hpossible := isPossible_iff h hnodup ht hu
  have hkinds := isObject_or_isInterface h hnodup ht hu
  simp only [isSubtypeOf, Below, Bool.and_eq_true, Bool.or_eq_true, decide_eq_true_eq]
  grind

/-- Standing in is transitive between named types. -/
theorem below_trans {t u v : NamedType} (ht : t ∈ schema.types) (hu : u ∈ schema.types)
    (hv : v ∈ schema.types) (htu : Below t u) (huv : Below u v) : Below t v := by
  rcases htu with rfl | htu | htu
  · exact huv
  · have hinterface := isInterface_of_listed h hnodup ht hu htu
    rcases huv with rfl | huv | huv
    · exact .inr (.inl htu)
    · exact .inr (.inl (interfaces_trans h hnodup ht hu htu huv))
    · -- A member of a union is an object, not an interface.
      have hobject := isObject_of_listed h hnodup hu hv huv
      simp_all [NamedType.isObject, NamedType.isInterface]
  · have hunion := NamedType.kind_of_mem_members htu
    rcases huv with rfl | huv | huv
    · exact .inr (.inr htu)
    · have hkind := NamedType.kind_of_mem_interfaces huv
      simp_all [NamedType.isObject, NamedType.isInterface]
    · have hobject := isObject_of_listed h hnodup hu hv huv
      simp_all [NamedType.isObject]

/-- Named types that stand in for each other are the same. -/
theorem below_antisymm {t u : NamedType} (ht : t ∈ schema.types) (hu : u ∈ schema.types)
    (htu : Below t u) (hut : Below u t) : t = u := by
  rcases htu with rfl | htu | htu
  · rfl
  · rcases hut with rfl | hut | hut
    · rfl
    · -- The type would list itself.
      have hself := interfaces_trans h hnodup ht hu htu hut
      exact absurd ((implements_iff h ht).mpr hself) (implements_irrefl h ht)
    · have hunion := NamedType.kind_of_mem_members hut
      have hkind := NamedType.kind_of_mem_interfaces htu
      simp_all [NamedType.isObject, NamedType.isInterface]
  · have hunion := NamedType.kind_of_mem_members htu
    rcases hut with rfl | hut | hut
    · rfl
    · have hkind := NamedType.kind_of_mem_interfaces hut
      simp_all [NamedType.isObject, NamedType.isInterface]
    · have hobject := isObject_of_listed h hnodup hu ht hut
      simp_all [NamedType.isObject]

/-- Standing in is transitive, layer by layer. -/
theorem isSubtypeOf_trans {t u v : ResolvedType} (ht : TypeExpr.innermost t ∈ schema.types)
    (hu : TypeExpr.innermost u ∈ schema.types) (hv : TypeExpr.innermost v ∈ schema.types)
    (htu : schema.isSubtypeOf t u) (huv : schema.isSubtypeOf u v) : schema.isSubtypeOf t v := by
  induction t generalizing u v with
  | named a r =>
      cases u with
      | list _ _ => simp [isSubtypeOf] at htu
      | named b s =>
          cases v with
          | list _ _ => simp [isSubtypeOf] at huv
          | named c q =>
              simp only [TypeExpr.innermost] at ht hu hv
              rw [isSubtypeOf_named_iff h hnodup ht hu] at htu
              rw [isSubtypeOf_named_iff h hnodup hu hv] at huv
              rw [isSubtypeOf_named_iff h hnodup ht hv]
              exact ⟨required_trans htu.1 huv.1, below_trans h hnodup ht hu hv htu.2 huv.2⟩
  | list a r ih =>
      cases u with
      | named _ _ => simp [isSubtypeOf] at htu
      | list b s =>
          cases v with
          | named _ _ => simp [isSubtypeOf] at huv
          | list c q =>
              simp only [isSubtypeOf, Bool.and_eq_true] at htu huv ⊢
              exact ⟨required_trans htu.1 huv.1, ih (u := b) (v := c) ht hu hv htu.2 huv.2⟩

/-- Types that stand in for each other are the same. -/
theorem isSubtypeOf_antisymm {t u : ResolvedType} (ht : TypeExpr.innermost t ∈ schema.types)
    (hu : TypeExpr.innermost u ∈ schema.types) (htu : schema.isSubtypeOf t u)
    (hut : schema.isSubtypeOf u t) : t = u := by
  induction t generalizing u with
  | named a r =>
      cases u with
      | list _ _ => simp [isSubtypeOf] at htu
      | named b s =>
          simp only [TypeExpr.innermost] at ht hu
          rw [isSubtypeOf_named_iff h hnodup ht hu] at htu
          rw [isSubtypeOf_named_iff h hnodup hu ht] at hut
          obtain rfl := below_antisymm h hnodup ht hu htu.2 hut.2
          rw [required_antisymm htu.1 hut.1]
  | list a r ih =>
      cases u with
      | named _ _ => simp [isSubtypeOf] at htu
      | list b s =>
          simp only [isSubtypeOf, Bool.and_eq_true] at htu hut
          obtain rfl := ih (u := b) ht hu htu.2 hut.2
          rw [required_antisymm htu.1 hut.1]

/-- A name stands in for another one exactly if the types without null do. -/
theorem isNamedSubtype_eq {a b : String} {t u : NamedType} (ha : schema.type? a = some t)
    (hb : schema.type? b = some u) :
    schema.isNamedSubtype a b = schema.isSubtype (.named a false) (.named b false) := by
  obtain ⟨ht, rfl⟩ := mem_of_type? ha
  obtain ⟨hu, rfl⟩ := mem_of_type? hb
  have hpossible := isPossible_iff h hnodup ht hu
  have hkinds := isObject_or_isInterface h hnodup ht hu
  simp only [isNamedSubtype, isSubtype, resolve, TypeExpr.resolve, ha, hb, Option.map_some,
    isSubtypeOf, TypeExpr.named.injEq]
  rw [Bool.eq_iff_iff]
  simp only [Bool.or_eq_true, Bool.and_eq_true, decide_eq_true_eq]
  grind

end

/-- Subtyping is a partial order, on the types that the schema knows and on expressions, and the
three ways to ask for it agree. -/
structure SubtypingOrder (schema : Schema) : Prop where
  refl : ∀ a t, schema.resolve a = some t → schema.isSubtypeOf t t
  trans : ∀ a b c t u v, schema.resolve a = some t → schema.resolve b = some u →
    schema.resolve c = some v → schema.isSubtypeOf t u → schema.isSubtypeOf u v →
      schema.isSubtypeOf t v
  antisymm : ∀ a b t u, schema.resolve a = some t → schema.resolve b = some u →
    schema.isSubtypeOf t u → schema.isSubtypeOf u t → t.same u
  literal_refl : ∀ a, schema.isSubtype a a
  literal_trans : ∀ a b c, schema.isSubtype a b → schema.isSubtype b c → schema.isSubtype a c
  named : ∀ a b, (schema.type? a).isSome → (schema.type? b).isSome →
    schema.isNamedSubtype a b = schema.isSubtype (.named a false) (.named b false)

/-- Literals are transitive if resolved types are: literals that the schema does not know are
related to themselves only. -/
theorem isSubtype_trans (h : schema.inconsistencies = [])
    (hnodup : (Registry.names schema.types).Nodup) {a b c : TypeLiteral}
    (hab : schema.isSubtype a b) (hbc : schema.isSubtype b c) : schema.isSubtype a c := by
  by_cases hfirst : a = b
  · exact hfirst ▸ hbc
  by_cases hsecond : b = c
  · exact hsecond ▸ hab
  -- Now both steps compare types that the schema knows.
  simp only [isSubtype, hfirst, hsecond, decide_false, Bool.false_or] at hab hbc
  cases ha : schema.resolve a with
  | none => simp [ha] at hab
  | some t =>
      cases hb : schema.resolve b with
      | none => simp [ha, hb] at hab
      | some u =>
          cases hc : schema.resolve c with
          | none => simp [hb, hc] at hbc
          | some v =>
              simp only [ha, hb, hc] at hab hbc
              have htv := isSubtypeOf_trans h hnodup (innermost_mem_of_resolve ha)
                (innermost_mem_of_resolve hb) (innermost_mem_of_resolve hc) hab hbc
              simp [isSubtype, ha, hc, htv]

/-- **The order of types.**  In a schema with which nothing is wrong, subtyping is a partial
order. -/
theorem subtypingOrder_of_consistent {config : Config}
    (h : (ofConfig config).inconsistencies = []) : (ofConfig config).SubtypingOrder := by
  have hnodup := nodup_names_types config
  constructor
  case refl =>
    intro a t _
    exact isSubtypeOf_refl t
  case trans =>
    intro a b c t u v ha hb hc
    exact isSubtypeOf_trans h hnodup (innermost_mem_of_resolve ha) (innermost_mem_of_resolve hb)
      (innermost_mem_of_resolve hc)
  case antisymm =>
    intro a b t u ha hb htu hut
    have hequal := isSubtypeOf_antisymm h hnodup (innermost_mem_of_resolve ha)
      (innermost_mem_of_resolve hb) htu hut
    simp [ResolvedType.same, hequal]
  case literal_refl =>
    intro a
    simp [isSubtype]
  case literal_trans =>
    intro a b c
    exact isSubtype_trans h hnodup
  case named =>
    intro a b ha hb
    obtain ⟨t, ha⟩ := Option.isSome_iff_exists.mp ha
    obtain ⟨u, hb⟩ := Option.isSome_iff_exists.mp hb
    exact isNamedSubtype_eq h hnodup ha hb

end Schema

/-- The types of the schema of media are ordered: with interfaces that implement interfaces, and a
union. -/
theorem mediaConfig_subtypingOrder :
    (Schema.ofConfig mediaConfig).inconsistencies = [] ∧
      (Schema.ofConfig mediaConfig).SubtypingOrder :=
  ⟨mediaConfig_consistent, Schema.subtypingOrder_of_consistent mediaConfig_consistent⟩

end GraphQL
