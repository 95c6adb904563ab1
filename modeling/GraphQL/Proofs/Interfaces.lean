import GraphQL.Proofs.Consistency
import GraphQL.Proofs.Reachability

/-!
# Interfaces of consistent schemas

A consistent schema only checks the interfaces that a type lists itself, one step deep. That is
enough: a type has to list what its interfaces list, so the list of a type is closed under steps and
a search from it finds nothing new. Implementing is then the same as listing, and since no type
lists itself, no chain of implementations of any length leads back to where it started.

Every listed interface is checked field by field, so closure also carries the promise about fields
from the interfaces that are listed to all that are implemented.
-/

namespace GraphQL

namespace Schema

variable {schema : Schema}

/-- A resolved type is written like the expression it was looked up for. -/
theorem literal_of_resolve {type : TypeLiteral} {t : ResolvedType}
    (h : schema.resolve type = some t) : t.literal = type := by
  unfold resolve at h
  induction type generalizing t with
  | named name required =>
      obtain ⟨core, hcore, rfl⟩ := Option.map_eq_some_iff.mp h
      have hname := (mem_of_type? hcore).2
      simp [ResolvedType.literal, TypeExpr.map, hname]
  | list item required ih =>
      obtain ⟨inner, hinner, rfl⟩ := Option.map_eq_some_iff.mp h
      have hliteral := ih hinner
      simpa [ResolvedType.literal, TypeExpr.map] using hliteral

/-- Nothing is wrong with the ancestors of a type exactly if it lists what its interface lists. -/
theorem ancestorFaults_eq_nil_iff {t interface : NamedType} :
    ancestorFaults t interface = [] ↔
      ∀ ancestor ∈ interface.interfaces, ancestor ∈ t.interfaces := by
  unfold ancestorFaults
  rw [List.flatMap_eq_nil_iff]
  refine forall₂_congr fun ancestor _ => ?_
  by_cases hlisted : ancestor ∈ t.interfaces
  · simp [hlisted]
  · by_cases hself : ancestor = t.name <;> simp [hlisted, hself]

/-! ## Fields -/

/-- A field can stand in for a field of an interface: its type is a subtype, it takes every argument
of the other with the same type, and what it takes besides can be left out. -/
structure Provides (schema : Schema) (field expected : Field) : Prop where
  type : ∃ actual wanted, schema.resolve field.type = some actual ∧
    schema.resolve expected.type = some wanted ∧ schema.isSubtypeOf actual wanted
  arguments : ∀ argument ∈ expected.arguments, ∃ own,
    field.argument? argument.name = some own ∧ own.type = argument.type
  others : ∀ own ∈ field.arguments,
    (∀ argument ∈ expected.arguments, argument.name ≠ own.name) → own.isRequired = false

/-- An argument whose type and that of its counterpart are known is checked: it is provided with the
same type. -/
theorem argument_of_mem {t interface : NamedType} {field expected : Field}
    (h : schema.implementedArgumentFaults t interface field expected = []) {argument : InputValue}
    (harg : argument ∈ expected.arguments) :
    ∃ own, field.argument? argument.name = some own ∧
      ∀ type ownType, schema.resolve argument.type = some type →
        schema.resolve own.type = some ownType → own.type = argument.type := by
  simp only [implementedArgumentFaults, List.append_eq_nil_iff] at h
  have hone := List.flatMap_eq_nil_iff.mp h.1 argument harg
  cases hown : field.argument? argument.name with
  | none => simp [hown] at hone
  | some own =>
      refine ⟨own, rfl, fun type ownType htype hownType => ?_⟩
      simp only [hown, htype, hownType] at hone
      have hsame : type.literal = ownType.literal := by
        by_contra hdiffer
        simp [ResolvedType.same, hdiffer] at hone
      rw [← literal_of_resolve htype, ← literal_of_resolve hownType, hsame]

/-- An argument that the interface does not know can be left out. -/
theorem not_required_of_mem {t interface : NamedType} {field expected : Field}
    (h : schema.implementedArgumentFaults t interface field expected = []) {own : InputValue}
    (hown : own ∈ field.arguments)
    (hother : ∀ argument ∈ expected.arguments, argument.name ≠ own.name) :
    own.isRequired = false := by
  simp only [implementedArgumentFaults, List.append_eq_nil_iff] at h
  have hone := List.flatMap_eq_nil_iff.mp h.2 own hown
  have hnone : expected.argument? own.name = none := by
    simpa [Field.argument?] using hother
  cases hrequired : own.isRequired with
  | false => rfl
  | true => simp [hrequired, hnone] at hone

/-- Nothing is wrong with a field of an interface: the type has a field of its name, which has a
subtype if both types are known, and its arguments are checked. -/
theorem field_of_mem {t interface : NamedType}
    (h : schema.implementedFieldFaults t interface = []) {expected : Field}
    (hexpected : expected ∈ interface.fields) :
    ∃ field, t.field? expected.name = some field ∧
      (∀ actual wanted, schema.resolve field.type = some actual →
        schema.resolve expected.type = some wanted → schema.isSubtypeOf actual wanted) ∧
      schema.implementedArgumentFaults t interface field expected = [] := by
  have hone := List.flatMap_eq_nil_iff.mp h expected hexpected
  cases hfield : t.field? expected.name with
  | none => simp [hfield] at hone
  | some field =>
      simp only [hfield, List.append_eq_nil_iff] at hone
      refine ⟨field, rfl, fun actual wanted hactual hwanted => ?_, hone.2⟩
      have htype := hone.1
      simp only [hactual, hwanted] at htype
      by_contra hnot
      simp [hnot] at htype

/-! ## What is implemented -/

section

variable (h : schema.inconsistencies = [])

include h

/-- The list of interfaces of a type is closed: it has what its interfaces list. -/
theorem interfaces_closed {t u : NamedType} (ht : t ∈ schema.types) {name ancestor : String}
    (hname : name ∈ t.interfaces) (hu : schema.type? name = some u)
    (hancestor : ancestor ∈ u.interfaces) : ancestor ∈ t.interfaces := by
  obtain ⟨interface, hinterface, himplemented⟩ := interface_implemented h ht hname
  obtain rfl : u = interface := Option.some.inj (hu.symm.trans hinterface)
  exact ancestorFaults_eq_nil_iff.mp himplemented.ancestors ancestor hancestor

/-- The ancestors of a type are the interfaces that it lists. -/
theorem mem_ancestors_iff {t : NamedType} (ht : t ∈ schema.types) {name : String} :
    name ∈ schema.ancestors t ↔ name ∈ t.interfaces := by
  unfold ancestors
  rw [Graph.mem_reachable_iff]
  constructor
  · rintro ⟨first, hfirst, hpath⟩
    -- Along a path from a listed interface, every node is listed.
    induction hpath with
    | refl => exact hfirst
    | @tail middle last _ hstep ih =>
        obtain ⟨u, hmiddle, _⟩ := interface_implemented h ht ih
        have hlast : last ∈ u.interfaces := by simpa [hmiddle] using hstep.2
        exact interfaces_closed h ht ih hmiddle hlast
  · intro hname
    exact ⟨name, hname, .refl⟩

/-- A type implements an interface exactly if it lists it. -/
theorem implements_iff {t u : NamedType} (ht : t ∈ schema.types) :
    schema.implements t u ↔ u.name ∈ t.interfaces := by
  rw [← mem_ancestors_iff h ht]
  simp [implements]

/-- No type implements itself. -/
theorem implements_irrefl {t : NamedType} (ht : t ∈ schema.types) : ¬ schema.implements t t := by
  rw [implements_iff h ht]
  intro hlisted
  obtain ⟨_, _, _, hne⟩ := interface_registered h ht hlisted
  exact hne rfl

/-- A type lists what the types it lists list, provided names mean one type each. -/
theorem interfaces_trans (hnodup : (Registry.names schema.types).Nodup) {t u : NamedType}
    (ht : t ∈ schema.types) (hu : u ∈ schema.types) {name : String} (htu : u.name ∈ t.interfaces)
    (hname : name ∈ u.interfaces) : name ∈ t.interfaces :=
  interfaces_closed h ht htu (type?_of_mem hnodup hu) hname

/-- Implementing is transitive. -/
theorem implements_trans (hnodup : (Registry.names schema.types).Nodup) {t u v : NamedType}
    (ht : t ∈ schema.types) (hu : u ∈ schema.types) (htu : schema.implements t u)
    (huv : schema.implements u v) : schema.implements t v := by
  rw [implements_iff h ht] at htu ⊢
  rw [implements_iff h hu] at huv
  exact interfaces_trans h hnodup ht hu htu huv

/-- A type provides the fields of an interface that it implements. -/
theorem provides_of_implements (hnodup : (Registry.names schema.types).Nodup)
    {t interface : NamedType} (ht : t ∈ schema.types) (hi : interface ∈ schema.types)
    (himplements : schema.implements t interface) {expected : Field}
    (hexpected : expected ∈ interface.fields) :
    ∃ field, t.field? expected.name = some field ∧ schema.Provides field expected := by
  have hlisted := (implements_iff h ht).mp himplements
  obtain ⟨u, hu, himplemented⟩ := interface_implemented h ht hlisted
  obtain rfl : interface = u := Option.some.inj ((type?_of_mem hnodup hi).symm.trans hu)
  obtain ⟨field, hfield, hsubtype, harguments⟩ := field_of_mem himplemented.fields hexpected
  have hmem : field ∈ t.fields := List.mem_of_find?_eq_some hfield
  refine ⟨field, hfield, ?_, ?_, fun own hown => not_required_of_mem harguments hown⟩
  · obtain ⟨_, hactual, _⟩ := field_registered h ht hmem
    obtain ⟨_, hwanted, _⟩ := field_registered h hi hexpected
    obtain ⟨actual, hactual, _⟩ := resolve_of_innermost hactual
    obtain ⟨wanted, hwanted, _⟩ := resolve_of_innermost hwanted
    exact ⟨actual, wanted, hactual, hwanted, hsubtype actual wanted hactual hwanted⟩
  · intro argument hargument
    obtain ⟨own, hown, hequal⟩ := argument_of_mem harguments hargument
    have hownMem : own ∈ field.arguments := List.mem_of_find?_eq_some hown
    obtain ⟨_, htype, _⟩ := fieldArgument_registered h hi hexpected hargument
    obtain ⟨_, hownType, _⟩ := fieldArgument_registered h ht hmem hownMem
    obtain ⟨type, htype, _⟩ := resolve_of_innermost htype
    obtain ⟨ownType, hownType, _⟩ := resolve_of_innermost hownType
    exact ⟨own, hown, hequal type ownType htype hownType⟩

end

/-- A registered type implements another one. -/
def Implementing (schema : Schema) (t u : NamedType) : Prop :=
  t ∈ schema.types ∧ u ∈ schema.types ∧ schema.implements t u

/-- A chain of implementations of any length is one implementation. -/
theorem implementing_of_transGen (h : schema.inconsistencies = [])
    (hnodup : (Registry.names schema.types).Nodup) {t u : NamedType}
    (hchain : Relation.TransGen schema.Implementing t u) : schema.Implementing t u := by
  induction hchain with
  | single hstep => exact hstep
  | tail _ hstep ih =>
      obtain ⟨ht, _, hfirst⟩ := ih
      obtain ⟨hmiddle, hlast, hsecond⟩ := hstep
      exact ⟨ht, hlast, implements_trans h hnodup ht hmiddle hfirst hsecond⟩

/-- Interfaces keep their promises: types implement what they list and nothing else, no chain of
implementations is closed, and the fields of an interface are provided. -/
structure InterfacesSound (schema : Schema) : Prop where
  listed : ∀ t ∈ schema.types, ∀ interface ∈ schema.types, interface.isInterface →
    (schema.implements t interface ↔ interface.name ∈ t.interfaces)
  irrefl : ∀ t ∈ schema.types, ¬ schema.implements t t
  trans : ∀ t ∈ schema.types, ∀ u ∈ schema.types, ∀ v ∈ schema.types,
    schema.implements t u → schema.implements u v → schema.implements t v
  acyclic : ∀ t, ¬ Relation.TransGen schema.Implementing t t
  provided : ∀ t ∈ schema.types, ∀ interface ∈ schema.types, interface.isInterface →
    schema.implements t interface → ∀ expected ∈ interface.fields,
      ∃ field, t.field? expected.name = some field ∧ schema.Provides field expected

/-- **Sound interfaces.**  In a schema with which nothing is wrong, interfaces keep their
promises. -/
theorem interfacesSound_of_consistent {config : Config}
    (h : (ofConfig config).inconsistencies = []) : (ofConfig config).InterfacesSound := by
  have hnodup := nodup_names_types config
  constructor
  case listed =>
    intro t ht interface _ _
    exact implements_iff h ht
  case irrefl =>
    intro t ht
    exact implements_irrefl h ht
  case trans =>
    intro t ht u hu v _ htu huv
    exact implements_trans h hnodup ht hu htu huv
  case acyclic =>
    intro t hcycle
    obtain ⟨ht, _, hself⟩ := implementing_of_transGen h hnodup hcycle
    exact implements_irrefl h ht hself
  case provided =>
    intro t ht interface hi _ himplements expected hexpected
    exact provides_of_implements h hnodup ht hi himplements hexpected

end Schema

/-- Images are resources, resources are nodes, and media are images. -/
def mediaConfig : Schema.Config where
  query := some "Query"
  types := [
    { name := "Query", shape := .object [] [
      { name := "media", type := .list (.named "Media" true) true }] },
    { name := "Node", shape := .interface [] [{ name := "id", type := .named "ID" false }] },
    { name := "Resource", shape := .interface ["Node"] [
      { name := "id", type := .named "ID" true },
      { name := "links", type := .list (.named "String" false) false,
        arguments := [{ name := "first", type := .named "Int" false }] }] },
    { name := "Image", shape := .object ["Resource", "Node"] [
      { name := "id", type := .named "ID" true },
      { name := "links", type := .list (.named "String" true) true,
        arguments := [
          { name := "first", type := .named "Int" false },
          { name := "deep", type := .named "Boolean" true, default := some (.boolean true) }] }] },
    { name := "Media", shape := .union ["Image"] }] ++
    (Standard.scalars.filter fun t => ["Int", "String", "Boolean", "ID"].contains t.name) ++
    Standard.introspection
  directives := some []

/-- The configuration lists all types of its schema. -/
theorem mediaConfig_closed : mediaConfig.Closed where
  shared := Registry.shared_of_map_shared rfl
  nodup := by decide +kernel
  references := by decide +kernel
  others := by decide +kernel
  scalars := by decide +kernel

/-- Nothing is wrong with the schema of the configuration. -/
theorem mediaConfig_consistent : (Schema.ofConfig mediaConfig).inconsistencies = [] := by
  rw [Schema.ofConfig_of_closed mediaConfig_closed]
  exact List.isEmpty_iff.mp (by decide +kernel)

/-- The interfaces of the schema of media keep their promises. -/
theorem mediaConfig_interfacesSound :
    (Schema.ofConfig mediaConfig).inconsistencies = [] ∧
      (Schema.ofConfig mediaConfig).InterfacesSound :=
  ⟨mediaConfig_consistent, Schema.interfacesSound_of_consistent mediaConfig_consistent⟩

end GraphQL
