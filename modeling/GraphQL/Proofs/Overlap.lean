import GraphQL.Proofs.InterfaceSearch
import GraphQL.Proofs.Silence
import GraphQL.Proofs.Subtyping
import GraphQL.Proofs.Walk

/-!
# Types that overlap

Two types overlap if a value can be of both. What a value can be of is said by the objects of a type
(`Schema.HasObject`): an object has itself, a union its members, and an interface the objects from
which a chain of listed interfaces leads to it. Whether types overlap is decided in four ways,
depending on which of them are abstract; one of these lists the possible types of the one and asks
the other about each of them, so nothing in it looks symmetric.

In a consistent schema only objects are members of unions and only objects and interfaces list
interfaces. So the possible types that are listed are the objects of a type, a type that is possible
for an abstract one and not abstract itself is an object, and all four ways ask whether there is an
object that both types have.

The rule on spreads asks about the type that the walk selects from, which is always registered, and
about the condition of the fragment. What it rejects has no object in common.
-/

namespace GraphQL

namespace Schema

/-- A registered object is among the objects of a type. -/
def HasObject (schema : Schema) (t o : NamedType) : Prop :=
  o ∈ schema.types ∧ o.isObject ∧
    match t.shape with
    | .object _ _ => o = t
    | .union members => o.name ∈ members
    | .interface _ _ => Relation.TransGen schema.Lists o.name t.name
    | _ => False

/-- Some registered object is among the objects of both types. -/
def SharesObject (schema : Schema) (t u : NamedType) : Prop :=
  ∃ o, schema.HasObject t o ∧ schema.HasObject u o

variable {schema : Schema}

/-- Only an object has itself, and it has nothing else. -/
theorem hasObject_iff_eq {t o : NamedType} (hconcrete : ¬ t.kind.isAbstract) :
    schema.HasObject t o ↔ o = t ∧ t ∈ schema.types ∧ t.isObject := by
  unfold HasObject
  cases hshape : t.shape with
  | object interfaces fields =>
      constructor
      · intro h
        obtain ⟨ho, hobject, rfl⟩ := h
        exact ⟨rfl, ho, hobject⟩
      · intro h
        obtain ⟨rfl, ho, hobject⟩ := h
        exact ⟨ho, hobject, rfl⟩
  | union members | interface _ _ =>
      simp [NamedType.kind, hshape, Shape.kind, TypeKind.isAbstract] at hconcrete
  | scalar _ | enum _ | inputObject _ =>
      simp [NamedType.isObject, NamedType.kind, hshape, Shape.kind]

/-- The members of a union without faults are distinct. -/
theorem nodup_of_memberFaults {union : String} {earlier members : List String}
    (h : schema.memberFaults union earlier members = []) :
    members.Nodup ∧ ∀ member ∈ members, member ∉ earlier := by
  induction members generalizing earlier with
  | nil => exact ⟨List.nodup_nil, by simp⟩
  | cons first rest ih =>
      simp only [memberFaults, List.append_eq_nil_iff] at h
      obtain ⟨hnodup, hlater⟩ := ih h.2
      have hfirst : first ∉ earlier := by
        intro hearlier
        simp [hearlier] at h
      refine ⟨List.nodup_cons.mpr ⟨?_, hnodup⟩, ?_⟩
      · intro hagain
        exact hlater first hagain List.mem_cons_self
      · intro member hmember hearlier
        rcases List.mem_cons.mp hmember with rfl | hmember
        · exact hfirst hearlier
        · exact hlater member hmember (List.mem_cons_of_mem _ hearlier)

section

variable (hnodup : (Registry.names schema.types).Nodup)

include hnodup

/-- The objects of an abstract type are those that are possible for it. -/
theorem hasObject_iff_isPossible {t o : NamedType} (habstract : t.kind.isAbstract) :
    schema.HasObject t o ↔ o ∈ schema.types ∧ o.isObject ∧ schema.isPossible t o := by
  unfold HasObject isPossible
  refine and_congr_right fun ho => and_congr_right fun _ => ?_
  cases hshape : t.shape with
  | union members => simp
  | interface _ _ => exact (implements_iff_transGen hnodup ho).symm
  | scalar _ | object _ _ | enum _ | inputObject _ =>
      simp [NamedType.kind, hshape, Shape.kind, TypeKind.isAbstract] at habstract

variable (h : schema.inconsistencies = [])

include h

/-- The possible types that are listed for an abstract type are its objects. -/
theorem mem_possibleTypes_iff {t o : NamedType} (ht : t ∈ schema.types)
    (habstract : t.kind.isAbstract) : o ∈ schema.possibleTypes t ↔ schema.HasObject t o := by
  rw [hasObject_iff_isPossible hnodup habstract]
  unfold possibleTypes isPossible
  cases hshape : t.shape with
  | union members =>
      have hmembers : t.members = members := by simp [NamedType.members, hshape]
      simp only [List.mem_filterMap, List.contains_iff_mem]
      constructor
      · intro hlisted
        obtain ⟨name, hname, htype⟩ := hlisted
        obtain ⟨ho, rfl⟩ := mem_of_type? htype
        exact ⟨ho, isObject_of_listed h hnodup ho ht (hmembers ▸ hname), hname⟩
      · intro hpossible
        obtain ⟨ho, _, hname⟩ := hpossible
        exact ⟨o.name, hname, type?_of_mem hnodup ho⟩
  | interface _ _ => simp
  | scalar _ | object _ _ | enum _ | inputObject _ =>
      simp [NamedType.kind, hshape, Shape.kind, TypeKind.isAbstract] at habstract

/-- No possible type is listed twice. -/
theorem nodup_possibleTypes {t : NamedType} (ht : t ∈ schema.types) :
    (schema.possibleTypes t).Nodup := by
  unfold possibleTypes
  cases hshape : t.shape with
  | union members =>
      have hfaults := typeFaults_of_mem h ht
      simp only [typeFaults, hshape, List.append_eq_nil_iff] at hfaults
      refine (nodup_of_memberFaults hfaults.2.2).1.filterMap ?_
      intro a b u hu hu'
      exact (mem_of_type? hu).2.symm.trans (mem_of_type? hu').2
  | interface _ _ => exact (List.Nodup.of_map _ hnodup).filter _
  | scalar _ | object _ _ | enum _ | inputObject _ => exact List.nodup_nil

/-- A type that is possible for an abstract one and not abstract itself is one of its objects. -/
theorem isPossible_iff_sharesObject {t u : NamedType} (ht : t ∈ schema.types)
    (hu : u ∈ schema.types) (habstract : t.kind.isAbstract) (hconcrete : ¬ u.kind.isAbstract) :
    schema.isPossible t u ↔ schema.SharesObject t u := by
  constructor
  · intro hpossible
    have hlisted := (isPossible_iff h hnodup hu ht).mp ⟨habstract, hpossible⟩
    have hobject : u.isObject := by
      rcases isObject_or_isInterface h hnodup hu ht hlisted with hobject | hinterface
      · exact hobject
      · have hkind : u.kind = .interface := by simpa [NamedType.isInterface] using hinterface
        simp [hkind, TypeKind.isAbstract] at hconcrete
    exact ⟨u, (hasObject_iff_isPossible hnodup habstract).mpr ⟨hu, hobject, hpossible⟩,
      (hasObject_iff_eq hconcrete).mpr ⟨rfl, hu, hobject⟩⟩
  · intro hshares
    obtain ⟨o, hto, huo⟩ := hshares
    obtain ⟨rfl, _, _⟩ := (hasObject_iff_eq hconcrete).mp huo
    exact ((hasObject_iff_isPossible hnodup habstract).mp hto).2.2

/-- Types overlap exactly if they are the same or share an object. -/
theorem overlap_iff {t u : NamedType} (ht : t ∈ schema.types) (hu : u ∈ schema.types) :
    schema.overlap t u ↔ t = u ∨ schema.SharesObject t u := by
  have hsame : t.name = u.name ↔ t = u :=
    ⟨fun hname => List.inj_on_of_nodup_map hnodup ht hu hname, congrArg NamedType.name⟩
  rw [overlap, Bool.or_eq_true, decide_eq_true_eq, hsame]
  cases habstract : t.kind.isAbstract with
  | true =>
      refine or_congr_right ?_
      cases habstract' : u.kind.isAbstract with
      | true =>
          simp only [List.any_eq_true, mem_possibleTypes_iff hnodup h ht habstract]
          refine exists_congr fun o => and_congr_right fun hto => ?_
          rw [hasObject_iff_isPossible hnodup habstract']
          exact ⟨fun hpossible => ⟨hto.1, hto.2.1, hpossible⟩, fun huo => huo.2.2⟩
      | false =>
          exact isPossible_iff_sharesObject hnodup h ht hu habstract (by simp [habstract'])
  | false =>
      cases habstract' : u.kind.isAbstract with
      | true =>
          refine or_congr_right ?_
          have hshares :=
            isPossible_iff_sharesObject hnodup h hu ht habstract' (by simp [habstract])
          exact hshares.trans (exists_congr fun _ => and_comm)
      | false =>
          refine ⟨fun hequal => .inl (by simpa using hequal), fun hequal => .inl ?_⟩
          rcases hequal with hequal | hshares
          · exact hequal
          · -- two types that are not abstract share an object only if both are that object
            obtain ⟨o, hto, huo⟩ := hshares
            have ht' := ((hasObject_iff_eq (by simp [habstract])).mp hto).1
            have hu' := ((hasObject_iff_eq (by simp [habstract'])).mp huo).1
            exact ht'.symm.trans hu'

/-- A fragment can be applied to a type that is its condition or shares an object with it; between
interfaces it is enough that the condition implements the type. -/
theorem canApply_iff {t u : NamedType} (ht : t ∈ schema.types) (hu : u ∈ schema.types) :
    Rules.canApply schema t u ↔ t = u ∨ schema.SharesObject t u ∨
      (t.isInterface ∧ u.isInterface ∧ Relation.TransGen schema.Lists u.name t.name) := by
  rw [← implements_iff_transGen hnodup hu, Rules.canApply, Bool.or_eq_true,
    overlap_iff hnodup h ht hu, Bool.and_eq_true, Bool.and_eq_true, and_assoc, or_comm, or_assoc]

end

end Schema

/-! ## Fragments that cannot be applied -/

/-- What a rule on single nodes says is said at some node that is entered. -/
theorem Rule.mem_run_onEnter {check : Surroundings → Node → List Fault} {events : List Event}
    {fault : Fault} :
    fault ∈ (Rule.onEnter check).run events ↔
      ∃ visit ∈ events, visit.phase = .enter ∧ fault ∈ check visit.place visit.node := by
  rw [Rule.run_onEnter, List.mem_flatMap]
  refine exists_congr fun visit => and_congr_right fun _ => ?_
  cases visit.phase <;> simp

/-- The type that a place selects from, if there is one, is registered. -/
def Surroundings.SelectsRegistered (schema : Schema) (place : Surroundings) : Prop :=
  ∀ t, place.parent = some t → t ∈ schema.types

/-- A walk selects from registered types only. -/
theorem Document.selects_registered (schema : Schema) (document : Document) :
    PlacesSatisfy (Surroundings.SelectsRegistered schema) (document.events schema) := by
  refine Document.events_places ⟨fun _ _ => id, fun _ _ => id, ?_⟩ nofun document
  intro place _ t ht
  obtain ⟨type, _, htype⟩ := Option.bind_eq_some_iff.mp ht
  exact (Schema.mem_of_type? htype).1

/-- A node applies a fragment, which may have a name, under a registered condition: an inline
fragment states it, and a spread leaves it to the fragments of its name. -/
inductive Applies (schema : Schema) (document : Document) :
    Node → Option String → NamedType → Position → Prop
  | inline {node selections name condition} : node.item.condition = some name →
      schema.type? name.item = some condition →
      Applies schema document (.inline node selections) none condition node.span.start
  | spread {node condition} :
      Rules.conditionOf? schema document node.item.name.item = some condition →
      Applies schema document (.spread node) (some node.item.name.item) condition node.span.start

/-- The condition of a fragment that is applied is registered. -/
theorem Applies.registered {schema : Schema} {document : Document} {node : Node}
    {fragment : Option String} {condition : NamedType} {position : Position}
    (h : Applies schema document node fragment condition position) : condition ∈ schema.types := by
  cases h with
  | inline _ htype => exact (Schema.mem_of_type? htype).1
  | spread hcondition =>
      obtain ⟨_, _, htype⟩ := List.exists_of_findSome?_eq_some hcondition
      exact (Schema.mem_of_type? htype).1

/-- A fragment is rejected if a value of the type cannot be of the condition, provided both are
known. -/
theorem mem_possibleSpreads_check {schema : Schema} {place : Surroundings}
    {fragment : Option String} {condition : Option NamedType} {position : Position}
    {fault : Fault} :
    fault ∈ Rules.possibleSpreads.check schema place fragment condition position ↔
      ∃ parent known, place.parent = some parent ∧ condition = some known ∧
        ¬ Rules.canApply schema parent known ∧
        fault = ⟨.impossibleSpread fragment parent.name known.name, [position]⟩ := by
  unfold Rules.possibleSpreads.check
  cases place.parent with
  | none => simp
  | some parent =>
      cases condition with
      | none => simp
      | some known => by_cases happlies : Rules.canApply schema parent known <;> simp [happlies]

/-- The rule rejects what is applied and cannot be. -/
theorem mem_run_possibleSpreads {schema : Schema} {document : Document} {events : List Event}
    {fault : Fault} :
    fault ∈ (Rules.possibleSpreads schema document).run events ↔
      ∃ visit ∈ events, visit.phase = .enter ∧ ∃ fragment parent condition position,
        visit.place.parent = some parent ∧
        Applies schema document visit.node fragment condition position ∧
        ¬ Rules.canApply schema parent condition ∧
        fault = ⟨.impossibleSpread fragment parent.name condition.name, [position]⟩ := by
  rw [Rules.possibleSpreads, Rule.mem_run_onEnter]
  refine exists_congr fun visit => and_congr_right fun _ => and_congr_right fun _ => ?_
  obtain ⟨phase, node, place⟩ := visit
  constructor
  · intro hfault
    cases node with
    | inline node selections =>
        obtain ⟨parent, known, hparent, hknown, hrejected⟩ := mem_possibleSpreads_check.mp hfault
        obtain ⟨name, hname, htype⟩ := Option.bind_eq_some_iff.mp hknown
        exact ⟨none, parent, known, _, hparent, .inline hname htype, hrejected⟩
    | spread node =>
        obtain ⟨parent, known, hparent, hknown, hrejected⟩ := mem_possibleSpreads_check.mp hfault
        exact ⟨_, parent, known, _, hparent, .spread hknown, hrejected⟩
    | _ => cases hfault
  · intro hrejected
    obtain ⟨fragment, parent, condition, position, hparent, happlies, hrejected⟩ := hrejected
    cases happlies with
    | inline hname htype =>
        exact mem_possibleSpreads_check.mpr
          ⟨parent, condition, hparent, Option.bind_eq_some_iff.mpr ⟨_, hname, htype⟩, hrejected⟩
    | spread hcondition =>
        exact mem_possibleSpreads_check.mpr ⟨parent, condition, hparent, hcondition, hrejected⟩

/-! ## What overlap means -/

/-- What it means in a schema that types overlap: it does not depend on their order, and it holds
for a type and itself and for types that share an object; the possible types of an abstract type are
all objects that are possible for it, each listed once; and what the rule on spreads rejects are the
fragments whose condition is not the type they are applied to, shares no object with it, and is no
interface that implements it. -/
structure OverlapExact (schema : Schema) : Prop where
  symm : ∀ t ∈ schema.types, ∀ u ∈ schema.types, schema.overlap t u = schema.overlap u t
  overlap_iff : ∀ t ∈ schema.types, ∀ u ∈ schema.types,
    (schema.overlap t u ↔ t = u ∨ schema.SharesObject t u)
  possible_iff : ∀ t ∈ schema.types, t.kind.isAbstract → ∀ o,
    (o ∈ schema.possibleTypes t ↔ o ∈ schema.types ∧ o.isObject ∧ schema.isPossible t o)
  possible_nodup : ∀ t ∈ schema.types, (schema.possibleTypes t).Nodup
  rejects_iff : ∀ (document : Document) (fault : Fault),
    fault ∈ (Rules.possibleSpreads schema document).run (document.events schema) ↔
      ∃ visit ∈ document.events schema, visit.phase = .enter ∧
        ∃ fragment parent condition position, visit.place.parent = some parent ∧
          Applies schema document visit.node fragment condition position ∧
          (parent ≠ condition ∧ ¬ schema.SharesObject parent condition ∧
            ¬ (parent.isInterface ∧ condition.isInterface ∧
              Relation.TransGen schema.Lists condition.name parent.name)) ∧
          fault = ⟨.impossibleSpread fragment parent.name condition.name, [position]⟩

/-- **Overlap is exact.**  In a schema with which nothing is wrong, types overlap if and only if
they are the same or share an object. -/
theorem overlapExact_of_consistent {config : Schema.Config}
    (h : (Schema.ofConfig config).inconsistencies = []) :
    OverlapExact (Schema.ofConfig config) := by
  have hnodup := Schema.nodup_names_types config
  constructor
  case symm =>
    intro t ht u hu
    rw [Bool.eq_iff_iff, Schema.overlap_iff hnodup h ht hu, Schema.overlap_iff hnodup h hu ht]
    exact or_congr eq_comm (exists_congr fun _ => and_comm)
  case overlap_iff =>
    intro t ht u hu
    exact Schema.overlap_iff hnodup h ht hu
  case possible_iff =>
    intro t ht habstract o
    rw [Schema.mem_possibleTypes_iff hnodup h ht habstract,
      Schema.hasObject_iff_isPossible hnodup habstract]
  case possible_nodup =>
    intro t ht
    exact Schema.nodup_possibleTypes hnodup h ht
  case rejects_iff =>
    intro document fault
    rw [mem_run_possibleSpreads]
    refine exists_congr fun visit => and_congr_right fun hvisit => and_congr_right fun _ => ?_
    refine exists₄_congr fun fragment parent condition position => ?_
    refine and_congr_right fun hparent => and_congr_right fun happlies => and_congr_left fun _ => ?_
    have hregistered := Document.selects_registered _ document visit hvisit parent hparent
    rw [Schema.canApply_iff hnodup h hregistered happlies.registered, not_or, not_or]

/-- Nothing is wrong with the schema of media, in which a union and interfaces share objects. -/
theorem mediaConfig_overlapExact :
    (Schema.ofConfig mediaConfig).inconsistencies = [] ∧
      OverlapExact (Schema.ofConfig mediaConfig) :=
  ⟨mediaConfig_consistent, overlapExact_of_consistent mediaConfig_consistent⟩

/-- A union whose member is an interface, which lists another one; no object is there. -/
def lopsidedSchema : Schema where
  description := none
  query := none
  mutation := none
  subscription := none
  types := [
    { name := "Outer", shape := .interface [] [] },
    { name := "Inner", shape := .interface ["Outer"] [] },
    { name := "Either", shape := .union ["Inner"] }]
  directives := []
  ambiguous := []
  assumeValid := false

/-- Where a union has members that are no objects, the order of the types matters: the union and the
outer interface overlap only in one order. -/
example : lopsidedSchema.types.map
    (fun t => lopsidedSchema.types.map fun u => lopsidedSchema.overlap t u) =
      [[true, false, false], [false, true, false], [true, false, true]] := by cbv

end GraphQL
