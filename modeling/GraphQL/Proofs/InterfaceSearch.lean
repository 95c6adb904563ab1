import GraphQL.Proofs.Reachability
import GraphQL.Proofs.Registry
import GraphQL.Schema.Subtype

/-!
# Looking for interfaces

Whether a type implements an interface is answered by a search that starts at the names the type
lists and goes on with what the types of these names list. Nothing is assumed of the schema: types
may list one another in circles, list names that nothing has, or list types that are no interfaces.

A name stands for one registered type at most, so a step of the search is a step from a registered
type to a name that it lists (`Lists`). The search therefore answers whether a chain of such steps
leads from the type to the name of the interface, and it ends as every search does.
-/

namespace GraphQL.Schema

/-- The names that the type of a name lists. -/
def listedBy (schema : Schema) (name : String) : List String :=
  ((schema.type? name).map NamedType.interfaces).getD []

/-- A registered type of the first name lists the second one, whether that is known or not. -/
def Lists (schema : Schema) (a b : String) : Prop :=
  ∃ t ∈ schema.types, t.name = a ∧ b ∈ t.interfaces

section

variable {schema : Schema} (hnodup : (Registry.names schema.types).Nodup)

include hnodup

/-- Under the name of a registered type stands what it lists. -/
theorem lists_name_iff {t : NamedType} (ht : t ∈ schema.types) {name : String} :
    schema.Lists t.name name ↔ name ∈ t.interfaces := by
  constructor
  · intro hlists
    obtain ⟨u, hu, hname, hlisted⟩ := hlists
    obtain rfl : u = t := List.inj_on_of_nodup_map hnodup hu ht hname
    exact hlisted
  · intro hlisted
    exact ⟨t, ht, rfl, hlisted⟩

/-- A step of the search leads from a registered type to a name that it lists. -/
theorem stepsTo_listedBy :
    Graph.StepsTo (schema.types.map NamedType.name) schema.listedBy = schema.Lists := by
  funext a b
  rw [eq_iff_iff, Graph.StepsTo, listedBy]
  constructor
  · intro h
    obtain ⟨_, hlisted⟩ := h
    cases htype : schema.type? a with
    | none => simp [htype] at hlisted
    | some t =>
        obtain ⟨ht, hname⟩ := mem_of_type? htype
        exact ⟨t, ht, hname, by simpa [htype] using hlisted⟩
  · intro h
    obtain ⟨t, ht, rfl, hlisted⟩ := h
    refine ⟨List.mem_map_of_mem ht, ?_⟩
    simpa [type?_of_mem hnodup ht] using hlisted

/-- A type implements what a chain of at least one step leads to. -/
theorem implements_iff_transGen {t u : NamedType} (ht : t ∈ schema.types) :
    schema.implements t u ↔ Relation.TransGen schema.Lists t.name u.name := by
  have hsearch : schema.implements t u ↔
      ∃ first ∈ t.interfaces, Relation.ReflTransGen schema.Lists first u.name := by
    rw [← stepsTo_listedBy hnodup, ← Graph.mem_reachable_iff]
    exact List.contains_iff_mem
  rw [hsearch, Relation.TransGen.head'_iff]
  refine exists_congr fun first => and_congr_left fun _ => ?_
  exact (lists_name_iff hnodup ht).symm

end

/-- What the search for interfaces does in a schema: it comes to an end for every registered type,
and it answers whether a chain of types and names that they list leads from the one type to the
other. -/
structure InterfaceSearchExact (schema : Schema) : Prop where
  ends : ∀ t ∈ schema.types, ∃ found,
    Graph.SearchEnds (schema.types.map NamedType.name) schema.listedBy t.interfaces found ∧
      ∀ u, schema.implements t u = found.contains u.name
  implements_iff : ∀ t ∈ schema.types, ∀ u ∈ schema.types,
    (schema.implements t u ↔ Relation.TransGen schema.Lists t.name u.name)

/-- **Interfaces are found exactly.**  This holds of every schema, consistent or not. -/
theorem interfaceSearchExact (config : Config) : (ofConfig config).InterfaceSearchExact where
  ends t _ := ⟨_, Graph.searchEnds _ _ t.interfaces, fun _ => rfl⟩
  implements_iff _ ht _ _ := implements_iff_transGen (nodup_names_types config) ht

/-- Two interfaces that list each other, and an object that lists one of them and a name that
nothing has. -/
def circularSchema : Schema where
  description := none
  query := some "Leaf"
  mutation := none
  subscription := none
  types := [
    { name := "Left", shape := .interface ["Right"] [] },
    { name := "Right", shape := .interface ["Left"] [] },
    { name := "Leaf", shape := .object ["Missing", "Right"] [] }]
  directives := []
  ambiguous := []
  assumeValid := false

/-- The circle leads back to where it starts, but not to the object. -/
example : circularSchema.types.map
    (fun t => circularSchema.types.map fun u => circularSchema.implements t u) =
      [[true, true, false], [true, true, false], [true, true, false]] := by cbv

end GraphQL.Schema
