import GraphQL.Introspection.Describe
import GraphQL.Proofs.Collecting

/-!
# Making a schema again

A schema lists the configuration that it can be made from again. The second time all its types are
given, also the standard ones that were added the first time. Built-in scalars that were left out
may still be named by unions, as interfaces or as roots: these are added once more, between the
given types, and left out once more, since no field and no argument has them. So the types of a
schema make its configuration complete (`Schema.complete_toConfig`), and a complete configuration
lists the types of its schema (`Schema.ofConfig_of_complete`).
-/

namespace GraphQL

namespace Schema

variable {config : Config}

/-! ## The configuration of a schema -/

/-- The directives of a schema are distinct. -/
theorem distinctDirectives_toConfig (config : Config) :
    (ofConfig config).toConfig.distinctDirectives = config.distinctDirectives :=
  Registry.directives_eq_self (Registry.nodup_names_directives _)

/-- The types of a schema are all that a schema of these types needs. Built-in scalars that were left
out of it may still be named, but not by fields or inputs. -/
theorem complete_toConfig (hscalars : config.ScalarsOnly) :
    (ofConfig config).toConfig.Complete := by
  have hregistered {name : String} (h : name ∈ Registry.names (collected config)) :
      name ∈ Registry.names (ofConfig config).types ∨ name ∈ builtinScalarNames := by
    by_cases hscalar : name ∈ builtinScalarNames
    · exact .inr hscalar
    · exact .inl (isSome_type?_iff.mp
        (registered_of_collected h fun hbuiltin => absurd hbuiltin hscalar))
  constructor
  case shared => exact fun t ht => shared_of_mem_types ht
  case nodup => exact nodup_names_types config
  case references =>
    intro t ht name hname hstandard
    exact hregistered (collected_closed (mem_types_iff.mp ht).1 hname hstandard)
  case others =>
    intro name hname hstandard
    rw [distinctDirectives_toConfig] at hname
    exact hregistered (collected_of_waiting hname hstandard)
  case scalars =>
    intro name hname
    rw [distinctDirectives_toConfig, toConfig, ← isSome_type?_iff]
    exact (builtinScalar_registered_iff hscalars hname).1

/-! ## Descriptions -/

section

variable (schema : Schema) (names : List String)

/-- Which names were ambiguous does not show in references to types. -/
theorem typeRef_ambiguous (type : TypeLiteral) :
    { schema with ambiguous := names }.typeRef type = schema.typeRef type := by
  induction type with
  | named name required => cases required <;> rfl
  | list item required ih => cases required <;> simp only [typeRef, ih]

theorem describeInput_ambiguous :
    { schema with ambiguous := names }.describeInput = schema.describeInput := by
  funext input
  simp only [describeInput, typeRef_ambiguous]

theorem describeField_ambiguous :
    { schema with ambiguous := names }.describeField = schema.describeField := by
  funext field
  simp only [describeField, typeRef_ambiguous, describeInput_ambiguous]

/-- Which names were ambiguous does not show in a description. -/
theorem describe_ambiguous : { schema with ambiguous := names }.describe = schema.describe := by
  have htype : { schema with ambiguous := names }.describeType = schema.describeType := by
    funext t
    simp only [describeType, describeField_ambiguous, describeInput_ambiguous]
    rfl
  have hdirective : { schema with ambiguous := names }.describeDirective =
      schema.describeDirective := by
    funext directive
    simp only [describeDirective, describeInput_ambiguous]
  simp only [describe, htype, hdirective]
  rfl

end

/-! ## The schema of the configuration of a schema -/

/-- **A schema is made again from what it lists.**  The schema of the configuration of a schema has
the same types and directives in the same order, and the same roots, description and trust; no name
is ambiguous any more, and it is described in the same way. -/
theorem ofConfig_toConfig_ofConfig (hscalars : config.ScalarsOnly) :
    ofConfig (ofConfig config).toConfig = { ofConfig config with ambiguous := [] } ∧
      (ofConfig (ofConfig config).toConfig).describe = (ofConfig config).describe := by
  have hagain : ofConfig (ofConfig config).toConfig = { ofConfig config with ambiguous := [] } := by
    rw [ofConfig_of_complete (complete_toConfig hscalars), distinctDirectives_toConfig]
    rfl
  exact ⟨hagain, by rw [hagain, describe_ambiguous]⟩

/-- A harbour: built-in scalars that no field and no argument has are named in a union, as an
interface and as a root, between types that are given twice or stand for standard ones. -/
def harbourConfig : Config where
  query := some "Query"
  subscription := some "ID"
  types := [
    ⟨"Cargo", none, .union ["Query", "Int"]⟩,
    ⟨"Query", none, .object ["Float"] [{ name := "cargo", type := .named "Cargo" false }]⟩,
    ⟨"__Field", none, .object [] []⟩,
    ⟨"Query", some "given again", .object [] []⟩,
    ⟨"ID", none, .scalar none⟩]

/-- The schema of the harbour is made again from what it lists. -/
theorem harbourConfig_made_again : harbourConfig.ScalarsOnly ∧
    ofConfig (ofConfig harbourConfig).toConfig = { ofConfig harbourConfig with ambiguous := [] } ∧
      (ofConfig (ofConfig harbourConfig).toConfig).describe =
        (ofConfig harbourConfig).describe := by
  have hscalars : harbourConfig.ScalarsOnly := by decide
  exact ⟨hscalars, ofConfig_toConfig_ofConfig hscalars⟩

end Schema

end GraphQL
