import GraphQL.Proofs.Rebuilding
import GraphQL.Proofs.Snapshot
import GraphQL.Proofs.Wire

/-!
# Clients see the schema of the server

A server describes its schema, the description is sent as JSON, and the client makes a schema from
what it gets. `Introspection.buildAnswer_describe` says that the client's schema is described like
the server's, so nothing that a description can show is lost on the way.

The client's schema is the server's, with each default value as it is read from its text. That the
client registers the same types in the same order is the part that concerns the whole schema: the
types of a schema make its configuration complete, and reading default values again changes nothing
that completeness is about.
-/

namespace GraphQL

namespace Schema

variable {config : Config}

/-! ## Registering the types of a schema again -/

theorem names_mapDefaults {g : Value → Value} (types : List NamedType) :
    Registry.names (types.map (·.mapDefaults g)) = Registry.names types := by
  simp [Registry.names, Function.comp_def]

theorem valueReferences_mapDefaults {g : Value → Value} (types : List NamedType)
    (directives : List Directive) :
    Registry.valueReferences (types.map (·.mapDefaults g)) (directives.map (·.mapDefaults g)) =
      Registry.valueReferences types directives := by
  simp [Registry.valueReferences, List.flatMap_map]

/-- A type that stands for itself still does after its default values are read again. -/
theorem shared_mapDefaults_reread {t : NamedType} (h : Registry.shared t = t) :
    Registry.shared (t.mapDefaults Value.reread) = t.mapDefaults Value.reread := by
  have hof : Standard.of? (t.mapDefaults Value.reread) = Standard.of? t := by
    rw [Standard.of?, Standard.of?, NamedType.name_mapDefaults, NamedType.kind_mapDefaults]
  cases hstandard : Standard.of? t with
  | none => simp [Registry.shared, hof, hstandard]
  | some u =>
      rw [Standard.mapDefaults_reread (Registry.mem_standard_of_shared h hstandard).2]
      exact h

/-- The directives of a schema are distinct. -/
theorem distinctDirectives_mapDefaults (config : Config) (g : Value → Value) :
    ((ofConfig config).mapDefaults g).toConfig.distinctDirectives =
      (ofConfig config).directives.map (·.mapDefaults g) := by
  refine Registry.directives_eq_self ?_
  have hnodup := Registry.nodup_names_directives (config.directives.getD Directive.specified)
  rwa [toConfig, Option.getD_some, directives_mapDefaults, List.map_map]

/-- The types of a schema are all that a schema of these types needs, also after their default values
are read again. -/
theorem complete_mapDefaults_reread (hscalars : config.ScalarsOnly) :
    ((ofConfig config).mapDefaults Value.reread).toConfig.Complete := by
  have hcomplete := complete_toConfig hscalars
  have hdirectives := distinctDirectives_mapDefaults config Value.reread
  have hnames : Registry.names ((ofConfig config).mapDefaults Value.reread).toConfig.types =
      Registry.names (ofConfig config).toConfig.types :=
    names_mapDefaults (ofConfig config).types
  constructor
  case shared =>
    intro t ht
    obtain ⟨u, hu, rfl⟩ := List.mem_map.mp ht
    exact shared_mapDefaults_reread (shared_of_mem_types hu)
  case nodup =>
    rw [hnames]
    exact hcomplete.nodup
  case references =>
    intro t ht name hname hstandard
    obtain ⟨u, hu, rfl⟩ := List.mem_map.mp ht
    rw [NamedType.references_mapDefaults] at hname
    rw [hnames]
    exact hcomplete.references u hu name hname hstandard
  case others =>
    intro name hname hstandard
    rw [hdirectives, List.flatMap_map] at hname
    simp only [Directive.references_mapDefaults] at hname
    rw [hnames]
    refine hcomplete.others name ?_ hstandard
    rw [distinctDirectives_toConfig]
    exact hname
  case scalars =>
    intro name hname
    rw [hnames, hdirectives, hcomplete.scalars name hname, distinctDirectives_toConfig]
    exact iff_of_eq (congrArg (name ∈ ·) (valueReferences_mapDefaults _ _).symm)

/-- The types of a consistent schema are registered as they are. -/
theorem ofConfig_toConfig (hconsistent : (ofConfig config).inconsistencies = [])
    (hscalars : config.ScalarsOnly) :
    ofConfig ((ofConfig config).mapDefaults Value.reread).toConfig =
      (ofConfig config).mapDefaults Value.reread := by
  have hambiguous : (ofConfig config).ambiguous = [] := by
    simp only [inconsistencies, List.append_eq_nil_iff, List.map_eq_nil_iff] at hconsistent
    exact hconsistent.1.1.1
  rw [ofConfig_of_complete (complete_mapDefaults_reread hscalars), distinctDirectives_mapDefaults]
  simp only [toConfig, mapDefaults, hambiguous]

end Schema

namespace Introspection

/-! ## Checking default values again -/

theorem forM_eq_ok {α : Type} {check : α → Build Unit} {items : List α}
    (h : ∀ a ∈ items, check a = .ok ()) : items.forM check = .ok () := by
  induction items with
  | nil => rfl
  | cons a items ih =>
      have hitems := ih fun b hb => h b (List.mem_cons_of_mem _ hb)
      rw [List.forM, h a List.mem_cons_self]
      exact hitems

theorem mem_inputs_of_mem_inputCoordinates {schema : Schema} {coordinate : String}
    {input : InputValue} (h : (coordinate, input) ∈ inputCoordinates schema) :
    input ∈ schema.inputs := by
  rcases List.mem_append.mp h with htypes | hdirectives
  · obtain ⟨t, ht, hmem⟩ := List.mem_flatMap.mp htypes
    refine Schema.mem_inputs_of_mem_types (List.mem_filter.mp ht).1 ?_
    rcases List.mem_append.mp hmem with hfields | hinputs
    · obtain ⟨field, hfield, hcoordinates⟩ := List.mem_flatMap.mp hfields
      obtain ⟨argument, hargument, heq⟩ := List.mem_map.mp hcoordinates
      cases heq
      exact List.mem_append_left _ (List.mem_flatMap_of_mem hfield hargument)
    · obtain ⟨field, hfield, heq⟩ := List.mem_map.mp hinputs
      cases heq
      exact List.mem_append_right _ hfield
  · obtain ⟨directive, hd, hcoordinates⟩ := List.mem_flatMap.mp hdirectives
    obtain ⟨argument, hargument, heq⟩ := List.mem_map.mp hcoordinates
    cases heq
    exact Schema.mem_inputs_of_mem_directives hd hargument

/-- A default value that is read again still fits its type. -/
theorem checkDefault_reread {schema : Schema} (h : schema.Describable) {input : InputValue}
    (hinput : input ∈ schema.inputs) (coordinate : String) :
    checkDefault (schema.mapDefaults Value.reread) coordinate (input.mapDefault Value.reread) =
      .ok () := by
  cases hv : input.default with
  | none => simp [checkDefault, InputValue.mapDefault, hv]
  | some v =>
      obtain ⟨hregistered, hreadable⟩ := readable_of_default h hinput hv
      cases htype : schema.resolve input.type with
      | none => simp [checkDefault, InputValue.mapDefault, hv, htype]
      | some type =>
          have hold : schema.literalFault? type v.reread = none := by
            rw [hreadable.literalFault?_reread h.consistent hregistered]
            exact hreadable.accepted type htype
          have hnew := (Schema.literalFault?_mapDefaults (g := Value.reread) schema type
            v.reread).mpr hold
          simp [checkDefault, InputValue.mapDefault, hv, htype, hnew]

/-! ## The round trip -/

/-- A schema is made again from its description, with default values as they are read. -/
theorem build_describe {config : Schema.Config} (h : (Schema.ofConfig config).Describable)
    (hscalars : ∀ t ∈ config.types, t.name ∈ builtinScalarNames → t.kind = .scalar) :
    build (Schema.ofConfig config).describe {} =
      .ok ((Schema.ofConfig config).mapDefaults Value.reread) := by
  have hconfig : buildConfig (Schema.ofConfig config).describe {} =
      .ok ((Schema.ofConfig config).mapDefaults Value.reread).toConfig :=
    buildConfig_describe h (fun _ ht => Schema.shared_of_mem_types ht) {}
  have hschema := Schema.ofConfig_toConfig h.consistent hscalars
  have hdefaults : ∀ entry ∈ inputCoordinates ((Schema.ofConfig config).mapDefaults Value.reread),
      checkDefault ((Schema.ofConfig config).mapDefaults Value.reread) entry.1 entry.2 =
        .ok () := by
    intro entry hmem
    have hinput := mem_inputs_of_mem_inputCoordinates hmem
    rw [Schema.inputs_mapDefaults] at hinput
    obtain ⟨original, horiginal, hread⟩ := List.mem_map.mp hinput
    rw [← hread]
    exact checkDefault_reread h horiginal entry.1
  have hconsistent : ((Schema.ofConfig config).mapDefaults Value.reread).inconsistencies = [] := by
    rw [Schema.inconsistencies_mapDefaults]
    exact h.consistent
  rw [build, hconfig]
  simp only [bind, Except.bind, hschema]
  rw [forM_eq_ok hdefaults, hconsistent]
  rfl

theorem buildAnswer_toAnswer (record : SchemaRecord) (options : BuildOptions) :
    buildAnswer record.toAnswer options = build record options := by
  obtain ⟨entries, hschema, hread⟩ := record.reader_toAnswer
  simp only [buildAnswer, hschema, hread]

/-- **Nothing is lost in a description.**  The schema that a client makes from the description of a
consistent schema is described in the same way, if no other type takes the name of a built-in
scalar, no type is wrapped more than seven times, and the default values can be read back. -/
theorem buildAnswer_describe (config : Schema.Config)
    (hconsistent : (Schema.ofConfig config).inconsistencies = [])
    (hscalars : ∀ t ∈ config.types, t.name ∈ builtinScalarNames → t.kind = .scalar)
    (hdepth : ∀ type ∈ (Schema.ofConfig config).valueTypes, type.depth ≤ 7)
    (hdefaults : ∀ input ∈ (Schema.ofConfig config).inputs, ∀ v ∈ input.default,
      (Schema.ofConfig config).Readable input v) :
    ∃ client, buildAnswer (Schema.ofConfig config).describe.toAnswer {} = .ok client ∧
      client.describe = (Schema.ofConfig config).describe := by
  have h : (Schema.ofConfig config).Describable :=
    ⟨Schema.nodup_names_types config, hconsistent, hdepth, hdefaults⟩
  refine ⟨(Schema.ofConfig config).mapDefaults Value.reread, ?_, ?_⟩
  · rw [buildAnswer_toAnswer, build_describe h hscalars]
  · refine Schema.describe_mapDefaults _ fun input hinput v hv => ?_
    obtain ⟨hregistered, hreadable⟩ := readable_of_default h hinput hv
    exact hreadable.text_reread hconsistent hregistered

end Introspection

/-- A schema of books with default values of all sorts. -/
def shelfConfig : Schema.Config where
  description := some "Books."
  query := some "Query"
  types := [
    { name := "Query", shape := .object [] [
      { name := "books", type := .list (.list (.list (.named "Book" true) true) true) true,
        arguments := [
          { name := "order", type := .named "Order" true, default := some (.enum "NEWEST") },
          { name := "filter", type := .named "Filter" false,
            default := some (.ofEntries [
              ("tags", .ofItems [.string "new", .string "say \"hi\""]), ("limit", .int (-1))]) }] },
      { name := "any", type := .named "Any" false,
        deprecation := .deprecated (some "Use books.") }] },
    { name := "Item", shape := .interface [] [{ name := "title", type := .named "String" false }] },
    { name := "Book", shape := .object ["Item"] [
      { name := "title", type := .named "String" true }] },
    { name := "Any", shape := .union ["Book"] },
    { name := "Order", shape := .enum [
      { name := "NEWEST" }, { name := "OLDEST", deprecation := .deprecated none }] },
    { name := "Filter", shape := .inputObject [
      { name := "tags", type := .list (.named "String" true) false, default := some (.ofItems []) },
      { name := "limit", type := .named "Int" false, default := some .null }] }] ++
    (Standard.scalars.filter fun t => ["Int", "String", "Boolean"].contains t.name) ++
    Standard.introspection
  directives := some [
    { name := "cache", locations := [.field], repeatable := true,
      arguments := [
        { name := "fresh", type := .named "Boolean" false, default := some (.boolean true) }] }]

/-- The configuration lists all types of its schema. -/
theorem shelfConfig_closed : shelfConfig.Closed where
  shared := Registry.shared_of_map_shared rfl
  nodup := by decide +kernel
  references := by decide +kernel
  others := by decide +kernel
  scalars := by decide +kernel

/-- The schema of the configuration. -/
def shelfSchema : Schema where
  description := some "Books."
  query := some "Query"
  mutation := none
  subscription := none
  types := shelfConfig.types
  directives := shelfConfig.directives.getD []
  ambiguous := []
  assumeValid := false

/-- No input object has to contain itself. -/
theorem shelfSchema_endlessInputs : shelfSchema.endlessInputs = [("Filter", [])] := by
  have hobjects : shelfSchema.inputObjects = ["Filter"] := by decide +kernel
  have hrequired : shelfSchema.requiredInputs "Filter" = [] := by decide +kernel
  simp [Schema.endlessInputs, Graph.cyclesByStart, Graph.searchFrom, Graph.followPath, hobjects,
    hrequired]

/-- Nothing is wrong with the schema. -/
theorem shelfSchema_consistent : shelfSchema.inconsistencies = [] := by
  rw [Schema.inconsistencies, shelfSchema_endlessInputs]
  exact List.isEmpty_iff.mp (by decide +kernel)

/-- The schema of books is made again from its description. -/
theorem shelfSchema_made_again :
    ∃ client, Introspection.buildAnswer (Schema.ofConfig shelfConfig).describe.toAnswer {} =
        .ok client ∧ client.describe = (Schema.ofConfig shelfConfig).describe := by
  have hschema : Schema.ofConfig shelfConfig = shelfSchema :=
    Schema.ofConfig_of_closed shelfConfig_closed
  refine Introspection.buildAnswer_describe shelfConfig ?_ ?_ ?_ ?_
  · rw [hschema]
    exact shelfSchema_consistent
  · decide +kernel
  · rw [hschema]
    decide +kernel
  · rw [hschema]
    decide +kernel

end GraphQL
