import Mathlib.Data.List.Basic
import GraphQL.Introspection.Describe
import GraphQL.Schema.Consistency

/-!
# What default values matter for

A schema whose default values are replaced by others is consistent exactly if it was before, and it
is described in the same way if the new values are written like the old ones: apart from their
texts, nothing but whether there is a default value at all is ever looked at. `Schema.mapDefaults`
replaces all default values of a schema; each function on schemas has a lemma here that says how it
sees the change, and most do not.
-/

namespace GraphQL

variable {g : Value → Value}

/-- Replaces the default value. -/
def InputValue.mapDefault (g : Value → Value) (input : InputValue) : InputValue :=
  { input with default := input.default.map g }

/-- Replaces the default values of the arguments. -/
def Field.mapDefaults (g : Value → Value) (field : Field) : Field :=
  { field with arguments := field.arguments.map (·.mapDefault g) }

/-- Replaces the default values of arguments and input fields. -/
def Shape.mapDefaults (g : Value → Value) : Shape → Shape
  | .object interfaces fields => .object interfaces (fields.map (·.mapDefaults g))
  | .interface interfaces fields => .interface interfaces (fields.map (·.mapDefaults g))
  | .inputObject fields => .inputObject (fields.map (·.mapDefault g))
  | .scalar specifiedBy => .scalar specifiedBy
  | .union members => .union members
  | .enum values => .enum values

/-- Replaces the default values of arguments and input fields. -/
def NamedType.mapDefaults (g : Value → Value) (t : NamedType) : NamedType :=
  { t with shape := t.shape.mapDefaults g }

/-- Replaces the default values of the arguments. -/
def Directive.mapDefaults (g : Value → Value) (directive : Directive) : Directive :=
  { directive with arguments := directive.arguments.map (·.mapDefault g) }

/-- Replaces all default values. The new schema is not trusted to be consistent. -/
def Schema.mapDefaults (g : Value → Value) (schema : Schema) : Schema :=
  { schema with
    types := schema.types.map (·.mapDefaults g)
    directives := schema.directives.map (·.mapDefaults g)
    assumeValid := false }

/-! ## Types -/

namespace InputValue

@[simp] theorem name_mapDefault (input : InputValue) : (input.mapDefault g).name = input.name := rfl

@[simp] theorem type_mapDefault (input : InputValue) : (input.mapDefault g).type = input.type := rfl

@[simp] theorem deprecation_mapDefault (input : InputValue) :
    (input.mapDefault g).deprecation = input.deprecation := rfl

@[simp] theorem isRequired_mapDefault (input : InputValue) :
    (input.mapDefault g).isRequired = input.isRequired := by
  simp [isRequired, mapDefault]

theorem find?_mapDefault (inputs : List InputValue) (name : String) :
    (inputs.map (·.mapDefault g)).find? (·.name = name) =
      (inputs.find? (·.name = name)).map (·.mapDefault g) := by
  rw [List.find?_map]
  rfl

end InputValue

namespace Field

@[simp] theorem name_mapDefaults (field : Field) : (field.mapDefaults g).name = field.name := rfl

@[simp] theorem type_mapDefaults (field : Field) : (field.mapDefaults g).type = field.type := rfl

@[simp] theorem arguments_mapDefaults (field : Field) :
    (field.mapDefaults g).arguments = field.arguments.map (·.mapDefault g) := rfl

@[simp] theorem argument?_mapDefaults (field : Field) (name : String) :
    (field.mapDefaults g).argument? name = (field.argument? name).map (·.mapDefault g) := by
  rw [argument?, argument?, arguments_mapDefaults, InputValue.find?_mapDefault]

end Field

namespace NamedType

variable (t : NamedType)

@[simp] theorem name_mapDefaults : (t.mapDefaults g).name = t.name := rfl

@[simp] theorem description_mapDefaults : (t.mapDefaults g).description = t.description := rfl

@[simp] theorem shape_mapDefaults : (t.mapDefaults g).shape = t.shape.mapDefaults g := rfl

@[simp] theorem kind_mapDefaults : (t.mapDefaults g).kind = t.kind := by
  cases h : t.shape <;> simp [kind, h, Shape.mapDefaults, Shape.kind]

@[simp] theorem fields_mapDefaults :
    (t.mapDefaults g).fields = t.fields.map (·.mapDefaults g) := by
  cases h : t.shape <;> simp [fields, h, Shape.mapDefaults]

@[simp] theorem interfaces_mapDefaults : (t.mapDefaults g).interfaces = t.interfaces := by
  cases h : t.shape <;> simp [interfaces, h, Shape.mapDefaults]

@[simp] theorem members_mapDefaults : (t.mapDefaults g).members = t.members := by
  cases h : t.shape <;> simp [members, h, Shape.mapDefaults]

@[simp] theorem inputFields_mapDefaults :
    (t.mapDefaults g).inputFields = t.inputFields.map (·.mapDefault g) := by
  cases h : t.shape <;> simp [inputFields, h, Shape.mapDefaults]

@[simp] theorem isObject_mapDefaults : (t.mapDefaults g).isObject = t.isObject := by
  simp [isObject]

@[simp] theorem isInterface_mapDefaults : (t.mapDefaults g).isInterface = t.isInterface := by
  simp [isInterface]

@[simp] theorem isInputObject_mapDefaults : (t.mapDefaults g).isInputObject = t.isInputObject := by
  simp [isInputObject]

@[simp] theorem field?_mapDefaults (name : String) :
    (t.mapDefaults g).field? name = (t.field? name).map (·.mapDefaults g) := by
  rw [field?, field?, fields_mapDefaults, List.find?_map]
  rfl

@[simp] theorem valueReferences_mapDefaults :
    (t.mapDefaults g).valueReferences = t.valueReferences := by
  simp [valueReferences, List.flatMap_map, Function.comp_def]

@[simp] theorem references_mapDefaults : (t.mapDefaults g).references = t.references := by
  simp [references]

end NamedType

@[simp] theorem Directive.name_mapDefaults (directive : Directive) :
    (directive.mapDefaults g).name = directive.name := rfl

@[simp] theorem Directive.references_mapDefaults (directive : Directive) :
    (directive.mapDefaults g).references = directive.references := by
  simp [references, mapDefaults]

namespace ResolvedType

@[simp] theorem literal_mapDefaults (t : ResolvedType) :
    ResolvedType.literal (TypeExpr.map (·.mapDefaults g) t) = t.literal := by
  induction t with
  | named core required => rfl
  | list item required ih => exact congrArg (TypeExpr.list · required) ih

@[simp] theorem same_mapDefaults (t u : ResolvedType) :
    ResolvedType.same (TypeExpr.map (·.mapDefaults g) t) (TypeExpr.map (·.mapDefaults g) u) =
      t.same u := by
  simp [same]

end ResolvedType

namespace Schema

variable (schema : Schema)

@[simp] theorem types_mapDefaults :
    (schema.mapDefaults g).types = schema.types.map (·.mapDefaults g) := rfl

@[simp] theorem directives_mapDefaults :
    (schema.mapDefaults g).directives = schema.directives.map (·.mapDefaults g) := rfl

@[simp] theorem type?_mapDefaults (name : String) :
    (schema.mapDefaults g).type? name = (schema.type? name).map (·.mapDefaults g) := by
  rw [type?, type?, types_mapDefaults, List.find?_map]
  rfl

@[simp] theorem rootName?_mapDefaults (kind : OperationKind) :
    (schema.mapDefaults g).rootName? kind = schema.rootName? kind := by
  cases kind <;> rfl

@[simp] theorem resolve_mapDefaults (type : TypeLiteral) :
    (schema.mapDefaults g).resolve type =
      (schema.resolve type).map (TypeExpr.map (·.mapDefaults g)) := by
  unfold resolve
  induction type with
  | named name required =>
      simp [TypeExpr.resolve, Function.comp_def, TypeExpr.map]
  | list item required ih =>
      simp [TypeExpr.resolve, ih, Function.comp_def, TypeExpr.map]

/-! ## Subtypes -/

@[simp] theorem ancestors_mapDefaults (t : NamedType) :
    (schema.mapDefaults g).ancestors (t.mapDefaults g) = schema.ancestors t := by
  simp [ancestors, Function.comp_def]

@[simp] theorem implements_mapDefaults (t interface : NamedType) :
    (schema.mapDefaults g).implements (t.mapDefaults g) (interface.mapDefaults g) =
      schema.implements t interface := by
  simp [implements]

@[simp] theorem isPossible_mapDefaults (abstract t : NamedType) :
    (schema.mapDefaults g).isPossible (abstract.mapDefaults g) (t.mapDefaults g) =
      schema.isPossible abstract t := by
  cases h : abstract.shape <;> simp [isPossible, h, Shape.mapDefaults]

theorem possibleTypes_mapDefaults (abstract : NamedType) :
    (schema.mapDefaults g).possibleTypes (abstract.mapDefaults g) =
      (schema.possibleTypes abstract).map (·.mapDefaults g) := by
  cases h : abstract.shape <;>
    simp [possibleTypes, h, Shape.mapDefaults, List.filter_map, List.map_filterMap,
      Function.comp_def]

@[simp] theorem isSubtypeOf_mapDefaults (t u : ResolvedType) :
    (schema.mapDefaults g).isSubtypeOf (TypeExpr.map (·.mapDefaults g) t)
      (TypeExpr.map (·.mapDefaults g) u) = schema.isSubtypeOf t u := by
  induction t generalizing u with
  | named core required =>
      cases u with
      | named other _ =>
          simp only [TypeExpr.map, isSubtypeOf, NamedType.kind_mapDefaults,
            NamedType.isObject_mapDefaults, NamedType.isInterface_mapDefaults,
            isPossible_mapDefaults]
          rfl
      | list _ _ => rfl
  | list item required ih =>
      cases u with
      | named _ _ => rfl
      | list other _ => simp only [TypeExpr.map, isSubtypeOf, ih]

/-! ## Faults -/

@[simp] theorem rootFaults_mapDefaults :
    (schema.mapDefaults g).rootFaults = schema.rootFaults := by
  have hquery : (schema.mapDefaults g).query = schema.query := rfl
  rw [rootFaults, rootFaults, hquery]
  rw [List.append_right_inj]
  refine List.flatMap_congr fun kind _ => ?_
  rw [rootName?_mapDefaults]
  cases schema.rootName? kind with
  | none => rfl
  | some name => cases h : schema.type? name <;> simp [h]

@[simp] theorem inputTypeFaults_mapDefaults (coordinate : String) (type : TypeLiteral) :
    (schema.mapDefaults g).inputTypeFaults coordinate type =
      schema.inputTypeFaults coordinate type := by
  cases h : schema.type? type.innermost <;> simp [inputTypeFaults, h]

@[simp] theorem outputTypeFaults_mapDefaults (coordinate : String) (type : TypeLiteral) :
    (schema.mapDefaults g).outputTypeFaults coordinate type =
      schema.outputTypeFaults coordinate type := by
  cases h : schema.type? type.innermost <;> simp [outputTypeFaults, h]

@[simp] theorem argumentFaults_mapDefaults (owner : String) (earlier : List String)
    (arguments : List InputValue) :
    (schema.mapDefaults g).argumentFaults owner earlier (arguments.map (·.mapDefault g)) =
      schema.argumentFaults owner earlier arguments := by
  induction arguments generalizing earlier with
  | nil => rfl
  | cons argument rest ih => simp [argumentFaults, ih]

@[simp] theorem directiveFaults_mapDefaults (directive : Directive) :
    (schema.mapDefaults g).directiveFaults (directive.mapDefaults g) =
      schema.directiveFaults directive := by
  simp [directiveFaults, Directive.mapDefaults]

@[simp] theorem fieldFaults_mapDefaults (t : NamedType) :
    (schema.mapDefaults g).fieldFaults (t.mapDefaults g) = schema.fieldFaults t := by
  simp [fieldFaults, List.flatMap_map]

@[simp] theorem ancestorFaults_mapDefaults (t interface : NamedType) :
    ancestorFaults (t.mapDefaults g) (interface.mapDefaults g) = ancestorFaults t interface := by
  simp only [ancestorFaults, NamedType.interfaces_mapDefaults]
  rfl

@[simp] theorem implementedArgumentFaults_mapDefaults (t interface : NamedType)
    (field expected : Field) :
    (schema.mapDefaults g).implementedArgumentFaults (t.mapDefaults g) (interface.mapDefaults g)
      (field.mapDefaults g) (expected.mapDefaults g) =
      schema.implementedArgumentFaults t interface field expected := by
  simp only [implementedArgumentFaults, Field.arguments_mapDefaults, List.flatMap_map]
  refine congrArg₂ (· ++ ·) (List.flatMap_congr fun argument _ => ?_)
    (List.flatMap_congr fun own _ => by simp)
  · simp only [Field.argument?_mapDefaults, InputValue.name_mapDefault]
    cases field.argument? argument.name with
    | none => rfl
    | some own =>
        simp only [Option.map_some, resolve_mapDefaults, InputValue.type_mapDefault]
        cases schema.resolve argument.type <;> cases schema.resolve own.type <;> simp

@[simp] theorem implementedFieldFaults_mapDefaults (t interface : NamedType) :
    (schema.mapDefaults g).implementedFieldFaults (t.mapDefaults g) (interface.mapDefaults g) =
      schema.implementedFieldFaults t interface := by
  simp only [implementedFieldFaults, NamedType.fields_mapDefaults, List.flatMap_map]
  refine List.flatMap_congr fun expected _ => ?_
  simp only [NamedType.field?_mapDefaults, Field.name_mapDefaults]
  cases t.field? expected.name with
  | none => rfl
  | some field =>
      simp only [Option.map_some, resolve_mapDefaults, Field.type_mapDefaults]
      cases schema.resolve field.type <;> cases schema.resolve expected.type <;> simp

@[simp] theorem interfaceFaults_mapDefaults (t : NamedType) (earlier names : List String) :
    (schema.mapDefaults g).interfaceFaults (t.mapDefaults g) earlier names =
      schema.interfaceFaults t earlier names := by
  induction names generalizing earlier with
  | nil => rfl
  | cons name rest ih =>
      simp only [interfaceFaults, type?_mapDefaults]
      cases schema.type? name with
      | none => simp [ih]
      | some interface => simp [ih]

@[simp] theorem memberFaults_mapDefaults (union : String) (earlier members : List String) :
    (schema.mapDefaults g).memberFaults union earlier members =
      schema.memberFaults union earlier members := by
  induction members generalizing earlier with
  | nil => rfl
  | cons member rest ih =>
      simp only [memberFaults, ih, type?_mapDefaults]
      cases schema.type? member with
      | none => rfl
      | some t => simp

@[simp] theorem inputFieldFaults_mapDefaults (t : NamedType) (fields : List InputValue) :
    (schema.mapDefaults g).inputFieldFaults (t.mapDefaults g) (fields.map (·.mapDefault g)) =
      schema.inputFieldFaults t fields := by
  simp [inputFieldFaults, List.flatMap_map]

@[simp] theorem inputObjects_mapDefaults :
    (schema.mapDefaults g).inputObjects = schema.inputObjects := by
  simp [inputObjects, List.filter_map, Function.comp_def]

@[simp] theorem requiredInputs_mapDefaults :
    (schema.mapDefaults g).requiredInputs = schema.requiredInputs := by
  funext name
  simp only [requiredInputs, type?_mapDefaults]
  cases schema.type? name with
  | none => rfl
  | some t =>
      simp only [Option.map_some, NamedType.inputFields_mapDefaults, List.filterMap_map]
      refine List.filterMap_congr fun field _ => ?_
      have hinput (target : String) : ((schema.type? target).map (·.mapDefaults g)).any
          NamedType.isInputObject = (schema.type? target).any NamedType.isInputObject := by
        cases schema.type? target <;> simp
      simp only [Function.comp_def, InputValue.type_mapDefault, InputValue.name_mapDefault, hinput]

@[simp] theorem endlessInputs_mapDefaults :
    (schema.mapDefaults g).endlessInputs = schema.endlessInputs := by
  simp [endlessInputs]

@[simp] theorem typeFaults_mapDefaults (endless : List (String × List Inconsistency))
    (t : NamedType) :
    (schema.mapDefaults g).typeFaults endless (t.mapDefaults g) = schema.typeFaults endless t := by
  rw [typeFaults, typeFaults, NamedType.name_mapDefaults, NamedType.shape_mapDefaults]
  rw [List.append_right_inj]
  cases t.shape <;> simp [Shape.mapDefaults, valueFaults]

/-- **Consistency does not look at default values.** -/
@[simp] theorem inconsistencies_mapDefaults :
    (schema.mapDefaults g).inconsistencies = schema.inconsistencies := by
  have hambiguous : (schema.mapDefaults g).ambiguous = schema.ambiguous := rfl
  simp [inconsistencies, hambiguous, List.flatMap_map]

/-! ## Descriptions -/

end Schema

/-- The arguments and input fields of a type. -/
def NamedType.inputs (t : NamedType) : List InputValue :=
  t.fields.flatMap Field.arguments ++ t.inputFields

namespace Schema

/-- All arguments and input fields of a schema. -/
def inputs (schema : Schema) : List InputValue :=
  schema.types.flatMap NamedType.inputs ++ schema.directives.flatMap Directive.arguments

/-- A replacement of default values that keeps how the default value of an input is written. -/
def KeepsText (g : Value → Value) (input : InputValue) : Prop :=
  ∀ v, input.default = some v → (g v).text = v.text

variable (schema : Schema)

theorem mem_inputs_of_mem_types {schema : Schema} {t : NamedType} (ht : t ∈ schema.types)
    {input : InputValue} (h : input ∈ t.inputs) : input ∈ schema.inputs :=
  List.mem_append_left _ (List.mem_flatMap_of_mem ht h)

theorem mem_inputs_of_mem_directives {schema : Schema} {directive : Directive}
    (hd : directive ∈ schema.directives) {input : InputValue} (h : input ∈ directive.arguments) :
    input ∈ schema.inputs :=
  List.mem_append_right _ (List.mem_flatMap_of_mem hd h)

theorem inputs_mapDefaults :
    (schema.mapDefaults g).inputs = schema.inputs.map (·.mapDefault g) := by
  have htypes (t : NamedType) : (t.mapDefaults g).inputs = t.inputs.map (·.mapDefault g) := by
    simp [NamedType.inputs, List.flatMap_map, List.map_flatMap]
  have hdirectives (d : Directive) :
      (d.mapDefaults g).arguments = d.arguments.map (·.mapDefault g) := rfl
  simp [inputs, List.flatMap_map, List.map_flatMap, htypes, hdirectives]

@[simp] theorem namedRef_mapDefaults (name : String) :
    (schema.mapDefaults g).namedRef name = schema.namedRef name := by
  simp [namedRef, Function.comp_def]

@[simp] theorem typeRef_mapDefaults (type : TypeLiteral) :
    (schema.mapDefaults g).typeRef type = schema.typeRef type := by
  fun_induction typeRef schema type with
  | case1 name => simp [typeRef]
  | case2 name => simp [typeRef]
  | case3 item ih => simp [typeRef, ih]
  | case4 item ih => simp [typeRef, ih]

theorem describeInput_mapDefault {input : InputValue} (h : KeepsText g input) :
    (schema.mapDefaults g).describeInput (input.mapDefault g) = schema.describeInput input := by
  have hdefault : (input.default.map g).map Value.text = input.default.map Value.text := by
    cases hv : input.default with
    | none => rfl
    | some v => simp [h v hv]
  simp [describeInput, InputValue.mapDefault, hdefault]

theorem describeInputs_mapDefault {inputs : List InputValue} (h : ∀ i ∈ inputs, KeepsText g i) :
    (inputs.map (·.mapDefault g)).map (schema.mapDefaults g).describeInput =
      inputs.map schema.describeInput := by
  rw [List.map_map]
  exact List.map_congr_left fun input hinput => schema.describeInput_mapDefault (h input hinput)

theorem describeFields_mapDefaults {fields : List Field}
    (h : ∀ field ∈ fields, ∀ i ∈ field.arguments, KeepsText g i) :
    (fields.map (·.mapDefaults g)).map (schema.mapDefaults g).describeField =
      fields.map schema.describeField := by
  rw [List.map_map]
  refine List.map_congr_left fun field hfield => ?_
  have harguments := schema.describeInputs_mapDefault (h field hfield)
  simp only [Function.comp_def, describeField, Field.arguments_mapDefaults, harguments,
    Field.type_mapDefaults, typeRef_mapDefaults]
  rfl

theorem describeType_mapDefaults {t : NamedType} (h : ∀ i ∈ t.inputs, KeepsText g i) :
    (schema.mapDefaults g).describeType (t.mapDefaults g) = schema.describeType t := by
  have hspecified : (t.mapDefaults g).specifiedBy? = t.specifiedBy? := by
    cases hshape : t.shape <;> simp [NamedType.specifiedBy?, hshape, Shape.mapDefaults]
  have hfields := schema.describeFields_mapDefaults fun field hfield input hinput =>
    h input (List.mem_append_left _ (List.mem_flatMap_of_mem hfield hinput))
  have hinputs := schema.describeInputs_mapDefault fun input hinput =>
    h input (List.mem_append_right _ hinput)
  cases hshape : t.shape <;>
    simp_all [describeType, Shape.mapDefaults, NamedType.fields, NamedType.inputFields,
      possibleTypes_mapDefaults, Function.comp_def]

/-- **Descriptions show the texts of default values only.** -/
theorem describe_mapDefaults (h : ∀ input ∈ schema.inputs, KeepsText g input) :
    (schema.mapDefaults g).describe = schema.describe := by
  have hroot (name : String) :
      (schema.mapDefaults g).describeRoot name = schema.describeRoot name := by
    simp [describeRoot, Function.comp_def]
  have htypes : (schema.types.map (·.mapDefaults g)).map (schema.mapDefaults g).describeType =
      schema.types.map schema.describeType := by
    rw [List.map_map]
    exact List.map_congr_left fun t ht => schema.describeType_mapDefaults fun input hinput =>
      h input (mem_inputs_of_mem_types ht hinput)
  have hdirectives :
      (schema.directives.map (·.mapDefaults g)).map (schema.mapDefaults g).describeDirective =
        schema.directives.map schema.describeDirective := by
    rw [List.map_map]
    refine List.map_congr_left fun directive hd => ?_
    have harguments := schema.describeInputs_mapDefault fun input hinput =>
      h input (mem_inputs_of_mem_directives hd hinput)
    simp only [Function.comp_def, describeDirective, Directive.mapDefaults, harguments]
  simp only [describe, types_mapDefaults, directives_mapDefaults, htypes, hdirectives,
    funext hroot]
  rfl

/-! ## Literals -/

end Schema

theorem TypeExpr.innermost_map {α β : Type} (f : α → β) (t : TypeExpr α) :
    (t.map f).innermost = f t.innermost := by
  induction t with
  | named core required => rfl
  | list item required ih => exact ih

theorem TypeExpr.outermostRequired?_map {α β : Type} (f : α → β) (t : TypeExpr α) :
    (t.map f).outermostRequired? = t.outermostRequired?.map (map f) := by
  induction t with
  | named core required => cases required <;> rfl
  | list item required ih => cases required <;> simp [map, outermostRequired?, ih]

@[simp] theorem NamedType.leafFault?_mapDefaults (t : NamedType) (value : Value) :
    (t.mapDefaults g).leafFault? value = t.leafFault? value := by
  unfold leafFault?
  rw [shape_mapDefaults, name_mapDefaults]
  cases t.shape <;> rfl

theorem missingFields_mapDefault (fields : List InputValue) (given : List String) :
    missingFields (fields.map (·.mapDefault g)) given = missingFields fields given := by
  simp only [missingFields, List.filter_map, List.map_map, List.any_map, Function.comp_def,
    InputValue.isRequired_mapDefault]
  rfl

namespace Schema

variable (schema : Schema)

mutual

/-- Which literals can be given does not depend on default values. -/
theorem literalFault?_mapDefaults (t : ResolvedType) : (v : Value) →
    ((schema.mapDefaults g).literalFault? (TypeExpr.map (·.mapDefaults g) t) v = none ↔
      schema.literalFault? t v = none)
  | .null => by simp [literalFault?, TypeExpr.outermostRequired?_map]
  | .variable _ => by simp [literalFault?]
  | .list items => by
      cases t with
      | named core required => simp [literalFault?, TypeExpr.map]
      | list item required =>
          simpa [literalFault?, TypeExpr.map] using itemsFault?_mapDefaults item items
  | .object entries => by
      simp only [literalFault?, TypeExpr.innermost_map, NamedType.shape_mapDefaults]
      cases hshape : t.innermost.shape with
      | inputObject fields =>
          have hentries := entriesFault?_mapDefaults t.innermost fields entries
          simp only [Shape.mapDefaults, missingFields_mapDefault]
          cases hfault : schema.entriesFault? t.innermost fields entries with
          | none => simp [hentries.mpr hfault]
          | some fault =>
              cases hfault' : (schema.mapDefaults g).entriesFault? (t.innermost.mapDefaults g)
                  (fields.map (·.mapDefault g)) entries with
              | none => simp [hentries.mp hfault'] at hfault
              | some fault' => simp
      | _ => simp [Shape.mapDefaults]
  | .int _ | .float _ | .string _ | .boolean _ | .enum _ => by
      simp [literalFault?, TypeExpr.innermost_map]

theorem itemsFault?_mapDefaults (t : ResolvedType) : (items : List (Located Value)) →
    ((schema.mapDefaults g).itemsFault? (TypeExpr.map (·.mapDefaults g) t) items = none ↔
      schema.itemsFault? t items = none)
  | [] => by simp [itemsFault?]
  | ⟨_, v⟩ :: rest => by
      simp [itemsFault?, literalFault?_mapDefaults t v, itemsFault?_mapDefaults t rest]

theorem entriesFault?_mapDefaults (t : NamedType) (fields : List InputValue) :
    (entries : List (Name × Located Value)) →
    ((schema.mapDefaults g).entriesFault? (t.mapDefaults g) (fields.map (·.mapDefault g))
      entries = none ↔ schema.entriesFault? t fields entries = none)
  | [] => by simp [entriesFault?]
  | (key, ⟨_, v⟩) :: rest => by
      have hrest := entriesFault?_mapDefaults t fields rest
      simp only [entriesFault?, InputValue.find?_mapDefault]
      cases fields.find? (·.name = key.item) with
      | none => simp
      | some field =>
          simp only [Option.map_some, InputValue.type_mapDefault, resolve_mapDefaults]
          cases schema.resolve field.type with
          | none => exact hrest
          | some type =>
              have hv := literalFault?_mapDefaults type v
              simp only [Option.map_some]
              cases hfault : schema.literalFault? type v with
              | none => simpa [hv.mpr hfault] using hrest
              | some fault =>
                  cases hfault' : (schema.mapDefaults g).literalFault?
                      (TypeExpr.map (·.mapDefaults g) type) v with
                  | none => simp [hv.mp hfault'] at hfault
                  | some fault' => simp

end

end Schema

end GraphQL
