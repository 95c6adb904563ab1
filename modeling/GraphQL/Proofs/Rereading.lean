import GraphQL.Proofs.Consistency
import GraphQL.Proofs.Defaults
import GraphQL.Proofs.ValueText

/-!
# Default values after being written and read

A description holds default values as texts, so a client only has what it reads from them. In a
consistent schema, a default value that fits its type is read back up to where its parts stand: the
one thing that could go wrong, the name of an enum value that reads as `true`, `false` or `null`,
is excluded by consistency, since no enum has such a value.
-/

namespace GraphQL

namespace Value

mutual

/-- Whether all numbers of a value are whole numbers of 32 bits. -/
def wholeNumbers : Value → Bool
  | .int n => -2147483648 ≤ n && n ≤ 2147483647
  | .float _ => false
  | .list items => itemsWholeNumbers items
  | .object entries => entriesWholeNumbers entries
  | _ => true

/-- Whether all numbers of the items of a list are whole numbers of 32 bits. -/
def itemsWholeNumbers : List (Located Value) → Bool
  | [] => true
  | ⟨_, v⟩ :: rest => wholeNumbers v && itemsWholeNumbers rest

/-- Whether all numbers of the entries of an object are whole numbers of 32 bits. -/
def entriesWholeNumbers : List (Name × Located Value) → Bool
  | [] => true
  | (_, ⟨_, v⟩) :: rest => wholeNumbers v && entriesWholeNumbers rest

end

end Value

namespace Schema

/-! ## Places do not matter -/

mutual

/-- Whether a literal can be given does not depend on where its parts stand. -/
theorem literalFault?_bare (schema : Schema) (t : ResolvedType) : (v : Value) →
    schema.literalFault? t v.bare = schema.literalFault? t v
  | .list items => by
      cases t with
      | named core required => rfl
      | list item required =>
          simp only [Value.bare, literalFault?, itemsFault?_bareItems schema item items]
  | .object entries => by
      have hkeys : (Value.bareEntries entries).map (·.1.item) = entries.map (·.1.item) := by
        rw [Value.bareEntries_eq, List.map_map]
        rfl
      simp only [Value.bare, literalFault?, hkeys]
      cases t.innermost.shape with
      | inputObject fields =>
          simp only [entriesFault?_bareEntries schema t.innermost fields entries]
      | _ => rfl
  | .null | .int _ | .float _ | .string _ | .boolean _ | .enum _ | .variable _ => rfl

theorem itemsFault?_bareItems (schema : Schema) (t : ResolvedType) :
    (items : List (Located Value)) →
    schema.itemsFault? t (Value.bareItems items) = schema.itemsFault? t items
  | [] => rfl
  | ⟨_, v⟩ :: rest => by
      simp only [Value.bareItems, Located.unlocated, itemsFault?, literalFault?_bare schema t v,
        itemsFault?_bareItems schema t rest]

theorem entriesFault?_bareEntries (schema : Schema) (t : NamedType) (fields : List InputValue) :
    (entries : List (Name × Located Value)) →
    schema.entriesFault? t fields (Value.bareEntries entries) =
      schema.entriesFault? t fields entries
  | [] => rfl
  | (key, ⟨_, v⟩) :: rest => by
      have hrest := entriesFault?_bareEntries schema t fields rest
      have hv (type : ResolvedType) := literalFault?_bare schema type v
      simp only [Value.bareEntries, Located.unlocated, entriesFault?, hrest, hv]

end

/-! ## Accepted literals can be written -/

variable {schema : Schema}

/-- No value of an enum reads as another literal. -/
theorem value_not_reserved (h : schema.inconsistencies = []) {t : NamedType}
    (ht : t ∈ schema.types) {values : List EnumValue} (hshape : t.shape = .enum values)
    {value : EnumValue} (hvalue : value ∈ values) :
    value.name ≠ "true" ∧ value.name ≠ "false" ∧ value.name ≠ "null" := by
  have hfaults := typeFaults_of_mem h ht
  simp only [typeFaults, hshape, valueFaults, List.append_eq_nil_iff] at hfaults
  have hone := List.flatMap_eq_nil_iff.mp hfaults.2.2 value hvalue
  simpa using (List.append_eq_nil_iff.mp hone).2

/-- The type of a field of a registered input object is found, and it is registered. -/
theorem inputField_resolved (h : schema.inconsistencies = []) {t : NamedType}
    (ht : t ∈ schema.types) {field : InputValue} (hfield : field ∈ t.inputFields) :
    ∃ type, schema.resolve field.type = some type ∧ type.innermost ∈ schema.types := by
  obtain ⟨u, hu, _⟩ := inputField_registered h ht hfield
  obtain ⟨type, htype, hinner⟩ := resolve_of_innermost hu
  refine ⟨type, htype, ?_⟩
  rw [hinner]
  exact (mem_of_type? hu).1

mutual

/-- A literal that a registered type takes can be written, if its numbers can. -/
theorem wellFormed_of_accepted (h : schema.inconsistencies = []) {t : ResolvedType}
    (ht : t.innermost ∈ schema.types) : (v : Value) → v.wholeNumbers = true →
    schema.literalFault? t v = none → v.wellFormed = true
  | .int _, hnumbers, _ => hnumbers
  | .float _, hnumbers, _ => hnumbers
  | .enum name, _, hfault => by
      simp only [literalFault?, NamedType.leafFault?] at hfault
      cases hshape : t.innermost.shape with
      | enum values =>
          simp only [hshape, ite_eq_left_iff, reduceCtorEq, imp_false, not_not, List.any_eq_true,
            decide_eq_true_eq] at hfault
          obtain ⟨value, hvalue, hname⟩ := hfault
          have hfree := value_not_reserved h ht hshape hvalue
          rw [hname] at hfree
          simpa [Value.wellFormed, and_assoc] using hfree
      | _ => simp [hshape] at hfault
  | .list items, hnumbers, hfault => by
      cases t with
      | named core required => simp [literalFault?] at hfault
      | list item required =>
          exact itemsWellFormed_of_accepted (t := item) h ht items hnumbers hfault
  | .object entries, hnumbers, hfault => by
      simp only [literalFault?] at hfault
      cases hshape : t.innermost.shape with
      | inputObject fields =>
          have hfields : ∀ field ∈ fields, ∃ type,
              schema.resolve field.type = some type ∧ type.innermost ∈ schema.types := by
            intro field hfield
            exact inputField_resolved h ht (by simpa [NamedType.inputFields, hshape] using hfield)
          have hentries : schema.entriesFault? t.innermost fields entries = none := by
            cases hentries : schema.entriesFault? t.innermost fields entries with
            | none => rfl
            | some fault => simp [hshape, hentries] at hfault
          exact entriesWellFormed_of_accepted h hfields entries hnumbers hentries
      | _ => simp [hshape] at hfault
  | .null, _, _ | .string _, _, _ | .boolean _, _, _ | .variable _, _, _ => rfl

theorem itemsWellFormed_of_accepted (h : schema.inconsistencies = []) {t : ResolvedType}
    (ht : t.innermost ∈ schema.types) : (items : List (Located Value)) →
    Value.itemsWholeNumbers items = true → schema.itemsFault? t items = none →
    Value.itemsWellFormed items = true
  | [], _, _ => rfl
  | ⟨_, v⟩ :: rest, hnumbers, hfault => by
      simp only [Value.itemsWholeNumbers, Bool.and_eq_true] at hnumbers
      simp only [itemsFault?, Option.or_eq_none_iff] at hfault
      simp only [Value.itemsWellFormed, Bool.and_eq_true]
      exact ⟨wellFormed_of_accepted h ht v hnumbers.1 hfault.1,
        itemsWellFormed_of_accepted h ht rest hnumbers.2 hfault.2⟩

theorem entriesWellFormed_of_accepted (h : schema.inconsistencies = []) {t : NamedType}
    {fields : List InputValue} (hfields : ∀ field ∈ fields, ∃ type,
      schema.resolve field.type = some type ∧ type.innermost ∈ schema.types) :
    (entries : List (Name × Located Value)) → Value.entriesWholeNumbers entries = true →
    schema.entriesFault? t fields entries = none → Value.entriesWellFormed entries = true
  | [], _, _ => rfl
  | (key, ⟨_, v⟩) :: rest, hnumbers, hfault => by
      simp only [Value.entriesWholeNumbers, Bool.and_eq_true] at hnumbers
      simp only [Value.entriesWellFormed, Bool.and_eq_true]
      simp only [entriesFault?] at hfault
      cases hfind : fields.find? (·.name = key.item) with
      | none => simp [hfind] at hfault
      | some field =>
          obtain ⟨type, htype, hinner⟩ := hfields field (List.mem_of_find?_eq_some hfind)
          simp only [hfind, htype] at hfault
          cases hv : schema.literalFault? type v with
          | some fault => simp [hv] at hfault
          | none =>
              simp only [hv] at hfault
              exact ⟨wellFormed_of_accepted h hinner v hnumbers.1 hv,
                entriesWellFormed_of_accepted h hfields rest hnumbers.2 hfault⟩

end

/-! ## Reading default values back -/

/-- A default value that can be written and read back: the type of its place takes it, its numbers
are whole, it holds no variables, and its names are names. -/
structure Readable (schema : Schema) (input : InputValue) (v : Value) : Prop where
  accepted : ∀ type, schema.resolve input.type = some type → schema.literalFault? type v = none
  numbers : v.wholeNumbers = true
  constant : v.variableNames = []
  names : ∀ w ∈ v.words, w.isLexical = true

instance (schema : Schema) (input : InputValue) (v : Value) :
    Decidable (schema.Readable input v) :=
  decidable_of_iff ((∀ type ∈ schema.resolve input.type,
      (schema.literalFault? type v).isNone = true) ∧ v.wholeNumbers = true ∧
      v.variableNames = [] ∧ ∀ w ∈ v.words, w.isLexical = true)
    ⟨fun ⟨accepted, numbers, constant, names⟩ =>
      ⟨fun type h => Option.isNone_iff_eq_none.mp (accepted type h), numbers, constant, names⟩,
    fun h => ⟨fun type htype => Option.isNone_iff_eq_none.mpr (h.accepted type htype), h.numbers,
      h.constant, h.names⟩⟩

section

variable (h : schema.inconsistencies = []) {input : InputValue}
  (hinput : ∃ t, schema.type? input.type.innermost = some t) {v : Value}
  (hv : schema.Readable input v)

include h hinput hv

theorem Readable.parse_text :
    ∃ l, Value.parse v.text = .ok l ∧ l.item.bare = v.bare := by
  obtain ⟨t, ht⟩ := hinput
  obtain ⟨type, htype, hinner⟩ := resolve_of_innermost ht
  have hmem : type.innermost ∈ schema.types := by
    rw [hinner]
    exact (mem_of_type? ht).1
  have hform := wellFormed_of_accepted h hmem v hv.numbers (hv.accepted type htype)
  exact Value.parse_text ⟨hform, fun _ => hv.constant⟩ hv.names

theorem Readable.parse_eq_reread :
    ∃ l, Value.parse v.text = .ok l ∧ l.item = v.reread := by
  obtain ⟨l, hparse, _⟩ := hv.parse_text h hinput
  refine ⟨l, hparse, ?_⟩
  simp only [Value.reread, hparse]

theorem Readable.bare_reread : v.reread.bare = v.bare := by
  obtain ⟨l, hparse, hbare⟩ := hv.parse_text h hinput
  simpa only [Value.reread, hparse] using hbare

theorem Readable.text_reread : v.reread.text = v.text := by
  rw [← Value.text_bare v.reread, hv.bare_reread h hinput, Value.text_bare]

theorem Readable.literalFault?_reread (type : ResolvedType) :
    schema.literalFault? type v.reread = schema.literalFault? type v := by
  rw [← literalFault?_bare schema type v.reread, hv.bare_reread h hinput, literalFault?_bare]

end

end Schema

/-! ## Standard types -/

section

variable {g : Value → Value}

theorem InputValue.mapDefault_eq_self {input : InputValue}
    (h : ∀ v, input.default = some v → g v = v) : input.mapDefault g = input := by
  obtain ⟨name, type, description, default, deprecation⟩ := input
  cases default with
  | none => rfl
  | some v => simp [mapDefault, h v rfl]

theorem map_mapDefault_eq_self {inputs : List InputValue}
    (h : ∀ input ∈ inputs, input.mapDefault g = input) : inputs.map (·.mapDefault g) = inputs :=
  (List.map_congr_left (g := id) h).trans (List.map_id inputs)

theorem map_mapDefaults_eq_self {fields : List Field}
    (h : ∀ input ∈ fields.flatMap Field.arguments, input.mapDefault g = input) :
    fields.map (·.mapDefaults g) = fields := by
  refine (List.map_congr_left (g := id) fun field hfield => ?_).trans (List.map_id fields)
  rw [Field.mapDefaults, map_mapDefault_eq_self]
  · rfl
  · exact fun input hinput => h input (List.mem_flatMap_of_mem hfield hinput)

theorem NamedType.mapDefaults_eq_self {t : NamedType}
    (h : ∀ input ∈ t.inputs, input.mapDefault g = input) : t.mapDefaults g = t := by
  obtain ⟨name, description, shape⟩ := t
  rw [inputs, List.forall_mem_append] at h
  have hfields := map_mapDefaults_eq_self h.1
  have hinputs := map_mapDefault_eq_self h.2
  cases shape with
  | object interfaces fields => exact congrArg (mk name description <| .object interfaces ·) hfields
  | interface interfaces fields =>
      exact congrArg (mk name description <| .interface interfaces ·) hfields
  | inputObject fields => exact congrArg (mk name description <| .inputObject ·) hinputs
  | _ => rfl

end

/-- The only default value in standard types is false. -/
theorem Standard.default_eq_false {t : NamedType} (ht : t ∈ types) {input : InputValue}
    (hinput : input ∈ t.inputs) {v : Value} (hv : input.default = some v) :
    v = .boolean false := by
  have hall : types.all (fun t => t.inputs.all fun input =>
      input.default.all fun v => v.boolean? = some false) = true := by decide
  have hdefault := List.all_eq_true.mp (List.all_eq_true.mp hall t ht) input hinput
  rw [hv] at hdefault
  cases v with
  | boolean b => simpa [Value.boolean?] using hdefault
  | _ => simp [Value.boolean?] at hdefault

theorem Value.reread_false : reread (.boolean false) = .boolean false := by
  have hnames : ∀ w ∈ words (.boolean false), w.isLexical = true := by
    simp only [words, List.forall_mem_singleton]
    decide
  obtain ⟨l, hparse, hbare⟩ := parse_text ⟨rfl, fun _ => rfl⟩ hnames
  simp only [reread, hparse]
  cases hl : l.item with
  | boolean b => simpa [hl, bare] using hbare
  | _ => simp [hl, bare] at hbare

/-- Standard types are read back as they are. -/
theorem Standard.mapDefaults_reread {t : NamedType} (ht : t ∈ types) :
    t.mapDefaults Value.reread = t := by
  refine NamedType.mapDefaults_eq_self fun input hinput => ?_
  refine InputValue.mapDefault_eq_self fun v hv => ?_
  rw [default_eq_false ht hinput hv, Value.reread_false]

end GraphQL
