import GraphQL.Proofs.Registry
import GraphQL.Schema.Consistency

/-!
# What consistency guarantees

A schema in which nothing is wrong can be used without looking back: every type that it names is
registered and of a kind that fits the place. The lemmas here read the list of faults backwards, one
place after the other; nothing else has to open the definition of a consistent schema.
-/

namespace GraphQL.Schema

variable {schema : Schema}

/-- Nothing is wrong with the type of something that can be given exactly if it is registered and
can be given. -/
theorem inputTypeFaults_eq_nil_iff {coordinate : String} {type : TypeLiteral} :
    schema.inputTypeFaults coordinate type = [] ↔
      ∃ t, schema.type? type.innermost = some t ∧ t.kind.isInput := by
  unfold inputTypeFaults
  cases h : schema.type? type.innermost with
  | none => simp
  | some t => simp

/-- Nothing is wrong with the type of a field exactly if it is registered and can be returned. -/
theorem outputTypeFaults_eq_nil_iff {coordinate : String} {type : TypeLiteral} :
    schema.outputTypeFaults coordinate type = [] ↔
      ∃ t, schema.type? type.innermost = some t ∧ t.kind.isOutput := by
  unfold outputTypeFaults
  cases h : schema.type? type.innermost with
  | none => simp
  | some t => simp

/-- If nothing is wrong with some arguments, their types can be given. -/
theorem argument_registered {owner : String} {earlier : List String}
    {arguments : List InputValue} (h : schema.argumentFaults owner earlier arguments = [])
    {argument : InputValue} (hmem : argument ∈ arguments) :
    ∃ t, schema.type? argument.type.innermost = some t ∧ t.kind.isInput := by
  induction arguments generalizing earlier with
  | nil => cases hmem
  | cons first rest ih =>
      simp only [argumentFaults, List.append_eq_nil_iff] at h
      obtain ⟨⟨⟨⟨_, _⟩, htype⟩, _⟩, hrest⟩ := h
      rcases List.mem_cons.mp hmem with rfl | hlater
      · exact inputTypeFaults_eq_nil_iff.mp htype
      · exact ih hrest hlater

/-- A type implements an interface without a fault: it is not the interface itself, lists what the
interface lists and provides its fields. -/
structure Implementation (schema : Schema) (t interface : NamedType) : Prop where
  isInterface : interface.isInterface
  name_ne : interface.name ≠ t.name
  ancestors : ancestorFaults t interface = []
  fields : schema.implementedFieldFaults t interface = []

/-- If nothing is wrong with the interfaces that a type lists, they are registered and implemented
without a fault. -/
theorem interface_of_mem {t : NamedType} {earlier names : List String}
    (h : schema.interfaceFaults t earlier names = []) {name : String} (hname : name ∈ names) :
    ∃ u, schema.type? name = some u ∧ schema.Implementation t u := by
  induction names generalizing earlier with
  | nil => cases hname
  | cons first rest ih =>
      unfold interfaceFaults at h
      cases htype : schema.type? first with
      | none => simp [htype] at h
      | some u =>
          simp only [htype] at h
          split at h
          · cases h
          · rename_i hinterface
            split at h
            · cases h
            · rename_i hself
              split at h
              · cases h
              · simp only [List.append_eq_nil_iff] at h
                rcases List.mem_cons.mp hname with rfl | hlater
                · have hnamed : u.name = name := (mem_of_type? htype).2
                  exact ⟨u, htype, by simpa using hinterface, hnamed ▸ hself, h.1.1, h.1.2⟩
                · exact ih h.2 hlater

/-- If nothing is wrong with the members of a union, they are registered objects. -/
theorem member_of_mem {union : String} {earlier members : List String}
    (h : schema.memberFaults union earlier members = []) {member : String}
    (hmember : member ∈ members) : ∃ u, schema.type? member = some u ∧ u.isObject := by
  induction members generalizing earlier with
  | nil => cases hmember
  | cons first rest ih =>
      simp only [memberFaults, List.append_eq_nil_iff] at h
      rcases List.mem_cons.mp hmember with rfl | hlater
      · have hfirst := h.1
        split at hfirst
        · cases hfirst
        · cases htype : schema.type? member with
          | none => simp [htype] at hfirst
          | some u => exact ⟨u, rfl, by simpa [htype] using hfirst⟩
      · exact ih h.2 hlater

section

variable (h : schema.inconsistencies = [])

include h

/-- Nothing is wrong with any type. -/
theorem typeFaults_of_mem {t : NamedType} (ht : t ∈ schema.types) :
    schema.typeFaults schema.endlessInputs t = [] := by
  simp only [inconsistencies, List.append_eq_nil_iff] at h
  exact List.flatMap_eq_nil_iff.mp h.2 t ht

/-- Nothing is wrong with any directive. -/
theorem directiveFaults_of_mem {directive : Directive} (hd : directive ∈ schema.directives) :
    schema.directiveFaults directive = [] := by
  simp only [inconsistencies, List.append_eq_nil_iff] at h
  exact List.flatMap_eq_nil_iff.mp h.1.2 directive hd

/-- Root types are registered objects. -/
theorem root_registered {kind : OperationKind} {name : String}
    (hroot : schema.rootName? kind = some name) :
    ∃ t, schema.type? name = some t ∧ t.isObject := by
  simp only [inconsistencies, rootFaults, List.append_eq_nil_iff] at h
  have hkind : kind ∈ OperationKind.all := by cases kind <;> simp [OperationKind.all]
  have hfaults := List.flatMap_eq_nil_iff.mp h.1.1.2.2 kind hkind
  rw [hroot] at hfaults
  cases htype : schema.type? name with
  | none => simp [htype] at hfaults
  | some t =>
      refine ⟨t, rfl, ?_⟩
      simpa [htype] using hfaults

/-- Nothing is wrong with the fields of an object or interface. -/
theorem fieldFaults_of_mem {t : NamedType} (ht : t ∈ schema.types) {field : Field}
    (hfield : field ∈ t.fields) : schema.fieldFaults t = [] := by
  have hfaults := typeFaults_of_mem h ht
  unfold typeFaults at hfaults
  unfold NamedType.fields at hfield
  split at hfield
  · rename_i interfaces fields hshape
    simp only [hshape, List.append_eq_nil_iff] at hfaults
    exact hfaults.2.1
  · rename_i interfaces fields hshape
    simp only [hshape, List.append_eq_nil_iff] at hfaults
    exact hfaults.2.1
  · cases hfield

/-- The interfaces that a type lists are registered and implemented without a fault. -/
theorem interface_implemented {t : NamedType} (ht : t ∈ schema.types) {name : String}
    (hname : name ∈ t.interfaces) :
    ∃ u, schema.type? name = some u ∧ schema.Implementation t u := by
  have hfaults := typeFaults_of_mem h ht
  unfold typeFaults at hfaults
  unfold NamedType.interfaces at hname
  split at hname
  · rename_i interfaces fields hshape
    simp only [hshape, List.append_eq_nil_iff] at hfaults
    exact interface_of_mem hfaults.2.2 hname
  · rename_i interfaces fields hshape
    simp only [hshape, List.append_eq_nil_iff] at hfaults
    exact interface_of_mem hfaults.2.2 hname
  · cases hname

/-- The interfaces that a type lists are registered interfaces other than the type itself. -/
theorem interface_registered {t : NamedType} (ht : t ∈ schema.types) {name : String}
    (hname : name ∈ t.interfaces) :
    ∃ u, schema.type? name = some u ∧ u.isInterface ∧ name ≠ t.name := by
  obtain ⟨u, hu, himplemented⟩ := interface_implemented h ht hname
  exact ⟨u, hu, himplemented.isInterface, (mem_of_type? hu).2 ▸ himplemented.name_ne⟩

/-- The members of a union are registered objects. -/
theorem member_registered {t : NamedType} (ht : t ∈ schema.types) {name : String}
    (hname : name ∈ t.members) : ∃ u, schema.type? name = some u ∧ u.isObject := by
  have hfaults := typeFaults_of_mem h ht
  unfold typeFaults at hfaults
  unfold NamedType.members at hname
  split at hname
  · rename_i members hshape
    simp only [hshape, List.append_eq_nil_iff] at hfaults
    exact member_of_mem hfaults.2.2 hname
  · cases hname

/-- Nothing is wrong with the type and the arguments of a field. -/
theorem faultless_of_field {t : NamedType} (ht : t ∈ schema.types) {field : Field}
    (hfield : field ∈ t.fields) :
    schema.outputTypeFaults (t.name ++ "." ++ field.name) field.type = [] ∧
      schema.argumentFaults (t.name ++ "." ++ field.name) [] field.arguments = [] := by
  have hfaults := fieldFaults_of_mem h ht hfield
  simp only [fieldFaults, List.append_eq_nil_iff] at hfaults
  have hone := List.flatMap_eq_nil_iff.mp hfaults.2 field hfield
  simp only [List.append_eq_nil_iff] at hone
  exact ⟨hone.1.2, hone.2⟩

/-- The types of fields are registered and can be returned. -/
theorem field_registered {t : NamedType} (ht : t ∈ schema.types) {field : Field}
    (hfield : field ∈ t.fields) :
    ∃ u, schema.type? field.type.innermost = some u ∧ u.kind.isOutput :=
  outputTypeFaults_eq_nil_iff.mp (faultless_of_field h ht hfield).1

/-- The types of the arguments of fields are registered and can be given. -/
theorem fieldArgument_registered {t : NamedType} (ht : t ∈ schema.types) {field : Field}
    (hfield : field ∈ t.fields) {argument : InputValue} (harg : argument ∈ field.arguments) :
    ∃ u, schema.type? argument.type.innermost = some u ∧ u.kind.isInput :=
  argument_registered (faultless_of_field h ht hfield).2 harg

/-- The types of the arguments of directives are registered and can be given. -/
theorem directiveArgument_registered {directive : Directive} (hd : directive ∈ schema.directives)
    {argument : InputValue} (harg : argument ∈ directive.arguments) :
    ∃ u, schema.type? argument.type.innermost = some u ∧ u.kind.isInput := by
  have hfaults := directiveFaults_of_mem h hd
  simp only [directiveFaults, List.append_eq_nil_iff] at hfaults
  exact argument_registered hfaults.2 harg

/-- The types of the fields of input objects are registered and can be given. -/
theorem inputField_registered {t : NamedType} (ht : t ∈ schema.types) {field : InputValue}
    (hfield : field ∈ t.inputFields) :
    ∃ u, schema.type? field.type.innermost = some u ∧ u.kind.isInput := by
  have hfaults := typeFaults_of_mem h ht
  unfold typeFaults at hfaults
  unfold NamedType.inputFields at hfield
  split at hfield
  · rename_i fields hshape
    simp only [hshape, inputFieldFaults, List.append_eq_nil_iff] at hfaults
    have hone := List.flatMap_eq_nil_iff.mp hfaults.2.1.2 field hfield
    simp only [List.append_eq_nil_iff] at hone
    exact inputTypeFaults_eq_nil_iff.mp hone.1.2
  · cases hfield

end

/-- If every name in a type expression that is looked up is known, the expression resolves. -/
theorem resolve_of_innermost {type : TypeLiteral} {t : NamedType}
    (h : schema.type? type.innermost = some t) :
    ∃ resolved, schema.resolve type = some resolved ∧ resolved.innermost = t := by
  unfold resolve
  induction type with
  | named name required =>
      refine ⟨.named t required, ?_, rfl⟩
      simp only [TypeExpr.innermost] at h
      simp [TypeExpr.resolve, h]
  | list item required ih =>
      obtain ⟨resolved, hresolved, hinner⟩ := ih h
      refine ⟨.list resolved required, ?_, hinner⟩
      simp [TypeExpr.resolve, hresolved]

end GraphQL.Schema
