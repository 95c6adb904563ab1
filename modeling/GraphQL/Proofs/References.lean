import GraphQL.Proofs.Building
import GraphQL.Proofs.Rebuilding

/-!
# References to types

A description refers to a type by wrappers around the name of a record. Reading a reference undoes
writing it, as long as there are at most seven wrappers; a type expression writes one layer that is
a required list as two of them. Other references can be read too, since a description need not have
been written by this library: exactly those that are a short chain of wrappers, in which no layer is
required twice, around a name that has a record.

Reading has two halves. `unwrap` takes the wrappers off and fails in one way only, by finding too
many of them or one around nothing; `rewrap` puts them on again from the inside. Both are described
by the wrappers alone, and the wrappers of a type expression are those of its reference.
-/

namespace GraphQL.Introspection

/-- A chain of wrappers, listed from the outside, around a reference to a named type. -/
inductive TypeRef.Wraps : TypeRef → List TypeKind → TypeRef → Prop
  | core {reference : TypeRef} (hkind : reference.kind.isWrapper = false) :
      Wraps reference [] reference
  | wrapper {kind : TypeKind} {name : Option String} {inner core : TypeRef}
      {wrappers : List TypeKind} (hkind : kind.isWrapper = true)
      (h : Wraps inner wrappers core) : Wraps (.wrapping kind name inner) (kind :: wrappers) core

/-- No layer is required twice. -/
def RequiredOnce (wrappers : List TypeKind) : Prop :=
  wrappers.IsChain fun outer inner => ¬(outer = .nonNull ∧ inner = .nonNull)

/-- A reference that leads, through some wrappers, to the record of a name. -/
structure TypeRef.Leads (records : List TypeRecord) (reference : TypeRef)
    (wrappers : List TypeKind) (name : String) : Prop where
  chain : ∃ core, reference.Wraps wrappers core ∧ core.name = some name
  short : wrappers.length ≤ 7
  requiredOnce : RequiredOnce wrappers
  recorded : ∃ record ∈ records, record.name = name

/-! ## Taking wrappers off -/

theorem TypeRef.Wraps.isWrapper {reference core : TypeRef} {wrappers : List TypeKind}
    (h : reference.Wraps wrappers core) : ∀ kind ∈ wrappers, kind.isWrapper = true := by
  induction h with
  | core _ => exact fun _ hmem => absurd hmem List.not_mem_nil
  | wrapper hkind _ ih => exact List.forall_mem_cons.mpr ⟨hkind, ih⟩

theorem unwrap_core (reference : TypeRef) (h : reference.kind.isWrapper = false) (budget : Nat) :
    unwrap budget reference = .ok ([], reference) := by
  cases reference with
  | plain kind name =>
      have hkind : kind.isWrapper = false := h
      simp [unwrap, hkind]
  | wrapping kind name ofType =>
      have hkind : kind.isWrapper = false := h
      cases budget <;> simp [unwrap, hkind]

/-- Within the budget, all wrappers are taken off. -/
theorem TypeRef.Wraps.unwrap_eq {reference core : TypeRef} {wrappers : List TypeKind}
    (h : reference.Wraps wrappers core) {budget : Nat} (hshort : wrappers.length ≤ budget) :
    unwrap budget reference = .ok (wrappers, core) := by
  induction h generalizing budget with
  | core hkind => exact unwrap_core _ hkind budget
  | wrapper hkind _ ih =>
      obtain ⟨budget, rfl⟩ := Nat.exists_eq_add_of_le' (Nat.one_le_of_lt hshort)
      rw [unwrap, hkind, ih (Nat.le_of_succ_le_succ hshort)]
      rfl

/-- Beyond the budget, there are too many of them. -/
theorem TypeRef.Wraps.unwrap_eq_tooDeep {reference core : TypeRef} {wrappers : List TypeKind}
    (h : reference.Wraps wrappers core) {budget : Nat} (hlong : budget < wrappers.length) :
    unwrap budget reference = .error .tooDeep := by
  induction h generalizing budget with
  | core _ => exact absurd hlong (Nat.not_lt_zero budget)
  | @wrapper kind name inner core wrappers hkind h ih =>
      cases budget with
      | zero => simp [unwrap, hkind]
      | succ budget =>
          rw [unwrap, hkind, ih (Nat.lt_of_succ_lt_succ hlong)]
          rfl

/-- What is left when the wrappers are off is a named type. -/
theorem wraps_of_unwrap {budget : Nat} {reference core : TypeRef} {wrappers : List TypeKind}
    (h : unwrap budget reference = .ok (wrappers, core)) :
    reference.Wraps wrappers core ∧ wrappers.length ≤ budget := by
  induction reference generalizing budget wrappers with
  | plain kind name =>
      cases hkind : kind.isWrapper with
      | false =>
          rw [unwrap_core (.plain kind name) hkind] at h
          cases h
          exact ⟨.core hkind, Nat.zero_le budget⟩
      | true => simp [unwrap, hkind] at h
  | wrapping kind name ofType ih =>
      cases hkind : kind.isWrapper with
      | false =>
          rw [unwrap_core (.wrapping kind name ofType) hkind] at h
          cases h
          exact ⟨.core hkind, Nat.zero_le budget⟩
      | true =>
          cases budget with
          | zero => simp [unwrap, hkind] at h
          | succ budget =>
              rw [unwrap, hkind] at h
              obtain ⟨⟨found, inner⟩, hfound, heq⟩ := bind_eq_ok h
              cases heq
              obtain ⟨hwraps, hshort⟩ := ih hfound
              exact ⟨.wrapper hkind hwraps, Nat.succ_le_succ hshort⟩

/-! ## Putting wrappers on -/

theorem length_wrappers (t : TypeLiteral) : (wrappers t).length = t.depth := by
  induction t with
  | named _ required => cases required <;> rfl
  | list item required ih => cases required <;> simp [wrappers, TypeExpr.depth, ih]

/-- A type is required exactly if its outermost wrapper says so. -/
theorem head?_wrappers (t : TypeLiteral) :
    (wrappers t).head? = some .nonNull ↔ t.isRequired = true := by
  cases t with
  | named _ required => cases required <;> simp [wrappers, TypeExpr.isRequired]
  | list _ required => cases required <;> simp [wrappers, TypeExpr.isRequired]

theorem wrappers_required {t : TypeLiteral} (h : t.isRequired = false) :
    wrappers t.required = .nonNull :: wrappers t := by
  cases t with
  | named _ required => simp_all [wrappers, TypeExpr.required, TypeExpr.isRequired]
  | list _ required => simp_all [wrappers, TypeExpr.required, TypeExpr.isRequired]

theorem innermost_required (t : TypeLiteral) : t.required.innermost = t.innermost := by
  cases t <;> rfl

theorem requiredOnce_cons {kind : TypeKind} {inner : List TypeKind} :
    RequiredOnce (kind :: inner) ↔
      RequiredOnce inner ∧ ¬(kind = .nonNull ∧ inner.head? = some .nonNull) := by
  cases inner with
  | nil => simp [RequiredOnce]
  | cons next rest =>
      simp only [RequiredOnce, List.isChain_cons_cons, List.head?_cons, Option.some.injEq]
      exact and_comm

/-- Wrappers in which no layer is required twice are those of a type. -/
theorem exists_wrappers_eq {kinds : List TypeKind} (hkinds : ∀ kind ∈ kinds, kind.isWrapper = true)
    (honce : RequiredOnce kinds) (name : String) :
    ∃ t : TypeLiteral, wrappers t = kinds ∧ t.innermost = name := by
  induction kinds with
  | nil => exact ⟨.named name false, rfl, rfl⟩
  | cons kind inner ih =>
      obtain ⟨hkind, hinner⟩ := List.forall_mem_cons.mp hkinds
      obtain ⟨honce, hhead⟩ := requiredOnce_cons.mp honce
      obtain ⟨t, rfl, hname⟩ := ih hinner honce
      cases kind with
      | list => exact ⟨.list t false, rfl, hname⟩
      | nonNull =>
          have hnullable : t.isRequired = false :=
            Bool.eq_false_iff.mpr fun h => hhead ⟨rfl, (head?_wrappers t).mpr h⟩
          exact ⟨t.required, wrappers_required hnullable, (innermost_required t).trans hname⟩
      | _ => cases hkind

/-- The wrappers that have been put on are those of the type that comes out. -/
theorem wrappers_of_rewrap {name : String} {kinds : List TypeKind} {t : TypeLiteral}
    (hkinds : ∀ kind ∈ kinds, kind.isWrapper = true)
    (h : rewrap (.named name false) kinds = .ok t) :
    wrappers t = kinds ∧ RequiredOnce kinds := by
  induction kinds generalizing t with
  | nil =>
      cases h
      exact ⟨rfl, .nil⟩
  | cons kind inner ih =>
      obtain ⟨hkind, hinner⟩ := List.forall_mem_cons.mp hkinds
      obtain ⟨u, hu, hrewrap⟩ := bind_eq_ok h
      obtain ⟨rfl, honce⟩ := ih hinner hu
      rw [requiredOnce_cons, head?_wrappers]
      cases kind with
      | list =>
          cases hrewrap
          exact ⟨rfl, honce, by simp⟩
      | nonNull =>
          cases hrequired : u.isRequired with
          | true => simp [hrequired, throw, throwThe, MonadExceptOf.throw] at hrewrap
          | false =>
              simp only [hrequired, if_true] at hrewrap
              cases hrewrap
              exact ⟨wrappers_required hrequired, honce, by simp⟩
      | _ => cases hkind

/-! ## References -/

/-- The reference to a type has the wrappers of the type around its name. -/
theorem wraps_typeRef (schema : Schema) (type : TypeLiteral) :
    (schema.typeRef type).Wraps (wrappers type) (schema.namedRef type.innermost) :=
  (wraps_of_unwrap (unwrap_typeRef type (Nat.le_refl _))).1

/-- The records that a schema is made from have different names. -/
theorem nodup_names_distinctRecords (given : List TypeRecord) :
    ((distinctRecords given).map TypeRecord.name).Nodup :=
  (putsByName_record.distinct_foldl given).nodup

theorem kindOf_eq_ok_iff {records : List TypeRecord} (h : (records.map TypeRecord.name).Nodup)
    {name : String} {kind : TypeKind} :
    kindOf records name = .ok kind ↔ Described records name kind := by
  refine ⟨kindOf_eq_ok, ?_⟩
  rintro ⟨record, hmem, hname, rfl⟩
  have hfind : records.find? (·.name = name) = some record :=
    (find?_key_iff h).mpr ⟨hmem, hname⟩
  rw [kindOf, hfind]

/-- Reading takes the wrappers off, looks the name up and puts the wrappers on again. -/
theorem decode_of_wraps {records : List TypeRecord} {reference core : TypeRef}
    {kinds : List TypeKind} {name : String} (hwraps : reference.Wraps kinds core)
    (hshort : kinds.length ≤ 7) (hname : core.name = some name) :
    decode records reference = (do
      let kind ← kindOf records name
      let t ← rewrap (.named name false) kinds
      return (t, kind)) := by
  rw [decode, maxWrappers, hwraps.unwrap_eq hshort]
  simp only [bind, Except.bind, hname]

theorem decode_of_leads {records : List TypeRecord} (h : (records.map TypeRecord.name).Nodup)
    {reference : TypeRef} {t : TypeLiteral} {kind : TypeKind}
    (hleads : reference.Leads records (wrappers t) t.innermost)
    (hkind : Described records t.innermost kind) :
    decode records reference = .ok (t, kind) := by
  obtain ⟨core, hwraps, hname⟩ := hleads.chain
  rw [decode_of_wraps hwraps hleads.short hname, (kindOf_eq_ok_iff h).mpr hkind, rewrap_wrappers]
  rfl

/-- What a reference stands for has the wrappers of the reference around its name. -/
theorem leads_of_decode {records : List TypeRecord} {reference : TypeRef} {t : TypeLiteral}
    {kind : TypeKind} (h : decode records reference = .ok (t, kind)) :
    reference.Leads records (wrappers t) t.innermost := by
  obtain ⟨record, hmem, hrecord, _⟩ := decode_eq_ok h
  obtain ⟨⟨kinds, core⟩, hunwrap, hrest⟩ := bind_eq_ok h
  obtain ⟨hwraps, hshort⟩ := wraps_of_unwrap hunwrap
  cases hname : core.name with
  | none => simp [hname, throw, throwThe, MonadExceptOf.throw] at hrest
  | some name =>
      simp only [hname] at hrest
      obtain ⟨found, _, hrest⟩ := bind_eq_ok hrest
      obtain ⟨u, hu, hrest⟩ := bind_eq_ok hrest
      cases hrest
      obtain ⟨rfl, honce⟩ := wrappers_of_rewrap hwraps.isWrapper hu
      have hinner : t.innermost = name := innermost_rewrap hu
      exact ⟨⟨core, hwraps, hinner ▸ hname⟩, hshort, honce, record, hmem, hrecord⟩

/-- What reading references has to do, given the records of a description. -/
structure DecodesExactly (records : List TypeRecord) : Prop where
  /-- If each type of a schema has a record, reading the reference to a type of this schema gives
  the type back, unless it has more than seven wrappers. -/
  typeRef : ∀ schema : Schema, (∀ t ∈ schema.types, Described records t.name t.kind) →
    ∀ (type : TypeLiteral) (t : NamedType), schema.type? type.innermost = some t →
      decode records (schema.typeRef type) =
        if type.depth ≤ 7 then .ok (type, t.kind) else .error .tooDeep
  /-- A reference can be read exactly if it is a short chain that leads to a record. -/
  readable_iff : ∀ reference : TypeRef, (∃ found, decode records reference = .ok found) ↔
    ∃ wrappers name, reference.Leads records wrappers name
  /-- What is read has the wrappers of the reference around the name inside, and the kind that the
  record of this name tells. -/
  found_iff : ∀ (reference : TypeRef) (type : TypeLiteral) (kind : TypeKind),
    decode records reference = .ok (type, kind) ↔
      reference.Leads records (wrappers type) type.innermost ∧
        Described records type.innermost kind

/-- **References are read exactly.**  Whatever records a description gives, a reference to a type is
read as this type up to seven wrappers, and no other references are read than short chains. -/
theorem decodesExactly_distinctRecords (given : List TypeRecord) :
    DecodesExactly (distinctRecords given) where
  typeRef schema hrecords type t ht := by
    have hwraps := wraps_typeRef schema type
    have hkind : Described (distinctRecords given) type.innermost t.kind := by
      obtain ⟨hmem, hname⟩ := Schema.mem_of_type? ht
      exact hname ▸ hrecords t hmem
    rw [← length_wrappers]
    by_cases hshort : (wrappers type).length ≤ 7
    · rw [if_pos hshort, decode_of_wraps hwraps hshort rfl,
        (kindOf_eq_ok_iff (nodup_names_distinctRecords given)).mpr hkind, rewrap_wrappers]
      rfl
    · rw [if_neg hshort, decode, maxWrappers, hwraps.unwrap_eq_tooDeep (Nat.lt_of_not_le hshort)]
      rfl
  readable_iff reference := by
    constructor
    · rintro ⟨⟨t, kind⟩, h⟩
      exact ⟨wrappers t, t.innermost, leads_of_decode h⟩
    · rintro ⟨kinds, name, hleads⟩
      obtain ⟨core, hwraps, _⟩ := hleads.chain
      obtain ⟨t, rfl, rfl⟩ := exists_wrappers_eq hwraps.isWrapper hleads.requiredOnce name
      obtain ⟨record, hmem, hname⟩ := hleads.recorded
      exact ⟨(t, record.kind), decode_of_leads (nodup_names_distinctRecords given) hleads
        ⟨record, hmem, hname, rfl⟩⟩
  found_iff reference type kind :=
    ⟨fun h => ⟨leads_of_decode h, decode_eq_ok h⟩, fun ⟨hleads, hkind⟩ =>
      decode_of_leads (nodup_names_distinctRecords given) hleads hkind⟩

/-- A schema with a single type. -/
def quaySchema : Schema where
  description := none
  query := none
  mutation := none
  subscription := none
  types := [{ name := "Quay", shape := .enum [] }]
  directives := []
  ambiguous := []
  assumeValid := false

/-- Three required lists of required items: seven wrappers. -/
def sevenfold : TypeLiteral :=
  .list (.list (.list (.named "Quay" true) true) true) true

/-- With the records of the schema itself, seven wrappers are read back and eight are too many. -/
theorem sevenfold_read_back :
    decode (distinctRecords (quaySchema.types.map quaySchema.describeType))
        (quaySchema.typeRef sevenfold) = .ok (sevenfold, .enum) ∧
      decode (distinctRecords (quaySchema.types.map quaySchema.describeType))
        (quaySchema.typeRef (.list sevenfold false)) = .error .tooDeep := by
  have h := decodesExactly_distinctRecords (quaySchema.types.map quaySchema.describeType)
  have hrecords : ∀ t ∈ quaySchema.types,
      Described (distinctRecords (quaySchema.types.map quaySchema.describeType)) t.name t.kind :=
    List.forall_mem_singleton.mpr ⟨_, List.mem_singleton.mpr rfl, rfl, rfl⟩
  exact ⟨h.typeRef quaySchema hrecords sevenfold _ rfl,
    h.typeRef quaySchema hrecords (.list sevenfold false) _ rfl⟩

end GraphQL.Introspection
