import Mathlib.Data.List.Induction
import Mathlib.Data.List.Nodup
import GraphQL.Introspection.Wire

/-!
# Descriptions survive JSON

What is written as a JSON tree is read back from it: for every record of a description, reading
undoes writing. Objects keep their entries in the order of their keys, so a record is not read in
the order in which it is written; it is enough that sorting entries of different keys only permutes
them (`sorted_perm`), for then each key leads to the one entry that was written under it. What is
absent is mostly written as null; where absent and null differ, only null is written.
-/

namespace GraphQL

namespace Json

/-- The entries of an object in the order of their keys. -/
def sorted (entries : List (String × Json)) : List (String × Json) :=
  entries.foldl (fun sorted (k, v) => insertEntry k v sorted) []

/-- An entry of a new key is added to the others. -/
theorem insertEntry_perm {key : String} {value : Json} {entries : List (String × Json)}
    (h : key ∉ entries.map Prod.fst) :
    (insertEntry key value entries).Perm ((key, value) :: entries) := by
  induction entries with
  | nil => exact .refl _
  | cons entry entries ih =>
      obtain ⟨k, v⟩ := entry
      obtain ⟨hne, hothers⟩ : key ≠ k ∧ key ∉ entries.map Prod.fst := by simpa using h
      by_cases hlt : key < k
      · rw [insertEntry, if_pos hlt]
      · rw [insertEntry, if_neg hlt, if_neg hne]
        exact ((ih hothers).cons _).trans (.swap _ _ _)

/-- Sorting entries of different keys permutes them. -/
theorem sorted_perm {entries : List (String × Json)} (h : (entries.map Prod.fst).Nodup) :
    (sorted entries).Perm entries := by
  suffices hrun : ∀ rest done : List (String × Json), ((done ++ rest).map Prod.fst).Nodup →
      (rest.foldl (fun sorted (k, v) => insertEntry k v sorted) done).Perm (done ++ rest) by
    simpa [sorted] using hrun entries [] (by simpa using h)
  intro rest
  induction rest with
  | nil =>
      intro done _
      simp
  | cons entry rest ih =>
      intro done hnodup
      obtain ⟨k, v⟩ := entry
      have hmove : (done ++ (k, v) :: rest).Perm ((k, v) :: done ++ rest) := List.perm_middle
      have hnew : k ∉ done.map Prod.fst := by
        have hmoved := (hmove.map Prod.fst).nodup_iff.mp hnodup
        simp only [List.cons_append, List.map_cons, List.map_append, List.nodup_cons,
          List.mem_append] at hmoved
        exact fun hmem => hmoved.1 (.inl hmem)
      have hinsert : (insertEntry k v done ++ rest).Perm (done ++ (k, v) :: rest) :=
        ((insertEntry_perm hnew).append_right rest).trans hmove.symm
      rw [List.foldl_cons]
      exact (ih _ ((hinsert.map Prod.fst).nodup_iff.mpr hnodup)).trans hinsert

/-- If the keys are different, a key of which one entry was written leads to that entry. -/
theorem filter_sorted {entries : List (String × Json)} (h : (entries.map Prod.fst).Nodup)
    (isKey : String → Bool) {entry : String × Json}
    (hentry : entries.filter (fun e => isKey e.1) = [entry]) :
    (sorted entries).filter (fun e => isKey e.1) = [entry] := by
  have hperm := (sorted_perm h).filter fun e => isKey e.1
  rw [hentry] at hperm
  exact List.perm_singleton.mp hperm

/-- The first entry is found under its key, the others under other keys. -/
theorem lookup_entry_cons (key other : String) (value : Json) (entries : List (String × Json)) :
    ((key, value) :: entries).lookup other =
      if other = key then some value else entries.lookup other := by
  by_cases hsame : other = key
  · rw [if_pos hsame, hsame, List.lookup_cons_self]
  · rw [if_neg hsame, List.lookup_cons, beq_false_of_ne hsame]

/-- An entry that is inserted is found under its key, the others under other keys. -/
theorem lookup_insertEntry (key other : String) (value : Json) (entries : List (String × Json)) :
    (insertEntry key value entries).lookup other =
      if other = key then some value else entries.lookup other := by
  induction entries with
  | nil => exact lookup_entry_cons key other value []
  | cons entry entries ih =>
      obtain ⟨k, v⟩ := entry
      by_cases hlt : key < k
      · rw [insertEntry, if_pos hlt, lookup_entry_cons]
      · by_cases hsame : key = k
        · subst hsame
          rw [insertEntry, if_neg hlt, if_pos rfl, lookup_entry_cons, lookup_entry_cons]
          by_cases hother : other = key <;> simp [hother]
        · rw [insertEntry, if_neg hlt, if_neg hsame, lookup_entry_cons, lookup_entry_cons, ih]
          by_cases hother : other = key
          · simp [hother, hsame]
          · simp [hother]

/-- Of several entries under a key the last one counts. -/
theorem get?_ofEntries (entries : List (String × Json)) (key : String) :
    (ofEntries entries).get? key = entries.reverse.lookup key := by
  induction entries using List.reverseRecOn with
  | nil => rfl
  | append_singleton entries entry ih =>
      obtain ⟨k, v⟩ := entry
      rw [List.reverse_append, List.reverse_singleton, List.singleton_append, lookup_entry_cons,
        ← ih]
      simp only [ofEntries, get?, List.foldl_append, List.foldl_cons, List.foldl_nil]
      exact lookup_insertEntry k key v _

/-- A value of an object is less deep than the object. -/
theorem depth_lt_ofEntries {entries : List (String × Json)} (h : (entries.map Prod.fst).Nodup)
    (key : String) {value : Json} (hmem : (key, value) ∈ entries) :
    value.depth < (ofEntries entries).depth := by
  have hsorted : (key, value) ∈ sorted entries := (sorted_perm h).mem_iff.mpr hmem
  have hdepth : (ofEntries entries).depth = entriesDepth (sorted entries) + 1 := by
    rw [ofEntries, depth]
    rfl
  rw [hdepth, Nat.lt_succ_iff]
  generalize sorted entries = sorted at hsorted
  induction sorted with
  | nil => cases hsorted
  | cons entry sorted ih =>
      rw [entriesDepth]
      rcases List.mem_cons.mp hsorted with rfl | hsorted
      · exact Nat.le_max_left _ _
      · exact Nat.le_trans (ih hsorted) (Nat.le_max_right _ _)

/-! ## Readers -/

namespace Reader

variable {α : Type}

/-- A list is read back if its items are. -/
theorem list_array {read : Reader α} {write : α → Json} {items : List α}
    (h : ∀ a ∈ items, read (write a) = .ok a) :
    Reader.list read (.array (items.map write)) = .ok items := by
  unfold Reader.list
  dsimp only
  induction items with
  | nil => rfl
  | cons a items ih =>
      have ha := h a List.mem_cons_self
      have hitems := ih fun b hb => h b (List.mem_cons_of_mem _ hb)
      rw [List.map_cons, List.mapM_cons, ha, hitems]
      rfl

/-- Something optional is read back if it is never written as null. -/
theorem nullable_ofOption {read : Reader α} {write : α → Json} {o : Option α}
    (h : ∀ a ∈ o, read (write a) = .ok a ∧ write a ≠ .null) :
    read.nullable (Json.ofOption write o) = .ok o := by
  cases o with
  | none => rfl
  | some a =>
      obtain ⟨hread, hnull⟩ := h a rfl
      rw [Json.ofOption]
      unfold Reader.nullable
      split
      · rename_i hwrite
        exact absurd hwrite hnull
      · rw [hread]
        rfl

/-- One of some names is read back if no two have the same name. -/
theorem oneOf_string {all : List α} {name : α → String} {a : α}
    (h : all.find? (name · = name a) = some a) :
    Reader.oneOf all name (.string (name a)) = .ok a := by
  simp only [Reader.oneOf, Reader.oneOf.known, h]

end Reader

/-! ## Records -/

namespace Record

variable {α β : Type} {raw : List (String × Json)} {name : String} {read : Reader α}

/-- A record is read from the given entries, if they are of different keys. -/
def Gives (record : Record α) (raw : List (String × Json)) (a : α) : Prop :=
  (raw.map Prod.fst).Nodup → ∀ first, (record.read first (.entries (sorted raw))).outcome = .ok a

theorem Gives.seq {f : Record (α → β)} {record : Record α} {g : α → β} {a : α}
    (hf : f.Gives raw g) (ha : record.Gives raw a) : (f <*> record).Gives raw (g a) := by
  intro hraw first
  have hg := hf hraw first
  have hx := ha hraw (first + f.size)
  simp only [Seq.seq, Reading.apply, hg, hx]

theorem Gives.map {record : Record α} {a : α} (f : α → β) (ha : record.Gives raw a) :
    (f <$> record).Gives raw (f a) :=
  Gives.seq (f := pure f) (fun _ _ => rfl) ha

/-- A field is read from the one entry that was written under one of its names. -/
theorem gives_field {aliases : List String} {key : String} {value : Json}
    (hentry : raw.filter (fun e => (name :: aliases).contains e.1) = [(key, value)]) {a : α}
    (hread : read value = .ok a) (absent : Option α) :
    (field name aliases read absent).Gives raw a := by
  intro hraw first
  have hone := filter_sorted hraw (name :: aliases).contains hentry
  have hmap : ((sorted raw).zipIdx.filter fun e => (name :: aliases).contains e.1.1).map Prod.fst =
      [(key, value)] := by
    rw [← hone]
    conv => rhs; rw [← List.zipIdx_map_fst 0 (sorted raw), List.filter_map]
    rfl
  obtain ⟨⟨entry, step⟩, hzip, hvalue⟩ := List.map_eq_singleton_iff.mp hmap
  subst hvalue
  simp only [field, hzip, hread]
  rfl

/-- A field that was not written has the value of an absent one. -/
theorem gives_absent {aliases : List String}
    (hentry : raw.filter (fun e => (name :: aliases).contains e.1) = []) (a : α) :
    (field name aliases read (some a)).Gives raw a := by
  intro hraw first
  have hnone : (sorted raw).filter (fun e => (name :: aliases).contains e.1) = [] := by
    have hperm := (sorted_perm hraw).filter fun e => (name :: aliases).contains e.1
    rw [hentry] at hperm
    exact hperm.eq_nil
  have hzip : (sorted raw).zipIdx.filter (fun e => (name :: aliases).contains e.1.1) = [] := by
    rw [← List.zipIdx_map_fst 0 (sorted raw), List.filter_map] at hnone
    exact List.map_eq_nil_iff.mp hnone
  simp only [field, hzip]
  rfl

theorem gives_required {value : Json}
    (hentry : raw.filter (fun e => [name].contains e.1) = [(name, value)]) {a : α}
    (hread : read value = .ok a) : (required name read).Gives raw a :=
  gives_field hentry hread none

theorem gives_optional {write : α → Json} {o : Option α}
    (hentry : raw.filter (fun e => [name].contains e.1) = [(name, Json.ofOption write o)])
    (hread : ∀ a ∈ o, read (write a) = .ok a ∧ write a ≠ .null) :
    (optional name read).Gives raw o :=
  gives_field hentry (Reader.nullable_ofOption hread) (some none)

/-- A field that has a value even if it is absent is read, unless it is written as null. -/
theorem gives_orElse {value : Json}
    (hentry : raw.filter (fun e => [name].contains e.1) = [(name, value)]) {a : α}
    (hread : read.nullable value = .ok (some a)) (default : α) :
    (orElse name read default).Gives raw a :=
  .map (·.getD default) (gives_field hentry hread (some none))

/-- Reading a record from an object of its entries. -/
theorem reader_ofEntries {record : Record α} {a : α} (hraw : (raw.map Prod.fst).Nodup)
    (h : record.Gives raw a) (title : String) : reader title record (.ofEntries raw) = .ok a := by
  have hread := h hraw 0
  simp only [Json.ofEntries, reader]
  exact congrArg (Except.mapError Prod.snd) hread

end Record

end Json

namespace Introspection

open Json Record

/-! ## References to types -/

theorem kindReader_name (kind : TypeKind) : kindReader (.string kind.name) = .ok kind :=
  Reader.oneOf_string (by cases kind <;> rfl)

/-- Strings are read back and are not null. -/
theorem reads_string (o : Option String) :
    ∀ s ∈ o, Reader.string (.string s) = .ok s ∧ Json.string s ≠ .null :=
  fun _ _ => ⟨rfl, nofun⟩

/-- Lists are read back if their items are, and are not null. -/
theorem reads_list {α : Type} {read : Reader α} {write : α → Json}
    (h : ∀ a, read (write a) = .ok a) (o : Option (List α)) :
    ∀ items ∈ o, Reader.list read (.array (items.map write)) = .ok items ∧
      Json.array (items.map write) ≠ .null :=
  fun _ _ => ⟨Reader.list_array fun a _ => h a, nofun⟩

namespace TypeRef

/-- The entries of a reference. -/
theorem toJson_eq (t : TypeRef) :
    t.toJson = .ofEntries [("kind", .string t.kind.name), ("name", stringOrNull t.name),
      ("ofType", Json.ofOption toJson t.ofType?)] := by
  cases t <;> rfl

theorem toJson_ne_null (t : TypeRef) : t.toJson ≠ .null := by
  cases t <;> nofun

/-- A reference is read with its parts, if what it wraps is. -/
theorem readerWithin_succ {t : TypeRef} {fuel : Nat}
    (h : ∀ u ∈ t.ofType?, readerWithin fuel u.toJson = .ok u) :
    readerWithin (fuel + 1) t.toJson = .ok t := by
  have hparts : ofParts t.kind t.name t.ofType? = t := by
    cases t <;> rfl
  have hinner : ∀ u ∈ t.ofType?, readerWithin fuel u.toJson = .ok u ∧ u.toJson ≠ .null :=
    fun u hu => ⟨h u hu, toJson_ne_null u⟩
  rw [toJson_eq]
  conv => rhs; rw [← hparts]
  refine reader_ofEntries (by simp) ?_ _
  exact .seq (.seq
    (.map ofParts (gives_required rfl (kindReader_name t.kind)))
    (gives_optional rfl (reads_string t.name)))
    (gives_optional rfl hinner)

/-- A reference is read back with enough fuel. -/
theorem readerWithin_toJson (t : TypeRef) {fuel : Nat} (h : t.toJson.depth < fuel) :
    readerWithin fuel t.toJson = .ok t := by
  induction t generalizing fuel with
  | plain kind name =>
      cases fuel with
      | zero => cases h
      | succ fuel => exact readerWithin_succ nofun
  | wrapping kind name ofType ih =>
      cases fuel with
      | zero => cases h
      | succ fuel =>
          have hless : ofType.toJson.depth < (wrapping kind name ofType).toJson.depth := by
            rw [toJson]
            exact depth_lt_ofEntries (by simp) "ofType" (by simp)
          refine readerWithin_succ fun u hu => ?_
          obtain rfl : ofType = u := by simpa [ofType?] using hu
          exact ih (by omega)

theorem reader_toJson (t : TypeRef) : reader t.toJson = .ok t :=
  readerWithin_toJson t (Nat.lt_succ_self _)

end TypeRef

/-! ## Descriptions -/

theorem InputValueRecord.reader_toJson (r : InputValueRecord) : reader r.toJson = .ok r := by
  refine reader_ofEntries (by simp) ?_ _
  exact .seq (.seq (.seq (.seq (.seq
    (.map mk (gives_required rfl rfl))
    (gives_optional rfl (reads_string r.description)))
    (gives_required rfl (TypeRef.reader_toJson r.type)))
    (gives_optional rfl (reads_string r.defaultValue)))
    (gives_orElse rfl rfl false))
    (gives_optional rfl (reads_string r.deprecationReason))

theorem FieldRecord.reader_toJson (r : FieldRecord) : reader r.toJson = .ok r := by
  refine reader_ofEntries (by simp) ?_ _
  exact .seq (.seq (.seq (.seq (.seq
    (.map mk (gives_required rfl rfl))
    (gives_optional rfl (reads_string r.description)))
    (gives_optional rfl (reads_list InputValueRecord.reader_toJson r.args)))
    (gives_required rfl (TypeRef.reader_toJson r.type)))
    (gives_orElse rfl rfl false))
    (gives_optional rfl (reads_string r.deprecationReason))

theorem EnumValueRecord.reader_toJson (r : EnumValueRecord) : reader r.toJson = .ok r := by
  refine reader_ofEntries (by simp) ?_ _
  exact .seq (.seq (.seq
    (.map mk (gives_required rfl rfl))
    (gives_optional rfl (reads_string r.description)))
    (gives_orElse rfl rfl false))
    (gives_optional rfl (reads_string r.deprecationReason))

theorem DirectiveRecord.reader_toJson (r : DirectiveRecord) : reader r.toJson = .ok r := by
  have hlocation (l : DirectiveLocation) :
      Reader.oneOf DirectiveLocation.all DirectiveLocation.name (.string l.name) = .ok l :=
    Reader.oneOf_string (by cases l <;> rfl)
  refine reader_ofEntries (by simp) ?_ _
  exact .seq (.seq (.seq (.seq
    (.map mk (gives_required rfl rfl))
    (gives_optional rfl (reads_string r.description)))
    (gives_orElse rfl rfl false))
    (gives_optional rfl (reads_list hlocation r.locations)))
    (gives_optional rfl (reads_list InputValueRecord.reader_toJson r.args))

theorem TypeRecord.reader_toJson (r : TypeRecord) : reader r.toJson = .ok r := by
  obtain ⟨kind, name, description, url, fields, interfaces, possibleTypes, values, inputs⟩ := r
  cases interfaces with
  | none =>
      refine reader_ofEntries (by simp) ?_ _
      exact .seq (.seq (.seq (.seq (.seq (.seq (.seq (.seq
        (.map mk (gives_required rfl (kindReader_name kind)))
        (gives_required rfl rfl))
        (gives_optional rfl (reads_string description)))
        (gives_field rfl (Reader.nullable_ofOption (reads_string url)) _))
        (gives_optional rfl (reads_list FieldRecord.reader_toJson fields)))
        (gives_absent rfl none))
        (gives_optional rfl (reads_list TypeRef.reader_toJson possibleTypes)))
        (gives_optional rfl (reads_list EnumValueRecord.reader_toJson values)))
        (gives_optional rfl (reads_list InputValueRecord.reader_toJson inputs))
  | some interfaces =>
      have hinterfaces : (Reader.nullable (.list TypeRef.reader)
          (listOrNull TypeRef.toJson interfaces)).map some = .ok (some interfaces) := by
        rw [listOrNull, Reader.nullable_ofOption (reads_list TypeRef.reader_toJson interfaces)]
        rfl
      refine reader_ofEntries (by simp) ?_ _
      exact .seq (.seq (.seq (.seq (.seq (.seq (.seq (.seq
        (.map mk (gives_required rfl (kindReader_name kind)))
        (gives_required rfl rfl))
        (gives_optional rfl (reads_string description)))
        (gives_field rfl (Reader.nullable_ofOption (reads_string url)) _))
        (gives_optional rfl (reads_list FieldRecord.reader_toJson fields)))
        (gives_field rfl hinterfaces _))
        (gives_optional rfl (reads_list TypeRef.reader_toJson possibleTypes)))
        (gives_optional rfl (reads_list EnumValueRecord.reader_toJson values)))
        (gives_optional rfl (reads_list InputValueRecord.reader_toJson inputs))

/-- The interfaces of a type are written unless they are absent, as null if they are null. -/
theorem TypeRecord.get?_interfaces (r : TypeRecord) :
    r.toJson.get? "interfaces" = r.interfaces.map (listOrNull TypeRef.toJson) := by
  rw [toJson, get?_ofEntries]
  cases r.interfaces <;> rfl

theorem RootRecord.reader_toJson (r : RootRecord) : reader r.toJson = .ok r := by
  obtain ⟨kind, name⟩ := r
  cases kind with
  | none =>
      refine reader_ofEntries (by simp) ?_ _
      exact .seq (.map mk (gives_absent rfl none)) (gives_required rfl rfl)
  | some kind =>
      have hkind : kindReader.nullable (.string kind.name) = .ok (some kind) := by
        rw [Reader.nullable, kindReader_name]
        · rfl
        · nofun
      refine reader_ofEntries (by simp) ?_ _
      exact .seq (.map mk (gives_field rfl hkind _)) (gives_required rfl rfl)

theorem reads_root (o : Option RootRecord) :
    ∀ r ∈ o, RootRecord.reader r.toJson = .ok r ∧ r.toJson ≠ .null :=
  fun r _ => ⟨r.reader_toJson, nofun⟩

/-- **Reading undoes writing.**  The description of a schema is read back from its JSON tree. -/
theorem SchemaRecord.reader_toJson (r : SchemaRecord) : reader r.toJson = .ok r := by
  have htypes : Reader.list TypeRecord.reader (.array (r.types.map TypeRecord.toJson)) =
      .ok r.types :=
    Reader.list_array fun t _ => t.reader_toJson
  have hdirectives : (Reader.list DirectiveRecord.reader).nullable
      (.array (r.directives.map DirectiveRecord.toJson)) = .ok (some r.directives) := by
    rw [Reader.nullable, Reader.list_array fun d _ => d.reader_toJson]
    · rfl
    · nofun
  refine reader_ofEntries (by simp) ?_ _
  exact .seq (.seq (.seq (.seq (.seq
    (.map mk (gives_optional rfl (reads_string r.description)))
    (gives_optional rfl (reads_root r.queryType)))
    (gives_optional rfl (reads_root r.mutationType)))
    (gives_optional rfl (reads_root r.subscriptionType)))
    (gives_required rfl htypes))
    (gives_orElse rfl hdirectives [])

/-- An answer holds the object from which the description is read back. -/
theorem SchemaRecord.reader_toAnswer (r : SchemaRecord) :
    ∃ entries, r.toAnswer.get? "__schema" = some (.object entries) ∧
      reader (.object entries) = .ok r := by
  obtain ⟨entries, hentries⟩ : ∃ entries, r.toJson = .object entries := ⟨_, rfl⟩
  have hschema : r.toAnswer.get? "__schema" = some r.toJson := rfl
  have hread := r.reader_toJson
  rw [hentries] at hschema hread
  exact ⟨entries, hschema, hread⟩

/-- **Answers survive JSON.**  The answer to an introspection query is read back from its JSON tree,
whatever is absent in it. Interfaces that are absent and interfaces that are null do not become the
same on the way: only the latter are written. -/
theorem SchemaRecord.answerReader_toAnswer (r : SchemaRecord) :
    answerReader r.toAnswer = .ok r ∧
      ∀ t ∈ r.types, t.toJson.get? "interfaces" = t.interfaces.map (listOrNull TypeRef.toJson) := by
  constructor
  · exact reader_ofEntries (by simp) (gives_required rfl r.reader_toJson) _
  · exact fun t _ => t.get?_interfaces

/-- A description that lacks most of what it may say: the interfaces of its types are absent, null
and a list with a reference that is wrapped twice, and one of its roots has no kind. -/
def sparseRecord : SchemaRecord :=
  let bare : TypeRecord :=
    { kind := .scalar, name := "Time", description := none, specifiedByURL := some ""
      fields := none, interfaces := none, possibleTypes := none, enumValues := none
      inputFields := none }
  { description := none
    queryType := some ⟨none, "Query"⟩
    mutationType := some ⟨some .object, ""⟩
    subscriptionType := none
    types := [
      bare,
      { bare with name := "Unit", interfaces := some none },
      { bare with
        kind := .object, name := "Query", fields := some []
        interfaces := some (some [.wrapping .nonNull none (.wrapping .list none
          (.plain .interface (some "Node")))]) }]
    directives := [⟨"once", none, true, none, some []⟩] }

/-- The sparse description is read back, and only one of its types is written without
interfaces. -/
theorem sparseRecord_read_back :
    SchemaRecord.answerReader sparseRecord.toAnswer = .ok sparseRecord ∧
      sparseRecord.types.map (·.toJson.get? "interfaces") =
        sparseRecord.types.map (·.interfaces.map (listOrNull TypeRef.toJson)) ∧
      sparseRecord.types.map (·.interfaces.isSome) = [false, true, true] := by
  obtain ⟨hread, hinterfaces⟩ := sparseRecord.answerReader_toAnswer
  exact ⟨hread, List.map_congr_left hinterfaces, rfl⟩

end Introspection

end GraphQL
