import GraphQL.Proofs.Reading

/-!
# Values and types are read back

The words of a well-formed value are read as that value, and the words of a type expression as that
expression, wherever they stand. Both parsers refer to themselves, and both proofs go by induction
on the bound that `Parser.fix` gives them: what stands between the brackets of a value takes fewer
words than the value itself.
-/

namespace GraphQL

/-! ## Literals of one token -/

theorem natOfDigits_toDigits (n : Nat) : Decimal.natOfDigits (Nat.toDigits 10 n) = n :=
  Nat.ofDigitChars_ten_toDigits

/-- The text of a whole number is a sign, if it is negative, and its digits. -/
theorem splitSign_toString_int (n : Int) :
    Decimal.splitSign (toString n).toList = (decide (n < 0), Nat.toDigits 10 n.natAbs) := by
  rw [toList_toString_int]
  by_cases hn : n < 0
  · simp [hn, Decimal.splitSign]
  · rw [if_neg hn, List.nil_append, decide_eq_false hn]
    have hdigit := isDigit_of_mem_toDigits n.natAbs
    unfold Decimal.splitSign
    split
    · rename_i hcs
      exact absurd (hdigit '-' (by simp [hcs])) (by decide)
    · rename_i hcs
      exact absurd (hdigit '+' (by simp [hcs])) (by decide)
    · rfl

theorem read?_toString_int (n : Int) :
    Decimal.Numeral.read? (toString n).toList =
      some ⟨decide (n < 0), Nat.toDigits 10 n.natAbs, [], 0⟩ := by
  have hne : (Nat.toDigits 10 n.natAbs).isEmpty = false :=
    List.isEmpty_eq_false_iff.mpr Nat.toDigits_ne_nil
  have htake : (Nat.toDigits 10 n.natAbs).takeWhile Char.isDigit = Nat.toDigits 10 n.natAbs := by
    have hend : ∀ c ∈ ([] : List Char).head?, c.isDigit = false := nofun
    have hrun := Lexer.takeWhile_append_boundary (isDigit_of_mem_toDigits n.natAbs) hend
    rwa [List.append_nil] at hrun
  have hdrop : (Nat.toDigits 10 n.natAbs).dropWhile Char.isDigit = [] := by
    have hall := List.takeWhile_append_dropWhile (p := Char.isDigit) (l := Nat.toDigits 10 n.natAbs)
    rw [htake] at hall
    exact List.append_right_eq_self.mp hall
  simp only [Decimal.Numeral.read?, splitSign_toString_int, htake, hdrop, hne, Bool.false_and,
    Bool.false_eq_true, if_false, Decimal.readExponent?, Option.map_some]

/-- A whole number of 32 bits is read back from its text. -/
theorem ofToken?_int {n : Int} (h : (Value.int n).wellFormed = true) :
    Value.ofToken? (Word.int n).token = some (.int n) := by
  have hrange : -2147483648 ≤ n ∧ n ≤ 2147483647 := by simpa [Value.wellFormed] using h
  have habs : (if n < 0 then -(n.natAbs : Int) else n.natAbs) = n := by
    split <;> omega
  rw [Word.token, Value.ofToken?, Value.ofIntText?, read?_toString_int]
  simp only [Decimal.Numeral.decimal, List.append_nil, natOfDigits_toDigits, decide_eq_true_eq,
    bind, Option.bind, habs]
  exact if_pos hrange

/-- A string is read back from its text. -/
theorem ofToken?_string (s : String) :
    Value.ofToken? (Word.string s).token = some (.string s) := by
  simp [Word.token, Value.ofToken?, Escape.decode?_encode]

theorem nameValue_enum {name : String} (h : (Value.enum name).wellFormed = true) :
    Parser.nameValue name = .enum name := by
  simp only [Value.wellFormed, Bool.and_eq_true, decide_eq_true_eq] at h
  unfold Parser.nameValue
  split <;> simp_all

theorem reads_scalar {w : Word} {v : Value} (h : Value.ofToken? w.token = some v)
    (rest : List Word) : Reads Parser.scalar (w :: rest) rest (· = v) := by
  refine .bind (reads_next w rest) fun t ht => ?_
  rw [ht, h]
  exact .pure rfl

/-! ## Values -/

namespace Value

/-- A value can be read, also where only constants can. -/
def Readable (constant : Bool) (v : Value) : Prop :=
  v.wellFormed = true ∧ (constant = true → v.variableNames = [])

variable {constant : Bool} {items : List (Located Value)} {entries : List (Name × Located Value)}

theorem itemVariables_eq (items : List (Located Value)) :
    itemVariables items = items.flatMap (·.item.variableNames) := by
  induction items with
  | nil => rfl
  | cons item items ih => rw [itemVariables, ih, List.flatMap_cons]

theorem entryVariables_eq (entries : List (Name × Located Value)) :
    entryVariables entries = entries.flatMap (·.2.item.variableNames) := by
  induction entries with
  | nil => rfl
  | cons entry entries ih => rw [entryVariables, ih, List.flatMap_cons]

theorem Readable.item (h : (list items).Readable constant) {item : Located Value}
    (hitem : item ∈ items) : item.item.Readable constant := by
  obtain ⟨hform, hconstant⟩ := h
  rw [wellFormed, itemsWellFormed_eq, List.all_eq_true] at hform
  rw [variableNames, itemVariables_eq, List.flatMap_eq_nil_iff] at hconstant
  exact ⟨hform item hitem, fun hc => hconstant hc item hitem⟩

theorem Readable.entry (h : (object entries).Readable constant) {entry : Name × Located Value}
    (hentry : entry ∈ entries) : entry.2.item.Readable constant := by
  obtain ⟨hform, hconstant⟩ := h
  rw [wellFormed, entriesWellFormed_eq, List.all_eq_true] at hform
  rw [variableNames, entryVariables_eq, List.flatMap_eq_nil_iff] at hconstant
  exact ⟨hform entry hentry, fun hc => hconstant hc entry hentry⟩

/-- No value starts with a closing bracket. -/
theorem Readable.startsApart {v : Value} (h : v.Readable constant) :
    StartsApart [.mark .bracketClose] v.words := by
  cases v with
  | float x => cases h.1
  | boolean b => cases b <;> exact ⟨_, _, rfl, by simp⟩
  | _ => exact ⟨_, _, rfl, by simp⟩

/-- The words of an entry of an object. -/
def entryWord (entry : Name × Located Value) : List Word :=
  .name entry.1.item :: .mark .colon :: entry.2.item.words

/-- Forgets where an entry of an object stands. -/
def bareEntry (entry : Name × Located Value) : Name × Located Value :=
  (entry.1.bare id, entry.2.bare bare)

theorem list_words (items : List (Located Value)) :
    (list items).words =
      Word.enclosed .bracketOpen (items.flatMap (·.item.words)) .bracketClose := by
  rw [words, itemWords_eq]

theorem object_words (entries : List (Name × Located Value)) :
    (object entries).words = Word.enclosed .braceOpen (entries.flatMap entryWord) .braceClose := by
  rw [words, entryWords_eq]
  rfl

/-- A value in a list takes fewer words than the list. -/
theorem length_words_item {item : Located Value} (hitem : item ∈ items) :
    item.item.words.length < (list items).words.length := by
  have hlength := length_le_length_flatMap (fun l : Located Value => l.item.words) hitem
  rw [list_words, length_enclosed]
  omega

/-- A value in an object takes fewer words than the object. -/
theorem length_words_entry {entry : Name × Located Value} (hentry : entry ∈ entries) :
    entry.2.item.words.length < (object entries).words.length := by
  have hlength := length_le_length_flatMap entryWord hentry
  have hword : (entryWord entry).length = entry.2.item.words.length + 2 := rfl
  rw [object_words, length_enclosed]
  omega

end Value

/-- An entry of an object is read back if its value is. -/
theorem reads_objectEntry {value : Parser (Located Value)} {entry : Name × Located Value}
    {rest : List Word}
    (hvalue : Reads value (entry.2.item.words ++ rest) rest
      fun a => a.bare Value.bare = entry.2.bare Value.bare) :
    Reads (Parser.objectEntry value) (Value.entryWord entry ++ rest) rest
      fun a => Value.bareEntry a = Value.bareEntry entry := by
  refine .bind (reads_name entry.1.item _) fun key hkey => ?_
  refine .bind (reads_expectMark .colon _) fun _ _ => .bind hvalue fun v hv => .pure ?_
  rw [Value.bareEntry, Value.bareEntry, hv, Located.bare_eq_iff.mpr hkey]

/-- The words of a value are read as that value, given that those of all smaller values are. -/
theorem reads_valueBody {constant : Bool} {value : Parser (Located Value)} {v : Located Value}
    (hv : v.item.Readable constant)
    (hinner : ∀ w : Located Value, w.item.Readable constant →
      w.item.words.length < v.item.words.length → ∀ rest,
        Reads value (w.item.words ++ rest) rest fun a => a.bare Value.bare = w.bare Value.bare)
    (rest : List Word) :
    Reads (Parser.valueBody constant value) (v.item.words ++ rest) rest
      fun a => a.bare Value.bare = v.bare Value.bare := by
  obtain ⟨span, v⟩ := v
  unfold Parser.valueBody
  refine .located_bare (.peek fun _ => ?_)
  cases v with
  | null => exact .bind (reads_name "null" rest) fun n hn => .pure (by rw [hn]; rfl)
  | int n => exact (reads_scalar (ofToken?_int hv.1) rest).mono fun a ha => by rw [ha]
  | float x => cases hv.1
  | string s => exact (reads_scalar (ofToken?_string s) rest).mono fun a ha => by rw [ha]
  | boolean b =>
      cases b with
      | true => exact .bind (reads_name "true" rest) fun n hn => .pure (by rw [hn]; rfl)
      | false => exact .bind (reads_name "false" rest) fun n hn => .pure (by rw [hn]; rfl)
  | enum name =>
      refine .bind (reads_name name rest) fun n hn => .pure ?_
      rw [hn, nameValue_enum hv.1]
  | «variable» name =>
      cases constant with
      | true => cases hv.2 rfl
      | false =>
          refine .bind (reads_expectMark .dollar _) fun _ _ => ?_
          exact .bind (reads_name name rest) fun n hn => .pure (by rw [hn])
  | list items =>
      have hitems : ReadsItems value (·.item.words) (·.bare Value.bare) [] .bracketClose items := by
        refine ⟨fun w hw rest _ _ => ?_, fun w hw => (hv.item hw).startsApart, by simp⟩
        exact hinner w (hv.item hw) (Value.length_words_item hw) rest
      dsimp only
      rw [Value.list_words]
      refine .map (reads_delimited hitems rest) fun as has => ?_
      rw [Value.bare, Value.bare, Value.bareItems_eq, Value.bareItems_eq, has]
  | object entries =>
      have hentries : ReadsItems (Parser.objectEntry value) Value.entryWord Value.bareEntry []
          .braceClose entries := by
        refine ⟨fun e he rest _ _ => ?_, fun e he => ⟨_, _, rfl, by simp⟩, by simp⟩
        exact reads_objectEntry (hinner e.2 (hv.entry he) (Value.length_words_entry he) rest)
      dsimp only
      rw [Value.object_words]
      refine .map (reads_delimited hentries rest) fun as has => ?_
      rw [Value.bare, Value.bare, Value.bareEntries_eq, Value.bareEntries_eq]
      exact congrArg Value.object has

/-- **Values.**  The words of a value are read as that value, whatever follows them. -/
theorem reads_value {constant : Bool} {v : Located Value} (hv : v.item.Readable constant)
    (rest : List Word) :
    Reads (Parser.value constant) (v.item.words ++ rest) rest
      fun a => a.bare Value.bare = v.bare Value.bare := by
  refine .fix fun bound hbound => ?_
  rw [List.length_append] at hbound
  have hlength : v.item.words.length < bound := by omega
  clear hbound
  induction bound generalizing v rest with
  | zero => cases hlength
  | succ bound ih =>
      refine reads_valueBody hv (fun w hw hsmaller others => ?_) rest
      exact ih hw others (by omega)

/-! ## Type expressions -/

/-- A mark that excludes null is read if it is there. -/
theorem reads_required (t : TypeLiteral) (required : Bool) {rest : List Word}
    (hrest : rest.head? ≠ some (.mark .exclamation)) :
    Reads
      (do
        if ← Parser.acceptMark .exclamation then return t.required else return t)
      ((if required then [.mark .exclamation] else []) ++ rest) rest
      (· = if required then t.required else t) := by
  cases required with
  | true =>
      refine .bind (reads_acceptMark .exclamation rest) fun b hb => ?_
      rw [if_pos hb]
      exact .pure rfl
  | false =>
      refine .bind (reads_acceptMark_absent hrest) fun b hb => ?_
      rw [if_neg (by simp [hb])]
      exact .pure rfl

/-- The words of a type expression are read as that expression, given that those of all smaller
expressions are. -/
theorem reads_typeBody {type : Parser TypeLiteral} {t : TypeLiteral}
    (hinner : ∀ u : TypeLiteral, u.words.length < t.words.length → ∀ rest : List Word,
      rest.head? ≠ some (.mark .exclamation) → Reads type (u.words ++ rest) rest (· = u))
    {rest : List Word} (hrest : rest.head? ≠ some (.mark .exclamation)) :
    Reads (Parser.typeBody type) (t.words ++ rest) rest (· = t) := by
  unfold Parser.typeBody
  cases t with
  | named name required =>
      refine .bind (reads_acceptMark_absent (by simp [TypeLiteral.words])) fun b hb => ?_
      rw [if_neg (by simp [hb])]
      refine .bind (reads_name name _) fun n hn => .bind (.pure rfl) fun t ht => ?_
      refine (reads_required t required hrest).mono fun a ha => ?_
      rw [ha, ← ht, hn]
      cases required <;> rfl
  | list item required =>
      rw [TypeLiteral.words, List.append_assoc, enclosed_append]
      refine .bind (reads_acceptMark .bracketOpen _) fun b hb => ?_
      rw [if_pos hb]
      have hitem : (TypeLiteral.words item).length <
          (TypeLiteral.words (.list item required)).length := by
        rw [TypeLiteral.words, List.length_append, length_enclosed]
        omega
      refine .bind (hinner item hitem _ (by simp)) fun i hi => ?_
      refine .bind (reads_expectMark .bracketClose _) fun _ _ => .bind (.pure rfl) fun t ht => ?_
      refine (reads_required t required hrest).mono fun a ha => ?_
      rw [ha, ← ht, hi]
      cases required <;> rfl

/-- **Types.**  The words of a type expression are read as that expression, unless what follows them
could belong to it. -/
theorem reads_type {t : Located TypeLiteral} {rest : List Word}
    (hrest : rest.head? ≠ some (.mark .exclamation)) :
    Reads Parser.type (t.item.words ++ rest) rest fun a => a.bare id = t.bare id := by
  refine .located_bare (.fix fun bound hbound => ?_)
  rw [List.length_append] at hbound
  have hlength : t.item.words.length < bound := by omega
  clear hbound
  obtain ⟨span, t⟩ := t
  induction bound generalizing t rest with
  | zero => cases hlength
  | succ bound ih =>
      refine reads_typeBody (fun u hsmaller others hothers => ?_) hrest
      exact ih hothers u (by dsimp only at *; omega)

end GraphQL
