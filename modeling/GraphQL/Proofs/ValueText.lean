import GraphQL.Proofs.ReadingValues

/-!
# Values are read back from their texts

`Value.text` writes a value without spaces inside its brackets, so its words only just stay apart:
where one word could run into the next, a comma, a colon or a bracket stands between them. A value
that is well formed is therefore read back from its text, up to where its parts stand. Literals,
the values without floats and variables, are well formed as soon as their names are names.
-/

namespace GraphQL

open Lexer

/-- A text spells some words, whatever stands behind it and ends the last of them. -/
def SpellsBefore (text : String) (words : List Word) : Prop :=
  ∀ rest others, Boundary rest → Spells rest others →
    Spells (text.toList ++ rest) (words ++ others)

theorem spellsBefore_word {w : Word} (hw : w.isLexical = true) : SpellsBefore w.text [w] :=
  fun _ _ hrest hothers => .word hw (.inr hrest) hothers

/-- Texts with a comma and a space between them spell their words one after the other. -/
theorem spellsBefore_commas {α : Type} {text : α → String} {words : α → List Word} {xs : List α}
    (h : ∀ x ∈ xs, SpellsBefore (text x) (words x)) :
    SpellsBefore (", ".intercalate (xs.map text)) (xs.flatMap words) := by
  intro rest others hrest hothers
  induction xs with
  | nil => exact hothers
  | cons x xs ih =>
      have hx := h x List.mem_cons_self
      have hxs := ih fun y hy => h y (List.mem_cons_of_mem _ hy)
      cases xs with
      | nil => simpa using hx rest others hrest hothers
      | cons y ys =>
          have hspace := Spells.skip (c := ' ') (by decide) hxs
          have hcomma := Spells.skip (c := ',') (by decide) hspace
          have hall := hx _ _ (boundary_cons (by decide) _) hcomma
          simpa using hall

/-- Brackets stay apart from what they enclose. -/
theorem spellsBefore_enclosed {text : String} {words : List Word} (h : SpellsBefore text words)
    (opening closing : Punctuator) (hclosing : ∀ rest, Boundary (closing.text.toList ++ rest)) :
    SpellsBefore (opening.text ++ text ++ closing.text) (Word.enclosed opening words closing) := by
  intro rest others hrest hothers
  have hclose := Spells.word (w := .mark closing) rfl (.inl rfl) hothers
  have hinside := h _ _ (hclosing rest) hclose
  have hopen := Spells.word (w := .mark opening) rfl (.inl rfl) hinside
  simpa [Word.enclosed, Word.text, Word.token, Token.text] using hopen

/-- Marks are lexical, so the words between two of them decide. -/
theorem isLexical_enclosed {words : List Word} (opening closing : Punctuator) :
    (∀ w ∈ Word.enclosed opening words closing, w.isLexical = true) ↔
      ∀ w ∈ words, w.isLexical = true := by
  simp [Word.enclosed, Word.isLexical, or_imp, forall_and]

namespace Value

theorem itemTexts_eq (items : List (Located Value)) :
    itemTexts items = items.map (·.item.text) := by
  induction items with
  | nil => rfl
  | cons item items ih => rw [itemTexts, ih, List.map_cons]

theorem entryTexts_eq (entries : List (Name × Located Value)) :
    entryTexts entries = entries.map fun e => e.1.item ++ ": " ++ e.2.item.text := by
  induction entries with
  | nil => rfl
  | cons entry entries ih => rw [entryTexts, ih, List.map_cons]

/-- An entry of an object stays apart at its colon. -/
theorem spellsBefore_entry {entry : Name × Located Value} (hkey : isName entry.1.item = true)
    (hvalue : SpellsBefore entry.2.item.text entry.2.item.words) :
    SpellsBefore (entry.1.item ++ ": " ++ entry.2.item.text) (entryWord entry) := by
  intro rest others hrest hothers
  have hspace := Spells.skip (c := ' ') (by decide) (hvalue rest others hrest hothers)
  have hcolon := Spells.word (w := .mark .colon) rfl (.inl rfl) hspace
  have hend : Boundary ((Word.mark .colon).text.toList ++
      ' ' :: (entry.2.item.text.toList ++ rest)) :=
    boundary_cons (c := ':') (by decide) _
  have hname := Spells.word (w := .name entry.1.item) hkey (.inr hend) hcolon
  have hword : (Word.name entry.1.item).text = entry.1.item := rfl
  have hmark : (Word.mark .colon).text.toList = [':'] := rfl
  rw [hword, hmark] at hname
  simpa [entryWord] using hname

/-- **Texts spell values.**  The text of a value spells its words, if its names are names. -/
theorem spellsBefore_text {constant : Bool} {v : Value} (hv : v.Readable constant)
    (hnames : ∀ w ∈ v.words, w.isLexical = true) : SpellsBefore v.text v.words := by
  -- items and entries are spelled with fewer words than what they stand in
  induction hsize : v.words.length using Nat.strongRecOn generalizing v with
  | _ size ih =>
      subst hsize
      cases v with
      | null => exact spellsBefore_word (w := .name "null") (by decide)
      | int n => exact spellsBefore_word (w := .int n) rfl
      | float x => cases hv.1
      | string s =>
          have htext : (string s).text = (Word.string s).text := by
            rw [← String.toList_inj]
            simp [text, Word.text, Word.token, Token.text, Escape.quote]
          rw [htext]
          exact spellsBefore_word (w := .string s) rfl
      | boolean b =>
          cases b with
          | true => exact spellsBefore_word (w := .name "true") (by decide)
          | false => exact spellsBefore_word (w := .name "false") (by decide)
      | enum name => exact spellsBefore_word (w := .name name) (hnames _ (by simp [words]))
      | «variable» name =>
          intro rest others hrest hothers
          have hname : isName name = true := hnames (.name name) (by simp [words])
          have hword := Spells.word (w := .name name) hname (.inr hrest) hothers
          have hdollar := Spells.word (w := .mark .dollar) rfl (.inl rfl) hword
          have hmark : (Word.mark .dollar).text.toList = ['$'] := rfl
          have htext : (Word.name name).text = name := rfl
          rw [hmark, htext] at hdollar
          simpa [text, words] using hdollar
      | list items =>
          rw [list_words, isLexical_enclosed] at hnames
          have hitems : ∀ l ∈ items, SpellsBefore l.item.text l.item.words := by
            intro l hl
            exact ih _ (length_words_item hl) (hv.item hl)
              (fun w hw => hnames w (List.mem_flatMap_of_mem hl hw)) rfl
          rw [text, list_words, itemTexts_eq]
          exact spellsBefore_enclosed (spellsBefore_commas hitems) .bracketOpen .bracketClose
            fun rest => boundary_cons (c := ']') (by decide) rest
      | object entries =>
          rw [object_words, isLexical_enclosed] at hnames
          have hentry {e : Name × Located Value} (he : e ∈ entries) {w : Word}
              (hw : w ∈ entryWord e) : w.isLexical = true :=
            hnames w (List.mem_flatMap_of_mem he hw)
          have hentries : ∀ e ∈ entries,
              SpellsBefore (e.1.item ++ ": " ++ e.2.item.text) (entryWord e) := by
            intro e he
            refine spellsBefore_entry (hentry he (w := .name e.1.item) (by simp [entryWord])) ?_
            exact ih _ (length_words_entry he) (hv.entry he)
              (fun w hw => hentry he (by simp [entryWord, hw])) rfl
          rw [text, object_words, entryTexts_eq]
          exact spellsBefore_enclosed (spellsBefore_commas hentries) .braceOpen .braceClose
            fun rest => boundary_cons (c := '}') (by decide) rest

mutual

/-- The text of a value does not depend on where its parts stand. -/
theorem text_bare : (v : Value) → v.bare.text = v.text
  | .list items => by rw [bare, text, text, itemTexts_bareItems items]
  | .object entries => by rw [bare, text, text, entryTexts_bareEntries entries]
  | .null | .int _ | .float _ | .string _ | .boolean _ | .enum _ | .variable _ => rfl

theorem itemTexts_bareItems : (items : List (Located Value)) →
    itemTexts (bareItems items) = itemTexts items
  | [] => rfl
  | ⟨_, v⟩ :: rest => by
      simp only [bareItems, itemTexts, Located.unlocated, text_bare v, itemTexts_bareItems rest]

theorem entryTexts_bareEntries : (entries : List (Name × Located Value)) →
    entryTexts (bareEntries entries) = entryTexts entries
  | [] => rfl
  | (_, ⟨_, v⟩) :: rest => by
      simp only [bareEntries, entryTexts, Located.unlocated, text_bare v,
        entryTexts_bareEntries rest]

end

end Value

/-- What a parser reads is all there is, if nothing is left. -/
theorem Reads.whole {α : Type} {p : Parser α} {before : List Word} {good : α → Prop}
    (hp : Reads p before [] good) : Reads (Parser.whole p) before [] good := by
  refine .bind hp fun a ha => .peek fun span => ?_
  rw [if_pos nextToken_nil]
  exact .pure ha

namespace Value

/-- **Values are read back.**  A value is read back from its text, up to where its parts stand. -/
theorem parse_text {v : Value} (hv : v.Readable true) (hnames : ∀ w ∈ v.words, w.isLexical = true) :
    ∃ l, Value.parse v.text = .ok l ∧ l.item.bare = v.bare := by
  have hspells := spellsBefore_text hv hnames [] [] boundary_nil .nil
  have hreads := reads_value (v := ⟨.unlocated, v⟩) hv []
  obtain ⟨l, hparse, hl⟩ := hreads.whole.runOn (by simpa using hspells)
  exact ⟨l, hparse, Located.bare_eq_iff.mp hl⟩

/-- A literal that can be written and read back. Strings may hold any characters, and keys may be
given twice; numbers are whole numbers of 32 bits, names are names, bare names do not stand for
other values, and there are no variables. -/
inductive Literal : Value → Prop
  | null : Literal .null
  | int {n : Int} : -2147483648 ≤ n → n ≤ 2147483647 → Literal (.int n)
  | string (s : String) : Literal (.string s)
  | boolean (b : Bool) : Literal (.boolean b)
  | enum {name : String} : isName name = true → name ∉ ["true", "false", "null"] →
      Literal (.enum name)
  | list {items : List (Located Value)} : (∀ item ∈ items, Literal item.item) →
      Literal (.list items)
  | object {entries : List (Name × Located Value)} :
      (∀ entry ∈ entries, isName entry.1.item = true) →
      (∀ entry ∈ entries, Literal entry.2.item) → Literal (.object entries)

namespace Literal

variable {v : Value}

theorem wellFormed_eq_true (h : Literal v) : v.wellFormed = true := by
  induction h with
  | int hlow hhigh => simp [wellFormed, hlow, hhigh]
  | enum _ hfree => simpa [wellFormed, and_assoc] using hfree
  | list _ ih =>
      rw [wellFormed, itemsWellFormed_eq]
      exact List.all_eq_true.mpr ih
  | object _ _ ih =>
      rw [wellFormed, entriesWellFormed_eq]
      exact List.all_eq_true.mpr ih
  | _ => rfl

theorem variableNames_eq_nil (h : Literal v) : v.variableNames = [] := by
  induction h with
  | list _ ih =>
      rw [variableNames, itemVariables_eq]
      exact List.flatMap_eq_nil_iff.mpr ih
  | object _ _ ih =>
      rw [variableNames, entryVariables_eq]
      exact List.flatMap_eq_nil_iff.mpr ih
  | _ => rfl

theorem isLexical_words (h : Literal v) : ∀ w ∈ v.words, w.isLexical = true := by
  induction h with
  | null => decide
  | int => simp [words, Word.isLexical]
  | string s => simp [words, Word.isLexical]
  | boolean b => cases b <;> decide
  | enum hname _ => simpa [words, Word.isLexical] using hname
  | list _ ih =>
      rw [list_words, isLexical_enclosed]
      intro w hw
      obtain ⟨item, hitem, hw⟩ := List.mem_flatMap.mp hw
      exact ih item hitem w hw
  | object hkeys _ ih =>
      rw [object_words, isLexical_enclosed]
      intro w hw
      obtain ⟨entry, hentry, hw⟩ := List.mem_flatMap.mp hw
      rcases List.mem_cons.mp hw with rfl | hw
      · exact hkeys entry hentry
      rcases List.mem_cons.mp hw with rfl | hw
      · rfl
      · exact ih entry hentry w hw

end Literal

/-- **Literals.**  A literal is read back from its text, up to where its parts stand. -/
theorem parse_text_of_literal {v : Value} (h : Literal v) :
    ∃ l, Value.parse v.text = .ok l ∧ l.item.bare = v.bare :=
  parse_text ⟨h.wellFormed_eq_true, fun _ => h.variableNames_eq_nil⟩ h.isLexical_words

/-- An object with a repeated key, a key that no enum value may have as its name, strings of odd
characters and of none, and the least number. -/
def oddObject : Value :=
  ofEntries [
    ("a", .string "\"\\\n\x00é"),
    ("a", ofItems [.string "", .int (-2147483648), .enum "nullable", .boolean true]),
    ("null", ofEntries [])]

/-- The odd object is read back from its text. -/
theorem oddObject_read_back :
    oddObject.text =
        "\x7ba: \"\\\"\\\\\\n\\u0000é\", a: [\"\", -2147483648, nullable, true], null: \x7b\x7d\x7d" ∧
      Literal oddObject ∧ ∃ l, Value.parse oddObject.text = .ok l ∧ l.item.bare = oddObject.bare := by
  have hitems : Literal
      (ofItems [.string "", .int (-2147483648), .enum "nullable", .boolean true]) := by
    refine .list ?_
    simp only [List.map_cons, List.map_nil, List.forall_mem_cons, Located.unlocated]
    exact ⟨.string _, .int (by decide) (by decide), .enum (by decide) (by decide), .boolean _, nofun⟩
  have hliteral : Literal oddObject := by
    refine .object (by decide) ?_
    simp only [List.map_cons, List.map_nil, List.forall_mem_cons, Located.unlocated]
    exact ⟨.string _, hitems, .object nofun nofun, nofun⟩
  exact ⟨by decide +kernel, hliteral, parse_text_of_literal hliteral⟩

/-- The value that is read from the text of a value. -/
def reread (v : Value) : Value :=
  match Value.parse v.text with
  | .ok l => l.item
  | .error _ => v

end Value

end GraphQL
