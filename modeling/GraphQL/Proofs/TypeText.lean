import GraphQL.Proofs.Respacing
import GraphQL.Proofs.Spans
import GraphQL.Proofs.ValueText

/-!
# Types are read back from their texts

A text is read as a type expression exactly if its tokens are those of the expression, in their
order (`TypeLiteral.parse_eq_ok_iff`). The mark that excludes null belongs to the layer it stands
behind, and each layer has room for one; so an expression is read back from its own text, and a text
with one mark too many or with a bracket that is left open has the tokens of no expression.
-/

namespace GraphQL

open Lexer Layout

/-- A mark that excludes null stays apart from what it stands behind. -/
theorem spellsBefore_required {text : String} {words : List Word} (h : SpellsBefore text words)
    (required : Bool) :
    SpellsBefore (text ++ if required then "!" else "")
      (words ++ if required then [.mark .exclamation] else []) := by
  cases required with
  | false => simpa using h
  | true =>
      intro rest others hrest hothers
      have hmark := Spells.word (w := .mark .exclamation) rfl (.inl rfl) hothers
      have hend : Boundary ((Word.mark .exclamation).text.toList ++ rest) :=
        boundary_cons (c := '!') (by decide) rest
      simpa [Word.text, Word.token, Token.text, Punctuator.text] using h _ _ hend hmark

namespace TypeLiteral

/-- **Texts spell types.**  The text of a type expression spells its words, if it is one around a
name. -/
theorem spellsBefore_text (t : TypeLiteral) (h : isName t.innermost = true) :
    SpellsBefore t.text t.words := by
  induction t with
  | named name required =>
      exact spellsBefore_required (spellsBefore_word (w := .name name) h) required
  | list item required ih =>
      have hclosing (rest : List Char) : Boundary (Punctuator.bracketClose.text.toList ++ rest) :=
        boundary_cons (c := ']') (by decide) rest
      exact spellsBefore_required
        (spellsBefore_enclosed (ih h) .bracketOpen .bracketClose hclosing) required

/-- The name of a type expression is one of its words. -/
theorem innermost_mem_words (t : TypeLiteral) : .name t.innermost ∈ t.words := by
  induction t with
  | named name required => exact List.mem_cons_self
  | list item required ih => simp [words, Word.enclosed, TypeExpr.innermost, ih]

/-- A mark that is there on a condition adds its token. -/
theorem items_present {parts : List Layout} {words : List Token} {required : Bool}
    {tokens : List (Located Token)}
    (hparts : ∀ tokens, (seq parts).SpelledBy tokens → tokens.map Located.item = words)
    (h : (seq (parts ++ present required (mark .exclamation))).SpelledBy tokens) :
    tokens.map Located.item = words ++ if required then [.mark .exclamation] else [] := by
  obtain ⟨before, after, rfl, hbefore, hafter⟩ := spelledBy_seq_append.mp h
  rw [List.map_append, hparts before hbefore]
  cases required with
  | false =>
      cases hafter
      rfl
  | true =>
      obtain ⟨t, rfl, ht⟩ := spelledBy_seq_singleton.mp hafter
      simp [ht]

/-- A type expression is laid out in the tokens of its words. -/
theorem items_of_spelledBy {t : TypeLiteral} {tokens : List (Located Token)}
    (h : t.layout.SpelledBy tokens) : tokens.map Located.item = t.words.map Word.token := by
  have hmark (required : Bool) :
      (if required then [Word.mark .exclamation] else []).map Word.token =
        if required then [.mark .exclamation] else [] := by
    cases required <;> rfl
  induction t generalizing tokens with
  | named name required =>
      rw [words, List.map_cons, hmark]
      have hname (tokens : List (Located Token)) (h : (seq [word name]).SpelledBy tokens) :
          tokens.map Located.item = [.name name] := by
        obtain ⟨t, rfl, ht⟩ := spelledBy_seq_singleton.mp h
        simp [ht]
      exact items_present hname h
  | list item required ih =>
      rw [words, List.map_append, hmark]
      refine items_present (fun tokens hlist => ?_) h
      obtain ⟨_, _, rfl, ⟨t, rfl, ht⟩, _, _, rfl, hitem, hclose⟩ := hlist
      obtain ⟨u, rfl, hu⟩ := spelledBy_seq_singleton.mp hclose
      simp [Word.enclosed, ht, hu, ih hitem, Word.token]

end TypeLiteral

/-- A parser that reads all there is lays it out as its answer, and stops at the end. -/
theorem Lays.whole {α : Type} {p : Parser α} {layout : α → Layout} (hp : Yields p layout) :
    Yields (Parser.whole p) layout :=
  .bind hp fun _ => .peek fun _ => .ite (fun _ => .pure rfl) fun _ => lays_unexpected _

theorem endOfFile_of_whole {α : Type} {p : Parser α} {c c' : Cursor} {a : α}
    (h : Parser.whole p c = .ok a c') : c'.peek.item = .endOfFile := by
  obtain ⟨b, middle, -, h⟩ := ok_of_bind h
  obtain ⟨t, _, hpeek, h⟩ := ok_of_bind h
  cases hpeek
  split at h
  · rename_i hend
    cases h
    exact hend
  · exact (ok_of_unexpected h).elim

namespace TypeLiteral

/-- **What is read as a type.**  A text is read as a type expression exactly if its tokens are those
of the expression. -/
theorem parse_eq_ok_iff {source : String} {t : TypeLiteral} :
    (∃ span, TypeLiteral.parse source = .ok ⟨span, t⟩) ↔
      (∃ stop, (run source).outcome = .ok stop) ∧
        (run source).tokens.map Located.item = t.words.map Word.token := by
  constructor
  · rintro ⟨span, hparse⟩
    obtain ⟨hspelled, hstop⟩ :=
      spelledBy_of_runOn (Lays.whole yields_type) (fun _ _ _ => endOfFile_of_whole) hparse
    exact ⟨hstop, items_of_spelledBy (spelledBy_seq_singleton.mp hspelled).2⟩
  · rintro ⟨⟨stop, hstop⟩, htokens⟩
    have hreads : Reads (Parser.whole Parser.type) (t.words ++ []) []
        fun a => a.bare id = Located.bare id ⟨.unlocated, t⟩ :=
      (reads_type (t := ⟨.unlocated, t⟩) (by simp)).whole
    obtain ⟨⟨span, item⟩, c', hrun, -, hbare⟩ :=
      hreads ⟨(run source).tokens, stop, none⟩ (by simpa [Cursor.Ahead] using htokens)
    obtain rfl : item = t := Located.bare_eq_iff.mp hbare
    have hrun' : (Parser.whole Parser.type).run ⟨(run source).tokens, stop, none⟩ = _ := hrun
    refine ⟨span, ?_⟩
    simp only [TypeLiteral.parse, Parser.runOn, Cursor.start, hstop, hrun']

/-- The text of a type expression around a name has the tokens of the expression. -/
theorem run_text {t : TypeLiteral} (h : isName t.innermost = true) :
    (∃ stop, (run t.text).outcome = .ok stop) ∧
      (run t.text).tokens.map Located.item = t.words.map Word.token := by
  have hspells := spellsBefore_text t h [] [] boundary_nil .nil
  rw [List.append_nil, List.append_nil] at hspells
  obtain ⟨htokens, hstop⟩ := runFrom_spells hspells .origin
  exact ⟨hstop, htokens⟩

/-- What is read as a type expression is one around a name. -/
theorem isName_innermost_of_items {source : String} {t : TypeLiteral}
    (h : (run source).tokens.map Located.item = t.words.map Word.token) :
    isName t.innermost = true := by
  have hmem : Token.name t.innermost ∈ (run source).tokens.map Located.item := by
    rw [h]
    exact List.mem_map_of_mem (innermost_mem_words t)
  obtain ⟨token, htoken, hname⟩ := List.mem_map.mp hmem
  have hlexical := lexical_of_mem_runFrom token htoken
  rwa [hname] at hlexical

/-- **Types and their texts.**  A type expression around a name is read back from its text, and each
text that is read as a type expression has the same tokens as the text of that expression, which is
one around a name. -/
theorem parse_text_and_text_of_parse :
    (∀ t : TypeLiteral, isName t.innermost = true →
      ∃ span, TypeLiteral.parse t.text = .ok ⟨span, t⟩) ∧
    ∀ (source : String) (l : Located TypeLiteral), TypeLiteral.parse source = .ok l →
      isName l.item.innermost = true ∧
        (run (TypeLiteral.text l.item)).sequence.map Located.item =
          (run source).sequence.map Located.item := by
  refine ⟨fun t ht => parse_eq_ok_iff.mpr (run_text ht), fun source l hparse => ?_⟩
  obtain ⟨⟨stop, hstop⟩, htokens⟩ := parse_eq_ok_iff.mp ⟨l.span, hparse⟩
  have hname := isName_innermost_of_items htokens
  obtain ⟨⟨stop', hstop'⟩, htokens'⟩ := run_text hname
  refine ⟨hname, ?_⟩
  rw [Lexed.items_sequence hstop, Lexed.items_sequence hstop', htokens, htokens']

/-- A list of lists, both without null, as are the numbers in them. -/
def matrix : TypeLiteral := .list (.list (.named "Int" true) true) true

/-- The text of the matrix with ignored characters before each mark, and a comment. -/
def looseMatrix : String := ",[ [Int !\n]\t! # rows ]!\r]\uFEFF!"

/-- The matrix is read back from its text, and the loose text has the same tokens as the text of the
type that it is read as. -/
theorem matrix_read_back :
    matrix.text = "[[Int!]!]!" ∧ isName matrix.innermost = true ∧
      (∃ span, TypeLiteral.parse matrix.text = .ok ⟨span, matrix⟩) ∧
      ∃ l, TypeLiteral.parse looseMatrix = .ok l ∧ isName l.item.innermost = true ∧
        (run (TypeLiteral.text l.item)).sequence.map Located.item =
          (run looseMatrix).sequence.map Located.item := by
  obtain ⟨hwritten, hread⟩ := parse_text_and_text_of_parse
  have hname : isName matrix.innermost = true := by decide
  refine ⟨by decide +kernel, hname, hwritten matrix hname, ?_⟩
  have hparse : (TypeLiteral.parse looseMatrix).toOption.isSome = true := by decide +kernel
  cases h : TypeLiteral.parse looseMatrix with
  | ok l => exact ⟨l, rfl, hread looseMatrix l h⟩
  | error e =>
      rw [h] at hparse
      cases hparse

end TypeLiteral

end GraphQL
