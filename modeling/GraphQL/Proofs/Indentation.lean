import GraphQL.Text.Block
import Mathlib.Data.List.DropRight

/-!
# Indentation and line ends of block strings

What a block string means does not depend on how deep it is indented, nor on how its lines end. A
text is cut into lines at the same places whichever line end is used, and an indentation that all
lines but the first have in front is part of what they have in common. Only if all these lines are
blank do they have nothing in common; but then they are taken away as a whole.
-/

namespace GraphQL.Block

/-- The ways to end a line. -/
def lineEnds : List (List Char) :=
  [['\n'], ['\r', '\n'], ['\r']]

/-- No line ends in a text. -/
def OneLine (line : List Char) : Prop :=
  ∀ c ∈ line, c ≠ '\n' ∧ c ≠ '\r'

instance (line : List Char) : Decidable (OneLine line) :=
  List.decidableBAll _ line

variable {c : Char} {cs line rest nl w : List Char} {ls : List (List Char)}

/-! ## Escapes -/

/-- Only a backslash starts an escape. -/
theorem unescape_cons (h : c ≠ '\\') (cs : List Char) : unescape (c :: cs) = c :: unescape cs := by
  rw [unescape]
  intro _ hc
  exact absurd hc h

/-- No escape reaches over a character that is not part of one. -/
theorem unescape_append_cons (hquote : c ≠ '"') (hbackslash : c ≠ '\\') (cs rest : List Char) :
    unescape (cs ++ c :: rest) = unescape cs ++ c :: unescape rest := by
  fun_induction unescape cs with
  | case1 cs ih => simp [unescape, ih]
  | case2 d cs hescape ih =>
      rw [List.cons_append, unescape, ih, List.cons_append]
      -- an escape that starts here ends before the character, so it was one before
      rintro tail rfl htail
      rcases cs with _ | ⟨x, _ | ⟨y, _ | ⟨z, cs⟩⟩⟩
      · exact hquote (List.cons.inj htail).1
      · exact hquote (List.cons.inj (List.cons.inj htail).2).1
      · exact hquote (List.cons.inj (List.cons.inj (List.cons.inj htail).2).2).1
      · simp only [List.cons_append, List.cons.injEq] at htail
        obtain ⟨rfl, rfl, rfl, -⟩ := htail
        exact hescape cs rfl rfl
  | case3 => exact unescape_cons hbackslash rest

theorem unescape_lineEnd (hnl : nl ∈ lineEnds) (cs rest : List Char) :
    unescape (cs ++ (nl ++ rest)) = unescape cs ++ (nl ++ unescape rest) := by
  simp only [lineEnds, List.mem_cons, List.not_mem_nil, or_false] at hnl
  rcases hnl with rfl | rfl | rfl
  · exact unescape_append_cons (by decide) (by decide) cs rest
  · rw [List.cons_append, unescape_append_cons (by decide) (by decide), List.singleton_append,
      unescape_cons (by decide)]
    rfl
  · exact unescape_append_cons (by decide) (by decide) cs rest

/-- Escapes are replaced line by line. -/
theorem unescape_intercalate (hnl : nl ∈ lineEnds) (ls : List (List Char)) :
    unescape (nl.intercalate ls) = nl.intercalate (ls.map unescape) := by
  induction ls with
  | nil => rfl
  | cons line ls ih =>
      cases ls with
      | nil => simp
      | cons next ls =>
          rw [List.intercalate_cons_cons, List.append_assoc, unescape_lineEnd hnl, ih]
          simp [List.intercalate_cons_cons]

theorem mem_of_mem_unescape (h : c ∈ unescape cs) : c ∈ cs := by
  fun_induction unescape cs with
  | case1 cs ih =>
      simp only [List.mem_cons] at h ⊢
      exact .inr (h.imp_right (Or.imp_right (Or.imp_right ih)))
  | case2 d cs _ ih => exact List.mem_cons.mpr ((List.mem_cons.mp h).imp_right ih)
  | case3 => exact h

theorem OneLine.unescape (h : OneLine line) : OneLine (unescape line) :=
  fun c hc => h c (mem_of_mem_unescape hc)

/-! ## Lines -/

/-- A character that ends no line goes to the first line. -/
theorem lines_cons (hn : c ≠ '\n') (hr : c ≠ '\r') (cs : List Char) :
    lines (c :: cs) = addToFirst c (lines cs) := by
  rw [lines]
  · simp [hn, hr]
  · intro _ hc
    exact absurd hc hr

theorem lines_of_oneLine (h : OneLine line) : lines line = [line] := by
  induction line with
  | nil => rfl
  | cons c line ih =>
      obtain ⟨⟨hn, hr⟩, hline⟩ := List.forall_mem_cons.mp h
      rw [lines_cons hn hr, ih hline]
      rfl

/-- A line ends at a line end; a carriage return is one of its own if no line feed follows. -/
theorem lines_lineEnd (h : OneLine line) (hnl : nl ∈ lineEnds) (hrest : nl = ['\r'] → '\n' ∉ rest) :
    lines (line ++ (nl ++ rest)) = line :: lines rest := by
  induction line with
  | nil =>
      simp only [lineEnds, List.mem_cons, List.not_mem_nil, or_false] at hnl
      rcases hnl with rfl | rfl | rfl
      · rfl
      · rfl
      · rw [List.nil_append, List.singleton_append, lines]
        · rfl
        · rintro tail - rfl
          exact hrest rfl List.mem_cons_self
  | cons c line ih =>
      obtain ⟨⟨hn, hr⟩, hline⟩ := List.forall_mem_cons.mp h
      rw [List.cons_append, lines_cons hn hr, ih hline]
      rfl

/-- What is in joined lines is in a line or between two of them. -/
theorem mem_or_mem_of_mem_intercalate (h : c ∈ nl.intercalate ls) :
    c ∈ nl ∨ ∃ line ∈ ls, c ∈ line := by
  induction ls with
  | nil => cases h
  | cons line ls ih =>
      cases ls with
      | nil => exact .inr ⟨line, List.mem_cons_self, by simpa using h⟩
      | cons next ls =>
          rw [List.intercalate_cons_cons, List.append_assoc] at h
          rcases List.mem_append.mp h with hline | h
          · exact .inr ⟨line, List.mem_cons_self, hline⟩
          rcases List.mem_append.mp h with hnl | h
          · exact .inl hnl
          · exact (ih h).imp_right fun ⟨l, hl, hc⟩ => ⟨l, List.mem_cons_of_mem _ hl, hc⟩

/-- Lines that are joined by line ends are found again. -/
theorem lines_intercalate (hnl : nl ∈ lineEnds) (hne : ls ≠ []) (hls : ∀ line ∈ ls, OneLine line) :
    lines (nl.intercalate ls) = ls := by
  induction ls with
  | nil => exact absurd rfl hne
  | cons line ls ih =>
      have hline : OneLine line := hls line List.mem_cons_self
      cases ls with
      | nil => simpa using lines_of_oneLine hline
      | cons next ls =>
          have hnext : ∀ l ∈ next :: ls, OneLine l := fun l hl => hls l (List.mem_cons_of_mem _ hl)
          have hrest : nl = ['\r'] → '\n' ∉ nl.intercalate (next :: ls) := by
            rintro rfl hmem
            rcases mem_or_mem_of_mem_intercalate hmem with hreturn | ⟨l, hl, hfeed⟩
            · exact absurd hreturn (by decide)
            · exact (hnext l hl '\n' hfeed).1 rfl
          rw [List.intercalate_cons_cons, List.append_assoc, lines_lineEnd hline hnl hrest,
            ih (List.cons_ne_nil _ _) hnext]

/-- No line ends inside a line. -/
theorem oneLine_of_mem_lines : ∀ line ∈ lines cs, OneLine line := by
  have hempty : OneLine [] := nofun
  fun_induction lines cs with
  | case1 => exact List.forall_mem_singleton.mpr hempty
  | case2 cs ih => exact List.forall_mem_cons.mpr ⟨hempty, ih⟩
  | case3 c cs _ _ ih => exact List.forall_mem_cons.mpr ⟨hempty, ih⟩
  | case4 c cs _ hend ih =>
      have hc : c ≠ '\n' ∧ c ≠ '\r' := by simpa using hend
      cases hlines : lines cs with
      | nil => exact List.forall_mem_singleton.mpr (List.forall_mem_cons.mpr ⟨hc, hempty⟩)
      | cons first others =>
          rw [hlines] at ih
          obtain ⟨hfirst, hothers⟩ := List.forall_mem_cons.mp ih
          exact List.forall_mem_cons.mpr ⟨List.forall_mem_cons.mpr ⟨hc, hfirst⟩, hothers⟩

/-! ## Indentation -/

/-- Some characters are indentation. -/
def IsIndentation (w : List Char) : Prop :=
  ∀ c ∈ w, isIndent c = true

instance (w : List Char) : Decidable (IsIndentation w) :=
  List.decidableBAll _ w

theorem unescape_indented (hw : IsIndentation w) (line : List Char) :
    unescape (w ++ line) = w ++ unescape line := by
  induction w with
  | nil => rfl
  | cons c w ih =>
      have hc : c ≠ '\\' := by
        rintro rfl
        exact absurd (hw '\\' List.mem_cons_self) (by decide)
      rw [List.cons_append, unescape_cons hc, ih fun d hd => hw d (List.mem_cons_of_mem _ hd)]
      rfl

theorem OneLine.indented (hw : IsIndentation w) (h : OneLine line) : OneLine (w ++ line) := by
  refine List.forall_mem_append.mpr ⟨fun c hc => ⟨?_, ?_⟩, h⟩
  · rintro rfl
    exact absurd (hw _ hc) (by decide)
  · rintro rfl
    exact absurd (hw _ hc) (by decide)

theorem isBlank_indented (hw : IsIndentation w) (line : List Char) :
    isBlank (w ++ line) = isBlank line := by
  rw [isBlank, List.all_append, List.all_eq_true.mpr hw, Bool.true_and, isBlank]

theorem indent_indented (hw : IsIndentation w) (line : List Char) :
    indent (w ++ line) = w.length + indent line := by
  rw [indent, List.takeWhile_append_of_pos hw, List.length_append, indent]

/-- What lines have in common is the least indentation of those that are not blank. -/
theorem commonIndent_spec (h : ∃ line ∈ ls, isBlank line = false) :
    (∃ line ∈ ls, isBlank line = false ∧ indent line = commonIndent ls) ∧
      ∀ line ∈ ls, isBlank line = false → commonIndent ls ≤ indent line := by
  obtain ⟨line, hline, hblank⟩ := h
  have hmem : line ∈ ls.filter (!isBlank ·) := List.mem_filter.mpr ⟨hline, by simp [hblank]⟩
  cases hmin : ((ls.filter (!isBlank ·)).map indent).min? with
  | none =>
      rw [List.min?_eq_none_iff, List.map_eq_nil_iff] at hmin
      rw [hmin] at hmem
      cases hmem
  | some n =>
      have hn : commonIndent ls = n := by rw [commonIndent, hmin, Option.getD_some]
      obtain ⟨hattained, hleast⟩ := List.min?_eq_some_iff.mp hmin
      rw [hn]
      constructor
      · obtain ⟨l, hl, rfl⟩ := List.mem_map.mp hattained
        obtain ⟨hl, hnot⟩ := List.mem_filter.mp hl
        exact ⟨l, hl, by simpa using hnot, rfl⟩
      · intro l hl hnot
        exact hleast _ (List.mem_map_of_mem (List.mem_filter.mpr ⟨hl, by simp [hnot]⟩))

/-- An indentation in front of all lines is part of what they have in common. -/
theorem commonIndent_indented (hw : IsIndentation w) (h : ∃ line ∈ ls, isBlank line = false) :
    commonIndent (ls.map (w ++ ·)) = w.length + commonIndent ls := by
  have hindented : ∃ line ∈ ls.map (w ++ ·), isBlank line = false := by
    obtain ⟨line, hline, hblank⟩ := h
    exact ⟨w ++ line, List.mem_map_of_mem hline, (isBlank_indented hw line).trans hblank⟩
  obtain ⟨⟨least, hleast, hblank, hindent⟩, hle⟩ := commonIndent_spec h
  obtain ⟨⟨least', hleast', hblank', hindent'⟩, hle'⟩ := commonIndent_spec hindented
  apply Nat.le_antisymm
  · have hfirst := hle' (w ++ least) (List.mem_map_of_mem hleast)
      ((isBlank_indented hw least).trans hblank)
    rwa [indent_indented hw, hindent] at hfirst
  · obtain ⟨line, hline, rfl⟩ := List.mem_map.mp hleast'
    rw [isBlank_indented hw] at hblank'
    rw [← hindent', indent_indented hw]
    exact Nat.add_le_add_left (hle line hline hblank') w.length

/-- Blank lines have nothing in common. -/
theorem commonIndent_of_blank (h : ∀ line ∈ ls, isBlank line = true) : commonIndent ls = 0 := by
  have hfilter : ls.filter (!isBlank ·) = [] :=
    List.filter_eq_nil_iff.mpr fun line hline => by simp [h line hline]
  rw [commonIndent, hfilter]
  rfl

/-- Blank lines at the end are taken away. -/
theorem trimBlank_append_blank {blank : List (List Char)} (h : ∀ line ∈ blank, isBlank line = true)
    (ls : List (List Char)) : trimBlank (ls ++ blank) = trimBlank ls := by
  have hdrop : blank.dropWhile isBlank = [] := List.dropWhile_eq_nil_iff.mpr h
  have hreverse : ∀ line ∈ blank.reverse, isBlank line = true := by simpa using h
  rw [trimBlank, trimBlank, List.dropWhile_append]
  split
  · rename_i hempty
    rw [hdrop, List.isEmpty_iff.mp hempty]
  · rw [List.reverse_append, List.dropWhile_append_of_pos hreverse]

/-- **Indentation.**  How deep all lines but the first are indented makes no difference. -/
theorem trimBlank_dedent_indented (hw : IsIndentation w) (first : List Char)
    (rest : List (List Char)) :
    trimBlank (dedent (first :: rest.map (w ++ ·))) = trimBlank (dedent (first :: rest)) := by
  by_cases h : ∃ line ∈ rest, isBlank line = false
  · have hdrop : (fun line => (w ++ line).drop (w.length + commonIndent rest)) =
        fun line => line.drop (commonIndent rest) := by
      funext line
      rw [← List.drop_drop, List.drop_left]
    rw [dedent, dedent, commonIndent_indented hw h, List.map_map]
    exact congrArg (fun lines => trimBlank (first :: lines)) (by rw [← hdrop]; rfl)
  · -- nothing but the first line is left
    have hblank : ∀ line ∈ rest, isBlank line = true := by simpa using h
    have hblank' : ∀ line ∈ rest.map (w ++ ·), isBlank line = true := by
      simpa [isBlank_indented hw] using hblank
    have htrim {blank : List (List Char)} (hblank : ∀ line ∈ blank, isBlank line = true) :
        trimBlank (dedent (first :: blank)) = trimBlank [first] := by
      rw [dedent, commonIndent_of_blank hblank]
      simpa using trimBlank_append_blank hblank [first]
    rw [htrim hblank, htrim hblank']

/-! ## Values -/

/-- How lines end makes no difference. -/
theorem value_intercalate (hnl : nl ∈ lineEnds) (hne : ls ≠ []) (hls : ∀ line ∈ ls, OneLine line) :
    value (nl.intercalate ls) =
      ['\n'].intercalate (trimBlank (dedent (ls.map unescape))) := by
  have hunescaped : ∀ line ∈ ls.map unescape, OneLine line :=
    List.forall_mem_map.mpr fun line hline => (hls line hline).unescape
  rw [value, unescape_intercalate hnl, lines_intercalate hnl (by simpa using hne) hunescaped]

theorem mem_of_mem_trimBlank (h : line ∈ trimBlank ls) : line ∈ ls := by
  rw [trimBlank, List.mem_reverse] at h
  have hreverse := (List.dropWhile_suffix isBlank).mem h
  exact (List.dropWhile_suffix isBlank).mem (List.mem_reverse.mp hreverse)

/-- Taking indentation away adds no line end. -/
theorem oneLine_of_mem_dedent (hls : ∀ line ∈ ls, OneLine line) :
    ∀ line ∈ dedent ls, OneLine line := by
  cases ls with
  | nil => exact hls
  | cons first rest =>
      obtain ⟨hfirst, hrest⟩ := List.forall_mem_cons.mp hls
      refine List.forall_mem_cons.mpr ⟨hfirst, List.forall_mem_map.mpr fun line hline => ?_⟩
      exact fun c hc => hrest line hline c (List.mem_of_mem_drop hc)

/-- The last line that is left is not blank. -/
theorem getLast?_trimBlank : ∀ line ∈ (trimBlank ls).getLast?, isBlank line = false := by
  intro line hline
  rw [trimBlank, List.getLast?_reverse] at hline
  have hfirst := List.head?_dropWhile_not isBlank (ls.dropWhile isBlank).reverse
  rw [Option.mem_def.mp hline] at hfirst
  simpa using hfirst

/-- The first line that is left is not blank. -/
theorem head?_trimBlank : ∀ line ∈ (trimBlank ls).head?, isBlank line = false := by
  intro line hline
  have hbegins : trimBlank ls <+: ls.dropWhile isBlank := List.rdropWhile_prefix isBlank _
  obtain ⟨others, hothers⟩ := hbegins
  have hfirst := List.head?_dropWhile_not isBlank ls
  rw [← hothers, List.head?_append, Option.mem_def.mp hline] at hfirst
  simpa using hfirst

/-- A text without carriage returns that neither starts nor ends with a blank line. -/
structure Trimmed (cs : List Char) : Prop where
  no_return : '\r' ∉ cs
  first_line : cs ≠ [] → ∀ line ∈ (cs.splitOn '\n').head?, isBlank line = false
  last_line : cs ≠ [] → ∀ line ∈ (cs.splitOn '\n').getLast?, isBlank line = false

/-- **Trimming.**  What a block string means is trimmed. -/
theorem trimmed_value (cs : List Char) : Trimmed (value cs) := by
  rw [value]
  have hlines : ∀ line ∈ trimBlank (dedent (lines (unescape cs))), OneLine line :=
    fun line hline => oneLine_of_mem_dedent oneLine_of_mem_lines line (mem_of_mem_trimBlank hline)
  have hfirst := @head?_trimBlank (dedent (lines (unescape cs)))
  have hlast := @getLast?_trimBlank (dedent (lines (unescape cs)))
  generalize trimBlank (dedent (lines (unescape cs))) = ls at hlines hfirst hlast
  have hsplit (h : ['\n'].intercalate ls ≠ []) : (['\n'].intercalate ls).splitOn '\n' = ls := by
    refine List.splitOn_intercalate '\n' (fun line hline hfeed => ?_) ?_
    · exact (hlines line hline '\n' hfeed).1 rfl
    · rintro rfl
      exact h rfl
  refine ⟨fun hreturn => ?_, fun h => ?_, fun h => ?_⟩
  · rcases mem_or_mem_of_mem_intercalate hreturn with hfeed | ⟨line, hline, hc⟩
    · exact absurd hfeed (by decide)
    · exact (hlines line hline _ hc).2 rfl
  · rwa [hsplit h]
  · rwa [hsplit h]

/-- **Block strings.**  Neither the line ends nor an indentation of all lines but the first change
what a block string means, and this is trimmed. -/
theorem value_indented {first : List Char} {rest : List (List Char)} {w nl : List Char}
    (hlines : ∀ line ∈ first :: rest, OneLine line) (hw : IsIndentation w) (hnl : nl ∈ lineEnds) :
    value (nl.intercalate (first :: rest.map (w ++ ·))) =
        value (['\n'].intercalate (first :: rest)) ∧
      Trimmed (value (nl.intercalate (first :: rest.map (w ++ ·)))) := by
  obtain ⟨hfirst, hrest⟩ := List.forall_mem_cons.mp hlines
  have hindented : ∀ line ∈ first :: rest.map (w ++ ·), OneLine line :=
    List.forall_mem_cons.mpr
      ⟨hfirst, List.forall_mem_map.mpr fun line hline => (hrest line hline).indented hw⟩
  have hmap : (first :: rest.map (w ++ ·)).map unescape =
      unescape first :: (rest.map unescape).map (w ++ ·) := by
    simp [unescape_indented hw]
  refine ⟨?_, trimmed_value _⟩
  rw [value_intercalate hnl (List.cons_ne_nil _ _) hindented, hmap, trimBlank_dedent_indented hw,
    value_intercalate List.mem_cons_self (List.cons_ne_nil _ _) hlines, List.map_cons]

/-- The lines of a letter but its first one: some are blank, shorter or longer than what the others
have in common, and one has escaped quotes. -/
def letterLines : List (List Char) :=
  ["   Ünder".toList, [], "\t".toList, "  \\\"\"\"quoted\\\"\"\"".toList, "      ".toList]

/-- The letter may be indented by a tab and a space, and its lines may end with carriage returns. -/
theorem letter_indented :
    (∀ line ∈ "  Dear".toList :: letterLines, OneLine line) ∧ IsIndentation ['\t', ' '] ∧
      ['\r'] ∈ lineEnds ∧
      value (['\n'].intercalate ("  Dear".toList :: letterLines)) =
        "  Dear\n Ünder\n\n\n\"\"\"quoted\"\"\"".toList ∧
      value (['\r'].intercalate ("  Dear".toList :: letterLines.map (['\t', ' '] ++ ·))) =
        value (['\n'].intercalate ("  Dear".toList :: letterLines)) ∧
      Trimmed (value
        (['\r'].intercalate ("  Dear".toList :: letterLines.map (['\t', ' '] ++ ·)))) := by
  have hlines : ∀ line ∈ "  Dear".toList :: letterLines, OneLine line := by decide +kernel
  have hw : IsIndentation ['\t', ' '] := by decide
  exact ⟨hlines, hw, by decide, by decide +kernel, value_indented hlines hw (by decide)⟩

end GraphQL.Block
