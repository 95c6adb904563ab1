import GraphQL.Grammar.Selection
import GraphQL.Proofs.ReadingValues

/-!
# Selection sets are read back

The words of arguments, directives and selection sets are read as what they were written for. A part
that may be absent, like arguments or a selection set, is only read back if what follows does not
start like it.
-/

namespace GraphQL

variable {rest : List Word}

/-! ## Arguments and directives -/

theorem reads_argument {a : Argument} (h : a.wellFormed = true) (rest : List Word) :
    Reads Parser.argument (a.words ++ rest) rest fun b => b.bare = a.bare := by
  have hvalue : a.value.item.Readable false := ⟨h, nofun⟩
  refine .bind (reads_name_bare a.name _) fun name hname => ?_
  refine .bind (reads_expectMark .colon _) fun _ _ => .bind (reads_value hvalue rest) ?_
  intro value hvalue
  refine .pure ?_
  rw [Argument.bare, Argument.bare, hname, hvalue]

/-- What is given in parentheses is not empty, and each part of it is well formed. -/
theorem wellFormedItems_some {α : Type} {wellFormed : α → Bool} {given : Option (Located (List α))}
    (h : wellFormedItems wellFormed given = true) :
    ∀ items ∈ given, items.item ≠ [] ∧ ∀ x ∈ items.item, wellFormed x = true := by
  intro items hitems
  obtain rfl : given = some items := hitems
  obtain ⟨hne, hall⟩ := Bool.and_eq_true_iff.mp h
  exact ⟨by simpa using hne, List.all_eq_true.mp hall⟩

theorem reads_arguments {given : Option (Located (List Argument))}
    (h : wellFormedItems Argument.wellFormed given = true)
    (hrest : rest.head? ≠ some (.mark .parenOpen)) :
    Reads Parser.arguments (Word.parenthesized Argument.words given ++ rest) rest
      fun a => a.map (·.bare (·.map Argument.bare)) = given.map (·.bare (·.map Argument.bare)) := by
  have hgiven := wellFormedItems_some h
  have hitems : ∀ items ∈ given,
      ReadsItems Parser.argument Argument.words Argument.bare [] .parenClose items.item := by
    intro items hitems
    refine ⟨fun a ha rest _ _ => ?_, fun a ha => ⟨_, _, rfl, by simp⟩, by simp⟩
    exact reads_argument ((hgiven items hitems).2 a ha) rest
  exact reads_parenthesized hitems (fun items hitems => (hgiven items hitems).1) hrest

theorem reads_directive {d : Located DirectiveUse} (h : d.item.wellFormed = true)
    (hrest : rest.head? ≠ some (.mark .parenOpen)) :
    Reads Parser.directive (d.item.words ++ rest) rest
      fun e => e.bare DirectiveUse.bare = d.bare DirectiveUse.bare := by
  refine .located_bare (.bind (reads_expectMark .atSign _) fun _ _ => ?_)
  refine .bind (reads_name_bare d.item.name _) fun name hname => ?_
  refine .bind (reads_arguments h hrest) fun arguments harguments => .pure ?_
  rw [DirectiveUse.bare, DirectiveUse.bare, hname, harguments]

theorem apart_directiveWords {stops : List Word} (h : .mark .atSign ∉ stops)
    (directives : List (Located DirectiveUse)) : Apart stops (directiveWords directives) := by
  cases directives with
  | nil => exact apart_nil stops
  | cons d directives => exact apart_cons h _

/-- **Directives.**  The words of directives are read as these directives, unless what follows them
could be one more or belong to the last one. -/
theorem reads_directives {ds : List (Located DirectiveUse)} (h : wellFormedDirectives ds = true)
    (hrest : Apart [.mark .atSign, .mark .parenOpen] rest) :
    Reads Parser.directives (directiveWords ds ++ rest) rest
      fun es => bareDirectives es = bareDirectives ds := by
  refine .fix fun bound hbound => ?_
  have hds : ds.length < bound := by
    have hcount : ds.length ≤ (ds.flatMap (·.item.words)).length :=
      length_le_flatMap fun d _ => List.cons_ne_nil _ _
    rw [directiveWords, List.length_append] at hbound
    omega
  clear hbound
  induction ds generalizing bound with
  | nil =>
      cases bound with
      | zero => cases hds
      | succ bound =>
          refine .bind (reads_atMark_absent (hrest _ (by simp))) fun b hb => ?_
          rw [if_neg (by simp [hb])]
          exact .pure rfl
  | cons d ds ih =>
      cases bound with
      | zero => cases hds
      | succ bound =>
          obtain ⟨hd, hothers⟩ := Bool.and_eq_true_iff.mp h
          have hfollow : Apart [.mark .parenOpen] (directiveWords ds ++ rest) :=
            (apart_directiveWords (by simp) ds).append (hrest.mono (by simp))
          rw [directiveWords, List.flatMap_cons, List.append_assoc]
          refine .bind (reads_atMark .atSign _) fun b hb => ?_
          rw [if_pos hb]
          refine .bind (reads_directive hd (hfollow _ (by simp))) fun e he => ?_
          refine .bind (ih hothers bound (Nat.lt_of_succ_lt_succ hds)) fun es hes => .pure ?_
          rw [bareDirectives, List.map_cons, he]
          exact congrArg _ hes

/-! ## Fields -/

/-- A field is read up to its selection set, once its names are. -/
theorem reads_fieldTail {head : FieldHead} (h : head.wellFormed = true)
    {responseAlias : Option Name} {name : Name}
    (halias : responseAlias.map (·.bare id) = head.responseAlias.map (·.bare id))
    (hname : name.bare id = head.name.bare id)
    (hrest : Apart [.mark .parenOpen, .mark .atSign] rest) :
    Reads
      (do
        let arguments ← Parser.arguments
        let directives ← Parser.directives
        return (⟨responseAlias, name, arguments, directives⟩ : FieldHead))
      (Word.parenthesized Argument.words head.arguments ++
        (directiveWords head.directives ++ rest)) rest
      fun a => a.bare = head.bare := by
  obtain ⟨hargs, hdirs⟩ := Bool.and_eq_true_iff.mp h
  have hfollow : Apart [.mark .parenOpen] (directiveWords head.directives ++ rest) :=
    (apart_directiveWords (by simp) _).append (hrest.mono (by simp))
  refine .bind (reads_arguments hargs (hfollow _ (by simp))) fun arguments harguments => ?_
  refine .bind (reads_directives hdirs (hrest.mono (by simp))) fun directives hdirectives => ?_
  refine .pure ?_
  rw [FieldHead.bare, FieldHead.bare, halias, hname, harguments, hdirectives]

theorem reads_fieldHead {head : FieldHead} (h : head.wellFormed = true) (hne : rest ≠ [])
    (hrest : Apart [.mark .colon, .mark .parenOpen, .mark .atSign] rest) :
    Reads Parser.fieldHead (head.words ++ rest) rest fun a => a.bare = head.bare := by
  have htail : Apart [.mark .parenOpen, .mark .atSign] rest := hrest.mono (by simp)
  unfold Parser.fieldHead
  cases halias : head.responseAlias with
  | none =>
      simp only [FieldHead.words, halias, List.nil_append, List.cons_append, List.append_assoc]
      refine .bind (reads_name_bare head.name _) fun name hname => ?_
      have hfollow : Apart [.mark .colon] (Word.parenthesized Argument.words head.arguments ++
          (directiveWords head.directives ++ rest)) :=
        (apart_parenthesized (by simp) _).append
          ((apart_directiveWords (by simp) _).append (hrest.mono (by simp)))
      refine .bind (reads_skip_absent (hfollow _ (by simp)) (by simp [hne])) fun t ht => ?_
      rw [if_neg (by simp [ht])]
      refine .bind (.pure rfl) fun _ hnames => ?_
      subst hnames
      exact reads_fieldTail h (by rw [halias]) hname htail
  | some responseAlias =>
      simp only [FieldHead.words, halias, List.nil_append, List.cons_append, List.append_assoc]
      refine .bind (reads_name_bare responseAlias _) fun first hfirst => ?_
      refine .bind (reads_skip .colon _) fun t ht => ?_
      rw [if_pos ht]
      refine .bind (reads_name_bare head.name _) fun name hname => .bind (.pure rfl) ?_
      intro _ hnames
      subst hnames
      exact reads_fieldTail h (by rw [halias, Option.map_some, hfirst, Option.map_some]) hname htail

/-! ## Selection sets -/

theorem apart_selectionSetWords {stops : List Word} (h : .mark .braceOpen ∉ stops)
    (ss : List Selection) (rest : List Word) : Apart stops (selectionSetWords ss ++ rest) := by
  rw [selectionSetWords, enclosed_append]
  exact apart_cons h _

/-- A parser reads back all selection sets of up to some number of words. -/
def ReadsSets (selections : Parser (List Selection)) (size : Nat) : Prop :=
  ∀ ss, Selection.setWellFormed ss = true → ss ≠ [] → (selectionSetWords ss).length ≤ size →
    ∀ rest, Reads selections (selectionSetWords ss ++ rest) rest
      fun a => Selection.bareSet a = Selection.bareSet ss

theorem reads_withSelections {α : Type} {head : Parser α} {selections : Parser (List Selection)}
    {before middle after : List Word} {good : α → Prop} {goal : List Selection → Prop}
    (hhead : Reads head before middle good) (hselections : Reads selections middle after goal) :
    Reads (Parser.withSelections head selections) before after
      fun a => good a.1.item ∧ goal a.2 := by
  have hboth : Reads
      (do
        let head ← head
        let selections ← selections
        return (head, selections)) before after fun a => good a.1 ∧ goal a.2 :=
    .bind hhead fun _ ha => .bind hselections fun _ hs => .pure ⟨ha, hs⟩
  exact .bind hboth.located fun _ h => .pure h

variable {selections : Parser (List Selection)} {size : Nat}

/-- A selection set that may be absent is read back, or found to be absent. -/
theorem reads_optionalSet {ss : List Selection} (hss : Selection.setWellFormed ss = true)
    (hsets : ReadsSets selections size)
    (hsize : (if ss.isEmpty then [] else selectionSetWords ss).length ≤ size)
    (hrest : rest.head? ≠ some (.mark .braceOpen)) :
    Reads
      (do
        if ← Parser.atMark .braceOpen then selections else return [])
      ((if ss.isEmpty then [] else selectionSetWords ss) ++ rest) rest
      fun a => Selection.bareSet a = Selection.bareSet ss := by
  by_cases hempty : ss = []
  · subst hempty
    refine .bind (reads_atMark_absent hrest) fun b hb => ?_
    rw [if_neg (by simp [hb])]
    exact .pure rfl
  · rw [if_neg (by simp [hempty])] at hsize ⊢
    refine .bind (reads_atMark_enclosed _ rest) fun b hb => ?_
    rw [if_pos hb]
    exact hsets ss hss hempty hsize rest

theorem reads_field {node : Located FieldHead} {ss : List Selection}
    (h : (Selection.field node ss).wellFormed = true) (hsets : ReadsSets selections size)
    (hsize : (Selection.field node ss).words.length ≤ size) (hne : rest ≠ [])
    (hrest : Apart [.mark .colon, .mark .parenOpen, .mark .atSign, .mark .braceOpen] rest) :
    Reads (Parser.field selections) ((Selection.field node ss).words ++ rest) rest
      fun a => a.bare = (Selection.field node ss).bare := by
  obtain ⟨hhead, hss⟩ := Bool.and_eq_true_iff.mp h
  rw [Selection.words, List.length_append] at hsize
  rw [Selection.words, List.append_assoc]
  have hset := reads_optionalSet hss hsets (Nat.le_trans (Nat.le_add_left _ _) hsize)
    (hrest _ (by simp))
  have hfollow : Apart [.mark .colon, .mark .parenOpen, .mark .atSign]
      ((if ss.isEmpty then [] else selectionSetWords ss) ++ rest) := by
    refine Apart.append ?_ (hrest.mono (by simp))
    split
    · exact apart_nil _
    · exact apart_enclosed (by simp) _
  have hnode := reads_fieldHead hhead (by simp [hne]) hfollow
  refine .bind (reads_withSelections hnode hset) fun a ha => .pure ?_
  rw [Selection.bare, Selection.bare, ha.2, Located.bare_eq_iff.mpr ha.1]

/-! ## Fragments -/

theorem reads_spread {node : Located FragmentSpread}
    (h : (Selection.spread node).wellFormed = true)
    (hrest : Apart [.mark .parenOpen, .mark .atSign] rest) :
    Reads (Parser.fragment selections) ((Selection.spread node).words ++ rest) rest
      fun a => a.bare = (Selection.spread node).bare := by
  obtain ⟨hname, hdirs⟩ := Bool.and_eq_true_iff.mp h
  have hon : node.item.name.item ≠ "on" := of_decide_eq_true hname
  have hpart : Reads (Parser.afterEllipsis selections)
      (.name node.item.name.item :: (directiveWords node.item.directives ++ rest)) rest
      fun a => ∃ spread, a = .inl spread ∧ spread.bare = node.item.bare := by
    refine .peek fun span => ?_
    split
    · rename_i hitem
      exact absurd (Token.name.inj hitem) hon
    · rename_i hitem
      cases hitem
    · rename_i hitem
      cases hitem
    · refine .bind (reads_name_bare node.item.name _) fun name hname => ?_
      refine .bind (reads_directives hdirs (hrest.mono (by simp))) fun ds hds => ?_
      exact .pure ⟨_, rfl, by rw [FragmentSpread.bare, FragmentSpread.bare, hname, hds]⟩
    · rename_i hother
      exact absurd rfl (hother _)
  have hfragment := Reads.bind (reads_expectMark .ellipsis _) fun _ _ => hpart
  refine .bind hfragment.located fun a ha => ?_
  obtain ⟨span, part⟩ := a
  obtain ⟨spread, hspread, hbare⟩ := ha
  cases hspread
  refine .pure ?_
  rw [Selection.bare, Selection.bare, Located.bare_eq_iff.mpr hbare]

/-- What is read of an inline fragment behind its three points. -/
def IsInline (head : InlineHead) (ss : List Selection)
    (part : FragmentSpread ⊕ InlineHead × List Selection) : Prop :=
  ∃ head' ss', part = .inr (head', ss') ∧ head'.bare = head.bare ∧
    Selection.bareSet ss' = Selection.bareSet ss

/-- With or without a type condition, directives and a selection set come last. -/
theorem reads_inlineTail {head : InlineHead} {ss : List Selection}
    (hdirs : wellFormedDirectives head.directives = true)
    (hset : Reads selections (selectionSetWords ss ++ rest) rest
      fun a => Selection.bareSet a = Selection.bareSet ss)
    {condition : Option Name}
    (hcondition : condition.map (·.bare id) = head.condition.map (·.bare id)) :
    Reads
      (do
        let directives ← Parser.directives
        let selections ← selections
        return .inr (⟨condition, directives⟩, selections))
      (directiveWords head.directives ++ (selectionSetWords ss ++ rest)) rest
      (IsInline head ss) := by
  have hfollow : Apart [.mark .atSign, .mark .parenOpen] (selectionSetWords ss ++ rest) :=
    apart_selectionSetWords (by simp) ss rest
  refine .bind (reads_directives hdirs hfollow) fun ds hds => ?_
  refine .bind hset fun set hset => .pure ⟨_, set, rfl, ?_, hset⟩
  rw [InlineHead.bare, InlineHead.bare, hcondition, hds]

theorem reads_afterEllipsis_inline {head : InlineHead} {ss : List Selection}
    (hdirs : wellFormedDirectives head.directives = true)
    (hset : Reads selections (selectionSetWords ss ++ rest) rest
      fun a => Selection.bareSet a = Selection.bareSet ss) :
    Reads (Parser.afterEllipsis selections)
      (conditionWords head.condition ++ (directiveWords head.directives ++
        (selectionSetWords ss ++ rest))) rest (IsInline head ss) := by
  refine .peek fun span => ?_
  cases hcondition : head.condition with
  | some condition =>
      refine .bind (reads_expectKeyword "on" _) fun _ _ => ?_
      refine .bind (reads_name_bare condition _) fun name hname => ?_
      refine reads_inlineTail hdirs hset ?_
      rw [hcondition, Option.map_some, hname, Option.map_some]
  | none =>
      have htail := reads_inlineTail hdirs hset (congrArg _ hcondition.symm)
      -- the next word is an at sign or an opening brace
      cases hdirectives : head.directives with
      | nil =>
          rw [hdirectives] at htail
          exact htail
      | cons d ds =>
          rw [hdirectives] at htail
          exact htail

theorem reads_inline {node : Located InlineHead} {ss : List Selection}
    (h : (Selection.inline node ss).wellFormed = true) (hsets : ReadsSets selections size)
    (hsize : (Selection.inline node ss).words.length ≤ size) (rest : List Word) :
    Reads (Parser.fragment selections) ((Selection.inline node ss).words ++ rest) rest
      fun a => a.bare = (Selection.inline node ss).bare := by
  simp only [Selection.wellFormed, Bool.and_eq_true, Bool.not_eq_true', List.isEmpty_eq_false_iff]
    at h
  obtain ⟨⟨hdirs, hne⟩, hss⟩ := h
  have hsmaller : (selectionSetWords ss).length ≤ size := by
    simp only [Selection.words, List.length_cons, List.length_append] at hsize
    unfold selectionSetWords
    omega
  have hwords : (Selection.inline node ss).words ++ rest =
      .mark .ellipsis :: (conditionWords node.item.condition ++
        (directiveWords node.item.directives ++ (selectionSetWords ss ++ rest))) := by
    simp [Selection.words, selectionSetWords]
  rw [hwords]
  have hpart := reads_afterEllipsis_inline hdirs (hsets ss hss hne hsmaller rest)
  have hfragment := Reads.bind (reads_expectMark .ellipsis _) fun _ _ => hpart
  refine .bind hfragment.located fun a ha => ?_
  obtain ⟨span, part⟩ := a
  obtain ⟨head, set, hhead, hbare, hset⟩ := ha
  cases hhead
  refine .pure ?_
  rw [Selection.bare, Selection.bare, hset, Located.bare_eq_iff.mpr hbare]

/-! ## Entries -/

/-- A field starts with a name. -/
theorem field_words_eq_cons (node : Located FieldHead) (ss : List Selection) :
    ∃ text words, (Selection.field node ss).words = .name text :: words := by
  cases halias : node.item.responseAlias with
  | none => exact ⟨_, _, by simp only [Selection.words, FieldHead.words, halias]; rfl⟩
  | some responseAlias =>
      exact ⟨_, _, by simp only [Selection.words, FieldHead.words, halias]; rfl⟩

/-- An entry of a selection set starts with a name or with three points. -/
theorem startsApart_selection (s : Selection) :
    StartsApart [.mark .braceClose, .mark .colon, .mark .parenOpen, .mark .atSign,
      .mark .braceOpen] s.words := by
  cases s with
  | field node ss =>
      obtain ⟨text, words, hwords⟩ := field_words_eq_cons node ss
      exact ⟨_, words, hwords, by simp⟩
  | spread node => exact ⟨_, _, rfl, by simp⟩
  | inline node ss => exact ⟨_, _, rfl, by simp⟩

theorem reads_selection {s : Selection} (h : s.wellFormed = true)
    (hsets : ReadsSets selections size) (hsize : s.words.length ≤ size) (hne : rest ≠ [])
    (hrest : Apart [.mark .colon, .mark .parenOpen, .mark .atSign, .mark .braceOpen] rest) :
    Reads (Parser.selection selections) (s.words ++ rest) rest fun a => a.bare = s.bare := by
  cases s with
  | field node ss =>
      obtain ⟨text, words, hwords⟩ := field_words_eq_cons node ss
      refine .bind (reads_atMark_absent (by simp [hwords])) fun b hb => ?_
      rw [if_neg (by simp [hb])]
      exact reads_field h hsets hsize hne hrest
  | spread node =>
      refine .bind (reads_atMark .ellipsis _) fun b hb => ?_
      rw [if_pos hb]
      exact reads_spread h (hrest.mono (by simp))
  | inline node ss =>
      refine .bind (reads_atMark .ellipsis _) fun b hb => ?_
      rw [if_pos hb]
      exact reads_inline h hsets hsize rest

theorem readsItems_selection {ss : List Selection} (hss : ∀ s ∈ ss, s.wellFormed = true)
    (hsets : ReadsSets selections size) (hsize : (ss.flatMap Selection.words).length ≤ size) :
    ReadsItems (Parser.selection selections) Selection.words Selection.bare
      [.mark .colon, .mark .parenOpen, .mark .atSign, .mark .braceOpen] .braceClose ss := by
  refine ⟨fun s hs rest hne hrest => ?_, fun s _ => startsApart_selection s, by simp⟩
  have hlength := length_le_length_flatMap Selection.words hs
  exact reads_selection (hss s hs) hsets (by omega) hne hrest

/-- **Selection sets.**  The words of a selection set are read as that selection set, whatever
follows them. -/
theorem reads_selections {ss : List Selection} (h : Selection.setWellFormed ss = true)
    (hne : ss ≠ []) (rest : List Word) :
    Reads Parser.selections (selectionSetWords ss ++ rest) rest
      fun a => Selection.bareSet a = Selection.bareSet ss := by
  refine .fix fun bound hbound => ?_
  rw [List.length_append] at hbound
  -- a set inside an entry takes fewer words than the set that the entry stands in
  suffices hsets : ReadsSets (Parser.bounded _ bound) (bound - 1) from
    hsets ss h hne (by omega) rest
  clear hbound h hne ss
  induction bound with
  | zero =>
      intro ss _ _ hsize
      simp [selectionSetWords, Word.enclosed] at hsize
  | succ bound ih =>
      intro ss hss hne hsize rest
      rw [Selection.setWellFormed_eq, List.all_eq_true] at hss
      rw [selectionSetWords, length_enclosed, Selection.setWords_eq] at hsize
      rw [selectionSetWords, Selection.setWords_eq]
      have hentries := readsItems_selection hss ih (by omega)
      refine (reads_delimitedNonempty hentries hne rest).mono fun as has => ?_
      rw [Selection.bareSet_eq, Selection.bareSet_eq, has]

end GraphQL
