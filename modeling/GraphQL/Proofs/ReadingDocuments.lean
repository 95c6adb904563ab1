import GraphQL.Grammar.Definition
import GraphQL.Proofs.ReadingSelections

/-!
# Documents are read back

Reading a document undoes writing it: the canonical text of a well-formed document is read as that
document, up to where its parts stand.
-/

namespace GraphQL

variable {rest : List Word}

/-! ## Default values -/

theorem apart_defaultWords {stops : List Word} (h : .mark .equals ∉ stops)
    (default : Option (Located Value)) : Apart stops (defaultWords default) := by
  cases default with
  | none => exact apart_nil stops
  | some v => exact apart_cons h _

/-- The words of a default value behind its equals sign. -/
def defaultTail (default : Option (Located Value)) : List Word :=
  (default.map (·.item.words)).getD []

theorem reads_skip_default {default : Option (Located Value)} (hne : rest ≠ [])
    (hrest : rest.head? ≠ some (.mark .equals)) :
    Reads (Parser.skip (.mark .equals)) (defaultWords default ++ rest) (defaultTail default ++ rest)
      fun t => t.isSome = default.isSome := by
  cases default with
  | none => exact reads_skip_absent hrest hne
  | some v => exact reads_skip .equals _

theorem reads_acceptMark_default {default : Option (Located Value)}
    (hrest : rest.head? ≠ some (.mark .equals)) :
    Reads (Parser.acceptMark .equals) (defaultWords default ++ rest) (defaultTail default ++ rest)
      (· = default.isSome) := by
  cases default with
  | none => exact reads_acceptMark_absent hrest
  | some v => exact reads_acceptMark .equals _

/-- Behind its equals sign, a default value is read as a constant. -/
theorem reads_default {α : Type} {default : Option (Located Value)}
    (h : wellFormedDefault default = true) {isPresent : Bool}
    (hpresent : isPresent = default.isSome)
    {after : List Word} {next : Option (Located Value) → Parser α} {good : α → Prop}
    (hnext : ∀ a : Option (Located Value),
      a.map (·.bare Value.bare) = default.map (·.bare Value.bare) →
        Reads (next a) rest after good) :
    Reads
      (if isPresent = true then do
        let a ← some <$> Parser.value true
        next a
      else do
        let a ← pure none
        next a)
      (defaultTail default ++ rest) after good := by
  subst hpresent
  cases default with
  | none => exact .bind (.pure rfl) fun a ha => hnext a (by rw [← ha])
  | some v =>
      obtain ⟨hform, hconstant⟩ := Bool.and_eq_true_iff.mp h
      have hv : v.item.Readable true := ⟨hform, fun _ => List.isEmpty_iff.mp hconstant⟩
      refine .bind (.map (reads_value hv rest) fun b hb => ?_) hnext
      rw [Option.map_some, Option.map_some, hb]

/-- Where a variable or an input value is defined, neither the directives nor the default value go
on with what stands before them. -/
theorem apart_behind_type (default : Option (Located Value))
    (directives : List (Located DirectiveUse))
    (hrest : Apart [.mark .exclamation, .mark .equals, .mark .atSign, .mark .parenOpen] rest) :
    Apart [.mark .exclamation, .mark .equals] (directiveWords directives ++ rest) ∧
      Apart [.mark .exclamation] (defaultWords default ++ (directiveWords directives ++ rest)) := by
  have hbehind : Apart [.mark .exclamation, .mark .equals] (directiveWords directives ++ rest) :=
    (apart_directiveWords (by simp) _).append (hrest.mono (by simp))
  exact ⟨hbehind, (apart_defaultWords (by simp) _).append (hbehind.mono (by simp))⟩

/-! ## Operations and fragments -/

theorem reads_variableDefinition {d : VariableDefinition} (h : d.wellFormed = true)
    (hne : rest ≠ [])
    (hrest : Apart [.mark .exclamation, .mark .equals, .mark .atSign, .mark .parenOpen] rest) :
    Reads Parser.variableDefinition (d.words ++ rest) rest fun a => a.bare = d.bare := by
  obtain ⟨hdefault, hdirs⟩ := Bool.and_eq_true_iff.mp h
  obtain ⟨hbehind, htype⟩ := apart_behind_type d.default d.directives hrest
  have hname (after : List Word) : Reads
      (do
        Parser.expectMark .dollar
        return (← Parser.name).item)
      (.mark .dollar :: .name d.name.item :: after) after fun a => id a = id d.name.item := by
    refine .bind (reads_expectMark .dollar _) fun _ _ => ?_
    exact .bind (reads_name d.name.item _) fun _ h => .pure h
  simp only [VariableDefinition.words, List.cons_append, List.append_assoc]
  refine .bind (hname _).located_bare fun name hname => ?_
  refine .bind (reads_expectMark .colon _) fun _ _ => ?_
  refine .bind (reads_type (htype _ (by simp))) fun type htype => ?_
  refine .bind (reads_skip_default (by simp [hne]) (hbehind _ (by simp))) fun t ht => ?_
  refine reads_default hdefault ht fun default hdefault => ?_
  refine .bind (reads_directives hdirs (hrest.mono (by simp))) fun ds hds => .pure ?_
  rw [VariableDefinition.bare, VariableDefinition.bare, hname, htype, hdefault, hds]

theorem reads_variableDefinitions {given : Option (Located (List VariableDefinition))}
    (h : wellFormedItems VariableDefinition.wellFormed given = true)
    (hrest : rest.head? ≠ some (.mark .parenOpen)) :
    Reads Parser.variableDefinitions
      (Word.parenthesized VariableDefinition.words given ++ rest) rest
      fun a => a.map (·.bare (·.map VariableDefinition.bare)) =
        given.map (·.bare (·.map VariableDefinition.bare)) := by
  have hgiven := wellFormedItems_some h
  have hitems : ∀ items ∈ given,
      ReadsItems Parser.variableDefinition VariableDefinition.words VariableDefinition.bare
        [.mark .exclamation, .mark .equals, .mark .atSign, .mark .parenOpen] .parenClose
        items.item := by
    intro items hitems
    refine ⟨fun d hd rest hne hrest => ?_, fun d hd => ⟨_, _, rfl, by simp⟩, by simp⟩
    exact reads_variableDefinition ((hgiven items hitems).2 d hd) hne hrest
  exact reads_parenthesized hitems (fun items hitems => (hgiven items hitems).1) hrest

theorem ofKeyword?_keyword (kind : OperationKind) :
    OperationKind.ofKeyword? kind.keyword = some kind := by
  cases kind <;> rfl

theorem reads_operationKind (kind : OperationKind) (rest : List Word) :
    Reads Parser.operationKind (.name kind.keyword :: rest) rest (· = kind) := by
  refine .peek fun span => ?_
  dsimp only [nextToken_cons, Word.token]
  rw [ofKeyword?_keyword]
  exact .bind (reads_expectKeyword _ rest) fun _ _ => .pure rfl

theorem reads_optionalName {name : Option Name} (hrest : ∀ text, rest.head? ≠ some (.name text)) :
    Reads Parser.optionalName ((name.map fun n => .name n.item).toList ++ rest) rest
      fun a => a.map (·.bare id) = name.map (·.bare id) := by
  refine .peek fun span => ?_
  cases name with
  | none =>
      split
      · rename_i text hnext
        exact absurd (nextToken_eq_name hnext) (hrest text)
      · exact .pure rfl
  | some name =>
      refine .map (reads_name_bare name rest) fun a ha => ?_
      rw [Option.map_some, ha, Option.map_some]

theorem reads_operation {o : Operation} (h : o.wellFormed = true) (rest : List Word) :
    Reads Parser.operation (o.words ++ rest) rest fun a => a.bare = o.bare := by
  simp only [Operation.wellFormed, Bool.and_eq_true, Bool.not_eq_true', List.isEmpty_eq_false_iff]
    at h
  obtain ⟨⟨⟨hdefinitions, hdirs⟩, hne⟩, hss⟩ := h
  have hbehind (stops : List Word) (hat : .mark .atSign ∉ stops)
      (hbrace : .mark .braceOpen ∉ stops) :
      Apart stops
        (directiveWords o.directives ++ (selectionSetWords o.selections ++ rest)) :=
    (apart_directiveWords hat _).append (apart_selectionSetWords hbrace _ rest)
  have hname (text : String) : Apart [.name text]
      (Word.parenthesized VariableDefinition.words o.variableDefinitions ++
        (directiveWords o.directives ++ (selectionSetWords o.selections ++ rest))) :=
    (apart_parenthesized (by simp) _).append (hbehind _ (by simp) (by simp))
  simp only [Operation.words, List.cons_append, List.append_assoc]
  refine .bind (reads_atMark_absent (by simp)) fun b hb => ?_
  rw [if_neg (by simp [hb])]
  refine .bind (reads_operationKind o.kind _) fun kind hkind => ?_
  refine .bind (reads_optionalName fun text => hname text _ (by simp)) fun name hname => ?_
  refine .bind (reads_variableDefinitions hdefinitions ?_) fun ds hds => ?_
  · exact hbehind [.mark .parenOpen] (by simp) (by simp) _ (by simp)
  refine .bind (reads_directives hdirs (apart_selectionSetWords (by simp) _ rest)) ?_
  intro dirs hdirs
  refine .bind (reads_selections hss hne rest) fun ss hss => .pure ?_
  rw [Operation.bare, Operation.bare, hkind, hname, hds, hdirs, hss]

theorem reads_fragmentDefinition {f : Fragment} (h : f.wellFormed = true) (rest : List Word) :
    Reads Parser.fragmentDefinition (f.words ++ rest) rest fun a => a.bare = f.bare := by
  simp only [Fragment.wellFormed, Bool.and_eq_true, Bool.not_eq_true', List.isEmpty_eq_false_iff,
    decide_eq_true_eq] at h
  obtain ⟨⟨⟨hon, hdirs⟩, hne⟩, hss⟩ := h
  have hfragment (after : List Word) :
      Reads Parser.fragmentName (.name f.name.item :: after) after
        fun a => a.bare id = f.name.bare id := by
    refine .bind (reads_name f.name.item after) fun name hname => ?_
    rw [if_neg (by rw [hname]; exact hon)]
    exact .pure (Located.bare_eq_iff.mpr hname)
  simp only [Fragment.words, List.cons_append, List.append_assoc]
  refine .bind (reads_expectKeyword "fragment" _) fun _ _ => ?_
  refine .bind (hfragment _) fun name hname => .bind (reads_expectKeyword "on" _) fun _ _ => ?_
  refine .bind (reads_name_bare f.condition _) fun condition hcondition => ?_
  refine .bind (reads_directives hdirs (apart_selectionSetWords (by simp) _ rest)) ?_
  intro dirs hdirs
  refine .bind (reads_selections hss hne rest) fun ss hss => .pure ?_
  rw [Fragment.bare, Fragment.bare, hname, hcondition, hdirs, hss]

/-! ## Parts of types -/

/-- A description before a name is read back, or found to be absent. -/
theorem reads_description (description : Option Name) (text : String) (rest : List Word) :
    Reads Parser.description (descriptionWords description ++ .name text :: rest)
      (.name text :: rest) fun a => a.map (·.bare id) = description.map (·.bare id) := by
  refine .peek fun span => ?_
  cases description with
  | none => exact .pure rfl
  | some description =>
      refine .bind (reads_scalar (ofToken?_string description.item) _).located fun v hv => .pure ?_
      rw [Option.map_some, Option.map_some, Located.bare_eq_iff.mpr]
      rw [Located.map, hv]
      rfl

/-- Definitions with a description start with a string or a name. -/
theorem startsApart_description {stops : List Word} (hstring : ∀ s, .string s ∉ stops)
    {text : String} (hname : .name text ∉ stops) (description : Option Name) (words : List Word) :
    StartsApart stops (descriptionWords description ++ .name text :: words) := by
  cases description with
  | none => exact ⟨_, _, rfl, hname⟩
  | some description => exact ⟨_, _, rfl, hstring _⟩

theorem reads_inputValueDefinition {d : Located InputValueDefinition}
    (h : d.item.wellFormed = true)
    (hrest : Apart [.mark .exclamation, .mark .equals, .mark .atSign, .mark .parenOpen] rest) :
    Reads Parser.inputValueDefinition (d.item.words ++ rest) rest
      fun a => a.bare InputValueDefinition.bare = d.bare InputValueDefinition.bare := by
  obtain ⟨hdefault, hdirs⟩ := Bool.and_eq_true_iff.mp h
  obtain ⟨span, d⟩ := d
  obtain ⟨hbehind, htype⟩ := apart_behind_type d.default d.directives hrest
  simp only [InputValueDefinition.words, List.cons_append, List.append_assoc]
  refine .located_bare (.bind (reads_description d.description _ _) ?_)
  intro description hdescription
  refine .bind (reads_name_bare d.name _) fun name hname => ?_
  refine .bind (reads_expectMark .colon _) fun _ _ => ?_
  refine .bind (reads_type (htype _ (by simp))) fun type htype => ?_
  refine .bind (reads_acceptMark_default (hbehind _ (by simp))) fun b hb => ?_
  refine reads_default hdefault hb fun default hdefault => ?_
  refine .bind (reads_directives hdirs (hrest.mono (by simp))) fun ds hds => .pure ?_
  rw [InputValueDefinition.bare, InputValueDefinition.bare, hdescription, hname, htype, hdefault,
    hds]

/-- The definitions of arguments or input fields can be told apart. -/
theorem readsItems_inputValueDefinition {ds : List (Located InputValueDefinition)}
    (h : ds.all (·.item.wellFormed) = true) (closing : Punctuator)
    (hclosing : .mark closing ∉
      [Word.mark .exclamation, .mark .equals, .mark .atSign, .mark .parenOpen]) :
    ReadsItems Parser.inputValueDefinition (·.item.words) (·.bare InputValueDefinition.bare)
      [.mark .exclamation, .mark .equals, .mark .atSign, .mark .parenOpen] closing ds := by
  refine ⟨fun d hd rest _ hrest => ?_, fun d _ => ?_, hclosing⟩
  · exact reads_inputValueDefinition (List.all_eq_true.mp h d hd) hrest
  · exact startsApart_description (by simp) (by simp) _ _

theorem reads_argumentDefinitions {ds : List (Located InputValueDefinition)}
    (h : ds.all (·.item.wellFormed) = true) (hrest : rest.head? ≠ some (.mark .parenOpen)) :
    Reads Parser.argumentDefinitions
      (Word.listed .parenOpen (·.item.words) .parenClose ds ++ rest) rest
      fun as => as.map (·.bare InputValueDefinition.bare) =
        ds.map (·.bare InputValueDefinition.bare) :=
  reads_optionalList (readsItems_inputValueDefinition h .parenClose (by simp)) fun _ => hrest

theorem reads_fieldDefinition {d : Located FieldDefinition} (h : d.item.wellFormed = true)
    (hrest : Apart [.mark .exclamation, .mark .atSign, .mark .parenOpen] rest) :
    Reads Parser.fieldDefinition (d.item.words ++ rest) rest
      fun a => a.bare FieldDefinition.bare = d.bare FieldDefinition.bare := by
  obtain ⟨harguments, hdirs⟩ := Bool.and_eq_true_iff.mp h
  obtain ⟨span, d⟩ := d
  have htype : Apart [.mark .exclamation] (directiveWords d.directives ++ rest) :=
    (apart_directiveWords (by simp) _).append (hrest.mono (by simp))
  simp only [FieldDefinition.words, List.cons_append, List.append_assoc]
  refine .located_bare (.bind (reads_description d.description _ _) ?_)
  intro description hdescription
  refine .bind (reads_name_bare d.name _) fun name hname => ?_
  refine .bind (reads_argumentDefinitions harguments (by simp)) fun arguments harguments => ?_
  refine .bind (reads_expectMark .colon _) fun _ _ => ?_
  refine .bind (reads_type (htype _ (by simp))) fun type htype => ?_
  refine .bind (reads_directives hdirs (hrest.mono (by simp))) fun ds hds => .pure ?_
  rw [FieldDefinition.bare, FieldDefinition.bare, hdescription, hname, harguments, htype, hds]

theorem reads_enumValueDefinition {d : Located EnumValueDefinition}
    (h : wellFormedDirectives d.item.directives = true)
    (hrest : Apart [.mark .atSign, .mark .parenOpen] rest) :
    Reads Parser.enumValueDefinition (d.item.words ++ rest) rest
      fun a => a.bare EnumValueDefinition.bare = d.bare EnumValueDefinition.bare := by
  obtain ⟨span, d⟩ := d
  simp only [EnumValueDefinition.words, List.cons_append, List.append_assoc]
  refine .located_bare (.bind (reads_description d.description _ _) ?_)
  intro description hdescription
  refine .bind (reads_name_bare d.name _) fun name hname => ?_
  refine .bind (reads_directives h hrest) fun ds hds => .pure ?_
  rw [EnumValueDefinition.bare, EnumValueDefinition.bare, hdescription, hname, hds]

theorem reads_rootDefinition (d : Located RootDefinition) (rest : List Word) :
    Reads Parser.rootDefinition (d.item.words ++ rest) rest
      fun a => a.bare RootDefinition.bare = d.bare RootDefinition.bare := by
  refine .located_bare (.bind (reads_operationKind d.item.kind _) fun kind hkind => ?_)
  refine .bind (reads_expectMark .colon _) fun _ _ => ?_
  refine .bind (reads_name_bare d.item.type rest) fun type htype => .pure ?_
  rw [RootDefinition.bare, RootDefinition.bare, hkind, htype]

/-- A list of names behind a word or a mark is read back, or found to be absent. -/
theorem reads_nameList {start : Word} {separator : Punctuator} {accept : Parser Bool}
    {names : List Name}
    (hstart : ∀ words, Reads accept (start :: words) words (· = true))
    (habsent : names = [] → Reads accept rest rest (· = false))
    (hrest : rest.head? ≠ some (.mark separator)) :
    Reads
      (do
        if ← accept then Parser.separated separator Parser.name else return [])
      (nameListWords start separator names ++ rest) rest
      fun as => as.map (·.bare id) = names.map (·.bare id) := by
  by_cases hnames : names = []
  · subst hnames
    refine .bind (habsent rfl) fun b hb => ?_
    rw [if_neg (by simp [hb])]
    exact .pure rfl
  · rw [nameListWords, if_neg (by simp [hnames]), List.cons_append]
    refine .bind (hstart _) fun b hb => ?_
    rw [if_pos hb]
    refine reads_separated (fun n _ rest => reads_name_bare n rest) (fun n _ => ?_) hnames hrest
    exact ⟨_, _, rfl, by simp⟩

theorem apart_nameListWords {stops : List Word} {start : Word} (h : start ∉ stops)
    {separator : Punctuator} (names : List Name) :
    Apart stops (nameListWords start separator names) := by
  unfold nameListWords
  split
  · exact apart_nil stops
  · exact apart_cons h _

theorem reads_implemented {names : List Name}
    (hrest : Apart [.mark .ampersand, .name "implements"] rest) :
    Reads Parser.implemented (nameListWords (.name "implements") .ampersand names ++ rest) rest
      fun as => as.map (·.bare id) = names.map (·.bare id) :=
  reads_nameList (reads_acceptKeyword "implements")
    (fun _ => reads_acceptKeyword_absent (hrest _ (by simp))) (hrest _ (by simp))

theorem reads_unionMembers {names : List Name}
    (hrest : Apart [.mark .equals, .mark .pipe] rest) :
    Reads Parser.unionMembers (nameListWords (.mark .equals) .pipe names ++ rest) rest
      fun as => as.map (·.bare id) = names.map (·.bare id) :=
  reads_nameList (reads_acceptMark .equals)
    (fun _ => reads_acceptMark_absent (hrest _ (by simp))) (hrest _ (by simp))

theorem reads_fieldDefinitions {ds : List (Located FieldDefinition)}
    (h : ds.all (·.item.wellFormed) = true) (hrest : rest.head? ≠ some (.mark .braceOpen)) :
    Reads (Parser.optionalList .braceOpen Parser.fieldDefinition .braceClose)
      (Word.listed .braceOpen (·.item.words) .braceClose ds ++ rest) rest
      fun as => as.map (·.bare FieldDefinition.bare) = ds.map (·.bare FieldDefinition.bare) := by
  have hitems : ReadsItems Parser.fieldDefinition (·.item.words) (·.bare FieldDefinition.bare)
      [.mark .exclamation, .mark .atSign, .mark .parenOpen] .braceClose ds := by
    refine ⟨fun d hd rest _ hrest => ?_, fun d _ => ?_, by simp⟩
    · exact reads_fieldDefinition (List.all_eq_true.mp h d hd) hrest
    · exact startsApart_description (by simp) (by simp) _ _
  exact reads_optionalList hitems fun _ => hrest

theorem reads_enumValueDefinitions {ds : List (Located EnumValueDefinition)}
    (h : ds.all (wellFormedDirectives ·.item.directives) = true)
    (hrest : rest.head? ≠ some (.mark .braceOpen)) :
    Reads (Parser.optionalList .braceOpen Parser.enumValueDefinition .braceClose)
      (Word.listed .braceOpen (·.item.words) .braceClose ds ++ rest) rest
      fun as => as.map (·.bare EnumValueDefinition.bare) =
        ds.map (·.bare EnumValueDefinition.bare) := by
  have hitems : ReadsItems Parser.enumValueDefinition (·.item.words)
      (·.bare EnumValueDefinition.bare) [.mark .atSign, .mark .parenOpen] .braceClose ds := by
    refine ⟨fun d hd rest _ hrest => ?_, fun d _ => ?_, by simp⟩
    · exact reads_enumValueDefinition (List.all_eq_true.mp h d hd) hrest
    · exact startsApart_description (by simp) (by simp) _ _
  exact reads_optionalList hitems fun _ => hrest

/-! ## Types, schemas and directives -/

/-- The words that could go on with a definition of a type or a directive. -/
def definitionStops : List Word :=
  [.mark .atSign, .mark .parenOpen, .mark .braceOpen, .mark .equals, .mark .pipe, .mark .ampersand,
    .name "implements"]

/-- What is read of a type behind its name. -/
def IsTypeBody (directives : List (Located DirectiveUse)) (body : TypeBody)
    (part : List (Located DirectiveUse) × TypeBody) : Prop :=
  bareDirectives part.1 = bareDirectives directives ∧ part.2.bare = body.bare

theorem apart_tailWords {stops : List Word} (hbrace : .mark .braceOpen ∉ stops)
    (hequals : .mark .equals ∉ stops) (body : TypeBody) : Apart stops body.tailWords := by
  cases body with
  | scalar => exact apart_nil stops
  | union members => exact apart_nameListWords hequals members
  | _ => exact apart_listed hbrace

/-- The word that starts the definition of a type tells how to read the rest of it. -/
theorem reads_typeBodyOf {ds : List (Located DirectiveUse)} (hds : wellFormedDirectives ds = true)
    {body : TypeBody} (hbody : body.wellFormed = true) (hrest : Apart definitionStops rest) :
    ∃ p, Parser.typeBodyOf body.keyword = some p ∧
      Reads p (body.headWords ++ (directiveWords ds ++ (body.tailWords ++ rest))) rest
        (IsTypeBody ds body) := by
  have hdirectives : Apart [.mark .atSign, .mark .parenOpen] (body.tailWords ++ rest) :=
    (apart_tailWords (by simp) (by simp) body).append (hrest.mono (by simp [definitionStops]))
  have hinterfaces : Apart [.mark .ampersand, .name "implements"]
      (directiveWords ds ++ (body.tailWords ++ rest)) :=
    (apart_directiveWords (by simp) ds).append
      ((apart_tailWords (by simp) (by simp) body).append (hrest.mono (by simp [definitionStops])))
  have hbrace := hrest (.mark .braceOpen) (by simp [definitionStops])
  have hreads := reads_directives hds hdirectives
  cases body with
  | scalar => exact ⟨_, rfl, .bind hreads fun _ has => .pure ⟨has, rfl⟩⟩
  | object interfaces fields =>
      refine ⟨_, rfl, .bind (reads_implemented hinterfaces) fun is his => ?_⟩
      refine .bind hreads fun as has => .bind (reads_fieldDefinitions hbody hbrace) ?_
      exact fun fs hfs => .pure ⟨has, by rw [TypeBody.bare, TypeBody.bare, his, hfs]⟩
  | interface interfaces fields =>
      refine ⟨_, rfl, .bind (reads_implemented hinterfaces) fun is his => ?_⟩
      refine .bind hreads fun as has => .bind (reads_fieldDefinitions hbody hbrace) ?_
      exact fun fs hfs => .pure ⟨has, by rw [TypeBody.bare, TypeBody.bare, his, hfs]⟩
  | union members =>
      refine ⟨_, rfl, .bind hreads fun as has => .bind (reads_unionMembers ?_) fun ms hms => ?_⟩
      · exact hrest.mono (by simp [definitionStops])
      · exact .pure ⟨has, by rw [TypeBody.bare, TypeBody.bare, hms]⟩
  | enum values =>
      refine ⟨_, rfl, .bind hreads fun as has => ?_⟩
      refine .bind (reads_enumValueDefinitions hbody hbrace) fun vs hvs => ?_
      exact .pure ⟨has, by rw [TypeBody.bare, TypeBody.bare, hvs]⟩
  | inputObject fields =>
      refine ⟨_, rfl, .bind hreads fun as has => ?_⟩
      have hitems := readsItems_inputValueDefinition hbody .braceClose (by simp)
      refine .bind (reads_optionalList hitems fun _ => hbrace) fun fs hfs => ?_
      exact .pure ⟨has, by rw [TypeBody.bare, TypeBody.bare, hfs]⟩

/-- A type is read behind its description and the word `extend`. -/
theorem reads_typeDefinition {d : TypeDefinition} (h : d.wellFormed = true)
    {description : Option Name}
    (hdescription : description.map (·.bare id) = d.description.map (·.bare id))
    (hrest : Apart definitionStops rest) :
    ∃ body, Parser.typeBodyOf d.body.keyword = some body ∧
      Reads (Parser.typeDefinition d.extension description body)
        (.name d.body.keyword :: .name d.name.item :: (d.body.headWords ++
          (directiveWords d.directives ++ (d.body.tailWords ++ rest)))) rest
        fun a => a.bare = d.bare := by
  simp only [TypeDefinition.wellFormed, Bool.and_eq_true] at h
  obtain ⟨⟨hdirs, hbody⟩, -⟩ := h
  obtain ⟨body, hkeyword, hreads⟩ := reads_typeBodyOf hdirs hbody hrest
  refine ⟨body, hkeyword, .bind (reads_next _ _) fun _ _ => ?_⟩
  refine .bind (reads_name_bare d.name _) fun name hname => .bind hreads fun part hpart => ?_
  refine .pure ?_
  rw [TypeDefinition.bare, TypeDefinition.bare, hdescription, hname, hpart.1, hpart.2]

/-- An opening mark comes next if and only if there are items behind it. -/
theorem reads_atMark_listed {α : Type} {opening closing : Punctuator} {words : α → List Word}
    {xs : List α} (hrest : rest.head? ≠ some (.mark opening)) :
    Reads (Parser.atMark opening) (Word.listed opening words closing xs ++ rest)
      (Word.listed opening words closing xs ++ rest) (· = !xs.isEmpty) := by
  cases xs with
  | nil => exact reads_atMark_absent hrest
  | cons x xs => exact reads_atMark_enclosed _ rest

/-- A schema is read behind its description and the word `extend`. -/
theorem reads_schemaDefinition {d : SchemaDefinition} (h : d.wellFormed = true)
    {description : Option Name}
    (hdescription : description.map (·.bare id) = d.description.map (·.bare id))
    (hrest : Apart definitionStops rest) :
    Reads (Parser.schemaDefinition d.extension description)
      (.name "schema" :: (directiveWords d.directives ++
        (Word.listed .braceOpen (·.item.words) .braceClose d.roots ++ rest))) rest
      fun a => a.bare = d.bare := by
  obtain ⟨hdirs, hform⟩ := Bool.and_eq_true_iff.mp h
  have hdirectives : Apart [.mark .atSign, .mark .parenOpen]
      (Word.listed .braceOpen (·.item.words) .braceClose d.roots ++ rest) :=
    (apart_listed (by simp)).append (hrest.mono (by simp [definitionStops]))
  have hbrace := hrest (.mark .braceOpen) (by simp [definitionStops])
  have hroots : ReadsItems Parser.rootDefinition (·.item.words) (·.bare RootDefinition.bare) []
      .braceClose d.roots :=
    ⟨fun d _ rest _ _ => reads_rootDefinition d rest, fun d _ => ⟨_, _, rfl, by simp⟩, by simp⟩
  refine .bind (reads_expectKeyword "schema" _) fun _ _ => ?_
  refine .bind (reads_directives hdirs hdirectives) fun ds hds => ?_
  have htail {isBare : Bool} (hbare : isBare = d.roots.isEmpty) :
      Reads
        (if isBare = true then do
          let roots ← pure []
          return (⟨d.extension, description, ds, roots⟩ : SchemaDefinition)
        else do
          let roots ← Parser.delimitedNonempty (.mark .braceOpen) Parser.rootDefinition
            (.mark .braceClose)
          return ⟨d.extension, description, ds, roots⟩)
        (Word.listed .braceOpen (·.item.words) .braceClose d.roots ++ rest) rest
        fun a => a.bare = d.bare := by
    subst hbare
    by_cases hempty : d.roots = []
    · rw [Word.listed, hempty]
      refine .bind (.pure rfl) fun roots hroots => .pure ?_
      rw [SchemaDefinition.bare, SchemaDefinition.bare, hdescription, hds, ← hroots, hempty]
    · rw [Word.listed, if_neg (by simp [hempty]), if_neg (by simp [hempty])]
      refine .bind (reads_delimitedNonempty hroots hempty rest) fun roots hroots => .pure ?_
      rw [SchemaDefinition.bare, SchemaDefinition.bare, hdescription, hds, hroots]
  dsimp only
  split
  · -- an extension is bare if no opening brace comes next
    refine .bind (.map (reads_atMark_listed hbrace) fun b hb => ?_) fun isBare => htail
    rw [hb, Bool.not_not]
  · rename_i hextension
    rw [if_neg hextension] at hform
    exact .bind (.pure rfl) fun isBare hbare => htail (by rw [← hbare]; simpa using hform)

/-- A place at which a directive can stand is read back from its name. -/
theorem reads_directiveLocation (l : Located DirectiveLocation) (rest : List Word) :
    Reads Parser.directiveLocation (.name l.item.name :: rest) rest
      fun a => a.bare id = l.bare id := by
  have hlocation : DirectiveLocation.ofName? l.item.name = some l.item := by
    cases l.item <;> rfl
  refine .bind (reads_name l.item.name rest) fun name hname => ?_
  rw [hname, hlocation]
  exact .pure rfl

theorem reads_directiveDefinition {d : DirectiveDefinition} (h : d.wellFormed = true)
    {description : Option Name}
    (hdescription : description.map (·.bare id) = d.description.map (·.bare id))
    (hrest : Apart definitionStops rest) :
    Reads (Parser.directiveDefinition description)
      (.name "directive" :: .mark .atSign :: .name d.name.item ::
        (Word.listed .parenOpen (·.item.words) .parenClose d.arguments ++
          (Word.present "repeatable" d.repeatable ++ .name "on" ::
            (Word.separated .pipe (fun l => [.name l.item.name]) d.locations ++ rest)))) rest
      fun a => a.bare = d.bare := by
  simp only [DirectiveDefinition.wellFormed, Bool.and_eq_true, Bool.not_eq_true',
    List.isEmpty_eq_false_iff] at h
  obtain ⟨harguments, hne⟩ := h
  have hrepeatable (after : List Word) :
      Reads (Parser.acceptKeyword "repeatable")
        (Word.present "repeatable" d.repeatable ++ .name "on" :: after) (.name "on" :: after)
        (· = d.repeatable) := by
    cases d.repeatable with
    | true => exact reads_acceptKeyword "repeatable" _
    | false => exact reads_acceptKeyword_absent (by simp [Word.present])
  have hkeywords (after : List Word) : Apart [.mark .parenOpen]
      (Word.present "repeatable" d.repeatable ++ .name "on" :: after) :=
    (apart_present (by simp) _).append (apart_cons (by simp) _)
  have hlocations : Reads (Parser.separated .pipe Parser.directiveLocation)
      (Word.separated .pipe (fun l => [.name l.item.name]) d.locations ++ rest) rest
      fun as => as.map (·.bare id) = d.locations.map (·.bare id) :=
    reads_separated (fun l _ rest => reads_directiveLocation l rest)
      (fun l _ => ⟨_, _, rfl, by simp⟩) hne (hrest _ (by simp [definitionStops]))
  refine .bind (reads_expectKeyword "directive" _) fun _ _ => ?_
  refine .bind (reads_expectMark .atSign _) fun _ _ => ?_
  refine .bind (reads_name_bare d.name _) fun name hname => ?_
  refine .bind (reads_argumentDefinitions harguments (hkeywords _ _ (by simp))) fun as has => ?_
  refine .bind (hrepeatable _) fun repeatable hrepeatable => ?_
  refine .bind (reads_expectKeyword "on" _) fun _ _ => .bind hlocations fun ls hls => .pure ?_
  rw [DirectiveDefinition.bare, DirectiveDefinition.bare, hdescription, hname, has, hrepeatable,
    hls]

/-! ## Definitions -/

/-- What is defined by a definition, up to where its parts stand. -/
def IsDefined (d : Definition) (defined : Parser.Defined) : Prop :=
  ∀ span, (defined.at span).bare = d.bare

theorem reads_typeSystem_schema {node : Located SchemaDefinition}
    (h : node.item.wellFormed = true) {description : Option Name}
    (hdescription : description.map (·.bare id) = node.item.description.map (·.bare id))
    (hrest : Apart definitionStops rest) :
    Reads (Parser.typeSystemDefinition node.item.extension description)
      (.name "schema" :: (directiveWords node.item.directives ++
        (Word.listed .braceOpen (·.item.words) .braceClose node.item.roots ++ rest))) rest
      (IsDefined (.schema node)) := by
  refine .peek fun span => ?_
  refine .map (reads_schemaDefinition h hdescription hrest) fun a ha span => ?_
  exact congrArg Definition.schema (Located.bare_eq_iff.mpr ha)

theorem keyword_ne (body : TypeBody) : body.keyword ≠ "schema" ∧ body.keyword ≠ "directive" := by
  cases body <;> simp [TypeBody.keyword]

theorem reads_typeSystem_type {node : Located TypeDefinition}
    (h : node.item.wellFormed = true) {description : Option Name}
    (hdescription : description.map (·.bare id) = node.item.description.map (·.bare id))
    (hrest : Apart definitionStops rest) :
    Reads (Parser.typeSystemDefinition node.item.extension description)
      (.name node.item.body.keyword :: .name node.item.name.item :: (node.item.body.headWords ++
        (directiveWords node.item.directives ++ (node.item.body.tailWords ++ rest)))) rest
      (IsDefined (.type node)) := by
  obtain ⟨body, hbody, hreads⟩ := reads_typeDefinition h hdescription hrest
  obtain ⟨hschema, hdirective⟩ := keyword_ne node.item.body
  refine .peek fun span => ?_
  dsimp only [nextToken_cons, Word.token]
  rw [if_neg hschema, if_neg (by simp [hdirective]), hbody]
  refine .map hreads fun a ha span => ?_
  exact congrArg Definition.type (Located.bare_eq_iff.mpr ha)

theorem reads_typeSystem_directive {node : Located DirectiveDefinition}
    (h : node.item.wellFormed = true) {description : Option Name}
    (hdescription : description.map (·.bare id) = node.item.description.map (·.bare id))
    (hrest : Apart definitionStops rest) :
    Reads (Parser.typeSystemDefinition false description)
      (.name "directive" :: .mark .atSign :: .name node.item.name.item ::
        (Word.listed .parenOpen (·.item.words) .parenClose node.item.arguments ++
          (Word.present "repeatable" node.item.repeatable ++ .name "on" ::
            (Word.separated .pipe (fun l => [.name l.item.name]) node.item.locations ++ rest))))
      rest (IsDefined (.directive node)) := by
  refine .peek fun span => ?_
  refine .map (reads_directiveDefinition h hdescription hrest) fun a ha span => ?_
  exact congrArg Definition.directive (Located.bare_eq_iff.mpr ha)

/-- The words that start definitions without a description. -/
def bareKeywords : List String := ["query", "mutation", "subscription", "fragment", "extend"]

/-- Behind its description, a definition that is neither executable nor an extension is read as one
of the type system. -/
theorem reads_described {description : Option Name} {word : String} (hword : word ∉ bareKeywords)
    {words : List Word} {good : Parser.Defined → Prop}
    (h : Reads (Parser.typeSystemDefinition false description) (.name word :: words) rest good) :
    Reads (Parser.described description) (.name word :: words) rest good := by
  have hne {text : String} (htext : text ∈ bareKeywords) : Token.name word ≠ .name text := by
    intro heq
    rw [Token.name.inj heq] at hword
    exact hword htext
  unfold Parser.described
  split
  · exact h
  · rename_i hnone
    obtain rfl : description = none := by simpa using hnone
    refine .peek fun span => ?_
    dsimp only [nextToken_cons, Word.token]
    split
    · rename_i hitem
      cases hitem
    · rename_i hitem
      exact absurd hitem (hne (by simp [bareKeywords]))
    · rename_i hitem
      exact absurd hitem (hne (by simp [bareKeywords]))
    · rename_i hitem
      exact absurd hitem (hne (by simp [bareKeywords]))
    · rename_i hitem
      exact absurd hitem (hne (by simp [bareKeywords]))
    · rename_i hitem
      exact absurd hitem (hne (by simp [bareKeywords]))
    · exact h

/-- A definition of the type system is read with its description, or with the word `extend`. -/
theorem reads_typeSystem {extension : Bool} {description : Option Name}
    (hextension : extension = true → description = none) {word : String}
    (hword : word ∉ bareKeywords) {words : List Word} {good : Parser.Defined → Prop}
    (h : ∀ a : Option Name, a.map (·.bare id) = description.map (·.bare id) →
      Reads (Parser.typeSystemDefinition extension a) (.name word :: words) rest good) :
    Reads (do Parser.described (← Parser.description))
      (descriptionWords description ++ (Word.present "extend" extension ++ .name word :: words))
      rest good := by
  cases extension with
  | false =>
      refine .bind (reads_description description word words) fun a ha => ?_
      exact reads_described hword (h a ha)
  | true =>
      obtain rfl := hextension rfl
      refine .bind (reads_description none "extend" _) fun a ha => ?_
      obtain rfl : a = none := by simpa using ha
      refine .peek fun span => .bind (reads_expectKeyword "extend" _) fun _ _ => h none rfl

/-- A definition that starts with the word for a kind of operation is read as an operation. -/
theorem reads_described_operation {node : Located Operation} (h : node.item.wellFormed = true)
    (rest : List Word) :
    Reads (Parser.described none) (node.item.words ++ rest) rest
      (IsDefined (.operation node)) := by
  have hreads : Reads (.operation <$> Parser.operation) (node.item.words ++ rest) rest
      (IsDefined (.operation node)) :=
    .map (reads_operation h rest) fun a ha span =>
      congrArg Definition.operation (Located.bare_eq_iff.mpr ha)
  have hnext : nextToken (node.item.words ++ rest) = .name node.item.kind.keyword := rfl
  refine .peek fun span => ?_
  rw [hnext]
  cases hkind : node.item.kind with
  | query => exact hreads
  | mutation => exact hreads
  | subscription => exact hreads

theorem SchemaDefinition.description_eq_none {d : SchemaDefinition} (h : d.wellFormed = true)
    (hextension : d.extension = true) : d.description = none := by
  obtain ⟨-, hform⟩ := Bool.and_eq_true_iff.mp h
  rw [if_pos hextension] at hform
  exact Option.isNone_iff_eq_none.mp hform

theorem TypeDefinition.description_eq_none {d : TypeDefinition} (h : d.wellFormed = true)
    (hextension : d.extension = true) : d.description = none := by
  obtain ⟨-, hform⟩ := Bool.and_eq_true_iff.mp h
  rw [hextension] at hform
  exact Option.isNone_iff_eq_none.mp hform

/-- **Definitions.**  The words of a definition are read as that definition, unless what follows
could go on with it. -/
theorem reads_definition {d : Definition} (h : d.wellFormed = true)
    (hrest : Apart definitionStops rest) :
    Reads Parser.definition (d.words ++ rest) rest fun a => a.bare = d.bare := by
  suffices hdefined : Reads (do Parser.described (← Parser.description)) (d.words ++ rest) rest
      (IsDefined d) from .bind hdefined.located fun a ha => .pure (ha a.span)
  cases d with
  | operation node =>
      refine .bind (reads_description none node.item.kind.keyword _) fun a ha => ?_
      obtain rfl : a = none := by simpa using ha
      exact reads_described_operation h rest
  | fragment node =>
      refine .bind (reads_description none "fragment" _) fun a ha => ?_
      obtain rfl : a = none := by simpa using ha
      refine .peek fun span => .map (reads_fragmentDefinition h rest) fun a ha span => ?_
      exact congrArg Definition.fragment (Located.bare_eq_iff.mpr ha)
  | schema node =>
      simp only [Definition.words, SchemaDefinition.words, List.append_assoc, List.cons_append]
      exact reads_typeSystem (SchemaDefinition.description_eq_none h) (by simp [bareKeywords])
        fun a ha => reads_typeSystem_schema h ha hrest
  | type node =>
      have hword : node.item.body.keyword ∉ bareKeywords := by
        cases node.item.body <;> simp [bareKeywords, TypeBody.keyword]
      simp only [Definition.words, TypeDefinition.words, List.append_assoc, List.cons_append]
      exact reads_typeSystem (TypeDefinition.description_eq_none h) hword
        fun a ha => reads_typeSystem_type h ha hrest
  | directive node =>
      have hextension : false = true → node.item.description = none := nofun
      simp only [Definition.words, DirectiveDefinition.words, List.append_assoc, List.cons_append]
      exact reads_typeSystem hextension (by simp [bareKeywords])
        fun a ha => reads_typeSystem_directive h ha hrest

/-! ## Documents -/

theorem startsApart_extension {word : String} (hword : .name word ∉ definitionStops)
    (description : Option Name) (extension : Bool) (words : List Word) :
    StartsApart definitionStops (descriptionWords description ++
      (Word.present "extend" extension ++ .name word :: words)) := by
  cases extension with
  | false => exact startsApart_description (by simp [definitionStops]) hword _ _
  | true =>
      exact startsApart_description (by simp [definitionStops]) (by simp [definitionStops]) _ _

/-- No definition starts with a word that could go on with another one. -/
theorem startsApart_definition (d : Definition) : StartsApart definitionStops d.words := by
  cases d with
  | operation node =>
      refine ⟨_, _, rfl, ?_⟩
      cases node.item.kind <;> simp [definitionStops, OperationKind.keyword]
  | fragment node => exact ⟨_, _, rfl, by simp [definitionStops]⟩
  | schema node => exact startsApart_extension (by simp [definitionStops]) _ _ _
  | type node =>
      refine startsApart_extension ?_ _ _ _
      cases node.item.body <;> simp [definitionStops, TypeBody.keyword]
  | directive node =>
      exact startsApart_description (by simp [definitionStops]) (by simp [definitionStops]) _ _

/-- **Documents.**  The words of a document are read as that document. -/
theorem reads_document {d : Document} (h : d.wellFormed = true) :
    Reads Parser.document d.words [] fun a => a.bare = d.bare := by
  obtain ⟨hne, hall⟩ := Bool.and_eq_true_iff.mp h
  refine .fix fun bound hbound => ?_
  have hd : d.length < bound := by
    have hcount : d.length ≤ (d.flatMap Definition.words).length :=
      length_le_flatMap fun d _ => (startsApart_definition d).ne_nil
    exact Nat.lt_of_le_of_lt hcount hbound
  clear hbound h
  induction d generalizing bound with
  | nil => cases hne
  | cons first others ih =>
      cases bound with
      | zero => cases hd
      | succ bound =>
          obtain ⟨hfirst, hothers⟩ := Bool.and_eq_true_iff.mp hall
          rw [Document.words, List.flatMap_cons]
          cases others with
          | nil =>
              have hreads := reads_definition hfirst (apart_nil definitionStops)
              refine .bind hreads fun a ha => .peek fun span => ?_
              rw [if_pos nextToken_nil]
              exact .pure (congrArg (fun b => [b]) ha)
          | cons second others =>
              have hsecond := startsApart_definition second
              have hnext : nextToken (second.words ++ others.flatMap Definition.words) ≠
                  .endOfFile :=
                nextToken_ne_endOfFile (by simp [hsecond.ne_nil])
              have hfollow := hsecond.append (others.flatMap Definition.words)
              have hreads := reads_definition hfirst hfollow
              refine .bind hreads fun a ha => .peek fun _ => ?_
              rw [if_neg hnext]
              refine .bind (ih rfl hothers bound (Nat.lt_of_succ_lt_succ hd)) fun as has => ?_
              exact .pure (by rw [Document.bare, List.map_cons, ha]; exact congrArg _ has)

/-- **Reading undoes writing.**  The canonical text of a well-formed document whose names are names
is read as that document, up to where its parts stand. -/
theorem Document.parse_canonicalText (document : Document) (hform : document.wellFormed = true)
    (hnames : ∀ w ∈ document.words, w.isLexical = true) :
    ∃ read, Document.parse document.canonicalText = .ok read ∧ read.bare = document.bare :=
  (reads_document hform).runOn (Lexer.spells_spaced hnames)

/-- A document with definitions of all kinds: a query with a variable, a fragment that it spreads, a
schema, an extension of a type, a union and a directive. -/
def mixedDocument : Document :=
  let skip : Located DirectiveUse := .unlocated ⟨.unlocated "skip", some (.unlocated
    [⟨.unlocated "if", .unlocated (.variable "off")⟩])⟩
  let pets : Located FieldHead := .unlocated ⟨some (.unlocated "all"), .unlocated "pets",
    some (.unlocated [⟨.unlocated "of", .unlocated (.ofEntries
      [("kinds", .ofItems [.enum "CAT", .null, .string "a \"b\"\n"]), ("from", .int (-7))])⟩]),
    [skip]⟩
  let name : Selection := .field (.unlocated ⟨none, .unlocated "name", none, []⟩) []
  [.operation (.unlocated ⟨.query, some (.unlocated "query"),
      some (.unlocated [⟨.unlocated "off", .unlocated (.named "Boolean" true),
        some (.unlocated (.boolean false)), []⟩]), [],
      [.field pets [.spread (.unlocated ⟨.unlocated "F", [skip]⟩),
        .inline (.unlocated ⟨none, []⟩) [name]]]⟩),
    .fragment (.unlocated ⟨.unlocated "F", .unlocated "on", [],
      [.inline (.unlocated ⟨some (.unlocated "Cat"), []⟩) [name]]⟩),
    .schema (.unlocated ⟨false, some (.unlocated "Pets"), [],
      [.unlocated ⟨.query, .unlocated "Query"⟩]⟩),
    .type (.unlocated ⟨true, none, .unlocated "Query", [], .object [.unlocated "A", .unlocated "B"]
      [.unlocated ⟨some (.unlocated "All"), .unlocated "pets", [.unlocated ⟨none, .unlocated "of",
        .unlocated (.list (.named "Kind" true) false), some (.unlocated (.ofItems [])), []⟩],
        .unlocated (.list (.named "Pet" false) true), []⟩]⟩),
    .type (.unlocated ⟨false, none, .unlocated "Pet", [],
      .union [.unlocated "Cat", .unlocated "Dog"]⟩),
    .directive (.unlocated ⟨none, .unlocated "repeatable", [], true,
      [.unlocated .field, .unlocated .query]⟩)]

/-- The mixed document is read back from its text. -/
theorem mixedDocument_read_back :
    mixedDocument.wellFormed = true ∧ (∀ w ∈ mixedDocument.words, w.isLexical = true) ∧
      ∃ read, Document.parse mixedDocument.canonicalText = .ok read ∧
        read.bare = mixedDocument.bare := by
  have hform : mixedDocument.wellFormed = true := by decide +kernel
  have hnames : ∀ w ∈ mixedDocument.words, w.isLexical = true := by decide +kernel
  exact ⟨hform, hnames, Document.parse_canonicalText mixedDocument hform hnames⟩

end GraphQL
