import GraphQL.Proofs.Tracing

/-!
# Places are exact

Every part of a document that is read from a text stands where its tokens stand: it starts where its
first token starts and ends where its last one ends. For each part of the grammar there is one lemma
here, which says that what is read is laid out as the answer.
-/

namespace GraphQL

open Layout

/-! ## Types -/

/-- Reads the mark behind a type that is not yet required. -/
theorem lays_required (t : TypeLiteral) (h : t.isRequired = false) :
    Lays (fun _ => True)
      (do if ← Parser.acceptMark .exclamation then return t.required else return t)
      t.parts TypeLiteral.parts := by
  refine .bind (lays_acceptMark .exclamation) fun found => ?_
  cases found with
  | true =>
      refine .pure ?_
      cases t with
      | named name required => cases h; rfl
      | list item required => cases h; rfl
  | false => exact .pure (List.append_nil _).symm

theorem yields_type : Yields Parser.type (Located.layout TypeLiteral.layout) := by
  have hbody : Yields (Parser.fix Parser.typeBody) TypeLiteral.layout := by
    refine .fix fun type htype => Lays.seq ?_
    refine .bind (lays_acceptMark .bracketOpen) fun found => ?_
    cases found with
    | true =>
        refine htype.next fun item => (yields_expectMark .bracketClose).next fun _ => ?_
        exact lays_required (.list item false) rfl
    | false => exact yields_text.next fun name => lays_required (.named name.item false) rfl
  refine hbody.located fun t => ?_
  cases t <;> rfl

/-! ## Values -/

namespace Value

theorem itemLayouts_eq (items : List (Located Value)) :
    itemLayouts items = items.map (Located.layout layout) := by
  induction items with
  | nil => rfl
  | cons item rest ih => rw [itemLayouts, ih]; rfl

theorem entryLayouts_eq (entries : List (Name × Located Value)) :
    entryLayouts entries = entries.map fun entry =>
      seq [entry.1.layout word, mark .colon, entry.2.layout layout] := by
  induction entries with
  | nil => rfl
  | cons entry rest ih => rw [entryLayouts, ih]; rfl

theorem isSolid_layout (v : Value) : v.layout.isSolid = true := by
  cases v <;> simp [layout, enclosed, seq, isSolid, mark, exactly]

/-- A value that one token stands for takes that token. -/
theorem layout_of_ofToken? {t : Token} {v : Value} (h : ofToken? t = some v) :
    v.layout = .token (·.value? = some v) ∧ t.value? = some v := by
  cases t with
  | int text =>
      refine ⟨?_, h⟩
      obtain ⟨numeral, _, h⟩ := Option.bind_eq_some_iff.mp h
      dsimp only at h
      split at h <;> split at h <;> cases h <;> rfl
  | float text =>
      obtain ⟨x, _, rfl⟩ := Option.map_eq_some_iff.mp h
      exact ⟨rfl, h⟩
  | quoted content =>
      obtain ⟨x, _, rfl⟩ := Option.map_eq_some_iff.mp h
      exact ⟨rfl, h⟩
  | block content =>
      cases h
      exact ⟨rfl, rfl⟩
  | _ => cases h

theorem layout_nameValue (text : String) :
    (Parser.nameValue text).layout = .token (·.value? = some (Parser.nameValue text)) := by
  unfold Parser.nameValue
  split <;> rfl

end Value

theorem yields_scalar : Yields Parser.scalar fun v => .token (Value.ofToken? · = some v) := by
  refine yields_next.next fun t => ?_
  split
  · rename_i v hv
    refine .answer fun read hread => ?_
    obtain ⟨u, rfl, hu⟩ := spelledBy_seq_singleton.mp hread
    exact spelledBy_seq_singleton.mpr ⟨u, rfl, hu ▸ hv⟩
  · exact .throw _ _

theorem yields_objectEntry {value : Parser (Located Value)}
    (hvalue : Yields value (Located.layout Value.layout)) :
    Yields (Parser.objectEntry value) fun entry =>
      seq [entry.1.layout word, mark .colon, entry.2.layout Value.layout] := by
  refine Lays.seq ?_
  refine yields_name.next fun key => (yields_expectMark .colon).next fun _ => ?_
  exact hvalue.next fun v => .pure rfl

theorem yields_value (constant : Bool) :
    Yields (Parser.value constant) (Located.layout Value.layout) := by
  have hscalar : Yields Parser.scalar Value.layout := by
    refine yields_scalar.weaken (fun _ h => h) fun v read hread => ?_
    obtain ⟨t, rfl, ht⟩ := spelledBy_seq_singleton.mp hread
    obtain ⟨hlayout, hvalue⟩ := Value.layout_of_ofToken? ht
    exact spelledBy_seq_singleton.mpr (hlayout ▸ ⟨t, rfl, hvalue⟩)
  refine .fix fun value hvalue => .located (.peek fun t => ?_) Value.isSolid_layout
  split
  · refine ((yields_delimited hvalue .bracketOpen .bracketClose).map fun items => ?_).anywhere
    rw [Value.layout, Value.itemLayouts_eq]
  · refine ((yields_delimited (yields_objectEntry hvalue) .braceOpen .braceClose).map
      fun entries => ?_).anywhere
    rw [Value.layout, Value.entryLayouts_eq]
  · refine .ite (fun _ => lays_unexpected _) fun _ => ?_
    refine (yields_expectMark .dollar).next fun _ => yields_text.next fun name => ?_
    exact .answer fun _ hread => spelledBy_seq_singleton.mpr hread
  · exact hscalar.anywhere
  · exact hscalar.anywhere
  · exact hscalar.anywhere
  · exact hscalar.anywhere
  · refine yields_text.next fun name => .answer fun read hread => ?_
    obtain ⟨t, rfl, ht⟩ := spelledBy_seq_singleton.mp hread
    exact spelledBy_seq_singleton.mpr (Value.layout_nameValue name.item ▸ ⟨t, rfl, ht ▸ rfl⟩)
  · exact lays_unexpected _

/-! ## Arguments and directives -/

theorem yields_argument : Yields Parser.argument Argument.layout := by
  refine Lays.seq ?_
  refine yields_name.next fun name => (yields_expectMark .colon).next fun _ => ?_
  exact (yields_value false).next fun value => .pure rfl

/-- Things in parentheses have a place of their own. -/
theorem yields_parenthesized {α : Type} {item : Parser α} {layout : α → Layout}
    (hitem : Yields item layout) :
    Yields (do
      if ← Parser.atMark .parenOpen then
        some <$> Parser.located
          (Parser.delimitedNonempty (.mark .parenOpen) item (.mark .parenClose))
      else return none) (parenthesizedLayout layout) := by
  refine .bind (lays_atMark .parenOpen) fun _ => .ite (fun _ => ?_) fun _ => ?_
  · have hitems : Yields (Parser.delimitedNonempty (.mark .parenOpen) item (.mark .parenClose))
        fun items => enclosed .parenOpen (items.map layout) .parenClose :=
      (lays_delimitedNonempty hitem fun _ _ => rfl).seq
    exact (hitems.located fun _ => rfl).map fun _ => rfl
  · exact .nothing rfl

theorem yields_arguments :
    Yields Parser.arguments (parenthesizedLayout Argument.layout) :=
  yields_parenthesized yields_argument

theorem yields_directive : Yields Parser.directive (Located.layout DirectiveUse.layout) := by
  refine .located (Lays.seq ?_) fun _ => rfl
  refine (yields_expectMark .atSign).next fun _ => yields_name.next fun name => ?_
  exact yields_arguments.next fun arguments => .pure rfl

theorem yields_directives : Yields Parser.directives directivesLayout := by
  refine Lays.seq (.fix fun more hmore => ?_)
  refine .bind (lays_atMark .atSign) fun _ => .ite (fun _ => ?_) fun _ => .pure rfl
  exact yields_directive.next fun first => .bind (hmore.frame _) fun rest => .pure rfl

/-! ## Selections -/

theorem Selection.listLayouts_eq (selections : List Selection) :
    listLayouts selections = selections.map layout := by
  induction selections with
  | nil => rfl
  | cons selection rest ih => rw [listLayouts, ih]; rfl

/-- A head and the selection set behind it take one place together. -/
theorem yields_withSelections {α : Type} {head : Parser α} {selections : Parser (List Selection)}
    {parts : α → List Layout} (hhead : Lays (fun _ => True) head [] parts)
    (hselections : Yields selections selectionSetLayout)
    (hsolid : ∀ a, ∃ part ∈ parts a, part.isSolid = true) :
    Yields (Parser.withSelections head selections) fun both =>
      .spanned both.1.span (seq (parts both.1.item ++ [selectionSetLayout both.2])) := by
  have hboth : Yields (do
      let head ← head
      return (head, ← selections)) fun both => seq (parts both.1 ++ [selectionSetLayout both.2]) :=
    Lays.seq (.bind hhead fun a => hselections.next fun ss => .pure rfl)
  have hplace := hboth.located fun both => by
    obtain ⟨part, hmem, hpart⟩ := hsolid both.1
    exact isSolid_seq (List.mem_append_left _ hmem) hpart
  exact hplace.next fun both => .pure rfl

theorem lays_fieldHead : Lays (fun _ => True) Parser.fieldHead [] FieldHead.parts := by
  refine yields_name.next fun first => .bind (lays_skip (.mark .colon)) fun found => ?_
  cases found with
  | some _ =>
      refine yields_name.next fun name => yields_arguments.next fun arguments => ?_
      exact yields_directives.next fun directives => .pure rfl
  | none =>
      refine yields_arguments.next fun arguments => ?_
      exact yields_directives.next fun directives => .pure rfl

section

variable {selections : Parser (List Selection)} (hselections : Yields selections selectionSetLayout)

include hselections

theorem yields_field : Yields (Parser.field selections) Selection.layout := by
  have hoptional : Yields (do if ← Parser.atMark .braceOpen then selections else return [])
      selectionSetLayout :=
    .bind (lays_atMark .braceOpen) fun _ =>
      .ite (fun _ => hselections) fun _ => Lays.seq (.pure rfl)
  have hsolid : ∀ head : FieldHead, ∃ part ∈ head.parts, part.isSolid = true :=
    fun head => ⟨head.name.layout word, by simp [FieldHead.parts], rfl⟩
  exact (yields_withSelections lays_fieldHead hoptional hsolid).next fun _ => .pure rfl

/-- What a fragment in a selection set takes, its three points included. -/
def afterEllipsisParts : FragmentSpread ⊕ InlineHead × List Selection → List Layout
  | .inl spread => [mark .ellipsis, spread.name.layout word, directivesLayout spread.directives]
  | .inr (head, selections) => head.parts ++ [selectionSetLayout selections]

theorem lays_afterEllipsis :
    Lays (fun _ => True) (Parser.afterEllipsis selections) [mark .ellipsis] afterEllipsisParts := by
  refine .peek fun t => ?_
  split
  · refine (yields_expectKeyword "on").next fun _ => yields_name.next fun condition => ?_
    exact yields_directives.next fun directives => hselections.next fun ss => .pure rfl
  · exact yields_directives.next fun directives => hselections.next fun ss => .pure rfl
  · exact yields_directives.next fun directives => hselections.next fun ss => .pure rfl
  · exact yields_name.next fun name => yields_directives.next fun directives => .pure rfl
  · exact lays_unexpected _

theorem yields_fragment : Yields (Parser.fragment selections) Selection.layout := by
  have hpart : Yields (do
      Parser.expectMark .ellipsis
      Parser.afterEllipsis selections) fun part => seq (afterEllipsisParts part) :=
    Lays.seq ((yields_expectMark .ellipsis).next fun _ => lays_afterEllipsis hselections)
  have hsolid : ∀ part, (seq (afterEllipsisParts part)).isSolid = true := by
    rintro (spread | ⟨head, ss⟩) <;> rfl
  refine (hpart.located hsolid).next ?_
  rintro ⟨span, spread | ⟨head, ss⟩⟩
  · exact .pure rfl
  · exact .pure rfl

theorem yields_selection : Yields (Parser.selection selections) Selection.layout :=
  .bind (lays_atMark .ellipsis) fun _ =>
    .ite (fun _ => yields_fragment hselections) fun _ => yields_field hselections

end

theorem yields_selections : Yields Parser.selections fun selections =>
    enclosed .braceOpen (Selection.listLayouts selections) .braceClose := by
  -- A selection set inside another one may be left out.
  have hinner : ∀ selections, Yields selections selectionSetLayout →
      Yields (Parser.delimitedNonempty (.mark .braceOpen) (Parser.selection selections)
        (.mark .braceClose)) selectionSetLayout := by
    intro selections hselections
    refine (lays_delimitedNonempty (yields_selection hselections) fun first rest => ?_).seq
    rw [Selection.listLayouts_eq]
    rfl
  refine .fix_outer hinner fun selections hselections => Lays.seq ?_
  refine lays_delimitedNonempty (yields_selection hselections) fun first rest => ?_
  rw [Selection.listLayouts_eq]

/-! ## Operations and fragments -/

theorem yields_variableDefinition :
    Yields Parser.variableDefinition VariableDefinition.layout := by
  have hname : Yields (do
      Parser.expectMark .dollar
      return (← Parser.name).item) fun text => seq [mark .dollar, word text] :=
    Lays.seq ((yields_expectMark .dollar).next fun _ => yields_text.next fun name => .pure rfl)
  refine Lays.seq ?_
  refine (hname.located fun _ => rfl).next fun name => ?_
  refine (yields_expectMark .colon).next fun _ => yields_type.next fun type => ?_
  refine .bind (lays_skip (.mark .equals)) fun found => ?_
  cases found with
  | some _ =>
      exact .map_bind ((yields_value true).next fun value =>
        yields_directives.next fun directives => .pure rfl)
  | none => exact yields_directives.next fun directives => .pure rfl

theorem yields_operationKind : Yields Parser.operationKind fun kind => word kind.keyword := by
  refine .peek fun t => ?_
  split
  · rename_i text _
    split
    · rename_i kind hkind
      obtain rfl : kind.keyword = text := by simpa using List.find?_some hkind
      exact (yields_expectKeyword kind.keyword).next fun _ => .pure rfl
    · exact lays_unexpected _
  · exact lays_unexpected _

theorem yields_optionalName : Yields Parser.optionalName (given (Located.layout word)) := by
  refine .peek fun t => ?_
  split
  · exact (yields_name.map fun _ => rfl).anywhere
  · exact .nothing rfl

theorem lays_operation : Lays (fun _ => True) Parser.operation [] Operation.parts := by
  refine .bind (lays_atMark .braceOpen) fun _ => .ite (fun _ => ?_) fun _ => ?_
  · -- Everything but the selection set is left out.
    refine yields_selections.next fun ss => .answer fun read hread => ?_
    exact ⟨[], read, rfl, .inl rfl, [], read, rfl, rfl, [], read, rfl, rfl, [], read, rfl, rfl,
      hread⟩
  · refine yields_operationKind.next fun kind => yields_optionalName.next fun name => ?_
    refine (yields_parenthesized yields_variableDefinition).next fun definitions => ?_
    refine yields_directives.next fun directives => yields_selections.next fun ss => ?_
    refine .answer fun read hread => ?_
    obtain ⟨keyword, rest, rfl, hkeyword, hrest⟩ := hread
    refine ⟨keyword, rest, rfl, ?_, hrest⟩
    dsimp only
    split
    · exact .inr hkeyword
    · exact hkeyword

theorem lays_fragmentDefinition :
    Lays (fun _ => True) Parser.fragmentDefinition [] Fragment.parts := by
  have hname : Yields Parser.fragmentName (Located.layout word) :=
    yields_name.next fun name => .ite (fun _ => .throw _ _) fun _ => .pure rfl
  refine (yields_expectKeyword "fragment").next fun _ => hname.next fun name => ?_
  refine (yields_expectKeyword "on").next fun _ => yields_name.next fun condition => ?_
  exact yields_directives.next fun directives => yields_selections.next fun ss => .pure rfl

/-! ## Parts of type systems -/

/-- If a string comes next, a scalar is that string. -/
theorem lays_string {t : Located Token}
    (h : ∀ v, Value.ofToken? t.item = some v → v = .string (v.string?.getD "")) :
    Lays (fun c => True ∧ c.peek = t) Parser.scalar [] fun v =>
      [.token (Value.ofToken? · = some (.string (v.string?.getD "")))] := by
  rintro c v c' ⟨-, rfl⟩ hrun
  obtain ⟨tokens, hmoves, hlays⟩ := yields_scalar c v c' trivial hrun
  obtain ⟨u, rfl, hu⟩ := spelledBy_seq_singleton.mp (hlays [] rfl)
  have hpeek : c.peek = u := by simp [Cursor.peek, hmoves.ahead]
  refine ⟨[u], hmoves, ?_⟩
  rintro _ rfl
  refine spelledBy_seq_singleton.mpr ⟨u, rfl, ?_⟩
  rw [← h v (hpeek ▸ hu)]
  exact hu

theorem yields_description : Yields Parser.description descriptionLayout := by
  refine .peek fun t => ?_
  split
  · rename_i content hcontent
    have hstring : ∀ v, Value.ofToken? t.item = some v → v = .string (v.string?.getD "") := by
      rw [hcontent]
      intro v hv
      obtain ⟨s, _, rfl⟩ := Option.map_eq_some_iff.mp hv
      rfl
    refine .bind ((lays_string hstring).located fun _ => rfl) fun text => .pure rfl
  · rename_i content hcontent
    have hstring : ∀ v, Value.ofToken? t.item = some v → v = .string (v.string?.getD "") := by
      rw [hcontent]
      rintro v ⟨⟩
      rfl
    refine .bind ((lays_string hstring).located fun _ => rfl) fun text => .pure rfl
  · exact .nothing rfl

theorem yields_inputValueDefinition :
    Yields Parser.inputValueDefinition (Located.layout InputValueDefinition.layout) := by
  refine .located (Lays.seq ?_) fun _ => isSolid_seq (.tail _ (.head _)) rfl
  refine yields_description.next fun description => yields_name.next fun name => ?_
  refine (yields_expectMark .colon).next fun _ => yields_type.next fun type => ?_
  refine .bind (lays_acceptMark .equals) fun found => ?_
  cases found with
  | true =>
      exact .map_bind ((yields_value true).next fun value =>
        yields_directives.next fun directives => .pure rfl)
  | false => exact yields_directives.next fun directives => .pure rfl

theorem yields_argumentDefinitions :
    Yields Parser.argumentDefinitions argumentDefinitionsLayout :=
  yields_optionalList yields_inputValueDefinition .parenOpen .parenClose

theorem yields_fieldDefinition :
    Yields Parser.fieldDefinition (Located.layout FieldDefinition.layout) := by
  refine .located (Lays.seq ?_) fun _ => isSolid_seq (.tail _ (.head _)) rfl
  refine yields_description.next fun description => yields_name.next fun name => ?_
  refine yields_argumentDefinitions.next fun arguments => (yields_expectMark .colon).next ?_
  exact fun _ => yields_type.next fun type => yields_directives.next fun directives => .pure rfl

theorem yields_enumValueDefinition :
    Yields Parser.enumValueDefinition (Located.layout EnumValueDefinition.layout) := by
  refine .located (Lays.seq ?_) fun _ => isSolid_seq (.tail _ (.head _)) rfl
  refine yields_description.next fun description => yields_name.next fun name => ?_
  exact yields_directives.next fun directives => .pure rfl

theorem yields_rootDefinition :
    Yields Parser.rootDefinition (Located.layout RootDefinition.layout) := by
  refine .located (Lays.seq ?_) fun _ => rfl
  refine yields_operationKind.next fun kind => (yields_expectMark .colon).next fun _ => ?_
  exact yields_name.next fun type => .pure rfl

theorem yields_implemented :
    Yields Parser.implemented (namesLayout (word "implements") .ampersand) := by
  refine Lays.seq (.bind (lays_acceptKeyword "implements") fun found => ?_)
  cases found with
  | true => exact lays_separated yields_name fun _ _ => rfl
  | false => exact .pure rfl

theorem yields_unionMembers : Yields Parser.unionMembers (namesLayout (mark .equals) .pipe) := by
  refine Lays.seq (.bind (lays_acceptMark .equals) fun found => ?_)
  cases found with
  | true => exact lays_separated yields_name fun _ _ => rfl
  | false => exact .pure rfl

theorem yields_directiveLocation :
    Yields Parser.directiveLocation (Located.layout fun location => word location.name) := by
  refine yields_name.next fun name => ?_
  split
  · rename_i location hlocation
    obtain ⟨span, text⟩ := name
    obtain rfl : location.name = text := by simpa using List.find?_some hlocation
    exact .pure rfl
  · exact .throw _ _

/-! ## Type systems -/

theorem lays_schemaDefinition (extension : Bool) (description : Option Name) :
    Lays (fun _ => True) (Parser.schemaDefinition extension description)
      (openingParts extension description) SchemaDefinition.parts := by
  have hroots : Yields
      (Parser.delimitedNonempty (.mark .braceOpen) Parser.rootDefinition (.mark .braceClose))
      fun roots =>
        listed .braceOpen (roots.map (Located.layout RootDefinition.layout)) .braceClose :=
    (lays_delimitedNonempty yields_rootDefinition fun _ _ => rfl).seq
  have hnone : Yields (pure []) fun roots =>
      listed .braceOpen (roots.map (Located.layout RootDefinition.layout)) .braceClose :=
    Lays.seq (.pure rfl)
  have hlook : ∀ before, Lays (fun _ => True) (not <$> Parser.atMark .braceOpen) before
      fun _ => before := fun _ => .map (lays_atMark .braceOpen) fun _ => rfl
  have hskip : ∀ before, Lays (fun _ => True) (pure false : Parser Bool) before
      fun _ => before := fun _ => .pure rfl
  refine (yields_expectKeyword "schema").next fun _ => yields_directives.next fun directives => ?_
  refine .ite (fun _ => .bind (hlook _) fun bare => ?_) fun _ => .bind (hskip _) fun bare => ?_
  all_goals
    refine .ite (fun _ => hnone.next fun roots => .pure ?_)
      fun _ => hroots.next fun roots => .pure ?_
    all_goals simp [SchemaDefinition.parts]

/-- The word that starts a type definition is the one of its body. -/
theorem lays_typeBodyOf {text : String} {body : Parser (List (Located DirectiveUse) × TypeBody)}
    (h : Parser.typeBodyOf text = some body) (before : List Layout) (name : Layout) :
    Lays (fun _ => True) body (before ++ [word text] ++ [name]) fun both =>
      before ++ [word both.2.keyword] ++ [name] ++ both.2.parts both.1 := by
  unfold Parser.typeBodyOf at h
  split at h <;> cases h
  · exact yields_directives.next fun directives => .pure rfl
  · refine yields_implemented.next fun interfaces => yields_directives.next fun directives => ?_
    refine (yields_optionalList yields_fieldDefinition _ _).next fun fields => .pure ?_
    simp [TypeBody.parts, TypeBody.keyword, fieldsLayout]
  · refine yields_implemented.next fun interfaces => yields_directives.next fun directives => ?_
    refine (yields_optionalList yields_fieldDefinition _ _).next fun fields => .pure ?_
    simp [TypeBody.parts, TypeBody.keyword, fieldsLayout]
  · refine yields_directives.next fun directives => yields_unionMembers.next fun members => .pure ?_
    simp [TypeBody.parts, TypeBody.keyword]
  · refine yields_directives.next fun directives => ?_
    refine (yields_optionalList yields_enumValueDefinition _ _).next fun values => .pure ?_
    simp [TypeBody.parts, TypeBody.keyword]
  · refine yields_directives.next fun directives => ?_
    refine (yields_optionalList yields_inputValueDefinition _ _).next fun fields => .pure ?_
    simp [TypeBody.parts, TypeBody.keyword]

theorem lays_typeDefinition {t : Located Token} {text : String} (ht : t.item = .name text)
    {body : Parser (List (Located DirectiveUse) × TypeBody)}
    (hbody : Parser.typeBodyOf text = some body) (extension : Bool) (description : Option Name) :
    Lays (fun c => True ∧ c.peek = t) (Parser.typeDefinition extension description body)
      (openingParts extension description) TypeDefinition.parts := by
  refine .bind (lays_next_item ht) fun _ => yields_name.next fun name => ?_
  refine .bind (lays_typeBodyOf hbody _ _) fun both => .pure ?_
  simp [TypeDefinition.parts]

theorem lays_directiveDefinition (description : Option Name) :
    Lays (fun _ => True) (Parser.directiveDefinition description)
      [descriptionLayout description] DirectiveDefinition.parts := by
  have hlocations : Yields (Parser.separated .pipe Parser.directiveLocation) fun locations =>
      separated .pipe (locations.map (Located.layout fun location => word location.name)) :=
    lays_separated yields_directiveLocation fun _ _ => rfl
  refine (yields_expectKeyword "directive").next fun _ => (yields_expectMark .atSign).next ?_
  refine fun _ => yields_name.next fun name => yields_argumentDefinitions.next fun arguments => ?_
  refine .bind (lays_acceptKeyword "repeatable") fun repeatable => ?_
  refine (yields_expectKeyword "on").next fun _ => hlocations.next fun locations => .pure ?_
  simp [DirectiveDefinition.parts]

/-- The parts of what is defined. -/
def Parser.Defined.parts : Parser.Defined → List Layout
  | .operation o => o.parts
  | .fragment f => f.parts
  | .schema s => s.parts
  | .type t => t.parts
  | .directive d => d.parts

theorem Parser.Defined.layout_at (span : Span) (defined : Parser.Defined) :
    (defined.at span).layout = .spanned span (seq defined.parts) := by
  cases defined <;> rfl

theorem Parser.Defined.isSolid_parts (defined : Parser.Defined) :
    (seq defined.parts).isSolid = true := by
  cases defined with
  | operation o => exact isSolid_seq (.tail _ (.tail _ (.tail _ (.tail _ (.head _))))) rfl
  | fragment f => exact isSolid_seq (.head _) rfl
  | schema s => exact isSolid_seq (List.mem_append_right _ (.head _)) rfl
  | type t => exact isSolid_seq (List.mem_append_left _ (List.mem_append_right _ (.head _))) rfl
  | directive d => exact isSolid_seq (.tail _ (.head _)) rfl

theorem lays_typeSystemDefinition (extension : Bool) (description : Option Name) :
    Lays (fun _ => True) (Parser.typeSystemDefinition extension description)
      (openingParts extension description) Parser.Defined.parts := by
  refine .peek fun t => ?_
  split
  · rename_i text htext
    refine .ite (fun _ => .anywhere ?_) fun _ => .ite (fun h => .anywhere ?_) fun _ => ?_
    · exact (lays_schemaDefinition extension description).map fun _ => rfl
    · obtain rfl : extension = false := by simpa using (Bool.and_eq_true_iff.mp h).2
      exact (lays_directiveDefinition description).map fun _ => rfl
    · split
      · rename_i body hbody
        exact (lays_typeDefinition htext hbody extension description).map fun _ => rfl
      · exact lays_unexpected _
  · exact lays_unexpected _

theorem lays_described (description : Option Name) :
    Lays (fun _ => True) (Parser.described description) [descriptionLayout description]
      Parser.Defined.parts := by
  refine .ite (fun _ => lays_typeSystemDefinition false description) fun hnone => ?_
  obtain rfl : description = none := by simpa using hnone
  have hbefore : ∀ read, (seq [descriptionLayout none]).SpelledBy read →
      (seq []).SpelledBy read := fun _ h => spelledBy_seq_singleton.mp h
  have hoperation : Lays (fun _ => True) (.operation <$> Parser.operation) []
      Parser.Defined.parts := lays_operation.map fun _ => rfl
  have hfragment : Lays (fun _ => True) (.fragment <$> Parser.fragmentDefinition) []
      Parser.Defined.parts := lays_fragmentDefinition.map fun _ => rfl
  refine .peek fun t => .anywhere ?_
  split
  · exact hoperation.weaken hbefore fun _ _ h => h
  · exact hoperation.weaken hbefore fun _ _ h => h
  · exact hoperation.weaken hbefore fun _ _ h => h
  · exact hoperation.weaken hbefore fun _ _ h => h
  · exact hfragment.weaken hbefore fun _ _ h => h
  · exact (yields_expectKeyword "extend").next fun _ => lays_typeSystemDefinition true none
  · exact lays_typeSystemDefinition false none

theorem yields_definition : Yields Parser.definition Definition.layout := by
  have hdefined : Yields (do Parser.described (← Parser.description)) fun defined =>
      seq defined.parts := Lays.seq (.bind yields_description lays_described)
  refine (hdefined.located Parser.Defined.isSolid_parts).next fun defined => .pure ?_
  rw [Parser.Defined.layout_at]
  rfl

theorem lays_document :
    Lays (fun _ => True) Parser.document [] fun document => document.map Definition.layout := by
  refine .fix fun more hmore => yields_definition.next fun first => .peek fun t => .anywhere ?_
  exact .ite (fun _ => .pure rfl) fun _ => .bind (hmore.frame _) fun rest => .pure rfl

/-- A document is only left where the text ends. -/
theorem endOfFile_of_document {c c' : Cursor} {document : Document}
    (h : Parser.document c = .ok document c') : c'.peek.item = .endOfFile := by
  refine bounded_induction (P := fun p : Parser Document => ∀ c document c', p c = .ok document c' →
    c'.peek.item = .endOfFile) ?_ ?_ _ c document c' h
  · exact fun _ _ _ hrun => (ok_of_unexpected hrun).elim
  · intro more hmore c document c' hrun
    obtain ⟨first, middle, -, hrun⟩ := ok_of_bind hrun
    obtain ⟨t, _, hpeek, hrun⟩ := ok_of_bind hrun
    cases hpeek
    split at hrun
    · rename_i hend
      cases hrun
      exact hend
    · obtain ⟨rest, _, hrest, hrun⟩ := ok_of_bind hrun
      cases hrun
      exact hmore _ _ _ hrest

/-! ## Documents -/

/-- The places in a document are those of the tokens that its parts take. -/
structure Document.PlacedExactly (source : String) (document : Document) : Prop where
  /-- All tokens are taken, and each place reaches from the start of its first token to the end of
  its last one. -/
  spelled : document.layout.SpelledBy (Lexer.run source).tokens
  /-- Definitions stand one behind the other. -/
  definitions : document.layout.outer.Pairwise Span.Before
  /-- The places in a place stand in it, one behind the other. -/
  nested : document.layout.Nested

theorem inOrder_tokens (source : String) : InOrder (Lexer.run source).tokens := by
  have hreads := Lexer.readsFrom_runFrom [] source.toList
  have hsub : (Lexer.run source).tokens.Sublist (Lexer.run source).sequence :=
    List.sublist_append_left _ _
  exact ⟨hreads.tiles.ordered.2.sublist hsub,
    fun t ht => (hreads.tiles.covers t (hsub.subset ht)).1⟩

/-- What is read from a text takes all its tokens, if the parser only stops at the end of it. -/
theorem spelledBy_of_runOn {α : Type} {p : Parser α} {parts : α → List Layout}
    (hp : Lays (fun _ => True) p [] parts)
    (hstops : ∀ c a c', p c = .ok a c' → c'.peek.item = .endOfFile) {source : String} {a : α}
    (h : p.runOn source = .ok a) :
    (seq (parts a)).SpelledBy (Lexer.run source).tokens ∧
      ∃ stop, (Lexer.run source).outcome = .ok stop := by
  unfold Parser.runOn at h
  split at h
  · cases h
  rename_i c hstart
  split at h <;> cases h
  rename_i c' hrun
  obtain ⟨hahead, hstop⟩ : c.ahead = (Lexer.run source).tokens ∧
      ∃ stop, (Lexer.run source).outcome = .ok stop := by
    simp only [Cursor.start] at hstart
    split at hstart <;> cases hstart
    exact ⟨rfl, _, ‹_›⟩
  obtain ⟨tokens, hmoves, hlays⟩ := hp c a c' trivial hrun
  have hend : c'.ahead = [] := by
    have hpeek := hstops c a c' hrun
    unfold Cursor.peek at hpeek
    split at hpeek
    · assumption
    · rename_i t rest hrest
      have hmem : t ∈ (Lexer.run source).tokens := by simp [← hahead, hmoves.ahead, hrest]
      exact absurd hpeek ((Lexer.readsFrom_runFrom [] source.toList).tokens t hmem)
  refine ⟨?_, hstop⟩
  rw [← hahead, hmoves.ahead, hend, List.append_nil]
  exact hlays [] rfl

theorem spelledBy_of_parse {source : String} {document : Document}
    (h : Document.parse source = .ok document) :
    document.layout.SpelledBy (Lexer.run source).tokens :=
  (spelledBy_of_runOn lays_document (fun _ _ _ => endOfFile_of_document) h).1

/-- Described and extended types, and an operation with a variable and a fragment. -/
def dockText : String :=
  "\"A crane.\" type Crane implements & Tool \x7b lift(tons: Int = 3): [Job!]! @slow \x7d " ++
    "extend type Crane @painted union Any = Crane | Job " ++
    "query ($no: [Int] = [1]) \x7b dock(no: $no) \x7b all: tools \x7b ...Reach \x7d \x7d \x7d " ++
    "fragment Reach on Crane @slow \x7b lift(tons: 8) \x7b id \x7d \x7d"

end GraphQL
