import GraphQL.Proofs.Unrolling

/-!
# Cursors are safe, and reading ends

The tokens of a text with the end of the file behind them are numbered, and a cursor stands before
one of them (`Cursor.StandsAt`): there always is a token to look at, and unless the cursor stands
before the first one, there is one before it. Whatever is asked of a cursor, and whether it is
granted or not, the cursor only moves forward, and not behind the end of the file.

Loops and nested parts end because what they read takes tokens. `ReadingSound` puts this together:
cursors are safe, items take a token, and each parser that refers to itself has its answer after at
most one round more than there are tokens ahead.
-/

namespace GraphQL

namespace Cursor

/-- A cursor stands before the token of this index, among the tokens of a text with the end of the
file behind them. -/
structure StandsAt (sequence : List (Located Token)) (index : Nat) (c : Cursor) : Prop where
  /-- There is a token of this index, and it comes next. -/
  peek : sequence[index]? = some c.peek
  /-- Before the first token the previous end is its start; else there is a token before. -/
  previousEnd : (if index = 0 then some c.peek.span.start
    else sequence[index - 1]?.map (·.span.stop)) = some c.previousEnd
  /-- The tokens from here on are still to be read. -/
  ahead : sequence.drop index = c.ahead ++ [⟨.empty c.finish, .endOfFile⟩]
  /-- The end of the file is not among the tokens that have been read. -/
  read : ∀ t ∈ sequence.take index, t.item ≠ .endOfFile

/-- A cursor that has passed over some tokens of a text stands behind them. -/
theorem Passes.standsAt {tokens read : List (Located Token)} {finish : Position} {c : Cursor}
    (hno : ∀ t ∈ tokens, t.item ≠ .endOfFile) (h : Passes ⟨tokens, finish, none⟩ read c) :
    c.StandsAt (tokens ++ [⟨.empty finish, .endOfFile⟩]) read.length := by
  obtain ⟨⟨hahead, hlast⟩, hfinish⟩ := h
  have htokens : tokens = read ++ c.ahead := hahead
  have hfinish : c.finish = finish := hfinish
  have hlast : c.last = read.getLast?.map (·.span.stop) := by rw [hlast, Option.or_none]
  subst htokens hfinish
  constructor
  · cases hrest : c.ahead <;> simp [Cursor.peek, hrest]
  · obtain rfl | ⟨before, t, rfl⟩ := List.eq_nil_or_concat read
    · simp [Cursor.previousEnd, hlast]
    · simp [Cursor.previousEnd, hlast]
  · rw [List.append_assoc, List.drop_left]
  · rw [List.append_assoc, List.take_left]
    exact fun t ht => hno t (List.mem_append_left _ ht)

/-- What can be asked of a cursor. The items of a list may be read by whatever only moves
forward. -/
inductive Request where
  | peek
  | next
  | expect (token : Token)
  | skip (token : Token)
  | acceptKeyword (word : String)
  | name
  | previousEnd
  | unexpected
  | type
  | delimited {α : Type} (opening : Token) (item : Parser α) (closing : Token)
    (forward : Advances 0 item)
  | delimitedNonempty {α : Type} (opening : Token) (item : Parser α) (closing : Token)
    (forward : Advances 0 item)

namespace Request

/-- Asks, and forgets the answer. -/
def parser : Request → Parser Unit
  | peek => discard Parser.peek
  | next => discard Parser.next
  | expect token => discard (Parser.expect token)
  | skip token => discard (Parser.skip token)
  | acceptKeyword word => discard (Parser.acceptKeyword word)
  | name => discard Parser.name
  | previousEnd => discard (Cursor.previousEnd <$> get)
  | unexpected => Parser.unexpected
  | type => discard Parser.type
  | delimited opening item closing _ =>
    discard (Parser.located (Parser.delimited opening item closing))
  | delimitedNonempty opening item closing _ =>
    discard (Parser.located (Parser.delimitedNonempty opening item closing))

/-- The cursor that is left by a request, granted or not. -/
def apply (c : Cursor) (request : Request) : Cursor :=
  match request.parser c with
  | .ok _ c' => c'
  | .error _ c' => c'

theorem forward (request : Request) : Advances 0 request.parser := by
  cases request with
  | peek => exact advances_peek.map
  | next => exact advances_next.forward.map
  | expect token => exact (advances_expect token).forward.map
  | skip token => exact (advances_skip token).map
  | acceptKeyword word => exact (advances_acceptKeyword word).map
  | name => exact advances_name.forward.map
  | previousEnd => exact advances_get.map.map
  | unexpected => exact advances_unexpected
  | type => exact advances_type.forward.map
  | delimited opening item closing hitem =>
      exact (advances_delimited hitem opening closing).forward.located.map
  | delimitedNonempty opening item closing hitem =>
      exact (advances_delimitedNonempty hitem opening closing).forward.located.map

/-- One request moves a cursor forward. -/
theorem passes_apply (c : Cursor) (request : Request) :
    ∃ tokens, c.Passes tokens (apply c request) := by
  unfold apply
  cases hrun : request.parser c with
  | ok _ c' =>
      obtain ⟨tokens, hpasses, -⟩ := request.forward.ok hrun
      exact ⟨tokens, hpasses⟩
  | error e c' => exact request.forward.error hrun

/-- Any number of requests move a cursor forward. -/
theorem passes_foldl (c : Cursor) (requests : List Request) :
    ∃ tokens, c.Passes tokens (requests.foldl apply c) := by
  induction requests generalizing c with
  | nil => exact ⟨[], .refl c⟩
  | cons request requests ih =>
      obtain ⟨tokens, hfirst⟩ := passes_apply c request
      obtain ⟨more, hrest⟩ := ih (apply c request)
      exact ⟨tokens ++ more, hfirst.trans hrest⟩

end Request

/-- A cursor before all tokens of a text stays at one of them and never goes back, whatever is asked
of it. -/
theorem standsAt_foldl {source : String} {finish : Position}
    (h : (Lexer.run source).outcome = .ok finish) (requests more : List Request) :
    ∃ i j, i ≤ j ∧
      (requests.foldl Request.apply ⟨(Lexer.run source).tokens, finish, none⟩).StandsAt
        (Lexer.run source).sequence i ∧
      ((requests ++ more).foldl Request.apply ⟨(Lexer.run source).tokens, finish, none⟩).StandsAt
        (Lexer.run source).sequence j := by
  have hno := (Lexer.readsFrom_runFrom [] source.toList).tokens
  have hsequence : (Lexer.run source).sequence =
      (Lexer.run source).tokens ++ [⟨.empty finish, .endOfFile⟩] := by
    simp [Lexed.sequence, h]
  obtain ⟨read, hread⟩ := Request.passes_foldl ⟨(Lexer.run source).tokens, finish, none⟩ requests
  obtain ⟨further, hfurther⟩ := Request.passes_foldl _ more
  rw [hsequence, List.foldl_append]
  exact ⟨read.length, (read ++ further).length, by simp, hread.standsAt hno,
    (hread.trans hfurther).standsAt hno⟩

end Cursor

/-! ## Items and rounds -/

namespace Parser

/-- The parsers that read the items of lists, and the definitions of a document. -/
inductive ReadsItem : {α : Type} → Parser α → Prop
  | value (constant : Bool) : ReadsItem (value constant)
  | objectEntry (constant : Bool) : ReadsItem (objectEntry (value constant))
  | argument : ReadsItem argument
  | variableDefinition : ReadsItem variableDefinition
  | selection : ReadsItem (selection selections)
  | inputValueDefinition : ReadsItem inputValueDefinition
  | fieldDefinition : ReadsItem fieldDefinition
  | enumValueDefinition : ReadsItem enumValueDefinition
  | rootDefinition : ReadsItem rootDefinition
  | name : ReadsItem name
  | directiveLocation : ReadsItem directiveLocation
  | directive : ReadsItem directive
  | definition : ReadsItem definition

/-- The parsers that refer to themselves, each with its body. -/
inductive Recursive : {α : Type} → (Parser α → Parser α) → Parser α → Prop
  | itemsUntil {α : Type} {item : Parser α} (hitem : ReadsItem item) (closing : Token) :
      Recursive (itemsBody item closing) (itemsUntil item closing)
  | separatedRest {α : Type} {item : Parser α} (hitem : ReadsItem item) (separator : Punctuator) :
      Recursive (separatedBody separator item) (separatedRest separator item)
  | directives : Recursive directivesBody directives
  | value (constant : Bool) : Recursive (valueBody constant) (value constant)
  | type : Recursive typeBody (fix typeBody)
  | selections : Recursive selectionsBody selections
  | document : Recursive documentBody document

theorem ReadsItem.advances {α : Type} {item : Parser α} (h : ReadsItem item) : Advances 1 item := by
  cases h with
  | value constant => exact advances_value constant
  | objectEntry constant => exact advances_objectEntry (advances_value constant)
  | argument => exact advances_argument
  | variableDefinition => exact advances_variableDefinition
  | selection => exact advances_selection advances_selections
  | inputValueDefinition => exact advances_inputValueDefinition
  | fieldDefinition => exact advances_fieldDefinition
  | enumValueDefinition => exact advances_enumValueDefinition
  | rootDefinition => exact advances_rootDefinition
  | name => exact advances_name
  | directiveLocation => exact advances_directiveLocation
  | directive => exact advances_directive
  | definition => exact advances_definition

/-- A body is productive, and its parser is the one that it makes. -/
theorem Recursive.productive {α : Type} {body : Parser α → Parser α} {p : Parser α}
    (h : Recursive body p) : Productive body ∧ p = fix body := by
  cases h with
  | itemsUntil hitem closing => exact ⟨productive_itemsBody hitem.advances closing, rfl⟩
  | separatedRest hitem separator => exact ⟨productive_separatedBody hitem.advances separator, rfl⟩
  | directives => exact ⟨productive_directivesBody, rfl⟩
  | value constant => exact ⟨productive_valueBody constant, rfl⟩
  | type => exact ⟨productive_typeBody, rfl⟩
  | selections => exact ⟨productive_selectionsBody, rfl⟩
  | document => exact ⟨productive_documentBody, rfl⟩

theorem Recursive.iterate_eq {α : Type} {body : Parser α → Parser α} {p : Parser α}
    (h : Recursive body p) (other : Parser α) {c : Cursor} {n : Nat} (hn : c.ahead.length < n) :
    body^[n] other c = p c := by
  obtain ⟨hproductive, rfl⟩ := h.productive
  exact hproductive.iterate_eq other hn

theorem Recursive.agreeBelow {α : Type} {body : Parser α → Parser α} {p : Parser α}
    (h : Recursive body p) (other : Parser α) (n : Nat) : AgreeBelow n (body^[n] other) p :=
  fun _ hn => h.iterate_eq other hn

end Parser

/-- Parsers that agree with all tokens of a text ahead read the same from it. -/
theorem AgreeBelow.runOn_eq {α : Type} {p q : Parser α} {n : Nat} (h : AgreeBelow n p q)
    {source : String} (hn : (Lexer.run source).tokens.length < n) :
    p.runOn source = q.runOn source := by
  cases houtcome : (Lexer.run source).outcome with
  | error e => simp only [Parser.runOn, Cursor.start, houtcome]
  | ok finish =>
      have hrun := h ⟨(Lexer.run source).tokens, finish, none⟩ hn
      simp only [Parser.runOn, Cursor.start, houtcome, EStateM.run, hrun]

/-- What holds of reading, whatever text is read. -/
structure ReadingSound : Prop where
  /-- Where a text has tokens, a cursor starts before the first one; whatever is asked of it, it
  stands at a token, and never before the one at which it stood earlier. -/
  cursor : ∀ source finish, (Lexer.run source).outcome = .ok finish →
    ∃ c, Cursor.start source = .ok c ∧ ∀ requests more : List Cursor.Request, ∃ i j, i ≤ j ∧
      (requests.foldl Cursor.Request.apply c).StandsAt (Lexer.run source).sequence i ∧
      ((requests ++ more).foldl Cursor.Request.apply c).StandsAt (Lexer.run source).sequence j
  /-- What is read in a loop takes at least one token. -/
  items : ∀ {α : Type} {item : Parser α}, Parser.ReadsItem item → Advances 1 item
  /-- A parser that refers to itself has its answer after one round more than there are tokens
  ahead: what would be done in further rounds makes no difference. -/
  rounds : ∀ {α : Type} {body : Parser α → Parser α} {p : Parser α}, Parser.Recursive body p →
    ∀ (other : Parser α) (c : Cursor) (n : Nat), c.ahead.length < n → body^[n] other c = p c
  /-- Whether a text is a document, and which, is found after one round more than it has tokens. -/
  document : ∀ source other n, (Lexer.run source).tokens.length < n →
    (Parser.documentBody^[n] other).runOn source = Document.parse source
  /-- So is which value a text stands for. -/
  value : ∀ source other n, (Lexer.run source).tokens.length < n →
    (Parser.whole ((Parser.valueBody true)^[n] other)).runOn source = Value.parse source
  /-- So is which type expression it stands for. -/
  type : ∀ source other n, (Lexer.run source).tokens.length < n →
    (Parser.whole (.located (Parser.typeBody^[n] other))).runOn source = TypeLiteral.parse source

/-- **Reading is safe and ends.**  Cursors stay at tokens, and what is read again and again takes
them. -/
theorem readingSound : ReadingSound where
  cursor source finish h := by
    refine ⟨⟨(Lexer.run source).tokens, finish, none⟩, ?_, Cursor.standsAt_foldl h⟩
    simp only [Cursor.start, h]
  items h := h.advances
  rounds h other _ _ hn := h.iterate_eq other hn
  document _ other n hn := (Parser.Recursive.document.agreeBelow other n).runOn_eq hn
  value _ other n hn :=
    (((Parser.Recursive.value true).agreeBelow other n).bind_same _).runOn_eq hn
  type _ other n hn :=
    ((Parser.Recursive.type.agreeBelow other n).located.bind_same _).runOn_eq hn

/-- A text that is no document. -/
def tornText : String := "\x7b a: [1 2"

/-- Requests of which all but the first and the last fail. -/
def tornRequests : List Cursor.Request :=
  [.next, .expect (.mark .colon), .type,
    .delimited (.mark .bracketOpen) Parser.name (.mark .bracketClose) advances_name.forward,
    .unexpected, .next, .expect .endOfFile, .skip .endOfFile, .previousEnd]

/-- After all these requests the cursor stands before the end of the file. -/
theorem tornText_safe : ∃ c, Cursor.start tornText = .ok c ∧
    (tornRequests.foldl Cursor.Request.apply c).StandsAt (Lexer.run tornText).sequence 6 := by
  have hlexed : (Lexer.run tornText).outcome = .ok ⟨9, 0, 9⟩ := by decide +kernel
  obtain ⟨c, hstart, hsafe⟩ := readingSound.cursor tornText ⟨9, 0, 9⟩ hlexed
  obtain ⟨i, j, -, hstands, -⟩ := hsafe tornRequests []
  have hc : c = ⟨(Lexer.run tornText).tokens, ⟨9, 0, 9⟩, none⟩ := by
    simpa [Cursor.start, hlexed] using hstart.symm
  have hend : (tornRequests.foldl Cursor.Request.apply c).ahead.length = 0 := by
    rw [hc]
    decide +kernel
  have hcount : (Lexer.run tornText).sequence.length = 7 := by decide +kernel
  -- only the end of the file is left, so six tokens have been read
  have hleft := congrArg List.length hstands.ahead
  rw [List.length_drop, List.length_append, hend, hcount, List.length_singleton] at hleft
  obtain rfl : i = 6 := by omega
  exact ⟨c, hstart, hstands⟩

end GraphQL
