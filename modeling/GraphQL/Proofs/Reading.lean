import GraphQL.Proofs.Writing

/-!
# What parsers read

`Reads p before after good` says that the parser `p`, with the words `before` ahead of it, succeeds,
leaves the words `after`, and answers something `good`. Parsers are built from a few operations, and
each has one rule here; a part of the grammar is then followed by applying these rules in its order.

Words in front of `after` can make a parser read on, so most rules ask what comes next. A parser
made by `Parser.fix` gets a bound from the number of tokens; it is enough to show what is read for
every bound greater than the number of words that it has to read.
-/

namespace GraphQL

/-- The words that stand ahead of a cursor. -/
def Cursor.Ahead (c : Cursor) (words : List Word) : Prop :=
  c.ahead.map Located.item = words.map Word.token

namespace Cursor

theorem Ahead.nil {c : Cursor} (h : c.Ahead []) : c.ahead = [] :=
  List.map_eq_nil_iff.mp h

theorem Ahead.cons {c : Cursor} {w : Word} {words : List Word} (h : c.Ahead (w :: words)) :
    ∃ span ahead, c.ahead = ⟨span, w.token⟩ :: ahead ∧
      ∀ last, Ahead ⟨ahead, c.finish, last⟩ words := by
  obtain ⟨⟨span, item⟩, ahead, hahead, hitem, hrest⟩ := List.map_eq_cons_iff.mp h
  subst hitem
  exact ⟨span, ahead, hahead, fun _ => hrest⟩

theorem Ahead.length {c : Cursor} {words : List Word} (h : c.Ahead words) :
    c.ahead.length = words.length := by
  simpa using congrArg List.length h

/-- The start of a text that spells some words stands before them. -/
theorem start_of_spells {source : String} {words : List Word}
    (h : Lexer.Spells source.toList words) : ∃ c, start source = .ok c ∧ c.Ahead words := by
  obtain ⟨htokens, q, hq⟩ := Lexer.runFrom_spells h .origin
  have hrun : (Lexer.run source).outcome = .ok q := hq
  refine ⟨⟨(Lexer.run source).tokens, q, none⟩, ?_, htokens⟩
  simp only [start, hrun]

end Cursor

/-- The token that comes next. -/
def nextToken (words : List Word) : Token :=
  (words.head?.map Word.token).getD .endOfFile

@[simp] theorem nextToken_nil : nextToken [] = .endOfFile := rfl

@[simp] theorem nextToken_cons (w : Word) (words : List Word) :
    nextToken (w :: words) = w.token := rfl

theorem Cursor.Ahead.peek {c : Cursor} {words : List Word} (h : c.Ahead words) :
    c.peek.item = nextToken words := by
  cases words with
  | nil => simp [Cursor.peek, h.nil]
  | cons w words =>
      obtain ⟨span, ahead, hahead, -⟩ := h.cons
      simp [Cursor.peek, hahead]

theorem nextToken_eq_mark {words : List Word} {p : Punctuator}
    (h : nextToken words = .mark p) : words.head? = some (.mark p) := by
  cases words with
  | nil => cases h
  | cons w words =>
      cases w with
      | mark q =>
          cases h
          rfl
      | _ => cases h

theorem nextToken_eq_name {words : List Word} {text : String}
    (h : nextToken words = .name text) : words.head? = some (.name text) := by
  cases words with
  | nil => cases h
  | cons w words =>
      cases w with
      | name text =>
          cases h
          rfl
      | _ => cases h

theorem nextToken_ne_endOfFile {words : List Word} (h : words ≠ []) :
    nextToken words ≠ .endOfFile := by
  cases words with
  | nil => exact absurd rfl h
  | cons w words => cases w <;> nofun

/-- The parser succeeds on the words before it, leaves those after it and answers something good. -/
def Reads {α : Type} (p : Parser α) (before after : List Word) (good : α → Prop) : Prop :=
  ∀ c : Cursor, c.Ahead before → ∃ a c', p c = .ok a c' ∧ c'.Ahead after ∧ good a

section Rules

variable {α β : Type} {before middle after : List Word}

theorem Reads.pure {a : α} {good : α → Prop} (h : good a) :
    Reads (Pure.pure a : Parser α) after after good := by
  intro c hc
  exact ⟨a, c, rfl, hc, h⟩

theorem Reads.bind {p : Parser α} {q : α → Parser β} {good : α → Prop} {goal : β → Prop}
    (hp : Reads p before middle good) (hq : ∀ a, good a → Reads (q a) middle after goal) :
    Reads (p >>= q) before after goal := by
  intro c hc
  obtain ⟨a, c', hrun, hc', ha⟩ := hp c hc
  obtain ⟨b, c'', hrun', hc'', hb⟩ := hq a ha c' hc'
  refine ⟨b, c'', ?_, hc'', hb⟩
  simp only [Bind.bind, EStateM.bind, hrun, hrun']

theorem Reads.map {p : Parser α} {f : α → β} {good : α → Prop} {goal : β → Prop}
    (hp : Reads p before after good) (hf : ∀ a, good a → goal (f a)) :
    Reads (f <$> p) before after goal := by
  intro c hc
  obtain ⟨a, c', hrun, hc', ha⟩ := hp c hc
  refine ⟨f a, c', ?_, hc', hf a ha⟩
  simp only [Functor.map, EStateM.map, hrun]

/-- A parser that looks at the next token goes on with that token. -/
theorem Reads.peek {q : Located Token → Parser β} {goal : β → Prop}
    (hq : ∀ span, Reads (q ⟨span, nextToken before⟩) before after goal) :
    Reads (Parser.peek >>= q) before after goal := by
  intro c hc
  obtain ⟨b, c', hrun, hc', hb⟩ := hq c.peek.span c hc
  rw [← hc.peek] at hrun
  exact ⟨b, c', hrun, hc', hb⟩

theorem reads_next (w : Word) (words : List Word) :
    Reads Parser.next (w :: words) words fun t => t.item = w.token := by
  intro c hc
  obtain ⟨span, ahead, hahead, hrest⟩ := hc.cons
  refine ⟨⟨span, w.token⟩, ⟨ahead, c.finish, some span.stop⟩, ?_, hrest _, rfl⟩
  simp only [Parser.next, hahead]

theorem Reads.mono {p : Parser α} {good goal : α → Prop} (hp : Reads p before after good)
    (h : ∀ a, good a → goal a) : Reads p before after goal := by
  intro c hc
  obtain ⟨a, c', hrun, hc', ha⟩ := hp c hc
  exact ⟨a, c', hrun, hc', h a ha⟩

/-- A place around what is read changes nothing. -/
theorem Reads.located {p : Parser α} {good : α → Prop} (hp : Reads p before after good) :
    Reads (Parser.located p) before after fun l => good l.item := by
  refine .peek fun span => .bind hp fun a ha => ?_
  intro c hc
  exact ⟨_, c, rfl, hc, ha⟩

theorem Reads.located_bare {p : Parser α} {bareItem : α → α} {l : Located α}
    (hp : Reads p before after fun a => bareItem a = bareItem l.item) :
    Reads (Parser.located p) before after fun m => m.bare bareItem = l.bare bareItem :=
  hp.located.mono fun _ h => Located.bare_eq_iff.mpr h

/-- What a parser reads that refers to itself: the bound is never too small. -/
theorem Reads.fix {body : Parser α → Parser α} {good : α → Prop}
    (h : ∀ bound, before.length < bound → Reads (Parser.bounded body bound) before after good) :
    Reads (Parser.fix body) before after good := by
  intro c hc
  have hlength := hc.length
  exact h (c.ahead.length + 1) (by omega) c hc

/-- A text that spells what a parser reads is read by it. -/
theorem Reads.runOn {p : Parser α} {good : α → Prop} (hp : Reads p before after good)
    {source : String} (hsource : Lexer.Spells source.toList before) :
    ∃ a, p.runOn source = .ok a ∧ good a := by
  obtain ⟨c, hstart, hahead⟩ := Cursor.start_of_spells hsource
  obtain ⟨a, c', hrun, -, ha⟩ := hp c hahead
  have hrun' : p.run c = .ok a c' := hrun
  refine ⟨a, ?_, ha⟩
  simp only [Parser.runOn, hstart, hrun']

/-! ## Single tokens -/

theorem reads_expect (w : Word) (words : List Word) :
    Reads (Parser.expect w.token) (w :: words) words fun _ => True := by
  refine .peek fun span => ?_
  rw [if_pos (nextToken_cons w words)]
  exact (reads_next w words).mono fun _ _ => trivial

theorem reads_expectMark (p : Punctuator) (words : List Word) :
    Reads (Parser.expectMark p) (.mark p :: words) words fun _ => True :=
  .map (reads_expect (.mark p) words) fun _ _ => trivial

theorem reads_expectKeyword (word : String) (words : List Word) :
    Reads (Parser.expectKeyword word) (.name word :: words) words fun _ => True :=
  .map (reads_expect (.name word) words) fun _ _ => trivial

theorem reads_name (text : String) (words : List Word) :
    Reads Parser.name (.name text :: words) words fun n => n.item = text := by
  refine .peek fun span => ?_
  exact .bind (reads_next (.name text) words) fun _ _ => .pure rfl

theorem reads_name_bare (n : Name) (words : List Word) :
    Reads Parser.name (.name n.item :: words) words fun a => a.bare id = n.bare id :=
  (reads_name n.item words).mono fun _ h => Located.bare_eq_iff.mpr h

theorem reads_accept (w : Word) (words : List Word) :
    Reads (Parser.accept w.token) (w :: words) words fun t => t.isSome = true := by
  refine .peek fun span => ?_
  rw [if_pos (nextToken_cons w words)]
  exact .map (reads_next w words) fun _ _ => rfl

theorem reads_accept_absent {token : Token} (h : nextToken after ≠ token) :
    Reads (Parser.accept token) after after fun t => t.isSome = false := by
  refine .peek fun span => ?_
  rw [if_neg h]
  exact .pure rfl

theorem reads_acceptMark (p : Punctuator) (words : List Word) :
    Reads (Parser.acceptMark p) (.mark p :: words) words (· = true) :=
  .map (reads_accept (.mark p) words) fun _ h => h

theorem reads_acceptMark_absent {p : Punctuator} (h : after.head? ≠ some (.mark p)) :
    Reads (Parser.acceptMark p) after after (· = false) :=
  .map (reads_accept_absent fun hnext => h (nextToken_eq_mark hnext)) fun _ h => h

theorem reads_acceptKeyword (word : String) (words : List Word) :
    Reads (Parser.acceptKeyword word) (.name word :: words) words (· = true) :=
  .map (reads_accept (.name word) words) fun _ h => h

theorem reads_acceptKeyword_absent {word : String} (h : after.head? ≠ some (.name word)) :
    Reads (Parser.acceptKeyword word) after after (· = false) :=
  .map (reads_accept_absent fun hnext => h (nextToken_eq_name hnext)) fun _ h => h

theorem reads_skip (p : Punctuator) (words : List Word) :
    Reads (Parser.skip (.mark p)) (.mark p :: words) words fun t => t.isSome = true := by
  have hnext : nextToken (.mark p :: words) = .mark p := rfl
  refine .peek fun span => ?_
  rw [if_pos hnext]
  exact .map (reads_next (.mark p) words) fun _ _ => rfl

theorem reads_skip_absent {p : Punctuator} (h : after.head? ≠ some (.mark p)) (hne : after ≠ []) :
    Reads (Parser.skip (.mark p)) after after fun t => t.isSome = false := by
  refine .peek fun span => ?_
  rw [if_neg fun hnext => h (nextToken_eq_mark hnext), if_neg (nextToken_ne_endOfFile hne)]
  exact .pure rfl

theorem reads_atMark (p : Punctuator) (words : List Word) :
    Reads (Parser.atMark p) (.mark p :: words) (.mark p :: words) (· = true) := by
  refine .peek fun span => .pure ?_
  exact decide_eq_true rfl

theorem reads_atMark_absent {p : Punctuator} (h : after.head? ≠ some (.mark p)) :
    Reads (Parser.atMark p) after after (· = false) := by
  refine .peek fun span => .pure ?_
  exact decide_eq_false fun hnext => h (nextToken_eq_mark hnext)

/-! ## Items -/

/-- Words that are none of the given ones come next, if any do. -/
def Apart (stops : List Word) (words : List Word) : Prop :=
  ∀ w ∈ stops, words.head? ≠ some w

theorem Apart.mono {stops stops' words : List Word} (h : Apart stops words)
    (hstops : ∀ w ∈ stops', w ∈ stops) : Apart stops' words :=
  fun w hw => h w (hstops w hw)

theorem apart_nil (stops : List Word) : Apart stops [] := nofun

theorem apart_cons {stops : List Word} {w : Word} (h : w ∉ stops) (rest : List Word) :
    Apart stops (w :: rest) := by
  intro v hv hhead
  obtain rfl : w = v := by simpa using hhead
  exact h hv

/-- What follows counts only behind something that may be empty. -/
theorem Apart.append {stops words rest : List Word} (h : Apart stops words)
    (hrest : Apart stops rest) : Apart stops (words ++ rest) := by
  cases words with
  | nil => exact hrest
  | cons w words => exact h

/-- Some words start with one that is none of the given ones. -/
def StartsApart (stops : List Word) (words : List Word) : Prop :=
  ∃ w rest, words = w :: rest ∧ w ∉ stops

theorem StartsApart.append {stops words : List Word} (h : StartsApart stops words)
    (rest : List Word) : Apart stops (words ++ rest) := by
  obtain ⟨w, tail, rfl, hw⟩ := h
  exact apart_cons hw (tail ++ rest)

theorem StartsApart.of_cons {w : Word} {stops words : List Word}
    (h : StartsApart (w :: stops) words) : StartsApart stops words := by
  obtain ⟨v, tail, rfl, hv⟩ := h
  exact ⟨v, tail, rfl, fun hmem => hv (List.mem_cons_of_mem _ hmem)⟩

theorem StartsApart.ne_nil {stops words : List Word} (h : StartsApart stops words) :
    words ≠ [] := by
  obtain ⟨w, tail, rfl, -⟩ := h
  exact List.cons_ne_nil w tail

/-- The items of a list can be told apart and read back up to `bare`: each is read if something
follows that is none of `stops`, and neither the other items nor the closing mark are. -/
structure ReadsItems (item : Parser α) (words : α → List Word) (bare : α → β) (stops : List Word)
    (closing : Punctuator) (xs : List α) : Prop where
  reads : ∀ x ∈ xs, ∀ rest, rest ≠ [] → Apart stops rest →
    Reads item (words x ++ rest) rest fun a => bare a = bare x
  starts : ∀ x ∈ xs, StartsApart (.mark closing :: stops) (words x)
  closes : .mark closing ∉ stops

variable {item : Parser α} {words : α → List Word} {bare : α → β} {stops : List Word}
  {opening closing separator : Punctuator} {xs : List α}

theorem ReadsItems.tail {x : α} (h : ReadsItems item words bare stops closing (x :: xs)) :
    ReadsItems item words bare stops closing xs :=
  ⟨fun y hy => h.reads y (List.mem_cons_of_mem _ hy),
    fun y hy => h.starts y (List.mem_cons_of_mem _ hy), h.closes⟩

/-- There are no more items than words, if each item takes one. -/
theorem length_le_flatMap (h : ∀ x ∈ xs, words x ≠ []) :
    xs.length ≤ (xs.flatMap words).length := by
  induction xs with
  | nil => exact Nat.le_refl 0
  | cons x xs ih =>
      have hx := List.length_pos_iff.mpr (h x List.mem_cons_self)
      have hxs := ih fun y hy => h y (List.mem_cons_of_mem _ hy)
      rw [List.length_cons, List.flatMap_cons, List.length_append]
      omega

/-- An item takes no more words than all items. -/
theorem length_le_length_flatMap (words : α → List Word) {x : α} (hx : x ∈ xs) :
    (words x).length ≤ (xs.flatMap words).length := by
  rw [List.flatMap_def]
  exact (List.sublist_flatten_of_mem (List.mem_map_of_mem hx)).length_le

/-- The first item is read if the others and the closing mark follow it. -/
theorem ReadsItems.head {x : α} (h : ReadsItems item words bare stops closing (x :: xs))
    (rest : List Word) :
    Reads item (words x ++ (xs.flatMap words ++ .mark closing :: rest))
      (xs.flatMap words ++ .mark closing :: rest) fun a => bare a = bare x := by
  refine h.reads x List.mem_cons_self _ (by simp) ?_
  cases xs with
  | nil => exact apart_cons h.closes rest
  | cons y ys =>
      have hy : y ∈ x :: y :: ys := List.mem_cons_of_mem _ List.mem_cons_self
      rw [List.flatMap_cons, List.append_assoc]
      exact (h.starts y hy).of_cons.append _

/-- **Lists.**  Items up to a closing mark are read back. -/
theorem reads_itemsUntil (h : ReadsItems item words bare stops closing xs) (rest : List Word) :
    Reads (Parser.itemsUntil item (.mark closing)) (xs.flatMap words ++ .mark closing :: rest) rest
      fun as => as.map bare = xs.map bare := by
  refine .fix fun bound hbound => ?_
  -- each item takes a word, so the bound allows for one more nesting than there are items
  have hxs : xs.length < bound := by
    have hcount := length_le_flatMap fun x hx => (h.starts x hx).ne_nil
    rw [List.length_append] at hbound
    omega
  clear hbound
  induction xs generalizing bound with
  | nil =>
      cases bound with
      | zero => cases hxs
      | succ bound =>
          refine .bind (reads_skip closing rest) fun t ht => ?_
          rw [if_pos ht]
          exact .pure rfl
  | cons x xs ih =>
      cases bound with
      | zero => cases hxs
      | succ bound =>
          have hx := (h.starts x List.mem_cons_self).append
          rw [List.flatMap_cons, List.append_assoc]
          refine .bind (reads_skip_absent (hx _ _ List.mem_cons_self) (by simp)) fun t ht => ?_
          rw [if_neg (by simp [ht])]
          refine .bind (h.head rest) fun a ha => ?_
          refine .bind (ih h.tail bound (Nat.lt_of_succ_lt_succ hxs)) fun as has => .pure ?_
          rw [List.map_cons, List.map_cons, ha, has]

theorem enclosed_append (words rest : List Word) :
    Word.enclosed opening words closing ++ rest =
      .mark opening :: (words ++ .mark closing :: rest) := by
  simp [Word.enclosed]

theorem length_enclosed (words : List Word) :
    (Word.enclosed opening words closing).length = words.length + 2 := by
  simp [Word.enclosed]

theorem apart_enclosed {stops : List Word} (h : .mark opening ∉ stops) (words : List Word) :
    Apart stops (Word.enclosed opening words closing) :=
  apart_cons h _

theorem apart_listed {stops : List Word} (h : .mark opening ∉ stops) :
    Apart stops (Word.listed opening words closing xs) := by
  unfold Word.listed
  split
  · exact apart_nil stops
  · exact apart_enclosed h _

theorem apart_parenthesized {stops : List Word} (h : .mark .parenOpen ∉ stops)
    (given : Option (Located (List α))) : Apart stops (Word.parenthesized words given) := by
  cases given with
  | none => exact apart_nil stops
  | some items => exact apart_enclosed h _

theorem apart_present {stops : List Word} {word : String} (h : .name word ∉ stops)
    (isPresent : Bool) : Apart stops (Word.present word isPresent) := by
  cases isPresent with
  | false => exact apart_nil stops
  | true => exact apart_cons h []

theorem reads_delimited (h : ReadsItems item words bare stops closing xs) (rest : List Word) :
    Reads (Parser.delimited (.mark opening) item (.mark closing))
      (Word.enclosed opening (xs.flatMap words) closing ++ rest) rest
      fun as => as.map bare = xs.map bare := by
  rw [enclosed_append]
  exact .bind (reads_expect (.mark opening) _) fun _ _ => reads_itemsUntil h rest

theorem reads_delimitedNonempty (h : ReadsItems item words bare stops closing xs)
    (hne : xs ≠ []) (rest : List Word) :
    Reads (Parser.delimitedNonempty (.mark opening) item (.mark closing))
      (Word.enclosed opening (xs.flatMap words) closing ++ rest) rest
      fun as => as.map bare = xs.map bare := by
  cases xs with
  | nil => exact absurd rfl hne
  | cons x xs =>
      rw [enclosed_append, List.flatMap_cons, List.append_assoc]
      refine .bind (reads_expect (.mark opening) _) fun _ _ => .bind (h.head rest) fun a ha => ?_
      refine .bind (reads_itemsUntil h.tail rest) fun as has => .pure ?_
      rw [List.map_cons, List.map_cons, ha, has]

theorem reads_atMark_enclosed (words rest : List Word) :
    Reads (Parser.atMark opening) (Word.enclosed opening words closing ++ rest)
      (Word.enclosed opening words closing ++ rest) (· = true) := by
  rw [enclosed_append]
  exact reads_atMark opening _

theorem reads_optionalList (h : ReadsItems item words bare stops closing xs) {rest : List Word}
    (hrest : xs = [] → rest.head? ≠ some (.mark opening)) :
    Reads (Parser.optionalList opening item closing)
      (Word.listed opening words closing xs ++ rest) rest fun as => as.map bare = xs.map bare := by
  by_cases hxs : xs = []
  · subst hxs
    refine .bind (reads_atMark_absent (hrest rfl)) fun b hb => ?_
    rw [if_neg (by simp [hb])]
    exact .pure rfl
  · rw [Word.listed, if_neg (by simp [hxs])]
    refine .bind (reads_atMark_enclosed _ rest) fun b hb => ?_
    rw [if_pos hb]
    exact reads_delimitedNonempty h hxs rest

/-- Items in parentheses are read back, or found to be absent. -/
theorem reads_parenthesized {bareItem : α → α} {given : Option (Located (List α))}
    (h : ∀ items ∈ given, ReadsItems item words bareItem stops .parenClose items.item)
    (hne : ∀ items ∈ given, items.item ≠ []) {rest : List Word}
    (hrest : rest.head? ≠ some (.mark .parenOpen)) :
    Reads
      (do
        if ← Parser.atMark .parenOpen then
          some <$> Parser.located
            (Parser.delimitedNonempty (.mark .parenOpen) item (.mark .parenClose))
        else return none)
      (Word.parenthesized words given ++ rest) rest
      fun a => a.map (·.bare (·.map bareItem)) = given.map (·.bare (·.map bareItem)) := by
  cases given with
  | none =>
      refine .bind (reads_atMark_absent hrest) fun b hb => ?_
      rw [if_neg (by simp [hb])]
      exact .pure rfl
  | some items =>
      refine .bind (reads_atMark_enclosed _ rest) fun b hb => ?_
      rw [if_pos hb]
      refine .map (.located (reads_delimitedNonempty (h items rfl) (hne items rfl) rest)) ?_
      intro a ha
      simp only [Option.map_some, Located.bare, ha]

/-- Items behind separating marks are read back. -/
theorem reads_separatedRest
    (hitem : ∀ x ∈ xs, ∀ rest, Reads item (words x ++ rest) rest fun a => bare a = bare x)
    {rest : List Word} (hrest : rest.head? ≠ some (.mark separator)) :
    Reads (Parser.separatedRest separator item)
      (xs.flatMap (fun x => .mark separator :: words x) ++ rest) rest
      fun as => as.map bare = xs.map bare := by
  refine .fix fun bound hbound => ?_
  have hxs : xs.length < bound := by
    have hcount : xs.length ≤ (xs.flatMap fun x => .mark separator :: words x).length :=
      length_le_flatMap fun x _ => List.cons_ne_nil _ _
    rw [List.length_append] at hbound
    omega
  clear hbound
  induction xs generalizing bound with
  | nil =>
      cases bound with
      | zero => cases hxs
      | succ bound =>
          refine .bind (reads_acceptMark_absent hrest) fun b hb => ?_
          rw [if_neg (by simp [hb])]
          exact .pure rfl
  | cons x xs ih =>
      cases bound with
      | zero => cases hxs
      | succ bound =>
          rw [List.flatMap_cons, List.append_assoc, List.cons_append]
          refine .bind (reads_acceptMark separator _) fun b hb => ?_
          rw [if_pos hb]
          refine .bind (hitem x List.mem_cons_self _) fun a ha => ?_
          have hothers := ih (fun y hy => hitem y (List.mem_cons_of_mem _ hy)) bound
            (Nat.lt_of_succ_lt_succ hxs)
          refine .bind hothers fun as has => .pure ?_
          rw [List.map_cons, List.map_cons, ha, has]

/-- Items with marks between them are read back. -/
theorem reads_separated
    (hitem : ∀ x ∈ xs, ∀ rest, Reads item (words x ++ rest) rest fun a => bare a = bare x)
    (hstart : ∀ x ∈ xs, StartsApart [.mark separator] (words x)) (hne : xs ≠ [])
    {rest : List Word} (hrest : rest.head? ≠ some (.mark separator)) :
    Reads (Parser.separated separator item) (Word.separated separator words xs ++ rest) rest
      fun as => as.map bare = xs.map bare := by
  cases xs with
  | nil => exact absurd rfl hne
  | cons x xs =>
      rw [Word.separated, List.append_assoc]
      have hx := (hstart x List.mem_cons_self).append
      refine .bind (reads_acceptMark_absent (hx _ _ List.mem_cons_self)) fun _ _ => ?_
      refine .bind (hitem x List.mem_cons_self _) fun a ha => ?_
      have hothers := reads_separatedRest (fun y hy => hitem y (List.mem_cons_of_mem _ hy)) hrest
      refine .bind hothers fun as has => .pure ?_
      rw [List.map_cons, List.map_cons, ha, has]

end Rules

end GraphQL
