import GraphQL.Proofs.Layout

/-!
# What parsers have read

`Lays p before after` follows a parser through the tokens that it reads: if what has been read so
far is laid out as `before`, and `p` succeeds, then what has been read now is laid out as `after`
says of its answer. Parsers are built from a few operations, and each has one rule here; a part of
the grammar is then followed by applying these rules in its order, until the layout that has been
collected is the one of the answer.

A place starts at the token that comes next when its part is begun, and ends at the token that was
read last. Both are tokens of the part, since each part takes at least one token.
-/

namespace GraphQL

open Layout

/-- A cursor has moved over some tokens. -/
structure Cursor.Moves (c : Cursor) (tokens : List (Located Token)) (c' : Cursor) : Prop where
  ahead : c.ahead = tokens ++ c'.ahead
  last : c'.last = (tokens.getLast?.map (·.span.stop)).or c.last

namespace Cursor

variable {c c' c'' : Cursor} {tokens more : List (Located Token)}

theorem Moves.refl (c : Cursor) : c.Moves [] c :=
  ⟨rfl, rfl⟩

theorem Moves.trans (h : c.Moves tokens c') (h' : c'.Moves more c'') :
    c.Moves (tokens ++ more) c'' := by
  refine ⟨by rw [h.ahead, h'.ahead, List.append_assoc], ?_⟩
  rw [h'.last, h.last, List.getLast?_append]
  cases more.getLast? <;> rfl

/-- What has been moved over starts at the token that came next and ends at the last one. -/
theorem Moves.covers (h : c.Moves tokens c') (hne : tokens ≠ []) :
    Span.Covers ⟨c.peek.span.start, c'.previousEnd⟩ tokens := by
  obtain ⟨first, rest, rfl⟩ := List.exists_cons_of_ne_nil hne
  have hlast : (first :: rest).getLast? = some ((first :: rest).getLast hne) :=
    List.getLast?_eq_some_getLast hne
  constructor
  · simp [peek, h.ahead]
  · simp [previousEnd, h.last, hlast]

end Cursor

/-- A parser that goes on after another one succeeds if both do. -/
theorem ok_of_bind {α β : Type} {p : Parser α} {q : α → Parser β} {c c'' : Cursor} {b : β}
    (h : (p >>= q) c = .ok b c'') : ∃ a c', p c = .ok a c' ∧ q a c' = .ok b c'' := by
  simp only [Bind.bind, EStateM.bind] at h
  split at h
  · rename_i a c' hp
    exact ⟨a, c', hp, h⟩
  · cases h

theorem ok_of_unexpected {α : Type} {c c' : Cursor} {a : α}
    (h : Parser.unexpected c = .ok a c') : False := by
  obtain ⟨_, _, _, hthrow⟩ := ok_of_bind h
  cases hthrow

/-- A parser that begins at certain places continues the layout of what has been read. -/
def Lays {α : Type} (begins : Cursor → Prop) (p : Parser α) (before : List Layout)
    (after : α → List Layout) : Prop :=
  ∀ c a c', begins c → p c = .ok a c' → ∃ tokens, c.Moves tokens c' ∧
    ∀ read, (seq before).SpelledBy read → (seq (after a)).SpelledBy (read ++ tokens)

/-- Wherever a parser begins, what it reads is laid out as its answer. -/
abbrev Yields {α : Type} (p : Parser α) (layout : α → Layout) : Prop :=
  Lays (fun _ => True) p [] fun a => [layout a]

section Rules

variable {α β γ : Type} {begins : Cursor → Prop} {before : List Layout}

/-- Nothing more is read, if what has been read is laid out as the answer. -/
theorem Lays.answer {a : α} {after : α → List Layout}
    (h : ∀ read, (seq before).SpelledBy read → (seq (after a)).SpelledBy read) :
    Lays begins (Pure.pure a : Parser α) before after := by
  rintro c _ _ - ⟨⟩
  refine ⟨[], .refl c, fun read hread => ?_⟩
  rw [List.append_nil]
  exact h read hread

theorem Lays.pure {a : α} {after : α → List Layout} (h : after a = before) :
    Lays begins (Pure.pure a : Parser α) before after :=
  .answer fun _ hread => h ▸ hread

/-- Nothing is read for what is not there. -/
theorem Lays.nothing {a : α} {layout : α → Layout} (h : layout a = .empty) :
    Lays begins (Pure.pure a : Parser α) [] fun a => [layout a] :=
  .answer fun _ hread => spelledBy_seq_singleton.mpr (h ▸ hread)

theorem Lays.bind {p : Parser α} {q : α → Parser β} {middle : α → List Layout}
    {after : β → List Layout} (hp : Lays begins p before middle)
    (hq : ∀ a, Lays (fun _ => True) (q a) (middle a) after) :
    Lays begins (p >>= q) before after := by
  intro c b c'' hc hrun
  obtain ⟨a, c', hfirst, hsecond⟩ := ok_of_bind hrun
  obtain ⟨tokens, hmoves, hlays⟩ := hp c a c' hc hfirst
  obtain ⟨more, hmoves', hlays'⟩ := hq a c' b c'' trivial hsecond
  refine ⟨tokens ++ more, hmoves.trans hmoves', fun read hread => ?_⟩
  rw [← List.append_assoc]
  exact hlays' _ (hlays read hread)

theorem Lays.map {p : Parser α} {f : α → β} {middle : α → List Layout} {after : β → List Layout}
    (hp : Lays begins p before middle) (h : ∀ a, after (f a) = middle a) :
    Lays begins (f <$> p) before after := by
  intro c b c' hc hrun
  simp only [Functor.map, EStateM.map] at hrun
  split at hrun
  · rename_i a c'' hp'
    cases hrun
    rw [h]
    exact hp c a c' hc hp'
  · cases hrun

theorem Lays.map_bind {p : Parser α} {f : α → β} {q : β → Parser γ} {after : γ → List Layout}
    (h : Lays begins (p >>= fun a => q (f a)) before after) :
    Lays begins (f <$> p >>= q) before after := by
  rwa [bind_map_left]

/-- A parser that looks at the next token goes on from where this token comes next. -/
theorem Lays.peek {q : Located Token → Parser β} {after : β → List Layout}
    (hq : ∀ t, Lays (fun c => begins c ∧ c.peek = t) (q t) before after) :
    Lays begins (Parser.peek >>= q) before after :=
  fun c b c' hc hrun => hq c.peek c b c' ⟨hc, rfl⟩ hrun

/-- What holds wherever a parser begins holds at each place. -/
theorem Lays.anywhere {p : Parser α} {after : α → List Layout}
    (hp : Lays (fun _ => True) p before after) : Lays begins p before after :=
  fun c a c' _ hrun => hp c a c' trivial hrun

/-- The layout that a parser continues may be described in another way. -/
theorem Lays.weaken {p : Parser α} {before' : List Layout} {after after' : α → List Layout}
    (hp : Lays begins p before after)
    (hbefore : ∀ read, (seq before').SpelledBy read → (seq before).SpelledBy read)
    (hafter : ∀ a read, (seq (after a)).SpelledBy read → (seq (after' a)).SpelledBy read) :
    Lays begins p before' after' := by
  intro c a c' hc hrun
  obtain ⟨tokens, hmoves, hlays⟩ := hp c a c' hc hrun
  exact ⟨tokens, hmoves, fun read hread => hafter a _ (hlays read (hbefore read hread))⟩

/-- What a parser reads by itself is appended to what has been read. -/
theorem Lays.frame {p : Parser α} {parts : α → List Layout} (hp : Lays begins p [] parts)
    (before : List Layout) : Lays begins p before fun a => before ++ parts a := by
  intro c a c' hc hrun
  obtain ⟨tokens, hmoves, hlays⟩ := hp c a c' hc hrun
  exact ⟨tokens, hmoves, fun read hread =>
    spelledBy_seq_append.mpr ⟨read, tokens, rfl, hread, hlays [] rfl⟩⟩

/-- Reads one more part and goes on. -/
theorem Lays.next {p : Parser α} {q : α → Parser β} {layout : α → Layout}
    {after : β → List Layout} (hp : Lays (fun _ => True) p [] fun a => [layout a])
    (hq : ∀ a, Lays (fun _ => True) (q a) (before ++ [layout a]) after) :
    Lays begins (p >>= q) before after :=
  .bind (hp.frame before).anywhere hq

/-- Several parts are one. -/
theorem Lays.seq {p : Parser α} {parts : α → List Layout} (hp : Lays begins p [] parts) :
    Lays begins p [] fun a => [Layout.seq (parts a)] :=
  hp.weaken (fun _ h => h) fun _ _ h => spelledBy_seq_singleton.mpr h

theorem Lays.ite {condition : Prop} [Decidable condition] {p q : Parser α}
    {after : α → List Layout} (hp : condition → Lays begins p before after)
    (hq : ¬condition → Lays begins q before after) :
    Lays begins (if condition then p else q) before after := by
  by_cases h : condition
  · rw [if_pos h]
    exact hp h
  · rw [if_neg h]
    exact hq h

theorem Lays.throw (e : Located ParseError) (after : α → List Layout) :
    Lays begins (throw e : Parser α) before after :=
  fun _ _ _ _ hrun => nomatch hrun

theorem lays_unexpected (after : α → List Layout) : Lays begins Parser.unexpected before after :=
  fun _ _ _ _ hrun => (ok_of_unexpected hrun).elim

/-- What a parser keeps when it refers to something, it has if it refers to itself. -/
theorem bounded_induction {body : Parser α → Parser α} {P : Parser α → Prop}
    (hunexpected : P Parser.unexpected) (hbody : ∀ p, P p → P (body p)) (bound : Nat) :
    P (Parser.bounded body bound) := by
  induction bound with
  | zero => exact hunexpected
  | succ bound ih => exact hbody _ ih

/-- A parser that refers to itself. More may be known of what it reads at first than of what it
reads when it refers to itself. -/
theorem Lays.fix_outer {body : Parser α → Parser α} {parts after : α → List Layout}
    (h : ∀ p, Lays (fun _ => True) p [] parts → Lays (fun _ => True) (body p) [] parts)
    (hafter : ∀ p, Lays (fun _ => True) p [] parts → Lays (fun _ => True) (body p) [] after) :
    Lays (fun _ => True) (Parser.fix body) [] after :=
  fun c => hafter _ (bounded_induction (lays_unexpected parts) h c.ahead.length) c

theorem Lays.fix {body : Parser α → Parser α} {parts : α → List Layout}
    (h : ∀ p, Lays (fun _ => True) p [] parts → Lays (fun _ => True) (body p) [] parts) :
    Lays (fun _ => True) (Parser.fix body) [] parts :=
  .fix_outer h h

/-- Something that takes at least one token gets the place of its tokens. -/
theorem Lays.located {p : Parser α} {layout : α → Layout}
    (hp : Lays begins p [] fun a => [layout a]) (hsolid : ∀ a, (layout a).isSolid = true) :
    Lays begins (Parser.located p) [] fun l => [l.layout layout] := by
  intro c l c' hc hrun
  simp only [Parser.located, Parser.peek, Bind.bind, EStateM.bind] at hrun
  split at hrun
  · rename_i a c'' hp'
    cases hrun
    obtain ⟨tokens, hmoves, hlays⟩ := hp c a c' hc hp'
    have hspelled := spelledBy_seq_singleton.mp (hlays [] rfl)
    refine ⟨tokens, hmoves, ?_⟩
    rintro _ rfl
    exact spelledBy_seq_singleton.mpr ⟨hmoves.covers (hspelled.ne_nil (hsolid a)), hspelled⟩
  · cases hrun

/-! ## Single tokens -/

theorem next_eq_ok {c c' : Cursor} {t : Located Token} (h : Parser.next c = .ok t c') :
    c.peek = t ∧ c.Moves [t] c' := by
  unfold Parser.next at h
  split at h
  · cases h
  · rename_i hahead
    cases h
    exact ⟨by simp only [Cursor.peek, hahead], hahead, rfl⟩

/-- The token that comes next is read with its place. -/
theorem lays_next (t : Located Token) :
    Lays (fun c => begins c ∧ c.peek = t) Parser.next [] fun _ =>
      [.spanned t.span (exactly t.item)] := by
  rintro c u c' ⟨-, rfl⟩ hrun
  obtain ⟨rfl, hmoves⟩ := next_eq_ok hrun
  refine ⟨_, hmoves, ?_⟩
  rintro _ rfl
  exact spelledBy_seq_singleton.mpr ⟨⟨rfl, rfl⟩, _, rfl, rfl⟩

/-- If a certain token comes next, that one is read. -/
theorem lays_next_item {t : Located Token} {item : Token} (h : t.item = item) :
    Lays (fun c => begins c ∧ c.peek = t) Parser.next before fun _ => before ++ [exactly item] :=
  h ▸ ((lays_next t).weaken (fun _ h => h) fun _ _ hread =>
    spelledBy_seq_singleton.mpr (spelledBy_seq_singleton.mp hread).2).frame before

theorem yields_next : Yields Parser.next fun t => exactly t.item := by
  intro c t c' _ hrun
  obtain ⟨rfl, hmoves⟩ := next_eq_ok hrun
  refine ⟨_, hmoves, ?_⟩
  rintro _ rfl
  exact spelledBy_seq_singleton.mpr ⟨_, rfl, rfl⟩

theorem yields_expect (item : Token) : Yields (Parser.expect item) fun _ => exactly item :=
  .peek fun _ => .ite (fun h => lays_next_item h) fun _ => lays_unexpected _

theorem yields_expectMark (p : Punctuator) : Yields (Parser.expectMark p) fun _ => mark p :=
  (yields_expect (.mark p)).map fun _ => rfl

theorem yields_expectKeyword (text : String) :
    Yields (Parser.expectKeyword text) fun _ => word text :=
  (yields_expect (.name text)).map fun _ => rfl

theorem yields_name : Yields Parser.name (Located.layout word) := by
  refine .peek fun ⟨span, item⟩ => ?_
  cases item with
  | name text => exact .bind (lays_next ⟨span, .name text⟩) fun _ => .pure rfl
  | _ => exact lays_unexpected _

/-- A name without its place. -/
theorem yields_text : Yields Parser.name fun name => word name.item :=
  yields_name.weaken (fun _ h => h) fun _ _ hread =>
    spelledBy_seq_singleton.mpr (spelledBy_seq_singleton.mp hread).2

theorem lays_skip (item : Token) : Lays begins (Parser.skip item) before fun found =>
    before ++ present found.isSome (exactly item) := by
  refine .peek fun t => .ite (fun h => ?_) fun _ => .ite (fun _ => .throw _ _) fun _ => ?_
  · exact (lays_next_item h).map fun _ => rfl
  · exact .pure (List.append_nil before)

theorem lays_accept (item : Token) : Lays begins (Parser.accept item) before fun found =>
    before ++ present found.isSome (exactly item) := by
  refine .peek fun t => .ite (fun h => ?_) fun _ => ?_
  · exact (lays_next_item h).map fun _ => rfl
  · exact .pure (List.append_nil before)

theorem lays_acceptMark (p : Punctuator) : Lays begins (Parser.acceptMark p) before fun found =>
    before ++ present found (mark p) :=
  (lays_accept (.mark p)).map fun _ => rfl

theorem lays_acceptKeyword (text : String) :
    Lays begins (Parser.acceptKeyword text) before fun found =>
      before ++ present found (word text) :=
  (lays_accept (.name text)).map fun _ => rfl

theorem lays_atMark (p : Punctuator) :
    Lays begins (Parser.atMark p) before fun _ => before :=
  .peek fun _ => .pure rfl

/-! ## Lists -/

theorem lays_itemsUntil {item : Parser α} {layout : α → Layout} (hitem : Yields item layout)
    (closing : Token) : Lays (fun _ => True) (Parser.itemsUntil item closing) [] fun items =>
      items.map layout ++ [exactly closing] := by
  refine .fix fun more hmore => .bind (lays_skip closing) fun found => ?_
  cases found with
  | some _ => exact .pure rfl
  | none =>
      refine hitem.next fun first => ?_
      refine .bind (hmore.frame _) fun rest => .pure rfl

theorem yields_delimited {item : Parser α} {layout : α → Layout} (hitem : Yields item layout)
    (opening closing : Punctuator) :
    Yields (Parser.delimited (.mark opening) item (.mark closing)) fun items =>
      enclosed opening (items.map layout) closing := by
  have hparts : Lays (fun _ => True) (Parser.delimited (.mark opening) item (.mark closing)) []
      fun items => mark opening :: items.map layout ++ [mark closing] :=
    (yields_expect (.mark opening)).next fun _ =>
      (lays_itemsUntil hitem (.mark closing)).frame [mark opening]
  exact hparts.seq

/-- At least one item is read between two marks. -/
theorem lays_delimitedNonempty {item : Parser α} {layout : α → Layout}
    (hitem : Yields item layout) {opening closing : Punctuator} {after : List α → List Layout}
    (h : ∀ first rest, after (first :: rest) =
      mark opening :: (first :: rest).map layout ++ [mark closing]) :
    Lays (fun _ => True) (Parser.delimitedNonempty (.mark opening) item (.mark closing)) []
      after := by
  refine (yields_expect (.mark opening)).next fun _ => hitem.next fun first => ?_
  exact .bind ((lays_itemsUntil hitem (.mark closing)).frame _) fun rest => .pure (h first rest)

theorem yields_optionalList {item : Parser α} {layout : α → Layout} (hitem : Yields item layout)
    (opening closing : Punctuator) :
    Yields (Parser.optionalList opening item closing) fun items =>
      listed opening (items.map layout) closing := by
  refine .bind (lays_atMark opening) fun found => .ite (fun _ => ?_) fun _ => ?_
  · exact (lays_delimitedNonempty hitem fun _ _ => rfl).seq
  · exact Lays.seq (.pure rfl)

theorem lays_separatedRest {item : Parser α} {layout : α → Layout} (hitem : Yields item layout)
    (separator : Punctuator) : Lays (fun _ => True) (Parser.separatedRest separator item) []
      fun items => (items.map layout).flatMap fun part => [mark separator, part] := by
  refine .fix fun more hmore => .bind (lays_acceptMark separator) fun found => ?_
  cases found with
  | true => exact hitem.next fun first => .bind (hmore.frame _) fun rest => .pure rfl
  | false => exact .pure rfl

/-- At least one item is read between separators. -/
theorem lays_separated {item : Parser α} {layout : α → Layout} (hitem : Yields item layout)
    {separator : Punctuator} {after : List α → List Layout}
    (h : ∀ first rest, after (first :: rest) =
      before ++ [separated separator ((first :: rest).map layout)]) :
    Lays begins (Parser.separated separator item) before after := by
  have hseparator : Yields (Parser.acceptMark separator) fun _ => .optional (.mark separator) := by
    refine (lays_acceptMark separator).weaken (fun _ h => h) fun found read hread => ?_
    cases found with
    | true =>
        obtain ⟨t, rfl, ht⟩ := spelledBy_seq_singleton.mp hread
        exact spelledBy_seq_singleton.mpr (.inr ⟨t, rfl, ht⟩)
    | false => exact spelledBy_seq_singleton.mpr (.inl hread)
  refine hseparator.next fun _ => hitem.next fun first => ?_
  refine .bind ((lays_separatedRest hitem separator).frame _) fun rest => ?_
  refine .answer fun read hread => ?_
  rw [h]
  simp only [List.append_assoc, List.singleton_append] at hread
  exact hread.group

end Rules

end GraphQL
