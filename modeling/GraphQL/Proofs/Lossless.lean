import GraphQL.Proofs.Lexing
import Mathlib.Data.List.Induction

/-!
# Nothing is lost between tokens

A source text can be put together again from its tokens: each of them covers exactly the characters
that its text has, and between two of them stand only characters that mean nothing. All positions
are exact, those of errors included.

The argument is local. A scanner that succeeds has read at least one character, and the text of its
token is what it has read (`Lexer.scan_reads`). The rest is bookkeeping along the run: what has been
read when a token starts is a beginning of the source, and every position is the place behind one.
-/

namespace GraphQL

namespace Position

/-- A position says what its index says: how many line feeds stand before it in a text, and how many
characters since the last one. -/
structure Marks (source : List Char) (p : Position) : Prop where
  index_le : p.index ≤ source.length
  line_eq : p.line = (source.take p.index).count '\n'
  column_eq : p.column = ((source.take p.index).reverse.takeWhile (· ≠ '\n')).length

/-- Walking over one more character. -/
theorem after_concat (p : Position) (cs : List Char) (c : Char) :
    p.after (cs ++ [c]) = (p.after cs).next c := by
  rw [after_append]
  rfl

/-- The index counts the characters walked over from the start of a text. -/
theorem index_after_origin (cs : List Char) : (origin.after cs).index = cs.length := by
  rw [index_after]
  exact Nat.zero_add _

/-- The line counts the line feeds walked over. -/
theorem line_after (cs : List Char) : (origin.after cs).line = cs.count '\n' := by
  induction cs using List.reverseRecOn with
  | nil => rfl
  | append_singleton cs c ih =>
      rw [after_concat, List.count_append, ← ih]
      by_cases hc : c = '\n'
      · simp [next, hc]
      · simp [next, hc]

/-- The column counts the characters walked over since the last line feed. -/
theorem column_after (cs : List Char) :
    (origin.after cs).column = (cs.reverse.takeWhile (· ≠ '\n')).length := by
  induction cs using List.reverseRecOn with
  | nil => rfl
  | append_singleton cs c ih =>
      rw [after_concat, List.reverse_concat]
      by_cases hc : c = '\n'
      · simp [next, hc]
      · simp [next, hc, ih]

/-- Line feeds and the characters behind the last one are among the characters walked over. -/
theorem line_add_column_after_le (cs : List Char) :
    (origin.after cs).line + (origin.after cs).column ≤ cs.length := by
  induction cs using List.reverseRecOn with
  | nil => exact Nat.le_refl 0
  | append_singleton cs c ih =>
      rw [after_concat, List.length_append, List.length_singleton]
      by_cases hc : c = '\n'
      · simp only [next, hc, if_true]
        omega
      · simp only [next, hc, if_false]
        omega

/-- The place behind a beginning of a text is exact. -/
theorem marks_after (read rest : List Char) : Marks (read ++ rest) (origin.after read) := by
  have hindex := index_after_origin read
  have htake : (read ++ rest).take (origin.after read).index = read := by
    rw [hindex, List.take_left]
  refine ⟨?_, ?_, ?_⟩
  · rw [hindex, List.length_append]
    omega
  · rw [htake, line_after]
  · rw [htake, column_after]

/-- An exact position lies behind as many characters as its line and its column count. -/
theorem Marks.line_add_column_le {source : List Char} {p : Position} (h : Marks source p) :
    p.line + p.column ≤ p.index := by
  have hle := line_add_column_after_le (source.take p.index)
  rwa [line_after, column_after, ← h.line_eq, ← h.column_eq, List.length_take,
    Nat.min_eq_left h.index_le] at hle

end Position

namespace Lexer

/-! ## What a scanner has read -/

/-- Behind the first `read` characters of a token, a scanner reads some more and then those that
close it; `stop` counts all of them. It does not look at what stands behind them. -/
def ReadsUpTo (scanner : Nat → List Char → Scan Nat) (closing : List Char) (read stop : Nat)
    (cs : List Char) : Prop :=
  ∃ content rest, cs = content ++ (closing ++ rest) ∧
    stop = read + content.length + closing.length ∧
    ∀ others, scanner read (content ++ (closing ++ others)) = .ok stop

/-- Reading some characters before the others. -/
theorem ReadsUpTo.prepend {scanner : Nat → List Char → Scan Nat} {closing cs : List Char}
    {read stop : Nat} (first : List Char)
    (h : ReadsUpTo scanner closing (read + first.length) stop cs)
    (hfirst : ∀ content rest others, cs = content ++ (closing ++ rest) →
      scanner read (first ++ (content ++ (closing ++ others))) =
        scanner (read + first.length) (content ++ (closing ++ others))) :
    ReadsUpTo scanner closing read stop (first ++ cs) := by
  obtain ⟨content, rest, rfl, rfl, hothers⟩ := h
  refine ⟨first ++ content, rest, by simp, ?_, fun others => ?_⟩
  · rw [List.length_append]
    omega
  · rw [List.append_assoc, hfirst content rest others rfl, hothers]

/-- A quoted string is read up to its closing quote. -/
theorem readsUpTo_quotedLength {read stop : Nat} {cs : List Char}
    (h : quotedLength read cs = .ok stop) : ReadsUpTo quotedLength ['"'] read stop cs := by
  fun_induction quotedLength read cs with
  | case2 read rest =>
      cases h
      exact ⟨[], rest, rfl, rfl, fun _ => rfl⟩
  | case4 read a b c d cs hdigits _ hvalue ih =>
      refine (ih h).prepend ['\\', 'u', a, b, c, d] fun _ _ _ _ => ?_
      simp only [List.cons_append, List.nil_append, quotedLength, hdigits, if_true, hvalue]
      rfl
  | case8 read c cs hlong hu _ hvalue ih =>
      refine (ih h).prepend ['\\', c] fun _ _ _ _ => ?_
      rw [List.cons_append, List.cons_append, List.nil_append, quotedLength]
      · simp only [hvalue]
        rfl
      · exact fun _ _ _ _ _ hc => (hu hc).elim
      · exact hu
  | case11 read c cs hquote hlast _ _ hescape hline hsource ih =>
      have hbackslash : c ≠ '\\' := by
        intro hc
        cases cs with
        | nil => exact hlast hc rfl
        | cons d ds => exact hescape d ds hc rfl
      refine (ih h).prepend [c] fun _ _ _ _ => ?_
      rw [List.cons_append, List.nil_append, quotedLength, if_neg hline, if_pos hsource]
      · rfl
      · exact hquote
      all_goals
        intros
        exact hbackslash ‹c = '\\'›
  | _ => cases h

/-- What a text starts with does not depend on what stands behind its closing characters, if it is
no longer than these. -/
theorem prefix_of_prefix_closing (start : List Char) {content closing others : List Char}
    (hlength : start.length ≤ closing.length) (h : start <+: content ++ (closing ++ others))
    (rest : List Char) : start <+: content ++ (closing ++ rest) := by
  rw [← List.append_assoc] at h ⊢
  have hle : start.length ≤ (content ++ closing).length := by
    rw [List.length_append]
    omega
  have hstart := List.prefix_of_prefix_length_le h (List.prefix_append _ others) hle
  exact hstart.trans (List.prefix_append _ rest)

/-- A block string is read up to its closing quotes. -/
theorem readsUpTo_blockLength {read stop : Nat} {cs : List Char}
    (h : blockLength read cs = .ok stop) : ReadsUpTo blockLength ['"', '"', '"'] read stop cs := by
  fun_induction blockLength read cs with
  | case1 read => cases h
  | case2 read rest =>
      cases h
      exact ⟨[], rest, rfl, rfl, fun _ => rfl⟩
  | case3 read cs ih => exact (ih h).prepend ['\\', '"', '"', '"'] fun _ _ _ _ => rfl
  | case4 read c cs hclose hescape hsource ih =>
      refine (ih h).prepend [c] fun content rest others hcs => ?_
      rw [List.cons_append, List.nil_append, blockLength, if_pos hsource]
      · rfl
      · intro tail hc htail
        obtain ⟨tail', htail'⟩ := prefix_of_prefix_closing ['"', '"'] (by simp)
          ⟨tail, htail.symm⟩ rest
        exact hclose tail' hc (hcs.trans htail'.symm)
      · intro tail hc htail
        obtain ⟨tail', htail'⟩ := prefix_of_prefix_closing ['"', '"', '"'] (by simp)
          ⟨tail, htail.symm⟩ rest
        exact hescape tail' hc (hcs.trans htail'.symm)
  | case5 read c cs _ _ _ => cases h

/-- What a scanner answers about the characters in front of it: the token is not the end of the
file, and its text is what has been read of them. -/
structure ReadsToken (cs : List Char) (token : Token) (length : Nat) : Prop where
  pos : 0 < length
  le : length ≤ cs.length
  ne_endOfFile : token ≠ .endOfFile
  text_eq : token.text.toList = cs.take length

theorem scanNumber_reads {cs : List Char} {token : Token} {length : Nat}
    (h : scanNumber cs = .ok (token, length)) : ReadsToken cs token length := by
  obtain ⟨n, rest, rfl, -, rfl, rfl⟩ := scanNumber_eq_ok_iff.mp h
  obtain ⟨c, cs, hchars, -⟩ := n.chars_eq_cons
  refine ⟨by simp [hchars], by simp, ?_, ?_⟩
  · unfold Numeral.token
    split <;> simp
  · rw [List.take_left, Numeral.token]
    split <;> simp [Token.text]

theorem scanEllipsis_reads {cs : List Char} {token : Token} {length : Nat}
    (h : scanEllipsis cs = .ok (token, length)) : ReadsToken cs token length := by
  unfold scanEllipsis at h
  split at h
  · cases h
    exact ⟨by omega, by simp, by simp, rfl⟩
  all_goals cases h

/-- A string is read from what opens it to what closes it, and its content is what stands between
them. -/
theorem ReadsUpTo.between {scanner : Nat → List Char → Scan Nat} {closing after : List Char}
    {stop : Nat} (opening : List Char)
    (h : ReadsUpTo scanner closing opening.length stop after) :
    (opening ++ after).take stop =
        opening ++ (((opening ++ after).take (stop - closing.length)).drop opening.length ++ closing) ∧
      opening.length + closing.length ≤ stop ∧ stop ≤ (opening ++ after).length := by
  obtain ⟨content, rest, rfl, rfl, -⟩ := h
  have hstop : opening.length + content.length + closing.length - closing.length =
      (opening ++ content).length := by
    rw [List.length_append]
    omega
  have hwhole : opening.length + content.length + closing.length =
      (opening ++ (content ++ closing)).length := by
    simp only [List.length_append]
    omega
  have hinner : opening ++ (content ++ (closing ++ rest)) =
      (opening ++ content) ++ (closing ++ rest) := by simp
  have houter : opening ++ (content ++ (closing ++ rest)) =
      (opening ++ (content ++ closing)) ++ rest := by simp
  refine ⟨?_, by omega, by simp only [List.length_append]; omega⟩
  rw [hstop, hinner, List.take_left, List.drop_left, ← hinner, hwhole, houter, List.take_left]

theorem scanQuoted_reads {after : List Char} {token : Token} {length : Nat}
    (h : scanQuoted (['"'] ++ after) = .ok (token, length)) :
    ReadsToken (['"'] ++ after) token length := by
  unfold scanQuoted at h
  rw [show (['"'] ++ after).drop 1 = after from rfl] at h
  cases hlength : quotedLength 1 after with
  | error e => simp [hlength, bind, Except.bind] at h
  | ok stop =>
      simp only [hlength, bind, Except.bind] at h
      cases h
      obtain ⟨htake, hpos, hle⟩ := (readsUpTo_quotedLength hlength).between ['"']
      refine ⟨?_, hle, by simp, ?_⟩
      · exact Nat.lt_of_lt_of_le (by decide) hpos
      · rw [htake]
        simp [Token.text]

theorem scanBlock_reads {after : List Char} {token : Token} {length : Nat}
    (h : scanBlock (['"', '"', '"'] ++ after) = .ok (token, length)) :
    ReadsToken (['"', '"', '"'] ++ after) token length := by
  unfold scanBlock at h
  rw [show (['"', '"', '"'] ++ after).drop 3 = after from rfl] at h
  cases hlength : blockLength 3 after with
  | error e => simp [hlength, bind, Except.bind] at h
  | ok stop =>
      simp only [hlength, bind, Except.bind] at h
      cases h
      obtain ⟨htake, hpos, hle⟩ :=
        (readsUpTo_blockLength hlength).between ['"', '"', '"']
      refine ⟨?_, hle, by simp, ?_⟩
      · exact Nat.lt_of_lt_of_le (by decide) hpos
      · rw [htake]
        simp [Token.text]

theorem scanName_reads {c : Char} {cs : List Char} {token : Token} {length : Nat}
    (hc : isNameStart c = true) (h : scanName (c :: cs) = .ok (token, length)) :
    ReadsToken (c :: cs) token length := by
  have hcontinue : isNameContinue c = true := by simp [isNameContinue, hc]
  cases h
  have hprefix := List.takeWhile_prefix isNameContinue (l := c :: cs)
  refine ⟨?_, hprefix.length_le, by simp, ?_⟩
  · simp [hcontinue]
  · rw [← List.prefix_iff_eq_take.mp hprefix]
    simp [Token.text]

/-- A mark of one character is written as that character. -/
theorem toList_text_of_ofChar? {c : Char} {p : Punctuator} (h : Punctuator.ofChar? c = some p) :
    p.text.toList = [c] := by
  unfold Punctuator.ofChar? at h
  split at h <;> cases h <;> rfl

/-- **One token.**  A scanner that succeeds has read at least one character, and the text of its
token is what it has read. -/
theorem scan_reads {c : Char} {cs : List Char} {token : Token} {length : Nat}
    (h : scan (c :: cs) = .ok (token, length)) : ReadsToken (c :: cs) token length := by
  rw [scan] at h
  split at h
  · exact scanEllipsis_reads h
  split at h
  · rename_i hopen
    obtain ⟨after, hafter⟩ := List.isPrefixOf_iff_prefix.mp hopen
    rw [← hafter] at h ⊢
    exact scanBlock_reads h
  split at h
  · rename_i hc
    subst hc
    exact scanQuoted_reads h
  split at h
  · exact scanNumber_reads h
  split at h
  · rename_i hc
    exact scanName_reads hc h
  split at h
  · rename_i p hp
    cases h
    exact ⟨Nat.one_pos, by simp, by simp, toList_text_of_ofChar? hp⟩
  · cases h

/-! ## What stands between tokens -/

/-- Some characters before others mean nothing: they are ignored ones and comments, and a comment
runs to the end of its line or to the end of the text. -/
inductive Blank (following : List Char) : List Char → Prop
  | nil : Blank following []
  | skip {c cs} : isIgnored c = true → Blank following cs → Blank following (c :: cs)
  | comment (body : List Char) {rest} : (∀ c ∈ body, isLineEnd c = false) →
      (∀ c ∈ (rest ++ following).head?, isLineEnd c = true) → Blank following rest →
      Blank following ('#' :: (body ++ rest))

/-- Some characters are the rest of a comment and what is blank behind it. -/
def EndsComment (following cs : List Char) : Prop :=
  Blank following ('#' :: cs)

/-- A comment goes on with any character that does not end the line. -/
theorem EndsComment.cons {following cs : List Char} {c : Char} (hc : isLineEnd c = false)
    (h : EndsComment following cs) : EndsComment following (c :: cs) := by
  cases h with
  | skip hhash _ => cases hhash
  | comment body hbody hend hrest =>
      refine Blank.comment (c :: body) ?_ hend hrest
      intro d hd
      rcases List.mem_cons.mp hd with rfl | hd
      · exact hc
      · exact hbody d hd

/-- A line end is ignored. -/
theorem isIgnored_of_isLineEnd {c : Char} (h : isLineEnd c = true) : isIgnored c = true := by
  simp only [isLineEnd, Bool.or_eq_true, decide_eq_true_eq] at h
  rcases h with rfl | rfl <;> rfl

/-- What is skipped before a token is blank, and inside a comment it is the rest of the comment and
what is blank behind it. -/
theorem blank_ignored_and_endsComment (cs : List Char) :
    Blank (cs.drop (ignored false cs)) (cs.take (ignored false cs)) ∧
      EndsComment (cs.drop (ignored true cs)) (cs.take (ignored true cs)) := by
  induction cs with
  | nil => exact ⟨.nil, .comment [] (by simp) (by simp) .nil⟩
  | cons c cs ih =>
      obtain ⟨hblank, hcomment⟩ := ih
      constructor
      · by_cases hhash : c = '#'
        · subst hhash
          exact hcomment
        · by_cases hc : isIgnored c = true
          · have hskip : ignored false (c :: cs) = ignored false cs + 1 := by
              simp [ignored, hhash, hc]
            rw [hskip]
            exact .skip hc hblank
          · have hskip : ignored false (c :: cs) = 0 := by
              simp [ignored, hhash, hc]
            rw [hskip]
            exact .nil
      · by_cases hc : isLineEnd c = true
        · have hskip : ignored true (c :: cs) = ignored false cs + 1 := by
            simp [ignored, hc]
          rw [hskip]
          refine .comment [] (by simp) ?_ (.skip (isIgnored_of_isLineEnd hc) hblank)
          simpa using hc
        · have hskip : ignored true (c :: cs) = ignored true cs + 1 := by
            simp [ignored, hc]
          rw [hskip]
          exact hcomment.cons (by simpa using hc)

/-! ## The whole text -/

/-- The characters of a text between two offsets. -/
def slice (source : List Char) (start stop : Nat) : List Char :=
  (source.drop start).take (stop - start)

/-- What stands between two beginnings of a text. -/
theorem slice_append (read middle rest : List Char) :
    slice (read ++ (middle ++ rest)) read.length (read ++ middle).length = middle := by
  have hlength : (read ++ middle).length - read.length = middle.length := by
    rw [List.length_append]
    omega
  rw [slice, List.drop_left, hlength, List.take_left]

/-- From an offset on, tokens stand in a text one behind the other, with blank characters between
them: each token but the end of the file covers the characters of its text. -/
inductive Tiles (source : List Char) : Nat → List (Located Token) → Prop
  | nil {start} : Tiles source start []
  | cons {start token rest} :
      start ≤ token.span.start.index →
      token.span.start.index ≤ token.span.stop.index →
      Blank (source.drop token.span.start.index)
        (slice source start token.span.start.index) →
      (token.item ≠ .endOfFile →
        slice source token.span.start.index token.span.stop.index = token.item.text.toList) →
      Tiles source token.span.stop.index rest → Tiles source start (token :: rest)

end Lexer

/-- The tokens of a text with the end of the file behind them, if it was reached. -/
def Lexed.sequence (lexed : Lexed) : List (Located Token) :=
  lexed.tokens ++
    match lexed.outcome with
    | .ok stop => [⟨.empty stop, .endOfFile⟩]
    | .error _ => []

/-- The positions of the tokens, of the end of the file and of an error. -/
def Lexed.positions (lexed : Lexed) : List Position :=
  lexed.sequence.flatMap (fun token => [token.span.start, token.span.stop]) ++
    match lexed.outcome with
    | .ok _ => []
    | .error e => [e.span.start, e.span.stop]

namespace Lexer

/-- What reading the rest of a text from an offset on has to answer. -/
structure ReadsFrom (source : List Char) (start : Nat) (lexed : Lexed) : Prop where
  tiles : Tiles source start lexed.sequence
  marks : ∀ p ∈ lexed.positions, p.Marks source
  tokens : ∀ token ∈ lexed.tokens, token.item ≠ .endOfFile
  length_le : start + lexed.tokens.length ≤ source.length
  finish : ∀ stop, lexed.outcome = .ok stop → stop.index = source.length

/-- Only blank characters are left. -/
theorem ReadsFrom.ended (read : List Char) {blank : List Char} (hblank : Blank [] blank) :
    ReadsFrom (read ++ blank) read.length ⟨[], .ok (.after .origin (read ++ blank))⟩ := by
  have hindex := Position.index_after_origin (read ++ blank)
  have hslice : slice (read ++ blank) read.length (read ++ blank).length = blank := by
    simpa using slice_append read blank []
  have hdrop : (read ++ blank).drop (read ++ blank).length = [] := List.drop_length
  refine ⟨?_, ?_, by simp, by simp, ?_⟩
  · refine .cons ?_ (Nat.le_refl _) ?_ (absurd rfl) .nil
    · simp only [Span.empty, hindex, List.length_append]
      omega
    · simpa only [Span.empty, hindex, hslice, hdrop] using hblank
  · intro p hp
    have hp : p = .after .origin (read ++ blank) := by
      simpa [Lexed.positions, Lexed.sequence, Span.empty] using hp
    rw [hp]
    simpa using Position.marks_after (read ++ blank) []
  · rintro stop ⟨⟩
    exact hindex

/-- Something is wrong behind some of the characters. -/
theorem ReadsFrom.failed (read before rest : List Char) (e : LexError) :
    ReadsFrom (read ++ (before ++ rest)) read.length
      ⟨[], .error ⟨.empty (.after .origin (read ++ before)), e⟩⟩ := by
  refine ⟨.nil, ?_, by simp, by simp, by simp⟩
  intro p hp
  have hp : p = .after .origin (read ++ before) := by
    simpa [Lexed.positions, Lexed.sequence, Span.empty] using hp
  rw [hp, ← List.append_assoc]
  exact Position.marks_after (read ++ before) rest

/-- A token is read behind blank characters, and then what follows it. -/
theorem ReadsFrom.token (read : List Char) {blank cs : List Char} {token : Token} {length : Nat}
    {following : Lexed} (hblank : Blank cs blank) (htoken : ReadsToken cs token length)
    (hfollowing : ReadsFrom (read ++ (blank ++ cs)) (read ++ (blank ++ cs.take length)).length
      following) :
    ReadsFrom (read ++ (blank ++ cs)) read.length
      ⟨⟨⟨.after .origin (read ++ blank), .after .origin (read ++ (blank ++ cs.take length))⟩,
        token⟩ :: following.tokens, following.outcome⟩ := by
  have hstart := Position.index_after_origin (read ++ blank)
  have hstop := Position.index_after_origin (read ++ (blank ++ cs.take length))
  have hlength : (cs.take length).length = length := by
    rw [List.length_take, Nat.min_eq_left htoken.le]
  have hsource : read ++ (blank ++ cs) =
      (read ++ (blank ++ cs.take length)) ++ cs.drop length := by simp
  have hpos := htoken.pos
  refine ⟨.cons ?_ ?_ ?_ ?_ ?_, ?_, ?_, ?_, hfollowing.finish⟩
  · simp only [hstart, List.length_append]
    omega
  · simp only [hstart, hstop, List.length_append]
    omega
  · have hdrop : (read ++ (blank ++ cs)).drop (read ++ blank).length = cs := by
      rw [← List.append_assoc, List.drop_left]
    simpa only [hstart, hdrop, slice_append] using hblank
  · intro _
    have hslice := slice_append (read ++ blank) (cs.take length) (cs.drop length)
    simp only [List.take_append_drop, List.append_assoc] at hslice
    simpa only [hstart, hstop, hslice] using htoken.text_eq.symm
  · rw [hstop]
    exact hfollowing.tiles
  · intro p hp
    rcases List.mem_cons.mp hp with rfl | hp
    · rw [← List.append_assoc]
      exact Position.marks_after (read ++ blank) cs
    rcases List.mem_cons.mp hp with rfl | hp
    · rw [hsource]
      exact Position.marks_after _ (cs.drop length)
    · exact hfollowing.marks p hp
  · intro other hother
    rcases List.mem_cons.mp hother with rfl | hother
    · exact htoken.ne_endOfFile
    · exact hfollowing.tokens other hother
  · have hle := hfollowing.length_le
    simp only [List.length_append, List.length_cons, hlength] at hle ⊢
    omega

/-- From any beginning of a text on, tokens are read without loss. The induction is on the length of
what is left. -/
theorem readsFrom_runFrom (read cs : List Char) :
    ReadsFrom (read ++ cs) read.length (runFrom (.after .origin read) cs) := by
  induction hlength : cs.length using Nat.strongRecOn generalizing read cs with
  | ind n ih =>
      have hblank := (blank_ignored_and_endsComment cs).1
      have hcs := List.take_append_drop (ignored false cs) cs
      generalize hskipped : cs.take (ignored false cs) = blank at hblank hcs
      cases hrest : cs.drop (ignored false cs) with
      | nil =>
          rw [runFrom_of_drop_eq_nil hrest, hskipped, ← Position.after_append]
          rw [hrest] at hblank hcs
          rw [← hcs, List.append_nil]
          exact .ended read hblank
      | cons c rest =>
          rw [runFrom_of_drop_eq_cons hrest, hskipped, ← Position.after_append]
          rw [hrest] at hblank hcs
          cases hscan : scan (c :: rest) with
          | error e =>
              obtain ⟨e, before⟩ := e
              have hfailed := ReadsFrom.failed read (blank ++ (c :: rest).take before)
                ((c :: rest).drop before) e
              rw [List.append_assoc, List.take_append_drop, hcs, ← List.append_assoc,
                Position.after_append] at hfailed
              exact hfailed
          | ok found =>
              obtain ⟨token, length⟩ := found
              have htoken := scan_reads hscan
              have hdrop : (c :: rest).drop length = rest.drop (length - 1) := by
                obtain ⟨k, rfl⟩ := Nat.exists_eq_add_one.mpr htoken.pos
                rfl
              have hshorter : (rest.drop (length - 1)).length < n := by
                rw [← hlength, ← hcs]
                simp only [List.length_append, List.length_cons, List.length_drop]
                omega
              have hfollowing := ih _ hshorter (read ++ (blank ++ (c :: rest).take length)) _ rfl
              rw [← hdrop, List.append_assoc, List.append_assoc, List.take_append_drop] at hfollowing
              have hreads := ReadsFrom.token read hblank htoken hfollowing
              rw [hcs, hdrop] at hreads
              simpa only [Position.after_append] using hreads

section

variable {source : List Char} {start : Nat} {tokens : List (Located Token)}

/-- Tokens that tile a text from an offset on start there or later, each behind the one before. -/
theorem Tiles.ordered (h : Tiles source start tokens) :
    (∀ token ∈ tokens, start ≤ token.span.start.index) ∧
      tokens.Pairwise fun a b => a.span.stop.index ≤ b.span.start.index := by
  induction h with
  | nil => exact ⟨by simp, .nil⟩
  | cons hstart hstop _ _ _ ih =>
      obtain ⟨hlater, hpairwise⟩ := ih
      refine ⟨?_, .cons hlater hpairwise⟩
      intro token hmem
      rcases List.mem_cons.mp hmem with rfl | hmem
      · exact hstart
      · have := hlater token hmem
        omega

/-- Each token covers its text. -/
theorem Tiles.covers (h : Tiles source start tokens) :
    ∀ token ∈ tokens, token.span.start.index ≤ token.span.stop.index ∧
      (token.item ≠ .endOfFile →
        slice source token.span.start.index token.span.stop.index = token.item.text.toList) := by
  induction h with
  | nil => simp
  | cons _ hstop _ htext _ ih =>
      intro token hmem
      rcases List.mem_cons.mp hmem with rfl | hmem
      · exact ⟨hstop, htext⟩
      · exact ih token hmem

/-- Where the last of some tokens ends, or the given offset if there are none. -/
def endOf (start : Nat) : List (Located Token) → Nat
  | [] => start
  | token :: rest => endOf token.span.stop.index rest

/-- What stands between a token and the one before is blank. -/
theorem Tiles.gap {before after : List (Located Token)} {token : Located Token}
    (h : Tiles source start (before ++ token :: after)) :
    Blank (source.drop token.span.start.index)
      (slice source (endOf start before) token.span.start.index) := by
  induction before generalizing start with
  | nil =>
      cases h with
      | cons _ _ hblank _ _ => exact hblank
  | cons first before ih =>
      cases h with
      | cons _ _ _ _ hrest => exact ih hrest

end

/-- What the tokens of a source text say about it. The end of the file is one of the `sequence`, and
not one of the `tokens`. -/
structure Lossless (source : List Char) (lexed : Lexed) : Prop where
  /-- Spans are ordered and disjoint. -/
  ordered : lexed.sequence.Pairwise fun a b => a.span.stop.index ≤ b.span.start.index
  forward : ∀ token ∈ lexed.sequence, token.span.start.index ≤ token.span.stop.index
  texts : ∀ token ∈ lexed.sequence, token.item ≠ .endOfFile →
    slice source token.span.start.index token.span.stop.index = token.item.text.toList
  gaps : ∀ before token after, lexed.sequence = before ++ token :: after →
    Blank (source.drop token.span.start.index)
      (slice source (endOf 0 before) token.span.start.index)
  positions : ∀ p ∈ lexed.positions, p.Marks source ∧ p.line + p.column ≤ p.index
  finish : ∀ stop, lexed.outcome = .ok stop → stop.index = source.length ∧
    lexed.sequence = lexed.tokens ++ [⟨.empty stop, .endOfFile⟩]
  tokens : ∀ token ∈ lexed.tokens, token.item ≠ .endOfFile
  /-- No text has more tokens than characters. -/
  length_le : lexed.tokens.length ≤ source.length

/-- **Lossless reading.**  The tokens of a source text cover it up to characters that mean nothing,
and all positions are exact. -/
theorem run_lossless (source : String) : Lossless source.toList (run source) := by
  have hreads : ReadsFrom source.toList 0 (run source) := readsFrom_runFrom [] source.toList
  exact {
    ordered := hreads.tiles.ordered.2
    forward := fun token hmem => (hreads.tiles.covers token hmem).1
    texts := fun token hmem => (hreads.tiles.covers token hmem).2
    gaps := fun before token after hsplit => (hsplit ▸ hreads.tiles).gap
    positions := fun p hp => ⟨hreads.marks p hp, (hreads.marks p hp).line_add_column_le⟩
    finish := fun stop hstop => ⟨hreads.finish stop hstop, by simp [Lexed.sequence, hstop]⟩
    tokens := hreads.tokens
    length_le := by simpa using hreads.length_le }

end Lexer

end GraphQL
