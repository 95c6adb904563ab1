import GraphQL.Proofs.Lossless

/-!
# Tokens do not depend on what stands between them

The blank characters between the tokens of a text can be replaced by others: as long as some are
left between two tokens, the new text has the same tokens.

Two facts carry this. A scanner does not look past the end of its token further than to see that the
token ends there, so a token that was read once is read again from its own text, whatever blank
characters follow (`Lexer.lexeme_of_lexical`). And blank characters that leave no comment open are
skipped before any text (`Lexer.runFrom_filler`).
-/

namespace GraphQL

namespace Lexer

/-! ## One token -/

/-- A token is read from its own text, if what follows cannot belong to it. -/
structure Lexeme (token : Token) : Prop where
  ne_nil : token.text.toList ≠ []
  scan_append : ∀ rest, Boundary rest →
    scan (token.text.toList ++ rest) = .ok (token, token.text.toList.length)

/-- What is read of a name is a name. -/
theorem isName_takeWhile {c : Char} (hc : isNameStart c = true) (cs : List Char) :
    isName (String.ofList ((c :: cs).takeWhile isNameContinue)) = true := by
  have hcontinue : isNameContinue c = true := by simp [isNameContinue, hc]
  rw [isName, String.toList_ofList, List.takeWhile_cons_of_pos hcontinue]
  simp [hc]

/-- What tokens are: names are names, numbers are written as numbers, and a string is read up to its
closing quotes, whatever follows them. -/
def Lexical : Token → Prop
  | .name text => isName text = true
  | .int text => ∃ n : Numeral, n.token = .int text
  | .float text => ∃ n : Numeral, n.token = .float text
  | .quoted content => ∀ rest,
      quotedLength 1 (content.toList ++ '"' :: rest) = .ok (1 + content.toList.length + 1)
  | .block content => ∀ rest,
      blockLength 3 (content.toList ++ (['"', '"', '"'] ++ rest)) =
        .ok (3 + content.toList.length + 3)
  | .mark _ => True
  | .endOfFile => False

theorem lexical_numeral (n : Numeral) : Lexical n.token := by
  by_cases hwhole : n.fraction ++ n.exponent = []
  · have htoken : n.token = .int (String.ofList n.chars) := if_pos hwhole
    rw [htoken]
    exact ⟨n, htoken⟩
  · have htoken : n.token = .float (String.ofList n.chars) := if_neg hwhole
    rw [htoken]
    exact ⟨n, htoken⟩

theorem lexical_of_scanQuoted {after : List Char} {token : Token} {length : Nat}
    (h : scanQuoted ('"' :: after) = .ok (token, length)) : Lexical token := by
  cases hlength : quotedLength 1 after with
  | error e => simp [scanQuoted, hlength, bind, Except.bind] at h
  | ok stop =>
      obtain ⟨content, others, rfl, rfl, hagain⟩ := readsUpTo_quotedLength hlength
      rw [List.singleton_append, scanQuoted_append others (hagain others)] at h
      cases h
      simpa [Lexical] using hagain

/-- What stands between triple quotes is the content of a block string, if it is read up to the
closing quotes. -/
theorem scanBlock_append {content : List Char} (rest : List Char)
    (h : blockLength 3 (content ++ (['"', '"', '"'] ++ rest)) = .ok (3 + content.length + 3)) :
    scanBlock ('"' :: '"' :: '"' :: (content ++ (['"', '"', '"'] ++ rest))) =
      .ok (.block (String.ofList content), content.length + 6) := by
  have hlength : 3 + content.length + 3 = content.length + 6 := by omega
  have hstop : content.length + 6 - 3 = content.length + 3 := rfl
  rw [scanBlock, List.drop_succ_cons, List.drop_succ_cons, List.drop_succ_cons, List.drop_zero, h]
  simp only [bind, Except.bind, pure, Except.pure, hlength, hstop, List.take_succ_cons,
    List.take_left, List.drop_succ_cons, List.drop_zero]

theorem lexical_of_scanBlock {after : List Char} {token : Token} {length : Nat}
    (h : scanBlock ('"' :: '"' :: '"' :: after) = .ok (token, length)) : Lexical token := by
  cases hlength : blockLength 3 after with
  | error e => simp [scanBlock, hlength, bind, Except.bind] at h
  | ok stop =>
      obtain ⟨content, others, rfl, rfl, hagain⟩ := readsUpTo_blockLength hlength
      rw [scanBlock_append others (hagain others)] at h
      cases h
      simpa [Lexical] using hagain

/-- What is read is a token. -/
theorem lexical_of_scan {c : Char} {cs : List Char} {token : Token} {length : Nat}
    (h : scan (c :: cs) = .ok (token, length)) : Lexical token := by
  rw [scan] at h
  split at h
  · unfold scanEllipsis at h
    split at h <;> cases h
    exact trivial
  split at h
  · rename_i hopen
    obtain ⟨after, hafter⟩ := List.isPrefixOf_iff_prefix.mp hopen
    rw [← hafter] at h
    exact lexical_of_scanBlock h
  split at h
  · rename_i hc
    subst hc
    exact lexical_of_scanQuoted h
  split at h
  · obtain ⟨n, others, -, -, rfl, -⟩ := scanNumber_eq_ok_iff.mp h
    exact lexical_numeral n
  split at h
  · rename_i hc
    cases h
    exact isName_takeWhile hc cs
  split at h
  · cases h
    exact trivial
  · cases h

/-- All tokens of a text are tokens. -/
theorem lexical_of_mem_runFrom {p : Position} {cs : List Char} :
    ∀ token ∈ (runFrom p cs).tokens, Lexical token.item := by
  fun_induction runFrom p cs with
  | case1 => simp
  | case2 => simp
  | case3 p cs skip start c rest hdrop token length hscan stop following ih =>
      intro other hother
      rcases List.mem_cons.mp hother with rfl | hother
      · exact lexical_of_scan hscan
      · exact ih other hother

/-- A number is read from its own text. -/
theorem lexeme_numeral (n : Numeral) : Lexeme n.token := by
  have htext : n.token.text.toList = n.chars := by
    unfold Numeral.token
    split <;> simp [Token.text]
  obtain ⟨c, cs, hchars, -⟩ := n.chars_eq_cons
  refine ⟨by simp [htext, hchars], fun rest hrest => ?_⟩
  rw [htext]
  exact scan_number n hrest.endsNumber

/-- **One token.**  A token is read from its own text. -/
theorem lexeme_of_lexical {token : Token} (h : Lexical token) : Lexeme token := by
  cases token with
  | name text => exact ⟨text_ne_nil (w := .name text) h, fun rest hrest => scan_name h hrest⟩
  | int text =>
      obtain ⟨n, hn⟩ := h
      exact hn ▸ lexeme_numeral n
  | float text =>
      obtain ⟨n, hn⟩ := h
      exact hn ▸ lexeme_numeral n
  | quoted content =>
      refine ⟨by simp [Token.text], fun rest hrest => ?_⟩
      simpa [Token.text] using scan_quoted rest (h rest) hrest
  | block content =>
      refine ⟨by simp [Token.text], fun rest _ => ?_⟩
      have hscan : scan ('"' :: '"' :: '"' :: (content.toList ++ (['"', '"', '"'] ++ rest))) =
          .ok (.block (String.ofList content.toList), content.toList.length + 6) := by
        rw [← scanBlock_append rest (h rest), scan, if_neg (by decide), if_pos (by simp)]
      simpa [Token.text] using hscan
  | mark p => exact ⟨text_ne_nil (w := .mark p) rfl, fun rest _ => scan_mark p rest⟩
  | endOfFile => cases h

/-- All tokens of a text are read again from their own texts. -/
theorem lexeme_of_mem_runFrom {p : Position} {cs : List Char} :
    ∀ token ∈ (runFrom p cs).tokens, Lexeme token.item :=
  fun token htoken => lexeme_of_lexical (lexical_of_mem_runFrom token htoken)

/-! ## Blank characters -/

/-- Characters that mean nothing before any text: ignored ones, and comments with the line end that
ends them. -/
inductive Filler : List Char → Prop
  | nil : Filler []
  | skip {c cs} : isIgnored c = true → Filler cs → Filler (c :: cs)
  | comment (body : List Char) {c cs} : (∀ d ∈ body, isLineEnd d = false) → isLineEnd c = true →
      Filler cs → Filler ('#' :: (body ++ c :: cs))

/-- A comment is skipped with the line end that ends it. -/
theorem ignored_comment {body : List Char} (hbody : ∀ d ∈ body, isLineEnd d = false) {c : Char}
    (hc : isLineEnd c = true) (rest : List Char) :
    ignored true (body ++ c :: rest) = body.length + 1 + ignored false rest := by
  induction body with
  | nil =>
      simp [ignored, hc]
      omega
  | cons d body ih =>
      have hd : isLineEnd d = false := hbody d List.mem_cons_self
      rw [List.cons_append, ignored, if_pos rfl, hd, Bool.not_false,
        ih fun e he => hbody e (List.mem_cons_of_mem _ he), List.length_cons]
      omega

theorem ignored_filler {run : List Char} (h : Filler run) (rest : List Char) :
    ignored false (run ++ rest) = run.length + ignored false rest := by
  induction h with
  | nil => simp
  | skip hc _ ih =>
      rw [List.cons_append, ignored_cons hc, ih, List.length_cons]
      omega
  | comment body hbody hc _ ih =>
      rw [List.cons_append, List.append_assoc, List.cons_append, ignored,
        if_neg Bool.false_ne_true, if_pos rfl, ignored_comment hbody hc, ih]
      simp only [List.length_cons, List.length_append]
      omega

/-- Blank characters only move the place. -/
theorem runFrom_filler {run : List Char} (h : Filler run) (p : Position) (rest : List Char) :
    runFrom p (run ++ rest) = runFrom (p.after run) rest :=
  runFrom_append run (ignored_filler h rest) p

/-- A token ends at blank characters, or at the end of the text. -/
theorem Filler.boundary {run : List Char} (h : Filler run) (rest : List Char)
    (hrest : run = [] → rest = []) : Boundary (run ++ rest) := by
  cases h with
  | nil =>
      rw [hrest rfl]
      exact boundary_nil
  | skip hc _ =>
      refine boundary_cons ?_ _
      simp only [isIgnored, Bool.or_eq_true, decide_eq_true_eq] at hc
      rcases hc with ((((rfl | rfl) | rfl) | rfl) | rfl) | rfl <;> decide
  | comment body _ _ _ => exact boundary_cons (by decide) _

/-! ## The whole text -/

/-- The texts of some tokens with other characters before, between and behind them; the runs of
these are numbered by how many tokens stand before them. -/
def spaced (runs : Nat → List Char) : List Token → List Char
  | [] => runs 0
  | token :: rest => runs 0 ++ (token.text.toList ++ spaced (fun i => runs (i + 1)) rest)

/-- Tokens that are read from their own texts are read from all of them with blank characters
between them. The induction is on the tokens, and the first run goes with the first of them. -/
theorem runFrom_spaced {tokens : List Token} (htokens : ∀ token ∈ tokens, Lexeme token)
    (runs : Nat → List Char) (hruns : ∀ i ≤ tokens.length, Filler (runs i))
    (hbetween : ∀ i, 0 < i → i < tokens.length → runs i ≠ []) (p : Position) :
    (runFrom p (spaced runs tokens)).tokens.map Located.item = tokens ∧
      ∃ stop, (runFrom p (spaced runs tokens)).outcome = .ok stop := by
  induction tokens generalizing runs p with
  | nil =>
      have hend := runFrom_filler (hruns 0 (Nat.le_refl 0)) p []
      have hnil : [].drop (ignored false []) = ([] : List Char) := rfl
      rw [runFrom_of_drop_eq_nil hnil, List.append_nil] at hend
      rw [spaced, hend]
      exact ⟨rfl, _, rfl⟩
  | cons token rest ih =>
      have htoken := htokens token List.mem_cons_self
      have hnext : Boundary (spaced (fun i => runs (i + 1)) rest) := by
        have hfiller : Filler (runs 1) := hruns 1 (by simp)
        cases rest with
        | nil => simpa [spaced] using hfiller.boundary [] fun _ => rfl
        | cons other rest =>
            have hne : runs 1 ≠ [] := hbetween 1 Nat.one_pos (by simp)
            exact hfiller.boundary _ fun hempty => absurd hempty hne
      obtain ⟨hrest, stop, hstop⟩ := ih (fun t ht => htokens t (List.mem_cons_of_mem _ ht))
        (fun i => runs (i + 1)) (fun i hi => hruns (i + 1) (by simpa using hi))
        (fun i hpos hi => hbetween (i + 1) (by omega) (by simpa using hi))
        ((p.after (runs 0)).after token.text.toList)
      rw [spaced, runFrom_filler (hruns 0 (Nat.zero_le _)),
        runFrom_token htoken.ne_nil (htoken.scan_append _ hnext)]
      exact ⟨by rw [List.map_cons, hrest], stop, hstop⟩

end Lexer

namespace Lexed

/-- The tokens of a text, with other characters before, between and behind them. -/
def respaced (lexed : Lexed) (runs : Nat → List Char) : String :=
  String.ofList (Lexer.spaced runs (lexed.tokens.map Located.item))

/-- If there is no error, the end of the file stands behind the tokens. -/
theorem items_sequence {lexed : Lexed} {stop : Position} (h : lexed.outcome = .ok stop) :
    lexed.sequence.map Located.item = lexed.tokens.map Located.item ++ [.endOfFile] := by
  simp [sequence, h]

end Lexed

namespace Lexer

/-- **Tokens keep.**  If a text is read without an error, then its tokens are read again, whatever
blank characters stand before, between and behind them. -/
theorem run_respaced {source : String} {stop : Position} (h : (run source).outcome = .ok stop)
    {runs : Nat → List Char} (hruns : ∀ i ≤ (run source).tokens.length, Filler (runs i))
    (hbetween : ∀ i, 0 < i → i < (run source).tokens.length → runs i ≠ []) :
    ∃ finish, (run ((run source).respaced runs)).outcome = .ok finish ∧
      (run ((run source).respaced runs)).sequence.map Located.item =
        (run source).sequence.map Located.item := by
  have hlexemes : ∀ token ∈ (run source).tokens.map Located.item, Lexeme token :=
    List.forall_mem_map.mpr lexeme_of_mem_runFrom
  have hspaced : run ((run source).respaced runs) =
      runFrom .origin (spaced runs ((run source).tokens.map Located.item)) := by
    rw [run, Lexed.respaced, String.toList_ofList]
  obtain ⟨htokens, finish, hfinish⟩ := runFrom_spaced hlexemes runs
    (by simpa using hruns) (by simpa using hbetween) .origin
  rw [← hspaced] at htokens hfinish
  refine ⟨finish, hfinish, ?_⟩
  rw [Lexed.items_sequence hfinish, Lexed.items_sequence h, htokens]

/-- A text whose tokens stand as close together as they can: behind a number comes an empty string,
and a block string ends with an escape. -/
def crowdedText : String := "\x7ba(b:-1.5e3\"\"c:\"\"\"d\\\"\"\"\"\"\")...E\x7d"

/-- Nothing stands before its first token, and comments that look like strings behind all others. -/
def crowdedRuns (i : Nat) : List Char :=
  if i = 0 then [] else '#' :: ([' ', '"', '"', '"'] ++ '\r' :: ['\uFEFF', ','])

theorem filler_crowdedRuns (i : Nat) : Filler (crowdedRuns i) := by
  unfold crowdedRuns
  split
  · exact .nil
  · exact .comment [' ', '"', '"', '"'] (by simp [isLineEnd]) rfl (.skip rfl (.skip rfl .nil))

/-- The crowded text is read again with comments between all its tokens. -/
theorem crowdedText_respaced :
    (run crowdedText).outcome = .ok ⟨32, 0, 32⟩ ∧ (run crowdedText).tokens.length = 14 ∧
      ∃ finish, (run ((run crowdedText).respaced crowdedRuns)).outcome = .ok finish ∧
        (run ((run crowdedText).respaced crowdedRuns)).sequence.map Located.item =
          (run crowdedText).sequence.map Located.item := by
  have hstop : (run crowdedText).outcome = .ok ⟨32, 0, 32⟩ := by decide +kernel
  have hlength : (run crowdedText).tokens.length = 14 := by decide +kernel
  refine ⟨hstop, hlength, run_respaced hstop (fun i _ => filler_crowdedRuns i) fun i hpos _ => ?_⟩
  simp [crowdedRuns, Nat.ne_of_gt hpos]

end Lexer

end GraphQL
