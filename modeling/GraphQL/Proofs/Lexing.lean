import GraphQL.Grammar.Value
import GraphQL.Proofs.Numerals
import Mathlib.Tactic.ByContra

/-!
# Reading back written tokens

What is written as tokens is read as the same tokens, if ignored characters stand wherever one token
could run into the next. `Spells` says which texts spell a list of tokens; it leaves open how many
ignored characters there are and between which tokens they stand, so it covers both documents whose
tokens are separated by spaces and values that are written without a space inside their brackets.

A name, a number and a string end at a character that none of them can go on with (`Boundary`); a
mark ends by itself. Strings are written by `Escape.encode`, which is undone by reading them.
-/

namespace GraphQL

namespace Escape

/-- The digits that are used in long escapes. -/
def escapeDigits : List Char := "0123456789ABCDEF".toList

/-- A control character is written as a short escape, or by its code. -/
theorem encodeChar_control : ∀ n < 0x20,
    (∃ x ∈ ['b', 'f', 'n', 'r', 't'],
      encodeChar (Char.ofNat n) = ['\\', x] ∧ short? x = some (Char.ofNat n)) ∨
    (∃ p ∈ escapeDigits, ∃ q ∈ escapeDigits,
      encodeChar (Char.ofNat n) = ['\\', 'u', '0', '0', p, q] ∧
        long? '0' '0' p q = some (Char.ofNat n)) := by
  intro n hn
  have hall : ∀ n < 0x20,
      (['b', 'f', 'n', 'r', 't'].any fun x =>
        encodeChar (Char.ofNat n) = ['\\', x] ∧ short? x = some (Char.ofNat n)) = true ∨
      (escapeDigits.any fun p => escapeDigits.any fun q =>
        encodeChar (Char.ofNat n) = ['\\', 'u', '0', '0', p, q] ∧
          long? '0' '0' p q = some (Char.ofNat n)) = true := by
    decide +kernel
  simpa only [List.any_eq_true, decide_eq_true_eq] using hall n hn

/-- How a character is written between quotes: as a short escape, as a long one, or as itself if it
means nothing else there. -/
theorem encodeChar_cases (c : Char) :
    (∃ x, encodeChar c = ['\\', x] ∧ x ≠ 'u' ∧ short? x = some c) ∨
    (∃ p q, encodeChar c = ['\\', 'u', '0', '0', p, q] ∧ ['0', '0', p, q].all Char.isAlphanum ∧
      long? '0' '0' p q = some c) ∨
    (encodeChar c = [c] ∧ c ≠ '"' ∧ c ≠ '\\' ∧ Lexer.isLineEnd c = false ∧
      Lexer.isSourceChar c = true) := by
  by_cases hcontrol : c.toNat < 0x20
  · have hshort : ∀ x ∈ ['b', 'f', 'n', 'r', 't'], x ≠ 'u' := by simp
    have hdigits : ∀ x ∈ escapeDigits, x.isAlphanum = true := List.all_eq_true.mp rfl
    have hcases := encodeChar_control c.toNat hcontrol
    rw [Char.ofNat_toNat] at hcases
    rcases hcases with ⟨x, hx, hencode, hvalue⟩ | ⟨p, hp, q, hq, hencode, hvalue⟩
    · exact .inl ⟨x, hencode, hshort x hx, hvalue⟩
    · refine .inr (.inl ⟨p, q, hencode, ?_, hvalue⟩)
      simp [hdigits p hp, hdigits q hq]
  · by_cases hquote : c = '"'
    · subst hquote
      exact .inl ⟨'"', rfl, by decide, rfl⟩
    by_cases hbackslash : c = '\\'
    · subst hbackslash
      exact .inl ⟨'\\', rfl, by decide, rfl⟩
    -- all other characters that have an escape are control characters
    have hother {d : Char} (hd : d.toNat < 0x20) : c ≠ d := by
      intro h
      rw [h] at hcontrol
      exact hcontrol hd
    refine .inr (.inr ⟨?_, hquote, hbackslash, ?_, ?_⟩)
    · have hn := hother (d := '\n') (by decide)
      have hr := hother (d := '\r') (by decide)
      have ht := hother (d := '\t') (by decide)
      have hb := hother (d := '\x08') (by decide)
      have hf := hother (d := '\x0c') (by decide)
      simp [encodeChar, hcontrol]
    · simp [Lexer.isLineEnd, hother (d := '\n') (by decide), hother (d := '\r') (by decide)]
    · have hspace : ' '.val ≤ c.val := by
        rw [UInt32.le_iff_toNat_le]
        have : ' '.val.toNat = 0x20 := rfl
        have : c.val.toNat = c.toNat := rfl
        omega
      simp only [Lexer.isSourceChar, Bool.or_eq_true, decide_eq_true_eq]
      exact .inr hspace

/-- Reading what stands between quotes undoes writing it. -/
theorem decode?_encode (cs : List Char) : decode? (encode cs) = some cs := by
  induction cs with
  | nil => rfl
  | cons c cs ih =>
      have hencode : encode (c :: cs) = encodeChar c ++ encode cs := List.flatMap_cons
      rw [hencode]
      rcases encodeChar_cases c with ⟨x, hc, hu, hvalue⟩ | ⟨p, q, hc, -, hvalue⟩ | ⟨hc, -, hb, -, -⟩
      · rw [hc, List.cons_append, List.cons_append, List.nil_append, decode?]
        · simp [hvalue, ih]
        · intro _ _ _ _ _ hx
          exact absurd hx hu
      · rw [hc]
        simp [decode?, hvalue, ih]
      · rw [hc]
        simp [decode?, hb, ih]

end Escape

namespace Lexer

/-- What stands between the quotes of a written string is read up to the closing quote. -/
theorem quotedLength_encode (cs rest : List Char) (read : Nat) :
    quotedLength read (Escape.encode cs ++ '"' :: rest) =
      .ok (read + (Escape.encode cs).length + 1) := by
  induction cs generalizing read with
  | nil => rfl
  | cons c cs ih =>
      have hencode : Escape.encode (c :: cs) = Escape.encodeChar c ++ Escape.encode cs :=
        List.flatMap_cons
      rw [hencode, List.append_assoc]
      rcases Escape.encodeChar_cases c with
        ⟨x, hc, hu, hvalue⟩ | ⟨p, q, hc, hdigits, hvalue⟩ | ⟨hc, hquote, hbackslash, hline, hsource⟩
      · rw [hc, List.cons_append, List.cons_append, List.nil_append, quotedLength]
        · simp only [hvalue, ih, List.length_append, List.length_cons, List.length_nil]
          congr 1
          omega
        · intro _ _ _ _ _ hx
          exact absurd hx hu
        · exact hu
      · rw [hc]
        simp only [List.cons_append, List.nil_append, quotedLength, hdigits, if_true, hvalue, ih,
          List.length_cons]
        congr 1
        omega
      · rw [hc, List.cons_append, List.nil_append, quotedLength]
        · simp only [hline, hsource, Bool.false_eq_true, if_false, if_true, ih, List.length_append,
            List.length_cons, List.length_nil]
          congr 1
          omega
        · exact hquote
        all_goals
          intros
          exact absurd ‹c = '\\'› hbackslash

/-! ## One token -/

/-- Neither a name, nor a number, nor a string goes on with what follows. -/
def Boundary (rest : List Char) : Prop :=
  ∀ c ∈ rest.head?, isNameContinue c = false ∧ c ≠ '.' ∧ c ≠ '"'

theorem boundary_nil : Boundary [] := nofun

theorem boundary_cons {c : Char} (h : isNameContinue c = false ∧ c ≠ '.' ∧ c ≠ '"')
    (cs : List Char) : Boundary (c :: cs) := by
  intro d hd
  obtain rfl : c = d := by simpa using hd
  exact h

/-- A text is a name. -/
def isName (text : String) : Bool :=
  match text.toList with
  | [] => false
  | c :: cs => isNameStart c && cs.all isNameContinue

/-- A name starts with no digit and none of the marks that start other tokens. -/
theorem isNameStart_ne {c d : Char} (hc : isNameStart c = true) (hd : isNameStart d = false) :
    c ≠ d := by
  intro h
  rw [h, hd] at hc
  cases hc

theorem not_isDigit_of_isNameStart {c : Char} (hc : isNameStart c = true) : c.isDigit = false := by
  by_contra hdigit
  rw [Bool.not_eq_false, Char.isDigit_iff_toNat] at hdigit
  have hzero : '0'.toNat = 48 := rfl
  have hnine : '9'.toNat = 57 := rfl
  have hval : c.val.toNat = c.toNat := rfl
  have hcases : (decide (c = '_') || (decide ('A'.val ≤ c.val ∧ c.val ≤ 'Z'.val) ||
      decide ('a'.val ≤ c.val) && decide (c.val ≤ 'z'.val))) = true := hc
  simp only [Bool.or_eq_true, Bool.and_eq_true, decide_eq_true_eq,
    UInt32.le_iff_toNat_le] at hcases
  rcases hcases with rfl | ⟨hA, -⟩ | ⟨ha, -⟩
  · revert hdigit
    decide
  · have : 'A'.val.toNat = 65 := rfl
    omega
  · have : 'a'.val.toNat = 97 := rfl
    omega

theorem scan_name {text : String} (h : isName text = true) {rest : List Char}
    (hrest : Boundary rest) :
    scan (text.toList ++ rest) = .ok (.name text, text.toList.length) := by
  unfold isName at h
  split at h
  · cases h
  · rename_i c cs htext
    obtain ⟨hc, hcs⟩ := Bool.and_eq_true_iff.mp h
    have hword : ∀ d ∈ c :: cs, isNameContinue d = true := by
      intro d hd
      rcases List.mem_cons.mp hd with rfl | hd
      · simp [isNameContinue, hc]
      · exact List.all_eq_true.mp hcs d hd
    have htake : (c :: cs ++ rest).takeWhile isNameContinue = c :: cs :=
      takeWhile_append_boundary hword fun d hd => (hrest d hd).1
    have hdot : c ≠ '.' := isNameStart_ne hc (by decide)
    have hquote : c ≠ '"' := isNameStart_ne hc (by decide)
    have hminus : c ≠ '-' := isNameStart_ne hc (by decide)
    rw [htext, List.cons_append, scan, if_neg hdot, if_neg, if_neg hquote, if_neg, if_pos hc]
    · rw [← List.cons_append, scanName, htake, ← htext, String.ofList_toList]
    · simp [hminus, not_isDigit_of_isNameStart hc]
    · simp [Ne.symm hquote]

theorem scan_mark (p : Punctuator) (rest : List Char) :
    scan (p.text.toList ++ rest) = .ok (.mark p, p.text.toList.length) := by
  cases p <;> rfl

/-- What stands between quotes is the content of a quoted string, if it is read up to the closing
quote. -/
theorem scanQuoted_append {content : List Char} (rest : List Char)
    (h : quotedLength 1 (content ++ '"' :: rest) = .ok (1 + content.length + 1)) :
    scanQuoted ('"' :: (content ++ '"' :: rest)) =
      .ok (.quoted (String.ofList content), content.length + 2) := by
  have hlength : 1 + content.length + 1 = content.length + 2 := by omega
  have hstop : content.length + 2 - 1 = content.length + 1 := rfl
  rw [scanQuoted, List.drop_succ_cons, List.drop_zero, h]
  simp only [bind, Except.bind, pure, Except.pure, hstop, hlength, List.take_succ_cons,
    List.take_left, List.drop_succ_cons, List.drop_zero]

/-- A quoted string is not taken for a block string: its content starts with no quote, and if there
is none, no quote follows. -/
theorem scan_quoted {content : List Char} (rest : List Char)
    (h : quotedLength 1 (content ++ '"' :: rest) = .ok (1 + content.length + 1))
    (hrest : Boundary rest) :
    scan ('"' :: (content ++ '"' :: rest)) =
      .ok (.quoted (String.ofList content), content.length + 2) := by
  have hblock : ¬ ['"', '"', '"'].isPrefixOf ('"' :: (content ++ '"' :: rest)) = true := by
    intro hprefix
    cases content with
    | nil =>
        cases rest with
        | nil => simp at hprefix
        | cons c rest =>
            have hc := (hrest c (by simp)).2.2
            simp [Ne.symm hc] at hprefix
    | cons c content =>
        obtain rfl : '"' = c := by
          simp only [List.isPrefixOf, List.cons_append, Bool.and_eq_true, beq_iff_eq] at hprefix
          exact hprefix.2.1
        have hlength : 2 = 1 + (content.length + 1) + 1 := Except.ok.inj h
        omega
  rw [← scanQuoted_append rest h, scan, if_neg (by decide), if_neg hblock, if_pos rfl]

end Lexer

/-- The text of a whole number: a sign if it is negative, and digits. -/
theorem toList_toString_int (n : Int) :
    (toString n).toList = (if n < 0 then ['-'] else []) ++ Nat.toDigits 10 n.natAbs := by
  cases n with
  | ofNat m =>
      have : ¬ Int.ofNat m < 0 := by simp
      rw [if_neg this]
      simp [ToString.toString, Int.repr, Nat.toList_repr]
  | negSucc m =>
      rw [if_pos (Int.negSucc_lt_zero m)]
      simp [ToString.toString, Int.repr, Nat.toList_repr]

theorem isDigit_of_mem_toDigits (n : Nat) : ∀ c ∈ Nat.toDigits 10 n, c.isDigit = true :=
  fun _ hc => Nat.isDigit_of_mem_toDigits (by decide) (by decide) hc

/-- Only zero is written with a zero in front. -/
theorem eq_nil_of_toDigits_eq_zero_cons {m : Nat} {cs : List Char}
    (h : Nat.toDigits 10 m = '0' :: cs) : cs = [] := by
  induction m using Nat.base_induction 10 (by decide) generalizing cs with
  | single m hm =>
      rw [Nat.toDigits_of_lt_base hm] at h
      exact (List.cons.inj h).2.symm
  | digit m k hk hm ih =>
      rw [← Nat.toDigits_append_toDigits (by decide) hm hk] at h
      cases hdigits : Nat.toDigits 10 m with
      | nil => exact absurd hdigits Nat.toDigits_ne_nil
      | cons c tail =>
          rw [hdigits, List.cons_append] at h
          obtain ⟨rfl, -⟩ := List.cons.inj h
          -- then the digits in front are those of zero
          have htail := ih hdigits
          rw [htail] at hdigits
          have hvalue := congrArg (Nat.ofDigitChars 10 · 0) hdigits
          simp only [Nat.ofDigitChars_ten_toDigits] at hvalue
          have hzero : Nat.ofDigitChars 10 ['0'] 0 = 0 := by decide
          omega

namespace Lexer

/-- A number ends where nothing goes on. -/
theorem Boundary.endsNumber {rest : List Char} (h : Boundary rest) : EndsNumber rest := by
  intro c hc
  obtain ⟨hname, hpoint, -⟩ := h c hc
  simp only [isNameContinue, Bool.or_eq_false_iff] at hname
  exact ⟨hname.2, hpoint, hname.1⟩

/-- A character that is neither a minus sign nor a digit does not start a number. -/
theorem ne_of_starts_number {c d : Char} (hc : c = '-' ∨ c.isDigit = true) (hminus : d ≠ '-')
    (hdigit : d.isDigit = false) : c ≠ d := by
  rintro rfl
  rcases hc with rfl | hc
  · exact hminus rfl
  · rw [hdigit] at hc
    cases hc

/-- What starts like a number is scanned as one. -/
theorem scan_eq_scanNumber {c : Char} (hc : c = '-' ∨ c.isDigit = true) (cs : List Char) :
    scan (c :: cs) = scanNumber (c :: cs) := by
  have hpoint : c ≠ '.' := ne_of_starts_number hc (by decide) (by decide)
  have hquote : c ≠ '"' := ne_of_starts_number hc (by decide) (by decide)
  rw [scan, if_neg hpoint, if_neg, if_neg hquote, if_pos]
  · rcases hc with rfl | hc
    · rfl
    · simp [hc]
  · simp [Ne.symm hquote]

/-- A number is read up to its end. -/
theorem scan_number (n : Numeral) {rest : List Char} (hrest : EndsNumber rest) :
    scan (n.chars ++ rest) = .ok (n.token, n.chars.length) := by
  have hnumber := scanNumber_append n hrest
  obtain ⟨c, cs, hcs, hc⟩ := n.chars_eq_cons
  rw [← hnumber, hcs, List.cons_append, scan_eq_scanNumber hc]

/-- The text of a whole number is one. -/
theorem isWhole_toString (n : Int) : IsWhole (toString n).toList := by
  refine ⟨if n < 0 then ['-'] else [], Nat.toDigits 10 n.natAbs, toList_toString_int n, ?_,
    ⟨Nat.toDigits_ne_nil, isDigit_of_mem_toDigits n.natAbs⟩, fun _ => eq_nil_of_toDigits_eq_zero_cons⟩
  split
  · exact .inr ⟨'-', List.mem_singleton_self _, rfl⟩
  · exact .inl rfl

/-- A whole number, as it is written. -/
def intNumeral (n : Int) : Numeral :=
  ⟨(toString n).toList, [], [], isWhole_toString n, .inl rfl, .inl rfl⟩

theorem chars_intNumeral (n : Int) : (intNumeral n).chars = (toString n).toList :=
  List.append_nil _

/-- A whole number is read up to what follows it. -/
theorem scan_int (n : Int) {rest : List Char} (hrest : Boundary rest) :
    scan ((toString n).toList ++ rest) = .ok (.int (toString n), (toString n).toList.length) := by
  have htoken : (intNumeral n).token = .int (toString n) := by
    rw [Numeral.token, chars_intNumeral, String.ofList_toList]
    rfl
  have hscan := scan_number (intNumeral n) hrest.endsNumber
  rwa [htoken, chars_intNumeral] at hscan

end Lexer

/-- What is written as one token: a name, a whole number, a string in quotes or a mark. -/
inductive Word where
  | name (text : String)
  | int (n : Int)
  | string (s : String)
  | mark (p : Punctuator)
deriving DecidableEq, Repr

namespace Word

/-- The token of a word; strings are written by `Escape.encode`. -/
def token : Word → Token
  | name text => .name text
  | int n => .int (toString n)
  | string s => .quoted (String.ofList (Escape.encode s.toList))
  | mark p => .mark p

/-- How a word is written. -/
def text (w : Word) : String := w.token.text

/-- Names must be names to be read as such. -/
def isLexical : Word → Bool
  | name text => Lexer.isName text
  | _ => true

/-- Whether a word ends by itself. -/
def isMark : Word → Bool
  | mark _ => true
  | _ => false

end Word

namespace Lexer

/-- **One word.**  A word is read as its token, if it ends by itself or at a boundary. -/
theorem scan_text {w : Word} (hw : w.isLexical = true) {rest : List Char}
    (hrest : w.isMark = true ∨ Boundary rest) :
    scan (w.text.toList ++ rest) = .ok (w.token, w.text.toList.length) := by
  cases w with
  | name text => exact scan_name hw (hrest.resolve_left nofun)
  | int n => exact scan_int n (hrest.resolve_left nofun)
  | string s =>
      have htext : (Word.string s).text.toList = '"' :: (Escape.encode s.toList ++ ['"']) := by
        simp [Word.text, Word.token, Token.text]
      have hscan := scan_quoted rest (quotedLength_encode s.toList rest 1)
        (hrest.resolve_left nofun)
      rw [htext]
      simpa [Word.token] using hscan
  | mark p => exact scan_mark p rest

/-- A word is not empty. -/
theorem text_ne_nil {w : Word} (hw : w.isLexical = true) : w.text.toList ≠ [] := by
  cases w with
  | name text =>
      intro htext
      have hempty : text.toList = [] := htext
      simp [Word.isLexical, isName, hempty] at hw
  | int n =>
      obtain ⟨c, cs, htext, -⟩ := (intNumeral n).chars_eq_cons
      rw [chars_intNumeral] at htext
      intro hempty
      exact absurd (htext.symm.trans hempty) (by simp)
  | string s => simp [Word.text, Word.token, Token.text]
  | mark p => cases p <;> simp [Word.text, Word.token, Token.text, Punctuator.text]

/-- No token starts with an ignored character or with a comment. -/
theorem not_ignored_of_scan {c : Char} {cs : List Char} {found : Token × Nat}
    (h : scan (c :: cs) = .ok found) : isIgnored c = false ∧ c ≠ '#' := by
  constructor
  · refine Bool.eq_false_iff.mpr fun hignored => ?_
    simp only [isIgnored, Bool.or_eq_true, decide_eq_true_eq] at hignored
    rcases hignored with ((((rfl | rfl) | rfl) | rfl) | rfl) | rfl <;> cases h
  · rintro rfl
    cases h

/-! ## Whole texts -/

/-- A text spells some words: it consists of them in their order, with ignored characters between
them that part words which do not end by themselves. -/
inductive Spells : List Char → List Word → Prop
  | nil : Spells [] []
  | skip {c cs words} : isIgnored c = true → Spells cs words → Spells (c :: cs) words
  | word {w rest words} : w.isLexical = true → (w.isMark = true ∨ Boundary rest) →
      Spells rest words → Spells (w.text.toList ++ rest) (w :: words)

theorem runFrom_of_drop_eq_nil {cs : List Char} (h : cs.drop (ignored false cs) = [])
    (p : Position) : runFrom p cs = ⟨[], .ok (p.after (cs.take (ignored false cs)))⟩ := by
  rw [runFrom.eq_def]
  dsimp only
  split
  · rfl
  · rename_i heq
    rw [h] at heq
    cases heq

theorem runFrom_of_drop_eq_cons {cs rest : List Char} {c : Char}
    (h : cs.drop (ignored false cs) = c :: rest) (p : Position) :
    runFrom p cs =
      match scan (c :: rest) with
      | .error (e, before) =>
        ⟨[], .error ⟨.empty ((p.after (cs.take (ignored false cs))).after
          ((c :: rest).take before)), e⟩⟩
      | .ok (token, length) =>
        let start := p.after (cs.take (ignored false cs))
        let stop := start.after ((c :: rest).take length)
        ⟨⟨⟨start, stop⟩, token⟩ :: (runFrom stop (rest.drop (length - 1))).tokens,
          (runFrom stop (rest.drop (length - 1))).outcome⟩ := by
  rw [runFrom.eq_def]
  dsimp only
  split
  · rename_i heq
    rw [h] at heq
    cases heq
  · rename_i heq
    rw [h] at heq
    cases heq
    rfl

/-- Characters that are skipped before any others only move the place. -/
theorem runFrom_append (skipped : List Char) {rest : List Char}
    (h : ignored false (skipped ++ rest) = skipped.length + ignored false rest) (p : Position) :
    runFrom p (skipped ++ rest) = runFrom (p.after skipped) rest := by
  have hdrop : (skipped ++ rest).drop (ignored false (skipped ++ rest)) =
      rest.drop (ignored false rest) := by
    rw [h, ← List.drop_drop, List.drop_left]
  have hafter : p.after ((skipped ++ rest).take (ignored false (skipped ++ rest))) =
      (p.after skipped).after (rest.take (ignored false rest)) := by
    rw [h, List.take_length_add_append, Position.after_append]
  cases hrest : rest.drop (ignored false rest) with
  | nil =>
      rw [runFrom_of_drop_eq_nil (hdrop.trans hrest), runFrom_of_drop_eq_nil hrest, hafter]
  | cons c following =>
      rw [runFrom_of_drop_eq_cons (hdrop.trans hrest), runFrom_of_drop_eq_cons hrest, hafter]

/-- An ignored character is skipped. -/
theorem ignored_cons {c : Char} (hc : isIgnored c = true) (cs : List Char) :
    ignored false (c :: cs) = ignored false cs + 1 := by
  have hhash : c ≠ '#' := by
    rintro rfl
    cases hc
  rw [ignored, if_neg Bool.false_ne_true, if_neg hhash, if_pos hc]

theorem runFrom_skip {c : Char} (hc : isIgnored c = true) (p : Position) (cs : List Char) :
    runFrom p (c :: cs) = runFrom (p.next c) cs :=
  runFrom_append [c] ((ignored_cons hc cs).trans (Nat.add_comm _ _)) p

/-- A text that is scanned as a token is read as that token, and what follows from its end on. -/
theorem runFrom_token {text rest : List Char} {token : Token} (htext : text ≠ [])
    (hscan : scan (text ++ rest) = .ok (token, text.length)) (p : Position) :
    runFrom p (text ++ rest) =
      ⟨⟨⟨p, p.after text⟩, token⟩ :: (runFrom (p.after text) rest).tokens,
        (runFrom (p.after text) rest).outcome⟩ := by
  cases text with
  | nil => exact absurd rfl htext
  | cons c cs =>
      obtain ⟨hignored, hhash⟩ := not_ignored_of_scan hscan
      have hskip : ignored false (c :: cs ++ rest) = 0 := by
        simp [ignored, hhash, hignored]
      have hdrop : (c :: cs ++ rest).drop (ignored false (c :: cs ++ rest)) =
          c :: (cs ++ rest) := by
        rw [hskip, List.drop_zero, List.cons_append]
      have htake : (c :: (cs ++ rest)).take (c :: cs).length = c :: cs := by
        rw [← List.cons_append, List.take_left]
      rw [runFrom_of_drop_eq_cons hdrop, ← List.cons_append, hscan, hskip]
      dsimp only
      rw [List.take_zero, Position.after_nil, List.cons_append, htake, List.length_cons,
        Nat.add_sub_cancel, List.drop_left]

/-- **Written texts are read back.**  A text that spells some words is read as their tokens. -/
theorem runFrom_spells {cs : List Char} {words : List Word} (h : Spells cs words) (p : Position) :
    (runFrom p cs).tokens.map Located.item = words.map Word.token ∧
      ∃ q, (runFrom p cs).outcome = .ok q := by
  induction h generalizing p with
  | nil =>
      rw [runFrom_of_drop_eq_nil rfl]
      exact ⟨rfl, p, rfl⟩
  | skip hc _ ih =>
      rw [runFrom_skip hc]
      exact ih (p.next _)
  | word hw hrest _ ih =>
      rw [runFrom_token (text_ne_nil hw) (scan_text hw hrest)]
      obtain ⟨htokens, q, hq⟩ := ih (p.after _)
      exact ⟨by rw [List.map_cons, List.map_cons, htokens], q, hq⟩

/-- Words with spaces between them are spelled by their text. -/
theorem spells_spaced {words : List Word} (h : ∀ w ∈ words, w.isLexical = true) :
    Spells (" ".intercalate (words.map Word.text)).toList words := by
  induction words with
  | nil => exact .nil
  | cons w words ih =>
      have hw : w.isLexical = true := h w List.mem_cons_self
      have hwords := ih fun v hv => h v (List.mem_cons_of_mem _ hv)
      cases words with
      | nil =>
          have hspells := Spells.word hw (.inr boundary_nil) .nil
          simpa using hspells
      | cons v words =>
          have hspace := Spells.skip (c := ' ') (by decide) hwords
          have hspells := Spells.word hw (.inr (boundary_cons (by decide) _)) hspace
          simpa using hspells

end Lexer

end GraphQL
