import Mathlib
import GraphQL.Proofs.Respacing

/-!
# What numbers and strings stand for

Every token of a number or a string has a value. What stands between quotes is read twice, first to
find the closing quote and then to find the string that is meant; both readings cut it into the same
pieces, each of which stands for one character. A whole number of 32 bits is that number, and every
other number is the one of double precision that is nearest to it.
-/

namespace GraphQL

open Lexer

/-! ## Strings -/

namespace Escape

/-- The escape sequences of two characters: what stands behind the backslash, and what is meant. -/
def shortEscapes : List (Char × Char) :=
  [('b', '\x08'), ('f', '\x0c'), ('n', '\n'), ('r', '\r'), ('t', '\t'), ('\\', '\\'), ('/', '/'),
    ('"', '"')]

/-- A hexadecimal digit, in a small or a capital letter, and its value. -/
def IsHexDigit (c : Char) (n : Nat) : Prop :=
  n < 16 ∧ (c = n.digitChar ∨ c = n.digitChar.toUpper)

/-- What is written between quotes for one character: itself, or an escape sequence. -/
inductive StandsFor : List Char → Char → Prop
  | itself {c : Char} : c ≠ '"' → c ≠ '\\' → isLineEnd c = false → isSourceChar c = true →
      StandsFor [c] c
  | short {x c : Char} : (x, c) ∈ shortEscapes → StandsFor ['\\', x] c
  | long {p q r s c : Char} {i j k l : Nat} : IsHexDigit p i → IsHexDigit q j → IsHexDigit r k →
      IsHexDigit s l → c.toNat = ((i * 16 + j) * 16 + k) * 16 + l →
      StandsFor ['\\', 'u', p, q, r, s] c

theorem short?_eq_some_iff {x c : Char} : short? x = some c ↔ (x, c) ∈ shortEscapes := by
  unfold short?
  split <;> simp_all [shortEscapes, eq_comm]

theorem digit?_eq_some_iff {c : Char} {n : Nat} : Hex.digit? c = some n ↔ IsHexDigit c n := by
  constructor
  · intro h
    have hdigits : ∀ k ≤ 9, Char.ofNat ('0'.toNat + k) = k.digitChar := by decide
    have hsmall : ∀ k ≤ 5, Char.ofNat ('a'.toNat + k) = (k + 10).digitChar := by decide
    have hcapital : ∀ k ≤ 5, Char.ofNat ('A'.toNat + k) = (k + 10).digitChar.toUpper := by decide
    unfold Hex.digit? at h
    split at h
    · rename_i hc
      cases h
      obtain ⟨hchar, hle⟩ := eq_ofNat_add (Char.isDigit_iff_toNat.mp hc)
      exact ⟨Nat.lt_of_le_of_lt hle (by decide), .inl (hchar.trans (hdigits _ hle))⟩
    split at h
    · rename_i hc
      cases h
      obtain ⟨hchar, hle⟩ := eq_ofNat_add hc
      exact ⟨Nat.add_lt_of_lt_sub (Nat.lt_of_le_of_lt hle (by decide)),
        .inl (hchar.trans (hsmall _ hle))⟩
    split at h
    · rename_i hc
      cases h
      obtain ⟨hchar, hle⟩ := eq_ofNat_add hc
      exact ⟨Nat.add_lt_of_lt_sub (Nat.lt_of_le_of_lt hle (by decide)),
        .inr (hchar.trans (hcapital _ hle))⟩
    · cases h
  · rintro ⟨hn, hc⟩
    have hdigits : ∀ n < 16, Hex.digit? n.digitChar = some n ∧
        Hex.digit? n.digitChar.toUpper = some n := by
      decide +kernel
    rcases hc with rfl | rfl
    · exact (hdigits n hn).1
    · exact (hdigits n hn).2

/-- A number is the code of a character, or of none if it is a surrogate or too great. -/
theorem char?_eq_some_iff {n : Nat} {c : Char} : Hex.char? n = some c ↔ c.toNat = n := by
  unfold Hex.char?
  split
  · rename_i hvalid
    rw [Option.some.injEq, ← Char.toNat_inj, Char.toNat_ofNat, if_pos hvalid, eq_comm]
  · rename_i hvalid
    refine ⟨nofun, ?_⟩
    rintro rfl
    exact absurd c.valid hvalid

theorem long?_eq_some_iff {p q r s c : Char} : long? p q r s = some c ↔
    ∃ i j k l, IsHexDigit p i ∧ IsHexDigit q j ∧ IsHexDigit r k ∧ IsHexDigit s l ∧
      c.toNat = ((i * 16 + j) * 16 + k) * 16 + l := by
  simp only [long?, Hex.four?, bind, pure, Option.bind_eq_some_iff, Option.some.injEq,
    digit?_eq_some_iff, char?_eq_some_iff]
  constructor
  · rintro ⟨n, ⟨i, hi, j, hj, k, hk, l, hl, rfl⟩, hc⟩
    exact ⟨i, j, k, l, hi, hj, hk, hl, hc⟩
  · rintro ⟨i, j, k, l, hi, hj, hk, hl, hc⟩
    exact ⟨_, ⟨i, hi, j, hj, k, hk, l, hl, rfl⟩, hc⟩

/-- A piece of what stands between quotes, and the character it stands for. -/
structure Piece where
  written : List Char
  meant : Char
  stands : StandsFor written meant

/-- What is meant by pieces are the characters they stand for, in their order. -/
theorem decode?_pieces (pieces : List Piece) :
    decode? (pieces.flatMap Piece.written) = some (pieces.map Piece.meant) := by
  induction pieces with
  | nil => rfl
  | cons piece pieces ih =>
      obtain ⟨written, meant, stands⟩ := piece
      rw [List.flatMap_cons, List.map_cons]
      cases stands with
      | itself _ hbackslash _ _ => simp [decode?, hbackslash, ih]
      | @short x _ hmem =>
          have hvalue : short? x = some meant := short?_eq_some_iff.mpr hmem
          have hu : x ≠ 'u' := by
            rintro rfl
            cases hvalue
          rw [List.cons_append, List.cons_append, List.nil_append, decode?]
          · simp [hvalue, ih]
          · intro _ _ _ _ _ hx
            exact absurd hx hu
      | long hp hq hr hs hc =>
          have hvalue := long?_eq_some_iff.mpr ⟨_, _, _, _, hp, hq, hr, hs, hc⟩
          simp [decode?, hvalue, ih]

end Escape

namespace Lexer

open Escape

/-- Pieces stand before a closing quote that is the last of `stop` characters, of which `read` stand
before the pieces. -/
def PiecesUpTo (read stop : Nat) (cs : List Char) : Prop :=
  ∃ (pieces : List Piece) (rest : List Char), cs = pieces.flatMap Piece.written ++ '"' :: rest ∧
    stop = read + (pieces.flatMap Piece.written).length + 1

theorem PiecesUpTo.cons {read stop : Nat} {cs : List Char} (piece : Piece)
    (h : PiecesUpTo (read + piece.written.length) stop cs) :
    PiecesUpTo read stop (piece.written ++ cs) := by
  obtain ⟨pieces, rest, rfl, rfl⟩ := h
  refine ⟨piece :: pieces, rest, by simp, ?_⟩
  rw [List.flatMap_cons, List.length_append]
  omega

/-- What is read before the closing quote of a string are pieces. -/
theorem piecesUpTo_of_quotedLength {read stop : Nat} {cs : List Char}
    (h : quotedLength read cs = .ok stop) : PiecesUpTo read stop cs := by
  fun_induction quotedLength read cs with
  | case2 read rest =>
      cases h
      exact ⟨[], rest, rfl, rfl⟩
  | case4 read a b c d cs hdigits e hvalue ih =>
      obtain ⟨i, j, k, l, ha, hb, hc, hd, he⟩ := long?_eq_some_iff.mp hvalue
      exact .cons ⟨['\\', 'u', a, b, c, d], e, .long ha hb hc hd he⟩ (ih h)
  | case8 read c cs _ _ e hvalue ih =>
      exact .cons ⟨['\\', c], e, .short (short?_eq_some_iff.mp hvalue)⟩ (ih h)
  | case11 read c cs hquote hlast _ _ hescape hline hsource ih =>
      have hbackslash : c ≠ '\\' := by
        intro hc
        cases cs with
        | nil => exact hlast hc rfl
        | cons d ds => exact hescape d ds hc rfl
      exact .cons ⟨[c], c, .itself hquote hbackslash (by simpa using hline) hsource⟩ (ih h)
  | _ => cases h

/-- The content of a quoted string is cut into pieces. -/
theorem pieces_of_lexical {content : String} (h : Lexical (.quoted content)) :
    ∃ pieces : List Piece, content.toList = pieces.flatMap Piece.written := by
  obtain ⟨pieces, rest, hcontent, hlength⟩ := piecesUpTo_of_quotedLength (h [])
  exact ⟨pieces, List.append_inj_left hcontent (by omega)⟩

end Lexer

/-! ## Numbers -/

/-- The whole number that digits stand for, perhaps behind a minus sign. -/
def wholeValue : List Char → Int
  | '-' :: ds => -(Nat.ofDigitChars 10 ds 0 : Int)
  | ds => Nat.ofDigitChars 10 ds 0

namespace Decimal

/-- A sign is split off. -/
theorem splitSign_append {sign ds : List Char} (hsign : IsSign ['+', '-'] sign) (hds : IsDigits ds)
    (rest : List Char) :
    splitSign (sign ++ (ds ++ rest)) = (decide (sign = ['-']), ds ++ rest) := by
  rcases hsign with rfl | ⟨s, hs, rfl⟩
  · have hfirst : ∀ c ∈ (ds ++ rest).head?, c.isDigit = true := hds.head_isDigit
    rw [List.nil_append]
    unfold splitSign
    split
    · rename_i hcs
      exact absurd (hfirst '-' (by rw [hcs]; rfl)) (by decide)
    · rename_i hcs
      exact absurd (hfirst '+' (by rw [hcs]; rfl)) (by decide)
    · rfl
  · rcases List.mem_pair.mp hs with rfl | rfl <;> rfl

/-- The digits in front of other characters are dropped. -/
theorem dropWhile_isDigit_append {ds rest : List Char} (hds : IsDigits ds) (hrest : NoDigit rest) :
    (ds ++ rest).dropWhile Char.isDigit = rest := by
  have hall := List.takeWhile_append_dropWhile (p := Char.isDigit) (l := ds ++ rest)
  rwa [takeWhile_append_boundary hds.isDigit hrest, List.append_cancel_left_eq] at hall

/-- The exponent of a number is read. -/
theorem exists_readExponent? {exponent : List Char} (h : IsExponent exponent) :
    ∃ e, readExponent? exponent = some e := by
  rcases h with rfl | ⟨letter, sign, ds, rfl, hletter, hsign, hds⟩
  · exact ⟨0, rfl⟩
  · have hsplit := splitSign_append hsign hds []
    rw [List.append_nil] at hsplit
    have hne : ds.isEmpty = false := List.isEmpty_eq_false_iff.mpr hds.ne_nil
    have hall : ds.all Char.isDigit = true := List.all_eq_true.mpr hds.isDigit
    have hletter : (decide (letter = 'e') || decide (letter = 'E')) = true := hletter
    simp [readExponent?, hsplit, hne, hall, hletter]

/-- **Numbers are taken apart.**  The text of a number is taken apart into its sign, its digits and
its exponent. -/
theorem read?_append {sign ds fraction exponent : List Char} (hsign : IsSign ['-'] sign)
    (hds : IsDigits ds) (hfraction : IsFraction fraction) (hexponent : IsExponent exponent) :
    Numeral.read? (sign ++ (ds ++ (fraction ++ exponent))) =
      (readExponent? exponent).map fun e => ⟨decide (sign = ['-']), ds, fraction.drop 1, e⟩ := by
  have hsigns : IsSign ['+', '-'] sign :=
    hsign.imp_right fun ⟨s, hs, h⟩ => ⟨s, List.mem_cons_of_mem _ hs, h⟩
  obtain ⟨hdigit, hpoint⟩ := hexponent.head_append endsNumber_nil
  rw [List.append_nil] at hdigit hpoint
  have hne : ds.isEmpty = false := List.isEmpty_eq_false_iff.mpr hds.ne_nil
  have hmore := hfraction.noDigit_append hdigit
  simp only [Numeral.read?, splitSign_append hsigns hds,
    takeWhile_append_boundary hds.isDigit hmore, dropWhile_isDigit_append hds hmore, hne,
    Bool.false_and, Bool.false_eq_true, if_false]
  rcases hfraction with rfl | ⟨fs, rfl, hfs⟩
  · rw [List.nil_append]
    split
    · exact absurd rfl hpoint
    · rfl
  · simp only [List.cons_append, takeWhile_append_boundary hfs.isDigit hdigit,
      dropWhile_isDigit_append hfs hdigit, List.drop_succ_cons, List.drop_zero]

end Decimal

theorem wholeValue_append {sign ds : List Char} (hsign : IsSign ['-'] sign) (hds : IsDigits ds) :
    wholeValue (sign ++ ds) =
      if sign = ['-'] then -(Nat.ofDigitChars 10 ds 0 : Int) else Nat.ofDigitChars 10 ds 0 := by
  rcases hsign with rfl | ⟨s, hs, rfl⟩
  · rw [List.nil_append, if_neg (by simp), wholeValue]
    rintro rest rfl
    exact absurd (hds.isDigit '-' List.mem_cons_self) (by decide)
  · obtain rfl := List.mem_singleton.mp hs
    rfl

/-- A whole number is itself if it has 32 bits, and a number like any other if it has not. -/
theorem ofIntText?_of_isWhole {cs : List Char} (h : IsWhole cs) :
    Value.ofIntText? (String.ofList cs) =
      if -2 ^ 31 ≤ wholeValue cs ∧ wholeValue cs ≤ 2 ^ 31 - 1 then some (.int (wholeValue cs))
      else (Binary64.ofText? cs).map .float := by
  obtain ⟨sign, ds, rfl, hsign, hds, -⟩ := h
  have hread := Decimal.read?_append hsign hds (.inl rfl) (.inl rfl)
  simp only [List.append_nil, Decimal.readExponent?, Option.map_some] at hread
  have hdigits : Decimal.natOfDigits ds = Nat.ofDigitChars 10 ds 0 := rfl
  have hleast : (-2 ^ 31 : Int) = -2147483648 := by norm_num
  have hgreatest : (2 ^ 31 - 1 : Int) = 2147483647 := by norm_num
  rw [wholeValue_append hsign hds, Value.ofIntText?, Binary64.ofText?, String.toList_ofList, hread,
    hleast, hgreatest]
  simp only [bind, Option.bind, Decimal.Numeral.decimal, List.drop_nil, List.append_nil, hdigits,
    decide_eq_true_eq, Option.map_some]
  split <;> rfl

/-- The text of a number stands for one of double precision. -/
theorem exists_ofText? (n : Lexer.Numeral) : ∃ x, Binary64.ofText? n.chars = some x := by
  obtain ⟨sign, ds, hwhole, hsign, hds, -⟩ := n.isWhole
  obtain ⟨e, he⟩ := Decimal.exists_readExponent? n.isExponent
  have hread := Decimal.read?_append hsign hds n.isFraction n.isExponent
  rw [he, Option.map_some] at hread
  rw [Lexer.Numeral.chars, hwhole, List.append_assoc, Binary64.ofText?, hread]
  exact ⟨_, rfl⟩

/-! ## All tokens -/

/-- A quoted string stands for the characters of its pieces. -/
theorem ofToken?_quoted_of_lexical {content : String} (h : Lexical (.quoted content)) :
    ∃ pieces : List Escape.Piece, content.toList = pieces.flatMap Escape.Piece.written ∧
      Value.ofToken? (.quoted content) =
        some (.string (String.ofList (pieces.map Escape.Piece.meant))) := by
  obtain ⟨pieces, hpieces⟩ := pieces_of_lexical h
  refine ⟨pieces, hpieces, ?_⟩
  rw [Value.ofToken?, hpieces, Escape.decode?_pieces]
  rfl

/-- A token of a whole number has nothing but a whole number in it. -/
theorem ofToken?_int_of_lexical {text : String} (h : Lexical (.int text)) :
    IsWhole text.toList ∧ ∃ x, Binary64.ofText? text.toList = some x ∧
      Value.ofToken? (.int text) =
        if -2 ^ 31 ≤ wholeValue text.toList ∧ wholeValue text.toList ≤ 2 ^ 31 - 1 then
          some (.int (wholeValue text.toList))
        else some (.float x) := by
  obtain ⟨n, hn⟩ := h
  obtain ⟨x, hx⟩ := exists_ofText? n
  unfold Lexer.Numeral.token at hn
  split at hn
  · rename_i hempty
    cases hn
    have hwhole : IsWhole n.chars := by
      rw [Lexer.Numeral.chars, hempty, List.append_nil]
      exact n.isWhole
    rw [String.toList_ofList, Value.ofToken?, ofIntText?_of_isWhole hwhole, hx]
    exact ⟨hwhole, x, rfl, rfl⟩
  · cases hn

theorem ofToken?_float_of_lexical {text : String} (h : Lexical (.float text)) :
    ∃ x, Value.ofToken? (.float text) = some (.float x) ∧
      Binary64.ofText? text.toList = some x := by
  obtain ⟨n, hn⟩ := h
  obtain ⟨x, hx⟩ := exists_ofText? n
  unfold Lexer.Numeral.token at hn
  split at hn
  · cases hn
  · cases hn
    rw [Value.ofToken?, String.toList_ofList, hx]
    exact ⟨x, rfl, rfl⟩

/-- The tokens of numbers and strings. -/
def Token.isScalar : Token → Bool
  | .int _ | .float _ | .quoted _ | .block _ => true
  | _ => false

/-- No number and no string is without a meaning. -/
theorem exists_ofToken? {token : Token} (h : Lexical token) (hscalar : token.isScalar = true) :
    ∃ v, Value.ofToken? token = some v := by
  cases token with
  | int text =>
      obtain ⟨-, x, -, hvalue⟩ := ofToken?_int_of_lexical h
      rw [hvalue]
      split <;> exact ⟨_, rfl⟩
  | float text =>
      obtain ⟨x, hvalue, -⟩ := ofToken?_float_of_lexical h
      exact ⟨_, hvalue⟩
  | quoted content =>
      obtain ⟨pieces, -, hvalue⟩ := ofToken?_quoted_of_lexical h
      exact ⟨_, hvalue⟩
  | block content => exact ⟨_, rfl⟩
  | _ => cases hscalar

/-- A token that stands for a value is read as that value. -/
theorem scalar_eq_ok {c : Cursor} {token : Located Token} {rest : List (Located Token)} {v : Value}
    (hahead : c.ahead = token :: rest) (hvalue : Value.ofToken? token.item = some v) :
    Parser.scalar c = .ok v ⟨rest, c.finish, some token.span.stop⟩ := by
  simp only [Parser.scalar, Parser.next, bind, EStateM.bind, hahead, hvalue]
  rfl

/-- What the numbers and strings among some tokens stand for. -/
structure ResolvesScalars (tokens : List (Located Token)) : Prop where
  /-- What stands between quotes is cut into pieces, and its value has one character for each. -/
  quoted : ∀ span content, ⟨span, .quoted content⟩ ∈ tokens → ∃ pieces : List Escape.Piece,
    content.toList = pieces.flatMap Escape.Piece.written ∧
      Value.ofToken? (.quoted content) =
        some (.string (String.ofList (pieces.map Escape.Piece.meant)))
  /-- A whole number is itself exactly if it has 32 bits, and else a number like any other. -/
  int : ∀ span text, ⟨span, .int text⟩ ∈ tokens → IsWhole text.toList ∧
    (Value.ofToken? (.int text) = some (.int (wholeValue text.toList)) ↔
      -2 ^ 31 ≤ wholeValue text.toList ∧ wholeValue text.toList ≤ 2 ^ 31 - 1) ∧
    (¬ (-2 ^ 31 ≤ wholeValue text.toList ∧ wholeValue text.toList ≤ 2 ^ 31 - 1) →
      ∃ x, Value.ofToken? (.int text) = some (.float x) ∧ Binary64.ofText? text.toList = some x)
  float : ∀ span text, ⟨span, .float text⟩ ∈ tokens →
    ∃ x, Value.ofToken? (.float text) = some (.float x) ∧ Binary64.ofText? text.toList = some x
  /-- No literal is without a meaning, wherever it is read. -/
  scalar : ∀ token ∈ tokens, token.item.isScalar = true →
    ∃ v, Value.ofToken? token.item = some v ∧ ∀ c rest, c.ahead = token :: rest →
      Parser.scalar c = .ok v ⟨rest, c.finish, some token.span.stop⟩

/-- **Scalars.**  The numbers and strings of a text all have their values. -/
theorem Lexer.run_resolvesScalars (source : String) : ResolvesScalars (run source).tokens where
  quoted _ _ hmem := ofToken?_quoted_of_lexical (lexical_of_mem_runFrom _ hmem)
  int span text hmem := by
    obtain ⟨hwhole, x, hx, hvalue⟩ := ofToken?_int_of_lexical (lexical_of_mem_runFrom _ hmem)
    refine ⟨hwhole, ⟨fun hint => ?_, fun hrange => hvalue.trans (if_pos hrange)⟩,
      fun hrange => ⟨x, hvalue.trans (if_neg hrange), hx⟩⟩
    by_contra hrange
    rw [hvalue, if_neg hrange] at hint
    cases hint
  float _ _ hmem := ofToken?_float_of_lexical (lexical_of_mem_runFrom _ hmem)
  scalar token hmem hscalar := by
    obtain ⟨v, hv⟩ := exists_ofToken? (lexical_of_mem_runFrom token hmem) hscalar
    exact ⟨v, hv, fun c rest hahead => scalar_eq_ok hahead hv⟩

end GraphQL
