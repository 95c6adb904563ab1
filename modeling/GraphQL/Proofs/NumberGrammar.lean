import GraphQL.Proofs.Lexing
import Mathlib.Computability.RegularExpressions

/-!
# The grammar of numbers

Numbers are given by a regular expression. The scanner never goes back: behind a point or the letter
of an exponent it insists on digits. Nevertheless it reads the longest beginning of a text that
matches the expression, or nothing. For a match that is read is followed by a character that no
number goes on with, so there is no longer one; and a match that is followed by such a character is
read, so where the scanner fails there is none.
-/

namespace GraphQL.Lexer

/-! ## Patterns -/

namespace Pattern

/-- One of some characters. -/
def oneOf (cs : List Char) : RegularExpression Char :=
  (cs.map .char).foldr (· + ·) 0

/-- Something that may be left out. -/
def perhaps (P : RegularExpression Char) : RegularExpression Char :=
  1 + P

def digit : RegularExpression Char := oneOf "0123456789".toList

/-- One digit or more: `[0-9]+`. -/
def digits : RegularExpression Char := digit * digit.star

/-- The whole part of a number: `-?(0|[1-9][0-9]*)`. -/
def whole : RegularExpression Char :=
  perhaps (.char '-') * (.char '0' + oneOf "123456789".toList * digit.star)

/-- The fraction of a number: `\.[0-9]+`. -/
def fraction : RegularExpression Char := .char '.' * digits

/-- The exponent of a number: `[eE][+-]?[0-9]+`. -/
def exponent : RegularExpression Char :=
  oneOf ['e', 'E'] * (perhaps (oneOf ['+', '-']) * digits)

/-- A number: a whole part, perhaps a fraction, and perhaps an exponent. -/
def number : RegularExpression Char := whole * (perhaps fraction * perhaps exponent)

variable {cs s : List Char} {P Q : RegularExpression Char}

theorem mem_char {c : Char} : s ∈ (RegularExpression.char c).matches' ↔ s = [c] := by
  rw [RegularExpression.matches'_char]
  exact Set.mem_singleton_iff

theorem mem_oneOf : s ∈ (oneOf cs).matches' ↔ ∃ c ∈ cs, s = [c] := by
  induction cs with
  | nil => simp [oneOf]
  | cons c cs ih =>
      have hcons : oneOf (c :: cs) = .char c + oneOf cs := rfl
      rw [hcons, RegularExpression.matches'_add, Language.mem_add, mem_char, ih]
      simp

theorem mem_perhaps : s ∈ (perhaps P).matches' ↔ s = [] ∨ s ∈ P.matches' := by
  rw [perhaps, RegularExpression.matches'_add, Language.mem_add,
    RegularExpression.matches'_epsilon, Language.mem_one]

theorem mem_mul : s ∈ (P * Q).matches' ↔
    ∃ first ∈ P.matches', ∃ second ∈ Q.matches', s = first ++ second := by
  rw [RegularExpression.matches'_mul, Language.mem_mul]
  simp only [eq_comm]

/-- Any number of the characters. -/
theorem mem_star_oneOf : s ∈ (oneOf cs).star.matches' ↔ ∀ c ∈ s, c ∈ cs := by
  rw [RegularExpression.matches'_star, Language.mem_kstar]
  constructor
  · rintro ⟨words, rfl, hwords⟩ c hc
    obtain ⟨word, hword, hc⟩ := List.mem_flatten.mp hc
    obtain ⟨d, hd, rfl⟩ := mem_oneOf.mp (hwords word hword)
    exact List.mem_singleton.mp hc ▸ hd
  · intro h
    refine ⟨s.map ([·]), (List.flatMap_singleton' s).symm, List.forall_mem_map.mpr fun c hc => ?_⟩
    exact mem_oneOf.mpr ⟨c, h c hc, rfl⟩

/-! ## Parts of numbers match their patterns -/

theorem isDigit_iff {c : Char} : c.isDigit = true ↔ c ∈ "0123456789".toList := by
  constructor
  · intro h
    have hdigits : ∀ k ≤ 9, Char.ofNat ('0'.toNat + k) ∈ "0123456789".toList := by decide
    obtain ⟨hc, hle⟩ := eq_ofNat_add (Char.isDigit_iff_toNat.mp h)
    rw [hc]
    exact hdigits _ hle
  · have hdigits : "0123456789".toList.all Char.isDigit = true := by decide
    exact List.all_eq_true.mp hdigits c

theorem mem_digits : s ∈ digits.matches' ↔ IsDigits s := by
  rw [digits, digit, mem_mul]
  constructor
  · rintro ⟨_, hfirst, more, hmore, rfl⟩
    obtain ⟨d, hd, rfl⟩ := mem_oneOf.mp hfirst
    refine ⟨by simp, List.forall_mem_cons.mpr ⟨isDigit_iff.mpr hd, fun c hc => ?_⟩⟩
    exact isDigit_iff.mpr (mem_star_oneOf.mp hmore c hc)
  · rintro ⟨hne, hall⟩
    cases s with
    | nil => exact absurd rfl hne
    | cons d ds =>
        obtain ⟨hd, hds⟩ := List.forall_mem_cons.mp hall
        exact ⟨[d], mem_oneOf.mpr ⟨d, isDigit_iff.mp hd, rfl⟩, ds,
          mem_star_oneOf.mpr fun c hc => isDigit_iff.mp (hds c hc), rfl⟩

theorem mem_perhaps_oneOf : s ∈ (perhaps (oneOf cs)).matches' ↔ IsSign cs s := by
  rw [mem_perhaps, mem_oneOf, IsSign]

/-- Digits without a zero in front that is not alone. -/
theorem mem_zero_or_nonzero :
    s ∈ (.char '0' + oneOf "123456789".toList * digit.star : RegularExpression Char).matches' ↔
      IsDigits s ∧ ∀ others, s = '0' :: others → others = [] := by
  have hdigits : "0123456789".toList = '0' :: "123456789".toList := by decide
  rw [RegularExpression.matches'_add, Language.mem_add, mem_char, mem_mul]
  constructor
  · rintro (rfl | ⟨_, hfirst, more, hmore, rfl⟩)
    · exact ⟨⟨by simp, by simp⟩, by simp⟩
    · obtain ⟨d, hd, rfl⟩ := mem_oneOf.mp hfirst
      have hdigit : d ∈ "0123456789".toList := hdigits ▸ List.mem_cons_of_mem _ hd
      have hmem : [d] ++ more ∈ digits.matches' :=
        mem_mul.mpr ⟨[d], mem_oneOf.mpr ⟨d, hdigit, rfl⟩, more, hmore, rfl⟩
      refine ⟨mem_digits.mp hmem, fun others hzero => ?_⟩
      obtain ⟨rfl, -⟩ := List.cons.inj hzero
      exact absurd hd (by decide)
  · rintro ⟨⟨hne, hall⟩, hzero⟩
    cases s with
    | nil => exact absurd rfl hne
    | cons d ds =>
        obtain ⟨hd, hds⟩ := List.forall_mem_cons.mp hall
        rw [isDigit_iff, hdigits] at hd
        rcases List.mem_cons.mp hd with rfl | hd
        · rw [hzero ds rfl]
          exact .inl rfl
        · exact .inr ⟨[d], mem_oneOf.mpr ⟨d, hd, rfl⟩, ds,
            mem_star_oneOf.mpr fun c hc => isDigit_iff.mp (hds c hc), rfl⟩

theorem mem_whole : s ∈ whole.matches' ↔ IsWhole s := by
  have hsign {sign : List Char} : sign ∈ (perhaps (.char '-')).matches' ↔ IsSign ['-'] sign := by
    rw [mem_perhaps, mem_char, IsSign]
    simp
  rw [whole, mem_mul, IsWhole]
  constructor
  · rintro ⟨sign, hminus, ds, hds, rfl⟩
    obtain ⟨hdigits, hzero⟩ := mem_zero_or_nonzero.mp hds
    exact ⟨sign, ds, rfl, hsign.mp hminus, hdigits, hzero⟩
  · rintro ⟨sign, ds, rfl, hminus, hdigits, hzero⟩
    exact ⟨sign, hsign.mpr hminus, ds, mem_zero_or_nonzero.mpr ⟨hdigits, hzero⟩, rfl⟩

theorem mem_perhaps_fraction : s ∈ (perhaps fraction).matches' ↔ IsFraction s := by
  rw [mem_perhaps, fraction, mem_mul, IsFraction]
  refine or_congr_right ⟨?_, ?_⟩
  · rintro ⟨_, hpoint, ds, hds, rfl⟩
    exact ⟨ds, by rw [mem_char.mp hpoint]; rfl, mem_digits.mp hds⟩
  · rintro ⟨ds, rfl, hds⟩
    exact ⟨['.'], mem_char.mpr rfl, ds, mem_digits.mpr hds, rfl⟩

theorem mem_perhaps_exponent : s ∈ (perhaps exponent).matches' ↔ IsExponent s := by
  rw [mem_perhaps, exponent, mem_mul, IsExponent]
  refine or_congr_right ⟨?_, ?_⟩
  · rintro ⟨_, hfirst, _, hmore, rfl⟩
    obtain ⟨letter, hletter, rfl⟩ := mem_oneOf.mp hfirst
    obtain ⟨sign, hsign, ds, hds, rfl⟩ := mem_mul.mp hmore
    exact ⟨letter, sign, ds, rfl, by simpa [isExponentLetter] using hletter,
      mem_perhaps_oneOf.mp hsign, mem_digits.mp hds⟩
  · rintro ⟨letter, sign, ds, rfl, hletter, hsign, hds⟩
    refine ⟨[letter], mem_oneOf.mpr ⟨letter, ?_, rfl⟩, sign ++ ds, ?_, rfl⟩
    · simpa [isExponentLetter] using hletter
    · exact mem_mul.mpr ⟨sign, mem_perhaps_oneOf.mpr hsign, ds, mem_digits.mpr hds, rfl⟩

/-- **Patterns.**  The texts of numbers are those that match. -/
theorem mem_number : s ∈ number.matches' ↔ ∃ n : Numeral, n.chars = s := by
  rw [number, mem_mul]
  constructor
  · rintro ⟨w, hw, more, hmore, rfl⟩
    obtain ⟨f, hf, e, he, rfl⟩ := mem_mul.mp hmore
    exact ⟨⟨w, f, e, mem_whole.mp hw, mem_perhaps_fraction.mp hf, mem_perhaps_exponent.mp he⟩, rfl⟩
  · rintro ⟨n, rfl⟩
    exact ⟨n.whole, mem_whole.mpr n.isWhole, n.fraction ++ n.exponent,
      mem_mul.mpr ⟨n.fraction, mem_perhaps_fraction.mpr n.isFraction, n.exponent,
        mem_perhaps_exponent.mpr n.isExponent, rfl⟩, rfl⟩

end Pattern

/-! ## The longest match -/

/-- A text starts with a number: the longest beginning that matches, which is followed by neither a
digit, nor a point, nor a character that a name may start with. -/
structure StartsWithNumber (text m rest : List Char) : Prop where
  split : text = m ++ rest
  mem : m ∈ Pattern.number.matches'
  longest : ∀ m', m' <+: text → m' ∈ Pattern.number.matches' → m'.length ≤ m.length
  ends : EndsNumber rest

/-- The token of a match: a whole number, or one with a fraction or an exponent. -/
inductive NumberToken : List Char → Token → Prop
  | int {w : List Char} : w ∈ Pattern.whole.matches' → NumberToken w (.int (String.ofList w))
  | float {w f e : List Char} : w ∈ Pattern.whole.matches' →
      f ∈ (Pattern.perhaps Pattern.fraction).matches' →
      e ∈ (Pattern.perhaps Pattern.exponent).matches' → f ≠ [] ∨ e ≠ [] →
      NumberToken (w ++ (f ++ e)) (.float (String.ofList (w ++ (f ++ e))))

variable {text m rest : List Char}

/-- A number that cannot go on with what follows is the longest match. A longer one would be read by
the scanner from its own text, but there the shorter one is read. -/
theorem length_le_of_endsNumber {n n' : Numeral} (hrest : EndsNumber rest)
    (h : n'.chars <+: n.chars ++ rest) : n'.chars.length ≤ n.chars.length := by
  rcases List.prefix_or_prefix_of_prefix h (List.prefix_append n.chars rest) with hle | hle
  · exact hle.length_le
  · obtain ⟨more, hmore⟩ := hle
    have hends : EndsNumber more := by
      rw [← hmore] at h
      obtain ⟨others, rfl⟩ := (List.prefix_append_right_inj n.chars).mp h
      exact fun c hc => hrest c (List.mem_head?_append_of_mem_head? hc)
    have hlong := scanNumber_append n' endsNumber_nil
    rw [List.append_nil, ← hmore, scanNumber_append n hends] at hlong
    have hlength : n.chars.length = (n.chars ++ more).length :=
      congrArg Prod.snd (Except.ok.inj hlong)
    rw [← hmore, hlength]

theorem startsWithNumber_iff : StartsWithNumber text m rest ↔
    ∃ n : Numeral, n.chars = m ∧ text = n.chars ++ rest ∧ EndsNumber rest := by
  constructor
  · rintro ⟨rfl, hmem, -, hends⟩
    obtain ⟨n, rfl⟩ := Pattern.mem_number.mp hmem
    exact ⟨n, rfl, rfl, hends⟩
  · rintro ⟨n, rfl, rfl, hends⟩
    refine ⟨rfl, Pattern.mem_number.mpr ⟨n, rfl⟩, fun m' hm' hmem => ?_, hends⟩
    obtain ⟨n', rfl⟩ := Pattern.mem_number.mp hmem
    exact length_le_of_endsNumber hends hm'

theorem numberToken_iff {token : Token} :
    NumberToken m token ↔ ∃ n : Numeral, n.chars = m ∧ n.token = token := by
  constructor
  · rintro (hw | ⟨hw, hf, he, hpart⟩)
    · refine ⟨⟨m, [], [], Pattern.mem_whole.mp hw, .inl rfl, .inl rfl⟩, List.append_nil m, ?_⟩
      simp [Numeral.token, Numeral.chars]
    · rename_i w f e
      refine ⟨⟨w, f, e, Pattern.mem_whole.mp hw, Pattern.mem_perhaps_fraction.mp hf,
        Pattern.mem_perhaps_exponent.mp he⟩, rfl, if_neg ?_⟩
      intro hempty
      obtain ⟨hfraction, hexponent⟩ := List.append_eq_nil_iff.mp hempty
      exact hpart.elim (absurd hfraction) (absurd hexponent)
  · rintro ⟨n, rfl, rfl⟩
    have hw := Pattern.mem_whole.mpr n.isWhole
    by_cases hempty : n.fraction ++ n.exponent = []
    · have hchars : n.chars = n.whole := by rw [Numeral.chars, hempty, List.append_nil]
      rw [Numeral.token, if_pos hempty, hchars]
      exact .int hw
    · rw [Numeral.token, if_neg hempty]
      refine .float hw (Pattern.mem_perhaps_fraction.mpr n.isFraction)
        (Pattern.mem_perhaps_exponent.mpr n.isExponent) ?_
      exact not_and_or.mp fun hnone => hempty (List.append_eq_nil_iff.mpr hnone)

/-- What is read where a text starts like a number. -/
structure ReadsNumber (p : Position) (text : List Char) : Prop where
  /-- A token is read exactly if the text starts with a number, and it is the one of that number. -/
  token_iff : ∀ token, (runFrom p text).tokens.head? = some token ↔
    ∃ m rest kind, StartsWithNumber text m rest ∧ NumberToken m kind ∧
      token = ⟨⟨p, p.after m⟩, kind⟩
  /-- Reading goes on behind the number. -/
  following : ∀ m rest, StartsWithNumber text m rest → ∃ token, runFrom p text =
    ⟨token :: (runFrom (p.after m) rest).tokens, (runFrom (p.after m) rest).outcome⟩
  /-- In all other cases there is an error. -/
  refused : (¬ ∃ m rest, StartsWithNumber text m rest) → ∃ e, runFrom p text = ⟨[], .error e⟩

/-- A number is read as its token, and what follows from its end on. -/
theorem runFrom_numeral (n : Numeral) (hrest : EndsNumber rest) (p : Position) :
    runFrom p (n.chars ++ rest) =
      ⟨⟨⟨p, p.after n.chars⟩, n.token⟩ :: (runFrom (p.after n.chars) rest).tokens,
        (runFrom (p.after n.chars) rest).outcome⟩ := by
  obtain ⟨c, cs, hchars, -⟩ := n.chars_eq_cons
  exact runFrom_token (by simp [hchars]) (scan_number n hrest) p

/-- Where a text starts like a number, nothing is skipped. -/
theorem ignored_of_starts_number {c : Char} (hc : c = '-' ∨ c.isDigit = true) (cs : List Char) :
    ignored false (c :: cs) = 0 := by
  have hcomment : c ≠ '#' := ne_of_starts_number hc (by decide) (by decide)
  have hignored : isIgnored c = false := by
    refine Bool.eq_false_iff.mpr fun h => ?_
    simp only [isIgnored, Bool.or_eq_true, decide_eq_true_eq] at h
    rcases h with ((((rfl | rfl) | rfl) | rfl) | rfl) | rfl <;> exact absurd hc (by decide)
  simp [ignored, hcomment, hignored]

/-- **Numbers.**  Where a text starts with a minus sign or a digit, the longest beginning of it that
is a number is read if it ends there, and nothing otherwise. -/
theorem runFrom_readsNumber {c : Char} (hc : c = '-' ∨ c.isDigit = true) (cs : List Char)
    (p : Position) : ReadsNumber p (c :: cs) := by
  have hrefused (h : ¬ ∃ m rest, StartsWithNumber (c :: cs) m rest) :
      ∃ e, runFrom p (c :: cs) = ⟨[], .error e⟩ := by
    have hskip := ignored_of_starts_number hc cs
    rw [runFrom_of_drop_eq_cons (by rw [hskip, List.drop_zero]), scan_eq_scanNumber hc]
    cases hscan : scanNumber (c :: cs) with
    | error e => exact ⟨_, rfl⟩
    | ok found =>
        obtain ⟨n, rest, hsplit, hends⟩ := scanNumber_split hscan
        exact absurd ⟨_, _, startsWithNumber_iff.mpr ⟨n, rfl, hsplit, hends⟩⟩ h
  refine ⟨fun token => ⟨fun hhead => ?_, ?_⟩, fun m rest h => ?_, hrefused⟩
  · by_cases h : ∃ m rest, StartsWithNumber (c :: cs) m rest
    · obtain ⟨m, rest, hstarts⟩ := h
      obtain ⟨n, rfl, hsplit, hends⟩ := startsWithNumber_iff.mp hstarts
      rw [hsplit, runFrom_numeral n hends] at hhead
      cases hhead
      exact ⟨_, rest, _, hstarts, numberToken_iff.mpr ⟨n, rfl, rfl⟩, rfl⟩
    · obtain ⟨e, he⟩ := hrefused h
      rw [he] at hhead
      cases hhead
  · rintro ⟨m, rest, kind, ⟨hsplit, -, -, hends⟩, hkind, rfl⟩
    obtain ⟨n, rfl, rfl⟩ := numberToken_iff.mp hkind
    rw [hsplit, runFrom_numeral n hends]
    rfl
  · obtain ⟨n, rfl, hsplit, hends⟩ := startsWithNumber_iff.mp h
    rw [hsplit]
    exact ⟨_, runFrom_numeral n hends p⟩

/-- A number with all parts is read up to the bracket behind it, and its beginning up to the sign of
the exponent is refused. -/
theorem signed_exponent_read :
    ('-' = '-' ∨ '-'.isDigit = true) ∧ ReadsNumber .origin "-0.5E+10]".toList ∧
      ReadsNumber .origin "-0.5E+]".toList ∧
      (∃ m rest kind, StartsWithNumber "-0.5E+10]".toList m rest ∧ NumberToken m kind ∧
        kind = .float "-0.5E+10") ∧
      ¬ ∃ m rest, StartsWithNumber "-0.5E+]".toList m rest := by
  have hread : ReadsNumber .origin "-0.5E+10]".toList := runFrom_readsNumber (.inl rfl) _ _
  have hrefused : ReadsNumber .origin "-0.5E+]".toList := runFrom_readsNumber (.inl rfl) _ _
  refine ⟨.inl rfl, hread, hrefused, ?_, ?_⟩
  · have hhead : (runFrom .origin "-0.5E+10]".toList).tokens.head? =
        some ⟨⟨⟨0, 0, 0⟩, ⟨8, 0, 8⟩⟩, .float "-0.5E+10"⟩ := by
      decide +kernel
    obtain ⟨m, rest, kind, hstarts, hkind, htoken⟩ := (hread.token_iff _).mp hhead
    exact ⟨m, rest, kind, hstarts, hkind, (congrArg Located.item htoken).symm⟩
  · rintro ⟨m, rest, hstarts⟩
    have hnone : (runFrom .origin "-0.5E+]".toList).tokens.head? = none := by decide +kernel
    obtain ⟨token, htoken⟩ := hrefused.following m rest hstarts
    rw [htoken] at hnone
    cases hnone

end GraphQL.Lexer
