import GraphQL.Source.Lexer

/-!
# How numbers are written

A number is a whole part, perhaps a fraction, and perhaps an exponent. The scanner takes these parts
one after the other, each as long as it can, and then looks at one more character. So it succeeds on
a text exactly if the text starts with a number that cannot go on with what follows, and then it has
read that number and nothing else (`Lexer.scanNumber_eq_ok_iff`).

Every scanner has two lemmas: `_append` says that it reads its part whatever follows, if the part
ends there, and `_split` that whatever it reads is such a part.
-/

namespace GraphQL.Lexer

variable {cs ds rest : List Char} {read stop : Nat}

/-- A run of characters ends where the next one is of another sort. -/
theorem takeWhile_append_boundary {p : Char → Bool}
    (hcs : ∀ c ∈ cs, p c = true) (hrest : ∀ c ∈ rest.head?, p c = false) :
    (cs ++ rest).takeWhile p = cs := by
  rw [List.takeWhile_append_of_pos hcs]
  cases rest with
  | nil => simp
  | cons c rest => simp [hrest c (by simp)]

/-! ## Digits and signs -/

/-- The characters from one on, up to another one. -/
theorem eq_ofNat_add {c first last : Char} (h : first.toNat ≤ c.toNat ∧ c.toNat ≤ last.toNat) :
    c = Char.ofNat (first.toNat + (c.toNat - first.toNat)) ∧
      c.toNat - first.toNat ≤ last.toNat - first.toNat := by
  refine ⟨?_, by omega⟩
  rw [Nat.add_sub_cancel' h.1, Char.ofNat_toNat]

/-- One digit or more. -/
structure IsDigits (cs : List Char) : Prop where
  ne_nil : cs ≠ []
  isDigit : ∀ c ∈ cs, c.isDigit = true

/-- No digit comes next. -/
def NoDigit (rest : List Char) : Prop :=
  ∀ c ∈ rest.head?, c.isDigit = false

/-- Digits start with a digit. -/
theorem IsDigits.head_isDigit (h : IsDigits ds) : ∀ c ∈ (ds ++ rest).head?, c.isDigit = true := by
  cases ds with
  | nil => exact absurd rfl h.ne_nil
  | cons d ds =>
      intro c hc
      obtain rfl : d = c := by simpa using hc
      exact h.isDigit d List.mem_cons_self

theorem digitRun_append (h : IsDigits ds) (hrest : NoDigit rest) :
    digitRun read (ds ++ rest) = .ok (read + ds.length) := by
  have hrun : digits (ds ++ rest) = ds.length := by
    rw [digits, takeWhile_append_boundary h.isDigit hrest]
  cases ds with
  | nil => exact absurd rfl h.ne_nil
  | cons d ds =>
      have hd : d.isDigit = true := h.isDigit d List.mem_cons_self
      rw [List.cons_append, digitRun, if_pos hd, ← List.cons_append, hrun]

theorem digitRun_split (h : digitRun read cs = .ok stop) :
    ∃ ds rest, cs = ds ++ rest ∧ IsDigits ds ∧ NoDigit rest ∧ stop = read + ds.length := by
  cases cs with
  | nil => cases h
  | cons c cs =>
      rw [digitRun] at h
      split at h
      · rename_i hc
        cases h
        refine ⟨(c :: cs).takeWhile Char.isDigit, (c :: cs).dropWhile Char.isDigit,
          List.takeWhile_append_dropWhile.symm, ⟨by simp [hc], ?_⟩, ?_, rfl⟩
        · exact List.all_eq_true.mp List.all_takeWhile
        · intro d hd
          have hfirst := List.head?_dropWhile_not Char.isDigit (c :: cs)
          rw [Option.mem_def.mp hd] at hfirst
          simpa using hfirst
      · cases h

/-- Nothing, or one of some signs. -/
def IsSign (signs sign : List Char) : Prop :=
  sign = [] ∨ ∃ s ∈ signs, sign = [s]

theorem signLength_append {signs sign : List Char} (h : IsSign signs sign)
    (hrest : ∀ c ∈ rest.head?, c ∉ signs) : signLength signs (sign ++ rest) = sign.length := by
  rcases h with rfl | ⟨s, hs, rfl⟩
  · cases rest with
    | nil => rfl
    | cons c rest => exact if_neg (hrest c rfl)
  · exact if_pos hs

theorem signLength_split (signs cs : List Char) :
    ∃ sign rest, cs = sign ++ rest ∧ IsSign signs sign ∧ signLength signs cs = sign.length := by
  cases cs with
  | nil => exact ⟨[], [], rfl, .inl rfl, rfl⟩
  | cons c cs =>
      by_cases hc : c ∈ signs
      · exact ⟨[c], cs, rfl, .inr ⟨c, hc, rfl⟩, if_pos hc⟩
      · exact ⟨[], c :: cs, rfl, .inl rfl, if_neg hc⟩

/-- A digit is no sign. -/
theorem IsDigits.not_sign (h : IsDigits ds) {signs : List Char}
    (hsigns : ∀ s ∈ signs, s.isDigit = false) : ∀ c ∈ (ds ++ rest).head?, c ∉ signs := by
  intro c hc hsign
  have hdigit := h.head_isDigit c hc
  rw [hsigns c hsign] at hdigit
  cases hdigit

/-! ## The parts of a number -/

/-- A whole number: a zero, or digits that do not start with one, perhaps behind a minus sign. -/
def IsWhole (cs : List Char) : Prop :=
  ∃ sign ds, cs = sign ++ ds ∧ IsSign ['-'] sign ∧ IsDigits ds ∧
    ∀ others, ds = '0' :: others → others = []

/-- Nothing, or a point and digits. -/
def IsFraction (cs : List Char) : Prop :=
  cs = [] ∨ ∃ ds, cs = '.' :: ds ∧ IsDigits ds

/-- The letters before an exponent. -/
def isExponentLetter (c : Char) : Bool :=
  c = 'e' || c = 'E'

/-- Nothing, or the letter of an exponent and digits, perhaps behind a sign. -/
def IsExponent (cs : List Char) : Prop :=
  cs = [] ∨ ∃ letter sign ds, cs = letter :: (sign ++ ds) ∧ isExponentLetter letter = true ∧
    IsSign ['+', '-'] sign ∧ IsDigits ds

theorem wholeLength_append {whole : List Char} (h : IsWhole whole) (hrest : NoDigit rest) :
    wholeLength (whole ++ rest) = .ok whole.length := by
  obtain ⟨sign, ds, rfl, hsign, hds, hzero⟩ := h
  have hstart : signLength ['-'] (sign ++ (ds ++ rest)) = sign.length :=
    signLength_append hsign (hds.not_sign (by simp))
  have hrun : digitRun sign.length (ds ++ rest) = .ok (sign.length + ds.length) :=
    digitRun_append hds hrest
  rw [List.append_assoc, List.length_append, wholeLength]
  simp only [hstart, List.drop_left, hrun, bind, Except.bind]
  split
  · rename_i c others hmatch
    -- digits that start with a zero are no more than it, so what follows is not a digit
    cases ds with
    | nil => exact absurd rfl hds.ne_nil
    | cons d ds =>
        obtain ⟨rfl, hothers⟩ := List.cons.inj hmatch
        obtain rfl := hzero ds rfl
        have hfollow : rest = c :: others := hothers
        have hc : c.isDigit = false := hrest c (by simp [hfollow])
        rw [hc]
        rfl
  · rfl

theorem wholeLength_split (h : wholeLength cs = .ok stop) :
    ∃ whole rest, cs = whole ++ rest ∧ IsWhole whole ∧ NoDigit rest ∧ stop = whole.length := by
  obtain ⟨sign, more, rfl, hsign, hstart⟩ := signLength_split ['-'] cs
  simp only [wholeLength, hstart, List.drop_left] at h
  cases hrun : digitRun sign.length more with
  | error e => simp [hrun, bind, Except.bind] at h
  | ok found =>
      obtain ⟨ds, rest, rfl, hds, hrest, rfl⟩ := digitRun_split hrun
      simp only [hrun, bind, Except.bind] at h
      have hzero : ∀ others, ds = '0' :: others → others = [] := by
        rintro others rfl
        cases others with
        | nil => rfl
        | cons c others =>
            have hc : c.isDigit = true := hds.isDigit c (by simp)
            simp [hc] at h
      have hstop : sign.length + ds.length = stop := by
        split at h
        · split at h
          · cases h
          · exact Except.ok.inj h
        · exact Except.ok.inj h
      refine ⟨sign ++ ds, rest, by simp, ⟨sign, ds, rfl, hsign, hds, hzero⟩, hrest, ?_⟩
      rw [← hstop, List.length_append]

theorem fractionLength_append {fraction : List Char} (h : IsFraction fraction)
    (hrest : NoDigit rest) (hpoint : rest.head? ≠ some '.') :
    fractionLength read (fraction ++ rest) = .ok (read + fraction.length) := by
  rcases h with rfl | ⟨ds, rfl, hds⟩
  · rw [List.nil_append, fractionLength]
    · rfl
    · rintro others rfl
      exact hpoint rfl
  · rw [List.cons_append, fractionLength, digitRun_append hds hrest, List.length_cons]
    congr 1
    omega

theorem fractionLength_split (h : fractionLength read cs = .ok stop) (hcs : NoDigit cs) :
    ∃ fraction rest, cs = fraction ++ rest ∧ IsFraction fraction ∧ NoDigit rest ∧
      stop = read + fraction.length := by
  unfold fractionLength at h
  split at h
  · rename_i cs
    obtain ⟨ds, rest, rfl, hds, hrest, rfl⟩ := digitRun_split h
    refine ⟨'.' :: ds, rest, rfl, .inr ⟨ds, rfl, hds⟩, hrest, ?_⟩
    rw [List.length_cons]
    omega
  · cases h
    exact ⟨[], cs, rfl, .inl rfl, hcs, rfl⟩

theorem exponentLength_append {exponent : List Char} (h : IsExponent exponent)
    (hrest : NoDigit rest) (hletter : ∀ c ∈ rest.head?, isExponentLetter c = false) :
    exponentLength read (exponent ++ rest) = .ok (read + exponent.length) := by
  rcases h with rfl | ⟨letter, sign, ds, rfl, hletter, hsign, hds⟩
  · cases rest with
    | nil => rfl
    | cons c rest =>
        have hc : (c = 'e' || c = 'E') = false := hletter c rfl
        rw [List.nil_append, exponentLength, hc]
        rfl
  · have hstart : signLength ['+', '-'] (sign ++ (ds ++ rest)) = sign.length :=
      signLength_append hsign (hds.not_sign (by simp))
    rw [List.cons_append, List.append_assoc, exponentLength, ← isExponentLetter, if_pos hletter]
    simp only [hstart, List.drop_left, digitRun_append hds hrest, List.length_cons,
      List.length_append]
    congr 1
    omega

theorem exponentLength_split (h : exponentLength read cs = .ok stop) (hcs : NoDigit cs) :
    ∃ exponent rest, cs = exponent ++ rest ∧ IsExponent exponent ∧ NoDigit rest ∧
      stop = read + exponent.length := by
  cases cs with
  | nil =>
      cases h
      exact ⟨[], [], rfl, .inl rfl, hcs, rfl⟩
  | cons letter cs =>
      rw [exponentLength] at h
      split at h
      · rename_i hletter
        obtain ⟨sign, more, rfl, hsign, hstart⟩ := signLength_split ['+', '-'] cs
        simp only [hstart, List.drop_left] at h
        obtain ⟨ds, rest, rfl, hds, hrest, rfl⟩ := digitRun_split h
        refine ⟨letter :: (sign ++ ds), rest, by simp,
          .inr ⟨letter, sign, ds, rfl, hletter, hsign, hds⟩, hrest, ?_⟩
        rw [List.length_cons, List.length_append]
        omega
      · cases h
        exact ⟨[], letter :: cs, rfl, .inl rfl, hcs, rfl⟩

/-! ## Numbers -/

/-- A number in its parts. -/
structure Numeral where
  whole : List Char
  fraction : List Char
  exponent : List Char
  isWhole : IsWhole whole
  isFraction : IsFraction fraction
  isExponent : IsExponent exponent

namespace Numeral

/-- How a number is written. -/
def chars (n : Numeral) : List Char :=
  n.whole ++ (n.fraction ++ n.exponent)

/-- The token of a number; it is a whole number if it has neither a fraction nor an exponent. -/
def token (n : Numeral) : Token :=
  if n.fraction ++ n.exponent = [] then .int (String.ofList n.chars)
  else .float (String.ofList n.chars)

/-- A number starts with a minus sign or a digit. -/
theorem chars_eq_cons (n : Numeral) :
    ∃ c cs, n.chars = c :: cs ∧ (c = '-' ∨ c.isDigit = true) := by
  obtain ⟨sign, ds, hwhole, hsign, hds, -⟩ := n.isWhole
  rw [chars, hwhole]
  rcases hsign with rfl | ⟨s, hs, rfl⟩
  · cases ds with
    | nil => exact absurd rfl hds.ne_nil
    | cons d ds => exact ⟨d, _, rfl, .inr (hds.isDigit d List.mem_cons_self)⟩
  · exact ⟨s, _, rfl, .inl (List.mem_singleton.mp hs)⟩

end Numeral

/-- A number cannot go on with what follows. -/
def EndsNumber (rest : List Char) : Prop :=
  ∀ c ∈ rest.head?, c.isDigit = false ∧ c ≠ '.' ∧ isNameStart c = false

theorem endsNumber_nil : EndsNumber [] := nofun

theorem EndsNumber.continuesNumber_eq_false (h : EndsNumber rest) : continuesNumber rest = false := by
  cases rest with
  | nil => rfl
  | cons c rest =>
      obtain ⟨-, hpoint, hname⟩ := h c rfl
      simp [continuesNumber, hpoint, hname]

theorem endsNumber_of_noDigit (h : NoDigit rest) (hcontinues : continuesNumber rest = false) :
    EndsNumber rest := by
  intro c hc
  cases rest with
  | nil => cases hc
  | cons d rest =>
      obtain rfl : d = c := by simpa using hc
      simp only [continuesNumber, Bool.or_eq_false_iff, decide_eq_false_iff_not] at hcontinues
      exact ⟨h d rfl, hcontinues⟩

/-- The letter of an exponent is one that a name may start with. -/
theorem isNameStart_of_isExponentLetter {c : Char} (h : isExponentLetter c = true) :
    isNameStart c = true := by
  simp only [isExponentLetter, Bool.or_eq_true, decide_eq_true_eq] at h
  rcases h with rfl | rfl <;> rfl

/-- Behind the fraction of a number stands no digit and no point. -/
theorem IsExponent.head_append {exponent : List Char} (h : IsExponent exponent)
    (hrest : EndsNumber rest) :
    NoDigit (exponent ++ rest) ∧ (exponent ++ rest).head? ≠ some '.' := by
  rcases h with rfl | ⟨letter, sign, ds, rfl, hletter, -⟩
  · exact ⟨fun c hc => (hrest c hc).1, fun hpoint => (hrest '.' hpoint).2.1 rfl⟩
  · simp only [isExponentLetter, Bool.or_eq_true, decide_eq_true_eq] at hletter
    rcases hletter with rfl | rfl <;> exact ⟨by simp [NoDigit], by simp⟩

/-- Behind the whole part of a number stands no digit. -/
theorem IsFraction.noDigit_append {fraction : List Char} (h : IsFraction fraction)
    (hrest : NoDigit rest) : NoDigit (fraction ++ rest) := by
  rcases h with rfl | ⟨ds, rfl, -⟩
  · exact hrest
  · simp [NoDigit]

/-- A number is read up to its end. -/
theorem scanNumber_append (n : Numeral) (hrest : EndsNumber rest) :
    scanNumber (n.chars ++ rest) = .ok (n.token, n.chars.length) := by
  obtain ⟨hdigit, hpoint⟩ := n.isExponent.head_append hrest
  have hwhole : wholeLength (n.chars ++ rest) = .ok n.whole.length := by
    simp only [Numeral.chars, List.append_assoc]
    exact wholeLength_append n.isWhole (n.isFraction.noDigit_append hdigit)
  have hdrop : (n.chars ++ rest).drop n.whole.length = n.fraction ++ (n.exponent ++ rest) := by
    simp [Numeral.chars]
  have hdrop' : (n.chars ++ rest).drop (n.whole.length + n.fraction.length) =
      n.exponent ++ rest := by
    simp [Numeral.chars, ← List.drop_drop]
  have hlength : n.whole.length + n.fraction.length + n.exponent.length = n.chars.length := by
    simp [Numeral.chars, Nat.add_assoc]
  have hletter : ∀ c ∈ rest.head?, isExponentLetter c = false := by
    intro c hc
    refine Bool.eq_false_iff.mpr fun hletter => ?_
    have hname := (hrest c hc).2.2
    rw [isNameStart_of_isExponentLetter hletter] at hname
    cases hname
  have hkind : n.chars.length = n.whole.length ↔ n.fraction ++ n.exponent = [] := by
    simp [Numeral.chars]
  unfold scanNumber
  simp only [hwhole, hdrop, fractionLength_append n.isFraction hdigit hpoint, hdrop',
    exponentLength_append n.isExponent (fun c hc => (hrest c hc).1) hletter, hlength,
    List.drop_left, hrest.continuesNumber_eq_false, List.take_left, bind, Except.bind, Numeral.token, hkind]
  rfl

/-- What the scanner of numbers reads is a number that ends there. -/
theorem scanNumber_split {found : Token × Nat} (h : scanNumber cs = .ok found) :
    ∃ (n : Numeral) (rest : List Char), cs = n.chars ++ rest ∧ EndsNumber rest := by
  unfold scanNumber at h
  cases hwhole : wholeLength cs with
  | error e => simp [hwhole, bind, Except.bind] at h
  | ok stop =>
    obtain ⟨whole, more, rfl, isWhole, hmore, rfl⟩ := wholeLength_split hwhole
    simp only [hwhole, List.drop_left, bind, Except.bind] at h
    cases hfraction : fractionLength whole.length more with
    | error e => simp [hfraction] at h
    | ok stop =>
      obtain ⟨fraction, more, rfl, isFraction, hmore, rfl⟩ := fractionLength_split hfraction hmore
      have hdrop : (whole ++ (fraction ++ more)).drop (whole.length + fraction.length) = more := by
        simp [← List.drop_drop]
      simp only [hfraction, hdrop] at h
      cases hexponent : exponentLength (whole.length + fraction.length) more with
      | error e => simp [hexponent] at h
      | ok stop =>
        obtain ⟨exponent, rest, rfl, isExponent, hrest, rfl⟩ :=
          exponentLength_split hexponent hmore
        have hdrop' : (whole ++ (fraction ++ (exponent ++ rest))).drop
            (whole.length + fraction.length + exponent.length) = rest := by
          simp [← List.drop_drop]
        simp only [hexponent, hdrop'] at h
        have hcontinues : continuesNumber rest = false := by
          refine Bool.eq_false_iff.mpr fun hcontinues => ?_
          rw [if_pos hcontinues] at h
          cases h
        refine ⟨⟨whole, fraction, exponent, isWhole, isFraction, isExponent⟩, rest, ?_, ?_⟩
        · simp [Numeral.chars]
        · exact endsNumber_of_noDigit hrest hcontinues

/-- **Numbers.**  The scanner of numbers succeeds on a text exactly if the text starts with a number
that cannot go on with what follows; it reads that number. -/
theorem scanNumber_eq_ok_iff {token : Token} {length : Nat} :
    scanNumber cs = .ok (token, length) ↔ ∃ (n : Numeral) (rest : List Char),
      cs = n.chars ++ rest ∧ EndsNumber rest ∧ token = n.token ∧ length = n.chars.length := by
  constructor
  · intro h
    obtain ⟨n, rest, rfl, hrest⟩ := scanNumber_split h
    rw [scanNumber_append n hrest] at h
    cases h
    exact ⟨n, rest, rfl, hrest, rfl, rfl⟩
  · rintro ⟨n, rest, rfl, hrest, rfl, rfl⟩
    exact scanNumber_append n hrest

end GraphQL.Lexer
