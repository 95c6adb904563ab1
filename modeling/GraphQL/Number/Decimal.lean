import GraphQL.Number.Binary64

/-!
# Decimal text of numbers

Reading and writing numbers in base ten.

* `Decimal.shortest` picks the fewest digits that read back as the same number and, among those,
  the decimal nearest to it. It tries one digit, then two, and so on, and tests the two neighbours
  of the number on that grid.
* `Decimal.Style` is what is left to decide: which of two decimals is taken if both are equally
  near, how great or small a number may be to be written without an exponent, and whether a
  positive exponent has a sign.
* `Numeral.read?` takes the text of a number apart, and `Decimal.toBinary64` finds the number that
  is nearest to it.
-/

namespace GraphQL

/-- The number `digits * 10 ^ exponent`. -/
structure Decimal where
  /-- All its digits, read as a natural. -/
  digits : Nat
  /-- The power of ten of its last digit. -/
  exponent : Int
deriving DecidableEq, Repr, Inhabited

namespace Decimal

/-- Ten to a power. -/
def tenTo (n : Nat) : Nat :=
  Nat.pow 10 n

/-- The text of a natural in base ten. -/
def natText (n : Nat) : List Char :=
  Nat.toDigits 10 n

/-- The numbers that round to `x` lie between these two, in units of a quarter of its last place. -/
structure Interval where
  /-- The number itself. -/
  value : Nat
  /-- The least number that may round to it. -/
  low : Nat
  /-- The greatest number that may round to it. -/
  high : Nat
  /-- Whether the two ends round to it too. -/
  closed : Bool
  /-- The unit is two to this power. -/
  scale : Int

/-- The interval of a finite number other than zero. The step below a power of two is half the step
above it. -/
def Interval.of (x : Binary64) : Interval :=
  let (m, q) := x.magnitude
  let below := if x.fractionField = 0 ∧ 1 < x.exponentField then 1 else 2
  ⟨4 * m, 4 * m - below, 4 * m + 2, m % 2 = 0, q - 2⟩

/-- Whether `k * 10 ^ e` lies in the interval. -/
def Interval.contains (i : Interval) (k : Nat) (e : Int) : Bool :=
  let point := k * tenTo e.toNat * twoTo (-i.scale).toNat
  let unit := tenTo (-e).toNat * twoTo i.scale.toNat
  if i.closed then i.low * unit ≤ point && point ≤ i.high * unit
  else i.low * unit < point && point < i.high * unit

/-- The greatest `k` with `k * 10 ^ e` at most the number. -/
def Interval.floor (i : Interval) (e : Int) : Nat :=
  i.value * (tenTo (-e).toNat * twoTo i.scale.toNat) / (tenTo e.toNat * twoTo (-i.scale).toNat)

/-- Which of two neighbours is taken if a number lies in the middle between them. -/
inductive Tie where
  /-- The greater one. -/
  | up
  /-- The even one. -/
  | even
deriving DecidableEq, Repr

/-- Whether `k * 10 ^ e` is nearer to the number than `(k + 1) * 10 ^ e`, or is taken in a tie. -/
def Interval.prefersBelow (i : Interval) (tie : Tie) (k : Nat) (e : Int) : Bool :=
  let doubled := 2 * i.value * (tenTo (-e).toNat * twoTo i.scale.toNat)
  let middle := (2 * k + 1) * (tenTo e.toNat * twoTo (-i.scale).toNat)
  doubled < middle ∨ doubled = middle ∧ tie = .even ∧ k % 2 = 0

/-- The point of the grid of `10 ^ e` that rounds to the number and is nearest to it. -/
def Interval.onGrid (i : Interval) (tie : Tie) (e : Int) : Option Decimal :=
  let k := i.floor e
  match i.contains k e, i.contains (k + 1) e with
  | true, true => some ⟨if i.prefersBelow tie k e then k else k + 1, e⟩
  | true, false => some ⟨k, e⟩
  | false, true => some ⟨k + 1, e⟩
  | false, false => none

/-- The least `n` below `fuel` with `1 ≤ a * 10 ^ n / b`. -/
def leadingZeros (a b : Nat) : Nat → Nat
  | 0 => 0
  | fuel + 1 => if b ≤ a then 0 else leadingZeros (a * 10) b fuel + 1

/-- The power of ten of the first digit of the number. -/
def Interval.leading (i : Interval) : Int :=
  let whole := i.floor 0
  if whole = 0 then
    -(leadingZeros (i.value * twoTo i.scale.toNat) (twoTo (-i.scale).toNat) 400 : Int)
  else (natText whole).length - 1

/-- Takes zeros off the end; `fuel` bounds their number. -/
def trim : Nat → Decimal → Decimal
  | 0, d => d
  | fuel + 1, d =>
    if d.digits ≠ 0 ∧ d.digits % 10 = 0 then trim fuel ⟨d.digits / 10, d.exponent + 1⟩ else d

/-- The fewest digits that read back as the finite number `x` without its sign, and among those the
nearest decimal. Seventeen digits always suffice. -/
def shortest (tie : Tie) (x : Binary64) : Decimal :=
  if x.isZero then ⟨0, 0⟩
  else
    let i := Interval.of x
    let found := (List.range 17).findSome? fun n : Nat => i.onGrid tie (i.leading - n)
    trim 20 (found.getD ⟨i.floor (i.leading - 17), i.leading - 17⟩)

/-- Which numbers are written without an exponent, namely those whose point stands at least `least`
and at most `greatest` places behind the first digit, how the exponent of the others begins, and
which digits are taken in a tie. -/
structure Style where
  /-- The least place of the point. -/
  least : Int
  /-- The greatest place of the point. -/
  greatest : Int
  /-- Whether an exponent that is not negative begins with a plus sign. -/
  plus : Bool
  /-- Which of two shortest decimals is taken if both are equally near. -/
  tie : Tie
deriving DecidableEq, Repr

/-- Zeros. -/
def zeros (n : Int) : List Char :=
  List.replicate n.toNat '0'

/-- A decimal without an exponent, with at least one digit on both sides of the point. -/
def positional (d : Decimal) : List Char :=
  let text := natText d.digits
  let point : Int := text.length + d.exponent
  if 0 ≤ d.exponent then text ++ zeros d.exponent ++ ['.', '0']
  else if 0 < point then text.take point.toNat ++ '.' :: text.drop point.toNat
  else ['0', '.'] ++ zeros (-point) ++ text

/-- A decimal with an exponent: one digit, the others behind a point, and the power of ten, which
has a plus sign if it is not negative and `plus` is set. -/
def scientific (plus : Bool) (d : Decimal) : List Char :=
  let text := natText d.digits
  let power : Int := text.length + d.exponent - 1
  let mantissa := match text with
    | first :: second :: rest => first :: '.' :: second :: rest
    | short => short
  let sign := if power < 0 then ['-'] else if plus then ['+'] else []
  mantissa ++ 'e' :: sign ++ natText power.natAbs

/-- A decimal in the given style. -/
def Style.text (style : Style) (d : Decimal) : List Char :=
  let point : Int := (natText d.digits).length + d.exponent
  if d.digits = 0 ∨ style.least ≤ point ∧ point ≤ style.greatest then d.positional
  else d.scientific style.plus

/-- The shortest text of a number in the given style. -/
def Style.number (style : Style) (x : Binary64) : String :=
  if x.isNaN then "NaN"
  else
    let sign := if x.isNegative then ['-'] else []
    let rest := if x.isInfinite then ['i', 'n', 'f'] else style.text (shortest style.tie x)
    String.ofList (sign ++ rest)

/-- The natural that digits stand for. -/
def natOfDigits (cs : List Char) : Nat :=
  cs.foldl (fun n c => 10 * n + (c.toNat - '0'.toNat)) 0

/-- Splits off a sign. -/
def splitSign : List Char → Bool × List Char
  | '-' :: cs => (true, cs)
  | '+' :: cs => (false, cs)
  | cs => (false, cs)

/-- The exponent written behind a number, with nothing standing for zero. -/
def readExponent? : List Char → Option Int
  | [] => some 0
  | c :: cs =>
    let (negative, digits) := splitSign cs
    if (c = 'e' || c = 'E') && !digits.isEmpty && digits.all Char.isDigit then
      some (if negative then -(natOfDigits digits : Int) else natOfDigits digits)
    else none

/-- The parts of the text of a number. -/
structure Numeral where
  /-- Whether it begins with a minus sign. -/
  negative : Bool
  /-- The digits before the point. -/
  whole : List Char
  /-- The digits behind the point. -/
  fraction : List Char
  /-- The power of ten it is multiplied by. -/
  exponent : Int
deriving DecidableEq, Repr

/-- Takes apart the text of a number. -/
def Numeral.read? (cs : List Char) : Option Numeral :=
  let (negative, cs) := splitSign cs
  let whole := cs.takeWhile Char.isDigit
  let cs := cs.dropWhile Char.isDigit
  let (fraction, cs) := match cs with
    | '.' :: ds => (ds.takeWhile Char.isDigit, ds.dropWhile Char.isDigit)
    | _ => ([], cs)
  if whole.isEmpty && fraction.isEmpty then none
  else (readExponent? cs).map fun exponent => ⟨negative, whole, fraction, exponent⟩

/-- The decimal that a numeral stands for, without its sign. -/
def Numeral.decimal (n : Numeral) : Decimal :=
  ⟨natOfDigits (n.whole ++ n.fraction), n.exponent - n.fraction.length⟩

/-- The number nearest to a decimal. Decimals that are far too great or too small are recognised by
the place of their first digit. -/
def toBinary64 (negative : Bool) (d : Decimal) : Binary64 :=
  let point : Int := (natText d.digits).length + d.exponent
  if d.digits = 0 || point < -400 then .ofParts negative 0
  else if 400 < point then .infinity negative
  else .ofRatio negative (d.digits * tenTo d.exponent.toNat) (tenTo (-d.exponent).toNat)

end Decimal

/-- The number that the text of a number stands for. -/
def Binary64.ofText? (cs : List Char) : Option Binary64 :=
  (Decimal.Numeral.read? cs).map fun n => n.decimal.toBinary64 n.negative

end GraphQL
