import GraphQL.Number.Decimal

/-!
# Numbers in JSON text

How numbers that are not whole are written and read. Reading takes two steps, each of which rounds:
the digits make a natural, which is brought to double precision, and the result is multiplied or
divided by a power of ten of double precision. So a number of many digits, or one with a great
exponent, may be read as a neighbour of the number that is nearest to its text.
-/

namespace GraphQL.Json

/-- Numbers are written without an exponent from `0.00001` up to `1e+16`, an exponent always has a
sign, and the even one of two decimals is taken in a tie. -/
def numberStyle : Decimal.Style := ⟨-4, 16, true, .even⟩

/-- The natural that has one more digit, as long as it fits into 64 bits. -/
def appendDigit? (n : Nat) (c : Char) : Option Nat :=
  let next := Decimal.natOfDigits [c] + 10 * n
  if next < twoTo 64 then some next else none

/-- Reads the digits before the point. From the first one that does not fit on they only count as
powers of ten. -/
def wholeDigits (n : Nat) : List Char → Decimal
  | [] => ⟨n, 0⟩
  | c :: cs =>
    match appendDigit? n c with
    | some next => wholeDigits next cs
    | none => ⟨n, cs.length + 1⟩

/-- Reads the digits behind the point. From the first one that does not fit on they do not count. -/
def fractionDigits (d : Decimal) : List Char → Decimal
  | [] => d
  | c :: cs =>
    match appendDigit? d.digits c with
    | some next => fractionDigits ⟨next, d.exponent - 1⟩ cs
    | none => d

/-- The greatest power of ten of double precision. -/
def greatestPower : Nat := 308

/-- Ten to a power, to double precision. -/
def powerOfTen (n : Nat) : Binary64 :=
  .ofRatio false (Decimal.tenTo n) 1

/-- A natural of at most 64 bits times a power of ten, if that is not too great. Below the least
power of ten it is divided twice, and what would have to be divided three times is zero. -/
def scaled? (n : Nat) (exponent : Int) : Option Binary64 :=
  let x := Binary64.ofInt n
  let places := (-exponent).toNat
  if n = 0 ∨ 2 * greatestPower < places then some (.ofInt 0)
  else if exponent < 0 then
    some (if places ≤ greatestPower then x.div (powerOfTen places)
      else (x.div (powerOfTen greatestPower)).div (powerOfTen (places - greatestPower)))
  else if exponent ≤ greatestPower then
    let product := x.mul (powerOfTen exponent.toNat)
    if product.isInfinite then none else some product
  else none

/-- The number that a numeral is read as, if it is not too great. -/
def numberOf? (numeral : Decimal.Numeral) : Option Binary64 :=
  let d := fractionDigits (wholeDigits 0 numeral.whole) numeral.fraction
  (scaled? d.digits (d.exponent + numeral.exponent)).map fun x =>
    .ofParts numeral.negative x.unsignedBits

end GraphQL.Json
