/-!
# Double-precision numbers

The numbers of 64 bits that a source text can name: a sign, an exponent of eleven bits and a
fraction of fifty-two. The library only reads, compares and prints them, so a number is its bits,
and each of these operations is exact arithmetic on naturals.

* `Binary64.ofRatio` rounds a quotient to the nearest number, a tie to the even one;
* `Binary64.same` is the equality of numbers: both zeros are equal and no NaN equals anything;
* `Binary64.magnitude` takes a finite number apart into `m * 2 ^ q`.
-/

namespace GraphQL

/-- Two to a power. -/
def twoTo (n : Nat) : Nat :=
  Nat.pow 2 n

/-- A double-precision number, given by its bits. -/
structure Binary64 where
  /-- Sign, exponent and fraction, from the highest bit to the lowest. -/
  bits : UInt64
deriving DecidableEq, Repr, Inhabited

namespace Binary64

/-- Number of bits of the fraction. -/
def fractionBits : Nat := 52

/-- The bits without the sign. -/
def unsignedBits (x : Binary64) : Nat :=
  x.bits.toNat % twoTo 63

/-- Whether the sign is set. -/
def isNegative (x : Binary64) : Bool :=
  twoTo 63 ≤ x.bits.toNat

/-- The exponent as it is stored. -/
def exponentField (x : Binary64) : Nat :=
  x.unsignedBits / twoTo fractionBits

/-- The fraction as it is stored. -/
def fractionField (x : Binary64) : Nat :=
  x.unsignedBits % twoTo fractionBits

/-- The bits of an infinity without the sign; those of a NaN are greater. -/
def infiniteBits : Nat := 2047 * twoTo fractionBits

/-- Not a number. -/
def isNaN (x : Binary64) : Bool :=
  infiniteBits < x.unsignedBits

/-- One of the two infinities. -/
def isInfinite (x : Binary64) : Bool :=
  x.unsignedBits = infiniteBits

/-- One of the two zeros. -/
def isZero (x : Binary64) : Bool :=
  x.unsignedBits = 0

/-- A number from its sign and its other bits. -/
def ofParts (negative : Bool) (unsigned : Nat) : Binary64 :=
  ⟨(unsigned % twoTo 63 + if negative then twoTo 63 else 0).toUInt64⟩

/-- The infinity of a sign. -/
def infinity (negative : Bool) : Binary64 :=
  ofParts negative infiniteBits

/-- The usual NaN. -/
def nan : Binary64 :=
  ofParts false (infiniteBits + twoTo 51)

/-- Equality of numbers: zeros are equal whatever their signs, and a NaN equals nothing. -/
def same (x y : Binary64) : Bool :=
  !x.isNaN && !y.isNaN && (x.bits = y.bits || x.isZero && y.isZero)

/-- A finite number without its sign is `m * 2 ^ q` for this pair `(m, q)`. -/
def magnitude (x : Binary64) : Nat × Int :=
  if x.exponentField = 0 then (x.fractionField, -1074)
  else (x.fractionField + twoTo fractionBits, x.exponentField - 1075)

/-- The quotient of `a` and `b` to the nearest natural, a tie to the even one. -/
def roundDiv (a b : Nat) : Nat :=
  let q := a / b
  let r := a % b
  if b < 2 * r || 2 * r = b && q % 2 = 1 then q + 1 else q

/-- `a * 2 ^ e` over `b`, rounded to the nearest natural. -/
def scaledDiv (a b : Nat) (e : Int) : Nat :=
  roundDiv (a * twoTo e.toNat) (b * twoTo (-e).toNat)

/-- The exponent `q` for which `a / b` lies between `2 ^ 52 * 2 ^ q` and `2 ^ 53 * 2 ^ q`, but no
less than the smallest exponent there is. -/
def exponentOf (a b : Nat) : Int :=
  let guess : Int := a.log2 - b.log2 - 52
  let q := if a * twoTo (-guess).toNat < b * twoTo guess.toNat * twoTo 52 then guess - 1 else guess
  max q (-1074)

/-- The number nearest to `a / b`, a tie to the one with an even fraction; from half a step behind
the greatest finite number on it is infinite. -/
def ofRatio (negative : Bool) (a b : Nat) : Binary64 :=
  if a = 0 then ofParts negative 0
  else
    let q := exponentOf a b
    ofParts negative (min infiniteBits
      ((q + 1074).toNat * twoTo fractionBits + scaledDiv a b (-q)))

/-- The number nearest to a whole number. -/
def ofInt (n : Int) : Binary64 :=
  ofRatio (n < 0) n.natAbs 1

/-- The number nearest to the product of two finite numbers. -/
def mul (x y : Binary64) : Binary64 :=
  let (m, p) := x.magnitude
  let (n, q) := y.magnitude
  ofRatio (x.isNegative ≠ y.isNegative) (m * n * twoTo (p + q).toNat) (twoTo (-(p + q)).toNat)

/-- The number nearest to the quotient of two finite numbers, the second of which is not zero. -/
def div (x y : Binary64) : Binary64 :=
  let (m, p) := x.magnitude
  let (n, q) := y.magnitude
  ofRatio (x.isNegative ≠ y.isNegative) (m * twoTo (p - q).toNat) (n * twoTo (q - p).toNat)

end Binary64

end GraphQL
