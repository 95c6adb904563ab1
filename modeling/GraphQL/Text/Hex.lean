/-!
# Hexadecimal text

Hexadecimal digits and what four of them stand for.
-/

namespace GraphQL.Hex

/-- The value of a digit. -/
def digit? (c : Char) : Option Nat :=
  if c.isDigit then some (c.toNat - '0'.toNat)
  else if 'a' ≤ c ∧ c ≤ 'f' then some (c.toNat - 'a'.toNat + 10)
  else if 'A' ≤ c ∧ c ≤ 'F' then some (c.toNat - 'A'.toNat + 10)
  else none

/-- The value of four digits. -/
def four? (a b c d : Char) : Option Nat := do
  let a ← digit? a
  let b ← digit? b
  let c ← digit? c
  let d ← digit? d
  return ((a * 16 + b) * 16 + c) * 16 + d

/-- The character of a code point; surrogates are none. -/
def char? (n : Nat) : Option Char :=
  if n.isValidChar then some (Char.ofNat n) else none

/-- The digits of a number in small letters, filled up with zeros to at least `width`. -/
def text (width n : Nat) : List Char :=
  let digits := Nat.toDigits 16 n
  List.replicate (width - digits.length) '0' ++ digits

end GraphQL.Hex
