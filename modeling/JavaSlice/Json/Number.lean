import JavaSlice.Decimal.Literal
import JavaSlice.Json.Reader

/-!
# Numbers of JSON as binary numbers

A number with a fraction or an exponent is read in two roundings. Its leading digits make a whole
number, as far as they fit into 64 bits; digits after these only count by their places. That number
is rounded to a binary number, and then multiplied or divided by a power of ten. A result that is
too large is no number.
-/

namespace JavaSlice.Json

/-- The binary number nearest to a whole number, the even one of two that are equally near. -/
def nearest (n : Nat) : Float :=
  if n < Nat.pow 2 53 then n.toUInt64.toFloat
  else
    let shift := n.log2 - 52
    let kept := n / Nat.pow 2 shift
    let twiceRest := 2 * (n % Nat.pow 2 shift)
    let up := Nat.pow 2 shift < twiceRest || twiceRest == Nat.pow 2 shift && kept % 2 == 1
    (if up then kept + 1 else kept).toUInt64.toFloat.scaleB shift

/-- The largest power of ten that is used at once. -/
def largestPower : Nat := 308

/-- A number divided by a power of ten in steps, at most `steps` of the largest power before the
last. -/
def divide (x : Float) (exponent : Nat) : Nat → Float
  | 0 => x / nearest (Nat.pow 10 (min exponent largestPower))
  | steps + 1 =>
    if exponent ≤ largestPower then x / nearest (Nat.pow 10 exponent)
    else if x == 0 then x
    else divide (x / nearest (Nat.pow 10 largestPower)) (exponent - largestPower) steps

/-- A binary number times a power of ten, if it is not too large. After four of the largest steps
down nothing is left of any number. -/
def scale? (x : Float) : Int → Option Float
  | .ofNat exponent =>
    if exponent ≤ largestPower then
      let product := x * nearest (Nat.pow 10 exponent)
      if product.isInf then none else some product
    else if x == 0 then some x
    else none
  | .negSucc exponent => some (divide x (exponent + 1) 4)

/-- Appends digits to a number as long as the result is less than `2 ^ 64`, and gives the digits
that are left. -/
def appendDigits (value : Nat) : List Char → Nat × List Char
  | [] => (value, [])
  | c :: rest =>
    let longer := value * 10 + (c.toNat - '0'.toNat)
    if longer < Nat.pow 2 64 then appendDigits longer rest else (value, c :: rest)

/-- The largest exponent that is told from larger ones. -/
def largestExponent : Nat := Nat.pow 2 31 - 1

/-- The exponent of a number: its sign and its amount. -/
def exponentOf (text : List Char) : Bool × Nat :=
  match text.drop 1 with
  | '-' :: digits => (true, Decimal.ofDigits digits)
  | '+' :: digits => (false, Decimal.ofDigits digits)
  | digits => (false, Decimal.ofDigits digits)

/-- The binary number of the digits of a number and its exponent. -/
def magnitude? (whole fraction exponentText : List Char) : Option Float :=
  let (first, wholeLeft) := appendDigits 0 whole
  let (digits, fractionLeft) := appendDigits first fraction
  let places := Int.ofNat wholeLeft.length - Int.ofNat (fraction.length - fractionLeft.length)
  let (negative, amount) := exponentOf exponentText
  if largestExponent < amount then
    if digits != 0 && !negative then none else some 0
  else
    scale? (nearest digits) (places + (if negative then -(Int.ofNat amount) else Int.ofNat amount))

def Value.float? : Value → Option Float
  | .number text =>
    let (negative, unsigned) := match text with
      | '-' :: rest => (true, rest)
      | rest => (false, rest)
    let whole := unsigned.takeWhile Char.isDigit
    let afterWhole := unsigned.dropWhile Char.isDigit
    let (fraction, exponentText) := match afterWhole with
      | '.' :: rest => (rest.takeWhile Char.isDigit, rest.dropWhile Char.isDigit)
      | rest => ([], rest)
    (magnitude? whole fraction exponentText).map fun x => if negative then -x else x
  | _ => none

end JavaSlice.Json
