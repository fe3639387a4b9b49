import JavaSlice.Decimal.Literal

/-!
# Shortest decimals

The shortest decimal that reads back as a binary number. A binary number `m * 2 ^ q` stands for all
reals that round to it: those up to halfway to its two neighbours, the ends included if `m` is even.
The lower neighbour is half as far away if `m` is the smallest number with its count of binary
digits.

For each power of ten, from large to small, the two multiples of it on both sides of the number are
tested. The first power with a hit gives the fewest digits, and of two hits the nearer one is taken,
or the even one if they are equally near.
-/

namespace JavaSlice.Decimal

/-- A positive binary number and the reals around it that round to it, as numerators over one
denominator. -/
structure Interval where
  low : Nat
  value : Nat
  high : Nat
  denominator : Nat
  /-- Whether the ends belong to it. -/
  closed : Bool

namespace Interval

/-- The reals that round to `m * 2 ^ q`; `tight` says whether the lower neighbour is half as far
away. -/
def ofBinary (m : Nat) (q : Int) (tight : Bool) : Interval :=
  let scale := Nat.pow 2 (q - 2).toNat
  { low := (4 * m - (if tight then 1 else 2)) * scale
    value := 4 * m * scale
    high := (4 * m + 2) * scale
    denominator := Nat.pow 2 (2 - q).toNat
    closed := m % 2 == 0 }

/-- Whether the multiple `digits * 10 ^ exponent` lies in an interval. -/
def holds (interval : Interval) (literal : Literal) : Bool :=
  let point := literal.digits * Nat.pow 10 literal.exponent.toNat * interval.denominator
  let scale := Nat.pow 10 (-literal.exponent).toNat
  if interval.closed then interval.low * scale ≤ point && point ≤ interval.high * scale
  else interval.low * scale < point && point < interval.high * scale

/-- The largest multiple of a power of ten that is not above the number of an interval. -/
def below (interval : Interval) (exponent : Int) : Literal :=
  ⟨interval.value * Nat.pow 10 (-exponent).toNat /
    (interval.denominator * Nat.pow 10 exponent.toNat), exponent⟩

/-- Whether the number of an interval is nearer to the multiple after `literal` than to `literal`
itself, or is halfway and the next multiple is even. -/
def roundsUp (interval : Interval) (literal : Literal) : Bool :=
  let unit := interval.denominator * Nat.pow 10 literal.exponent.toNat
  let rest := interval.value * Nat.pow 10 (-literal.exponent).toNat - literal.digits * unit
  unit < 2 * rest || unit == 2 * rest && literal.digits % 2 == 1

/-- The multiple of a power of ten that is taken for an interval, if one lies in it. -/
def pick? (interval : Interval) (exponent : Int) : Option Literal :=
  let lower := interval.below exponent
  let upper : Literal := { lower with digits := lower.digits + 1 }
  match interval.holds lower, interval.holds upper with
  | true, true => some (if interval.roundsUp lower then upper else lower)
  | true, false => some lower
  | false, true => some upper
  | false, false => none

/-- The first multiple that is taken, going down from a power of ten through `count` of them. -/
def search (interval : Interval) (exponent : Int) : Nat → Literal
  | 0 => interval.below exponent
  | count + 1 => (interval.pick? exponent).getD (interval.search (exponent - 1) count)

/-- The shortest decimal in an interval. The search starts at a power of ten that is not below the
number; it ends within the 17 digits that tell any two neighbours apart. -/
def shortest (interval : Interval) : Literal :=
  let above := Int.ofNat (digitCount (interval.value / interval.denominator)) -
    Int.ofNat (digitCount (interval.denominator / interval.value)) + 1
  interval.search above 24

end Interval

/-- The parts of a finite 64-bit binary number: its sign, and `m` and `q` such that it is
`m * 2 ^ q`. -/
def parts (x : Float) : Bool × Nat × Int :=
  let bits := x.toBits.toNat
  let fraction := bits % Nat.pow 2 52
  let exponent := bits / Nat.pow 2 52 % Nat.pow 2 11
  (Nat.pow 2 63 ≤ bits,
    if exponent == 0 then (fraction, -1074)
      else (fraction + Nat.pow 2 52, Int.ofNat exponent - 1075))

/-- The shortest decimal that reads back as a finite number, without its sign. -/
def shortest (x : Float) : Literal :=
  match parts x with
  | (_, m, q) =>
    if m == 0 then ⟨0, 0⟩ else (Interval.ofBinary m q (m == Nat.pow 2 52 && -1074 < q)).shortest

/-! ## Text -/

def digitsOf (n : Nat) : List Char :=
  Nat.toDigits 10 n

def zeros (count : Nat) : List Char :=
  List.replicate count '0'

/-- The text of a positive decimal. A number with up to 16 digits before the point, or up to four
zeros after it, is written with a point and has at least one digit on each side; any other has an
exponent after its digits. -/
def Literal.text (literal : Literal) : List Char :=
  let digits := digitsOf literal.digits
  let pointAt := Int.ofNat digits.length + literal.exponent
  if 0 ≤ literal.exponent && pointAt ≤ 16 then digits ++ zeros literal.exponent.toNat ++ ['.', '0']
  else if 0 < pointAt && pointAt ≤ 16
    then digits.take pointAt.toNat ++ '.' :: digits.drop pointAt.toNat
  else if -5 < pointAt && pointAt ≤ 0 then ['0', '.'] ++ zeros (-pointAt).toNat ++ digits
  else
    let exponent := pointAt - 1
    let sign := if exponent < 0 then ['-'] else []
    let fraction := if digits.length == 1 then [] else '.' :: digits.drop 1
    digits.take 1 ++ fraction ++ 'e' :: sign ++ digitsOf exponent.natAbs

/-- The text of a finite number: the shortest decimal that reads back. -/
def floatText (x : Float) : String :=
  let sign := if (parts x).1 then ['-'] else []
  let decimal := shortest x
  String.ofList (sign ++ (if decimal.digits == 0 then ['0', '.', '0'] else decimal.text))

end JavaSlice.Decimal
