/-!
# Decimal literals

A decimal literal is a sequence of digits with a point and an exponent, either of which may be
missing. Its value is a whole number times a power of ten.
-/

namespace JavaSlice.Decimal

/-- The number `digits * 10 ^ exponent`. -/
structure Literal where
  digits : Nat
  exponent : Int
deriving DecidableEq, Repr, Inhabited

def ofDigits (digits : List Char) : Nat :=
  digits.foldl (fun value c => value * 10 + (c.toNat - '0'.toNat)) 0

def takeDigits (text : List Char) : List Char × List Char :=
  (text.takeWhile Char.isDigit, text.dropWhile Char.isDigit)

/-- The number after the mark of an exponent, which may have a sign and needs a digit; the whole
text is read. -/
def exponent? (text : List Char) : Option Int :=
  let read := fun digits : List Char =>
    if !digits.isEmpty && digits.all Char.isDigit then some (Int.ofNat (ofDigits digits)) else none
  match text with
  | '+' :: digits => read digits
  | '-' :: digits => (read digits).map (- ·)
  | digits => read digits

/-- Reads a literal without a sign: digits before a point, after it or on both sides, and an
exponent. -/
def Literal.ofChars? (text : List Char) : Option Literal := do
  let (whole, afterWhole) := takeDigits text
  let (fraction, rest) := match afterWhole with
    | '.' :: rest => takeDigits rest
    | rest => ([], rest)
  guard !(whole ++ fraction).isEmpty
  let exponent ← match rest with
    | [] => some 0
    | mark :: digits => if mark == 'e' || mark == 'E' then exponent? digits else none
  some ⟨ofDigits (whole ++ fraction), exponent - Int.ofNat fraction.length⟩

def digitCount (n : Nat) : Nat :=
  (Nat.toDigits 10 n).length

/-- Whether the nearest number with 53 binary digits and an exponent of at most 1023 exists: the
value is less than halfway between the largest such number and the next power of two. A value of
more than 400 digits before the point is too large, and one of fewer than none is small enough,
whatever the digits are. -/
def Literal.isFinite (literal : Literal) : Bool :=
  let magnitude := Int.ofNat (digitCount literal.digits) + literal.exponent
  if literal.digits == 0 || magnitude ≤ 0 then true
  else if 400 < magnitude then false
  else
    let limit := Nat.pow 2 1024 - Nat.pow 2 970
    match literal.exponent with
    | .ofNat exponent => literal.digits * Nat.pow 10 exponent < limit
    | .negSucc exponent => literal.digits < limit * Nat.pow 10 (exponent + 1)

end JavaSlice.Decimal
