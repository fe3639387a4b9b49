import JavaSlice.Decimal.Literal
import JavaSlice.Yaml.Scalar

/-!
# What plain scalars stand for

A plain scalar may be a null, a truth value or a number; any other is a text. Digits behind a
leading zero are no number, so that `007` is a text.
-/

namespace JavaSlice.Yaml.Plain

def isNull (text : String) : Bool :=
  ["null", "Null", "NULL", "~"].contains text

def bool? (text : String) : Option Bool :=
  if ["true", "True", "TRUE"].contains text then some true
  else if ["false", "False", "FALSE"].contains text then some false
  else none

def dropSign (signs : List Char) : List Char → List Char
  | c :: rest => if signs.contains c then rest else c :: rest
  | [] => []

/-- Whether a text is digits behind a leading zero, after a sign or not. -/
def isZeroPadded (text : List Char) : Bool :=
  match dropSign ['-', '+'] text with
  | '0' :: second :: rest => (second :: rest).all Char.isDigit
  | _ => false

def ofBase? (base : Nat) (digits : List Char) : Option Nat :=
  if digits.isEmpty then none else Text.ofBase? base digits

/-- The bases other than ten, with the letter that marks them. -/
def bases : List (Char × Nat) :=
  [('x', 16), ('o', 8), ('b', 2)]

/-- The value of a number with the mark of a base. -/
def marked? : List Char → Option Nat
  | '0' :: mark :: digits => do
    let base ← bases.lookup mark
    ofBase? base digits
  | _ => none

/-- Whether a text is a whole number that fits into 128 bits; a longer one in base ten is still a
number, as `isFloat` says. -/
def isInteger (text : List Char) : Bool :=
  let magnitude := dropSign ['+'] text
  let fits := fun (limit : Nat) (value : Option Nat) => (value.map (decide <| · < limit)).getD false
  fits (Nat.pow 2 128) (marked? magnitude) ||
    !isZeroPadded text && fits (Nat.pow 2 128) (ofBase? 10 magnitude) ||
    (match text with
      | '-' :: negative =>
        fits (Nat.pow 2 127 + 1) (marked? negative) ||
          !isZeroPadded text && fits (Nat.pow 2 127 + 1) (ofBase? 10 negative)
      | _ => false)

def specialFloats : List String :=
  [".inf", ".Inf", ".INF", "+.inf", "+.Inf", "+.INF", "-.inf", "-.Inf", "-.INF", ".nan", ".NaN",
    ".NAN"]

/-- Whether a text is a finite number with a fraction or an exponent, or one of the special
numbers. -/
def isFloat (text : List Char) : Bool :=
  specialFloats.contains (String.ofList text) ||
    !isZeroPadded text &&
      (((Decimal.Literal.ofChars? (dropSign ['+', '-'] text)).map (·.isFinite)).getD false)

/-- Whether a plain scalar stands for a text. -/
def isText (text : String) : Bool :=
  !text.isEmpty && !isNull text && (bool? text).isNone && !isInteger text.toList &&
    !isFloat text.toList

end JavaSlice.Yaml.Plain
