import JavaSlice.Json.Value
import JavaSlice.Text.Hex

/-!
# Reading JSON

`Value.parse?` reads a text that is one JSON value with blanks around it. Each reader takes the
characters from a place on and gives what it has read with the rest of them, or nothing if they do
not start as they should.
-/

namespace JavaSlice.Json

def isSpace (c : Char) : Bool :=
  c == ' ' || c == '\n' || c == '\t' || c == '\r'

def skipSpaces (text : List Char) : List Char :=
  text.dropWhile isSpace

/-! ## Texts -/

def letterEscape? (c : Char) : Option Char :=
  [('"', '"'), ('\\', '\\'), ('/', '/'), ('b', Char.ofNat 0x08), ('f', Char.ofNat 0x0C),
    ('n', '\n'), ('r', '\r'), ('t', '\t')].lookup c

/-- Reads a text up to its closing quote, as numbers of characters; halves of surrogate pairs stay
apart. -/
def textUnits : List Char → Option (List Nat × List Char)
  | '"' :: rest => some ([], rest)
  | '\\' :: 'u' :: a :: b :: c :: d :: rest => do
    let unit ← Text.ofBase? 16 [a, b, c, d]
    let (units, after) ← textUnits rest
    some (unit :: units, after)
  | '\\' :: letter :: rest => do
    let c ← letterEscape? letter
    let (units, after) ← textUnits rest
    some (c.toNat :: units, after)
  | c :: rest =>
    if c == '\\' || c.toNat < 0x20 then none
    else do
      let (units, after) ← textUnits rest
      some (c.toNat :: units, after)
  | [] => none

/-- The characters that units stand for, if no half of a surrogate pair is alone. -/
def joinUnits : List Nat → Option (List Char)
  | [] => some []
  | high :: low :: rest =>
    if 0xD800 ≤ high && high < 0xDC00 then
      if 0xDC00 ≤ low && low < 0xE000 then
        (joinUnits rest).map (Char.ofNat (0x10000 + (high - 0xD800) * 0x400 + (low - 0xDC00)) :: ·)
      else none
    else if 0xDC00 ≤ high && high < 0xE000 then none
    else (joinUnits (low :: rest)).map (Char.ofNat high :: ·)
  | [unit] => if 0xD800 ≤ unit && unit < 0xE000 then none else some [Char.ofNat unit]

def text? (chars : List Char) : Option (Option String × List Char) :=
  (textUnits chars).map fun (units, rest) => ((joinUnits units).map String.ofList, rest)

/-! ## Numbers -/

def digits? (text : List Char) : Option (List Char × List Char) :=
  let digits := text.takeWhile Char.isDigit
  if digits.isEmpty then none else some (digits, text.dropWhile Char.isDigit)

/-- The whole part of a number, which starts with a zero only if it is a single digit. -/
def whole? (text : List Char) : Option (List Char × List Char) := do
  let (digits, rest) ← digits? text
  if digits.head? == some '0' && 1 < digits.length then none else some (digits, rest)

def fraction? (text : List Char) : Option (List Char × List Char) :=
  match text with
  | '.' :: rest => (digits? rest).map fun (digits, after) => ('.' :: digits, after)
  | _ => some ([], text)

def exponent? (text : List Char) : Option (List Char × List Char) :=
  match text with
  | mark :: rest =>
    if mark == 'e' || mark == 'E' then
      let (sign, digits) := match rest with
        | '+' :: digits => (['+'], digits)
        | '-' :: digits => (['-'], digits)
        | digits => ([], digits)
      (digits? digits).map fun (digits, after) => (mark :: sign ++ digits, after)
    else some ([], text)
  | [] => some ([], [])

def number? (text : List Char) : Option (List Char × List Char) := do
  let (sign, unsigned) := match text with
    | '-' :: rest => (['-'], rest)
    | _ => ([], text)
  let (whole, afterWhole) ← whole? unsigned
  let (fraction, afterFraction) ← fraction? afterWhole
  let (exponent, rest) ← exponent? afterFraction
  some (sign ++ whole ++ fraction ++ exponent, rest)

/-! ## Values -/

mutual

/-- Reads a value; each step uses up some `fuel`. -/
def value? : Nat → List Char → Option (Value × List Char)
  | 0, _ => none
  | fuel + 1, text =>
    match skipSpaces text with
    | 'n' :: 'u' :: 'l' :: 'l' :: rest => some (.null, rest)
    | 't' :: 'r' :: 'u' :: 'e' :: rest => some (.bool true, rest)
    | 'f' :: 'a' :: 'l' :: 's' :: 'e' :: rest => some (.bool false, rest)
    | '"' :: rest => (text? rest).map fun (text, after) => (.string text, after)
    | '[' :: rest => (items? true fuel rest).map fun (items, after) => (.array items, after)
    | '\x7b' :: rest =>
      (members? true fuel rest).map fun (members, after) => (.object members, after)
    | other => (number? other).map fun (number, after) => (.number number, after)

/-- Reads the items of a list and its closing bracket; `first` says whether none came before. -/
def items? (first : Bool) : Nat → List Char → Option (List Value × List Char)
  | 0, _ => none
  | fuel + 1, text => do
    let rest := skipSpaces text
    match rest with
    | ']' :: after => some ([], after)
    | _ =>
      let start ← if first then some rest else afterComma? rest
      let (item, after) ← value? fuel start
      let (items, last) ← items? false fuel after
      some (item :: items, last)

/-- Reads the members of an object and its closing brace; `first` says whether none came before. -/
def members? (first : Bool) : Nat → List Char → Option (List (Option String × Value) × List Char)
  | 0, _ => none
  | fuel + 1, text => do
    let rest := skipSpaces text
    match rest with
    | '\x7d' :: after => some ([], after)
    | _ =>
      let start ← if first then some rest else afterComma? rest
      match skipSpaces start with
      | '"' :: quoted =>
        let (name, afterName) ← text? quoted
        match skipSpaces afterName with
        | ':' :: afterColon =>
          let (value, after) ← value? fuel afterColon
          let (members, last) ← members? false fuel after
          some ((name, value) :: members, last)
        | _ => none
      | _ => none

def afterComma? (text : List Char) : Option (List Char) :=
  match text with
  | ',' :: rest => some rest
  | _ => none

end

def Value.parse? (text : String) : Option Value := do
  let chars := text.toList
  let (value, rest) ← value? (2 * (chars.length + 1)) chars
  if (skipSpaces rest).isEmpty then some value else none

/-! ## What values stand for -/

namespace Value

def text? : Value → Option String
  | .string text => text
  | _ => none

def items? : Value → Option (List Value)
  | .array items => some items
  | _ => none

def texts? (value : Value) : Option (List String) := do
  (← value.items?).mapM (·.text?)

/-- The count that a number is: digits only, and less than `2 ^ 64`. -/
def count? : Value → Option Nat
  | .number text =>
    if text.all Char.isDigit then
      let count := text.foldl (fun value c => value * 10 + (c.toNat - '0'.toNat)) 0
      if count < Nat.pow 2 64 then some count else none
    else none
  | _ => none

end Value

end JavaSlice.Json
