import JavaSlice.Text.Identifier

/-!
# Shapes of lexemes

How long is the number, the string or the comment that a text starts with? A `Shape` answers with
the length of the longest beginning that has the shape, or with nothing. Shapes are put together
like regular expressions; strings need a stack, because a template inside a string holds an
expression, and that may hold strings again.

The shapes of numbers are meant to be those of tree-sitter, which are not those of the language:
`12__3` is a number and `1__2` is not.
-/

namespace JavaSlice.Syntax

/-- The length of the longest beginning of a text that has a shape. -/
abbrev Shape := List Char → Option Nat

namespace Shape

def one (isClass : Char → Bool) : Shape
  | c :: _ => if isClass c then some 1 else none
  | [] => none

def oneOf (cs : String) : Shape :=
  one cs.toList.contains

def seq (first second : Shape) : Shape := fun text =>
  (first text).bind fun n => (second (text.drop n)).map (n + ·)

def optional (shape : Shape) : Shape := fun text =>
  some ((shape text).getD 0)

def longest (first second : Shape) : Shape := fun text =>
  match first text, second text with
  | some n, some m => some (max n m)
  | some n, none => some n
  | none, other => other

def exact (word : String) : Shape := fun text =>
  if word.toList.isPrefixOf text then some word.length else none

/-- The length of the longest beginning of a text whose characters are of a class. -/
def runLength (isClass : Char → Bool) : List Char → Nat
  | c :: rest => if isClass c then runLength isClass rest + 1 else 0
  | [] => 0

/-! ## Numbers -/

def isHexDigit (c : Char) : Bool :=
  c.isDigit || ('a' ≤ c && c ≤ 'f') || ('A' ≤ c && c ≤ 'F')

/-- The length of the groups of digits that a text goes on with; underscores stand between groups,
one at a time unless `many` is set. -/
def groupsLength (isDigit : Char → Bool) (many : Bool) : List Char → Nat
  | c :: rest =>
    let n := groupsLength isDigit many rest
    if isDigit c then n + 1
    else if c == '_' && 0 < n && (many || rest.head? != some '_') then n + 1
    else 0
  | [] => 0

def groups (isDigit : Char → Bool) (many : Bool) : Shape
  | c :: rest => if isDigit c then some (groupsLength isDigit many (c :: rest)) else none
  | [] => none

/-- The digits of a decimal number that has no needless zero in front. The first digit is a group of
its own, with one underscore after it at most. -/
def plainDigits : Shape :=
  longest (exact "0") <| seq (oneOf "123456789") <|
    optional (seq (optional (exact "_")) (groups Char.isDigit true))

def decimals : Shape :=
  groups Char.isDigit false

def hexDigits : Shape :=
  groups isHexDigit false

def longSuffix : Shape :=
  optional (oneOf "lL")

def floatSuffix : Shape :=
  oneOf "fFdD"

def exponent : Shape :=
  seq (oneOf "eE") (seq (optional (oneOf "+-")) decimals)

def hexMark : Shape :=
  seq (exact "0") (oneOf "xX")

/-- An integer in any of the four notations. -/
def integer : Shape :=
  longest (seq plainDigits longSuffix) <|
    longest (seq hexMark (seq hexDigits longSuffix)) <|
      longest
        (seq (longest (seq (exact "0") (oneOf "oO")) (exact "0"))
          (seq (groups (fun c => '0' ≤ c && c ≤ '7') false) longSuffix))
        (seq (seq (exact "0") (oneOf "bB"))
          (seq (groups (fun c => c == '0' || c == '1') false) longSuffix))

def decimalFloat : Shape :=
  let tail := seq (optional exponent) (optional floatSuffix)
  longest (seq decimals (seq (exact ".") (seq (optional decimals) tail))) <|
    longest (seq (exact ".") (seq decimals tail)) <|
      longest (seq plainDigits (seq exponent (optional floatSuffix)))
        (seq plainDigits (seq (optional exponent) floatSuffix))

def hexFloat : Shape :=
  let mantissa := longest (seq hexDigits (optional (exact ".")))
    (seq (optional hexDigits) (seq (exact ".") hexDigits))
  let power :=
    seq (oneOf "pP") (seq (optional (oneOf "+-")) (seq plainDigits (optional floatSuffix)))
  seq hexMark (seq mantissa (optional power))

def number : Shape :=
  longest integer (longest decimalFloat hexFloat)

/-! ## Characters and strings -/

def characterRest : List Char → Option Nat
  | '\'' :: _ => some 1
  | '\n' :: _ => none
  | '\\' :: _ :: rest => (characterRest rest).map (· + 2)
  | _ :: rest => (characterRest rest).map (· + 1)
  | [] => none

def character : Shape
  | '\'' :: '\'' :: _ => none
  | '\'' :: rest => (characterRest rest).map (· + 1)
  | _ => none

/-- What a text inside a string literal belongs to. -/
inductive Nesting where
  | quoted
  | block
  /-- An expression between braces, inside a template. -/
  | code
deriving DecidableEq, Repr

/-- The length of a text up to the end of the outermost string, where the stack says what is
open. -/
def stringRest : List Nesting → List Char → Option Nat
  | [], _ => some 0
  | .quoted :: stack, '"' :: rest => (stringRest stack rest).map (· + 1)
  | .block :: stack, '"' :: '"' :: '"' :: rest => (stringRest stack rest).map (· + 3)
  | .code :: stack, '}' :: rest => (stringRest stack rest).map (· + 1)
  | .code :: stack, '{' :: rest => (stringRest (.code :: .code :: stack) rest).map (· + 1)
  | .code :: stack, '"' :: '"' :: '"' :: rest =>
    (stringRest (.block :: .code :: stack) rest).map (· + 3)
  | .code :: stack, '"' :: rest => (stringRest (.quoted :: .code :: stack) rest).map (· + 1)
  | .code :: stack, '\'' :: '\\' :: _ :: '\'' :: rest =>
    (stringRest (.code :: stack) rest).map (· + 4)
  | .code :: stack, '\'' :: _ :: '\'' :: rest => (stringRest (.code :: stack) rest).map (· + 3)
  | .code :: stack, _ :: rest => (stringRest (.code :: stack) rest).map (· + 1)
  | open_, '\\' :: '{' :: rest => (stringRest (.code :: open_) rest).map (· + 2)
  | open_, '\\' :: _ :: rest => (stringRest open_ rest).map (· + 2)
  | open_, _ :: rest => (stringRest open_ rest).map (· + 1)
  | _ :: _, [] => none

def string : Shape
  | '"' :: '"' :: '"' :: rest => (stringRest [.block] rest).map (· + 3)
  | '"' :: rest => (stringRest [.quoted] rest).map (· + 1)
  | _ => none

/-! ## Words, symbols and what is passed over -/

def word : Shape
  | c :: rest =>
    if Text.isIdentifierStart c then some (runLength Text.isIdentifierPart rest + 1) else none
  | [] => none

/-- The symbols, each after the longer ones that start with it. A closing angle bracket always
stands alone, because in `List<List<T>>` two of them close two lists. -/
def symbols : List String :=
  ["@interface", "<<=", "...", "->", "::", "==", "!=", "<=", "<<", "&&", "||", "++", "--",
    "+=", "-=",
    "*=", "/=", "&=", "|=", "^=", "%=", "(", ")", "\x7b", "\x7d", "[", "]", ";", ",", ".", "@", "=",
    "!", "<", ">", "+", "-", "*", "/", "&", "|", "^", "%", "~", "?", ":"]

def symbol : Shape := fun text =>
  symbols.findSome? (exact · text)

def isSpace (c : Char) : Bool :=
  c == ' ' || (9 ≤ c.toNat && c.toNat ≤ 13)

def commentRest : List Char → Option Nat
  | '*' :: '/' :: _ => some 2
  | _ :: rest => (commentRest rest).map (· + 1)
  | [] => none

def comment : Shape
  | '/' :: '/' :: rest => some (runLength (· != '\n') rest + 2)
  | '/' :: '*' :: rest => (commentRest rest).map (· + 2)
  | _ => none

end Shape

end JavaSlice.Syntax
