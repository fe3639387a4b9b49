import JavaSlice.Syntax.Lexeme

/-!
# Tokens

A source text is a sequence of tokens, with white space and comments between them. Each token knows
where it starts and ends, so that a piece of source can be cut out as it is written. The sequence
ends with a token of its own.
-/

namespace JavaSlice.Syntax

inductive TokenKind where
  | word
  | number
  | character
  | string
  | symbol
  | unknown
  | finish
deriving DecidableEq, Repr, Inhabited

/-- A token and its place in the source, counted in characters. -/
structure Token where
  kind : TokenKind
  text : String
  start : Nat
  stop : Nat
deriving DecidableEq, Repr, Inhabited

namespace Token

/-- The kinds of token with their shapes; where two shapes fit, the first counts. -/
def shapes : List (TokenKind × Shape) :=
  [(.word, Shape.word), (.number, Shape.number), (.string, Shape.string),
    (.character, Shape.character), (.symbol, Shape.symbol)]

/-- The kind and the length of the token that a text starts with. -/
def classify (text : List Char) : TokenKind × Nat :=
  match shapes.findSome? fun (kind, shape) => (shape text).map (kind, ·) with
  | some found => found
  | none => (.unknown, 1)

def gap? : List Char → Option Nat
  | c :: rest => if Shape.isSpace c then some 1 else Shape.comment (c :: rest)
  | [] => none

/-- The tokens of a text that starts at a place in the source. Every step takes at least one
character, so that `bound` is the length of the text. -/
def scanFrom : Nat → Nat → List Char → List Token
  | bound + 1, place, c :: rest =>
    match gap? (c :: rest) with
    | some n => scanFrom bound (place + n) ((c :: rest).drop n)
    | none =>
      let (kind, n) := classify (c :: rest)
      ⟨kind, String.ofList ((c :: rest).take n), place, place + n⟩ ::
        scanFrom bound (place + n) ((c :: rest).drop n)
  | _, place, _ => [⟨.finish, "", place, place⟩]

/-- The tokens of a source. A byte order mark in front is passed over. -/
def scan (source : List Char) : List Token :=
  match source with
  | '\ufeff' :: rest => scanFrom rest.length 1 rest
  | _ => scanFrom source.length 0 source

def isSymbol (token : Token) (text : String) : Bool :=
  token.kind == .symbol && token.text == text

def isWord (token : Token) (text : String) : Bool :=
  token.kind == .word && token.text == text

end Token

end JavaSlice.Syntax
