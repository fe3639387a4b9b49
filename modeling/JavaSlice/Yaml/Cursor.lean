/-!
# Places in a YAML text

A `Cursor` is a place in a text: the characters from there on, and the line and column. Lines of a
text end in a line feed, a carriage return, both, or U+0085; `normalize` makes a line feed of each.
U+2028 and U+2029 end a line too, and are kept as they are.
-/

namespace JavaSlice.Yaml

/-! ## Characters -/

def isBlank (c : Char) : Bool :=
  c == ' ' || c == '\t'

def isBreak (c : Char) : Bool :=
  c == '\n' || c.toNat == 0x2028 || c.toNat == 0x2029

/-- Whether a character separates words. -/
def isGap (c : Char) : Bool :=
  isBlank c || isBreak c

/-- Whether a character may stand in the name of an anchor or a directive. -/
def isNameChar (c : Char) : Bool :=
  c.isAlphanum || c == '_' || c == '-'

/-- Whether a character may stand in a text at all. -/
def isPrintable (c : Char) : Bool :=
  let code := c.toNat
  code == 0x09 || code == 0x0A || code == 0x0D || (0x20 ≤ code && code ≤ 0x7E) || code == 0x85 ||
    (0xA0 ≤ code && code ≤ 0xD7FF) || (0xE000 ≤ code && code ≤ 0xFFFD) || 0x10000 ≤ code

/-- A text in which each line ends in a single character. -/
def normalize : List Char → List Char
  | [] => []
  | '\r' :: '\n' :: rest => '\n' :: normalize rest
  | c :: rest => (if c == '\r' || c.toNat == 0x85 then '\n' else c) :: normalize rest

/-! ## Cursors -/

/-- A place in a text. -/
structure Cursor where
  rest : List Char
  /-- The number of characters before the place. -/
  index : Nat
  line : Nat
  column : Nat
deriving Inhabited

namespace Cursor

def start (text : List Char) : Cursor :=
  ⟨text, 0, 0, 0⟩

def next (cursor : Cursor) : Cursor :=
  match cursor.rest with
  | [] => cursor
  | c :: rest =>
    if isBreak c then ⟨rest, cursor.index + 1, cursor.line + 1, 0⟩
    else ⟨rest, cursor.index + 1, cursor.line, cursor.column + 1⟩

/-- The place some characters further on. -/
def drop : Nat → Cursor → Cursor
  | 0, cursor => cursor
  | n + 1, cursor => drop n cursor.next

/-- The characters from a place on that pass a test, and the place after them. -/
def span (test : Char → Bool) (cursor : Cursor) : List Char × Cursor :=
  let taken := cursor.rest.takeWhile test
  (taken, cursor.drop taken.length)

def dropWhile (test : Char → Bool) (cursor : Cursor) : Cursor :=
  (cursor.span test).2

def peek? (cursor : Cursor) (n : Nat) : Option Char :=
  cursor.rest[n]?

def isAt (cursor : Cursor) (n : Nat) (c : Char) : Bool :=
  cursor.peek? n == some c

/-- Whether a word cannot go on some places on: a blank, the end of a line or the end of the text is
there. -/
def endsWordAt (cursor : Cursor) (n : Nat) : Bool :=
  ((cursor.peek? n).map isGap).getD true

def atLineEnd (cursor : Cursor) : Bool :=
  ((cursor.peek? 0).map isBreak).getD true

/-- Whether the marker for the start or the end of a document is at a place. -/
def atMarker (cursor : Cursor) (c : Char) : Bool :=
  cursor.column == 0 && cursor.isAt 0 c && cursor.isAt 1 c && cursor.isAt 2 c && cursor.endsWordAt 3

def atDocumentMarker (cursor : Cursor) : Bool :=
  cursor.atMarker '-' || cursor.atMarker '.'

end Cursor

end JavaSlice.Yaml
