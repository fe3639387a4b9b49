/-!
# JSON values

A JSON value, with numbers as they are written and the members of an object in order. A text may
hold half of a surrogate pair, written as an escape; it is no sequence of characters then, and
stands as `none`.

`Value.render` writes a value over several lines: two blanks for each level, and nothing between the
brackets of an empty list or object.
-/

namespace JavaSlice.Json

/-- A JSON value. -/
inductive Value where
  | null
  | bool (value : Bool)
  | number (text : List Char)
  | string (text : Option String)
  | array (items : List Value)
  | object (members : List (Option String × Value))
deriving Repr, Inhabited

/-! ## Writing -/

/-- A hexadecimal digit. -/
def hexDigit (n : Nat) : Char :=
  (Nat.toDigits 16 n).headD '0'

/-- A character as it stands inside quotes. -/
def escape (c : Char) : List Char :=
  if c == '"' then ['\\', '"']
  else if c == '\\' then ['\\', '\\']
  else if c == '\n' then ['\\', 'n']
  else if c == '\r' then ['\\', 'r']
  else if c == '\t' then ['\\', 't']
  else if c.toNat == 0x08 then ['\\', 'b']
  else if c.toNat == 0x0C then ['\\', 'f']
  else if c.toNat < 0x20
    then ['\\', 'u', '0', '0', hexDigit (c.toNat / 16), hexDigit (c.toNat % 16)]
  else [c]

/-- A text between quotes. -/
def quote (text : String) : List Char :=
  '"' :: text.toList.flatMap escape ++ ['"']

/-- The start of a line inside `level` brackets. -/
def newLine (level : Nat) : List Char :=
  '\n' :: List.replicate (2 * level) ' '

mutual

/-- The text of a value inside `level` others. -/
def Value.chars (level : Nat) : Value → List Char
  | .null => ['n', 'u', 'l', 'l']
  | .bool value => if value then ['t', 'r', 'u', 'e'] else ['f', 'a', 'l', 's', 'e']
  | .number text => text
  | .string text => quote (text.getD "")
  | .array [] => ['[', ']']
  | .array (item :: items) =>
    '[' :: newLine (level + 1) ++ item.chars (level + 1) ++ itemChars (level + 1) items ++
      newLine level ++ [']']
  | .object [] => ['\x7b', '\x7d']
  | .object ((name, value) :: members) =>
    '\x7b' :: newLine (level + 1) ++ quote (name.getD "") ++ [':', ' '] ++
      value.chars (level + 1) ++ memberChars (level + 1) members ++ newLine level ++ ['\x7d']

/-- The later items of a list. -/
def itemChars (level : Nat) : List Value → List Char
  | [] => []
  | item :: items => ',' :: newLine level ++ item.chars level ++ itemChars level items

/-- The later members of an object. -/
def memberChars (level : Nat) : List (Option String × Value) → List Char
  | [] => []
  | (name, value) :: members =>
    ',' :: newLine level ++ quote (name.getD "") ++ [':', ' '] ++ value.chars level ++
      memberChars level members

end

/-- The text of a value. -/
def Value.render (value : Value) : String :=
  String.ofList (value.chars 0)

end JavaSlice.Json
