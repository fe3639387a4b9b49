import JavaSlice.Text.Blank
import JavaSlice.Text.Dotted

/-!
# Import lines

An import makes the names of another package or the static members of a type visible in a file. A
line is read from its text, blanks and all, and written in one canonical form. Reading a line that
was written gives the import back.
-/

namespace JavaSlice.Source

/-- An import line. -/
structure Import where
  /-- The dotted name, without a final `.*`. -/
  name : String
  isStatic : Bool
  isWildcard : Bool
deriving DecidableEq, Repr, Inhabited

namespace Import

/-- The last segment of the name. -/
def simpleName (line : Import) : String :=
  Dotted.last line.name

/-- The name without its last segment. -/
def qualifier? (line : Import) : Option String :=
  Dotted.qualifier? line.name

/-- Whether the line imports one type, as opposed to static members or a whole package. -/
def isSingleType (line : Import) : Bool :=
  !line.isStatic && !line.isWildcard

/-- The text of a line. -/
def render (line : Import) : String :=
  (if line.isStatic then "import static " else "import ") ++ line.name ++
    (if line.isWildcard then ".*;" else ";")

/-- Imports are ordered by name; plain ones come before static ones and single ones before
wildcards. -/
def le (first second : Import) : Bool :=
  if first.name = second.name then
    if first.isStatic = second.isStatic then !first.isWildcard || second.isWildcard
    else second.isStatic
  else decide (first.name < second.name)

/-! ## Reading a line -/

/-- The text of a line between the keyword `import` and the final semicolons, trimmed. -/
def bodyOfLine? (line : List Char) : Option (List Char) :=
  ("import".toList.isPrefixOf? (Text.trimChars line)).map fun body =>
    Text.trimChars (body.reverse.dropWhile (· == ';')).reverse

/-- Takes the keyword `static` off a line's body; it is the keyword only if a blank follows. -/
def takeStatic (body : List Char) : Bool × List Char :=
  match "static".toList.isPrefixOf? body with
  | some (c :: rest) => if Text.isBlank c then (true, c :: rest) else (false, body)
  | _ => (false, body)

/-- Takes a final `.*` off a name. -/
def takeWildcard (name : List Char) : Bool × List Char :=
  match name.reverse with
  | '*' :: '.' :: rest => (true, rest.reverse)
  | _ => (false, name)

/-- Reads the text of an import line; `none` if it is no import line or imports nothing. -/
def ofChars? (line : List Char) : Option Import := do
  let body ← bodyOfLine? line
  let (isStatic, rest) := takeStatic body
  let (isWildcard, name) := takeWildcard (rest.filter (!Text.isBlank ·))
  if name.isEmpty then none
  else some ⟨String.ofList name, isStatic, isWildcard⟩

@[inherit_doc ofChars?]
def ofString? (line : String) : Option Import :=
  ofChars? line.toList

end Import

end JavaSlice.Source
