import JavaSlice.Text.Blank
import JavaSlice.Text.Dotted
import JavaSlice.Text.Word

/-!
# Seeds

A seed names the member from which a slice starts, as `Owner#member`. The owner is a dotted name of
a type. Every segment of the owner, and the member, starts with an ASCII letter, an underscore or a
dollar sign and goes on with word characters and dollar signs. Blanks around a seed do not count.
-/

namespace JavaSlice.Slice

/-- A member by the qualified name of its type and its own name. -/
structure Seed where
  owner : String
  member : String
deriving DecidableEq, Repr, Inhabited

namespace Seed

/-- The text of a seed. -/
def display (seed : Seed) : String :=
  seed.owner ++ "#" ++ seed.member

/-- Whether a segment may start with a character. -/
def isSegmentStart (c : Char) : Bool :=
  c.isAlpha || c == '_' || c == '$'

/-- Whether a segment may go on with a character. -/
def isSegmentPart (c : Char) : Bool :=
  Text.isWord c || c == '$'

/-- Whether a text is a segment. -/
def isSegment : List Char → Bool
  | [] => false
  | c :: rest => isSegmentStart c && rest.all isSegmentPart

/-- Reads a seed; `none` if the text is not of the form `Owner#member`. The form is the pattern
`^([A-Za-z_$][\w$]*(?:\.[A-Za-z_$][\w$]*)*)#([A-Za-z_$][\w$]*)$`. A segment holds neither `#` nor a
dot, so the only way to match is to cut at the first `#` and to split what stands before it at its
dots. -/
def ofString? (text : String) : Option Seed := do
  let (owner, member) ← Dotted.cut? '#' (Text.trimChars text.toList)
  if (Dotted.splitAt '.' owner).all isSegment && isSegment member then
    some ⟨String.ofList owner, String.ofList member⟩
  else none

/-- The error for a text that is no seed. -/
def invalidMessage (text : String) : String :=
  "invalid seed '" ++ text ++ "': expected Owner#member"

end Seed

end JavaSlice.Slice
