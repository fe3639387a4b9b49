import JavaSlice.Text.Identifier

/-!
# Word characters

A word character is alphabetic, a mark, a decimal digit, a connector such as the underscore, or one
of the two joiners. Above 127 this class and the class of characters that continue an identifier
differ in a few places only, which the two tables list.
-/

namespace JavaSlice.Text

/-- Word characters above 127 that do not continue an identifier. -/
def wordOnlyTable : Charset :=
  [⟨890, 890, 1⟩, ⟨1160, 1161, 1⟩, ⟨6846, 6846, 1⟩, ⟨8204, 8205, 1⟩, ⟨8413, 8416, 1⟩,
   ⟨8418, 8420, 1⟩, ⟨9398, 9449, 1⟩, ⟨11823, 11823, 1⟩, ⟨42608, 42610, 1⟩, ⟨64606, 64611, 1⟩,
   ⟨65018, 65019, 1⟩, ⟨65136, 65150, 2⟩, ⟨127280, 127305, 1⟩, ⟨127312, 127337, 1⟩,
   ⟨127344, 127369, 1⟩]

/-- Characters above 127 that continue an identifier but are no word characters. -/
def identifierOnlyTable : Charset :=
  [⟨183, 183, 1⟩, ⟨903, 903, 1⟩, ⟨4969, 4977, 1⟩, ⟨6618, 6618, 1⟩, ⟨8472, 8472, 1⟩, ⟨8494, 8494, 1⟩]

def isWord (c : Char) : Bool :=
  if c.toNat < 128 then c.isAlphanum || c == '_'
  else
    wordOnlyTable.contains c ||
      (identifierStartTable.contains c || identifierContinueTable.contains c)
        && !identifierOnlyTable.contains c

end JavaSlice.Text
