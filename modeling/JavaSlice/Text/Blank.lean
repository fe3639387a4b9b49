/-!
# Blank characters

A character is blank when it has the Unicode property `White_Space`. Texts are trimmed of blanks at
both ends, and names that are written with blanks in them (`a . b`) are compared without them.
-/

namespace JavaSlice.Text

def isBlank (c : Char) : Bool :=
  let code := c.toNat
  (9 ≤ code && code ≤ 13) || code == 0x20 || code == 0x85 || code == 0xA0 || code == 0x1680 ||
    (0x2000 ≤ code && code ≤ 0x200A) || code == 0x2028 || code == 0x2029 || code == 0x202F ||
    code == 0x205F || code == 0x3000

def trimEndChars (cs : List Char) : List Char :=
  (cs.reverse.dropWhile isBlank).reverse

def trimChars (cs : List Char) : List Char :=
  trimEndChars (cs.dropWhile isBlank)

def trim (s : String) : String :=
  String.ofList (trimChars s.toList)

def dropBlanks (s : String) : String :=
  String.ofList (s.toList.filter (!isBlank ·))

end JavaSlice.Text
