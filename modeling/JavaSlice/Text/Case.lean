import JavaSlice.Text.Charset

/-!
# Upper case and lower case

The Unicode properties `Uppercase` and `Lowercase`. The tables list the code points above 127; below
that the properties are the ASCII letters of either case.
-/

namespace JavaSlice.Text

def uppercaseTable : Charset :=
  Charset.ofLengths 0 [192, 23, 1, 7, 153, 2, 1, 1, 1, 1, 3, 2, 1, 1, 1, 2, 1, 3, 2, 4, 1, 2, 1, 3,
    3, 2, 1, 2, 1, 1, 1, 1, 1, 2, 1, 1, 2, 1, 1, 2, 1, 3, 1, 1, 1, 2, 3, 1, 7, 1, 2, 1, 2, 1, 38, 1,
    2, 1, 1, 3, 65, 2, 1, 2, 2, 1, 1, 4, 297, 1, 1, 1, 3, 1, 8, 1, 6, 1, 1, 3, 1, 1, 1, 2, 1, 17, 1,
    9, 35, 1, 2, 3, 31, 1, 2, 1, 1, 2, 2, 51, 144, 2, 111, 38, 2889, 38, 1, 1, 5, 1, 722, 86, 2202,
    43, 2, 3, 584, 8, 8, 6, 10, 8, 8, 8, 8, 6, 26, 8, 72, 4, 12, 4, 12, 4, 12, 5, 11, 4, 262, 1, 4,
    1, 3, 3, 2, 3, 2, 1, 3, 5, 12, 4, 2, 4, 10, 2, 5, 1, 26, 16, 19, 1, 818, 26, 1840, 48, 48, 1, 1,
    3, 8, 4, 1, 1, 2, 1, 8, 3, 106, 1, 1, 1, 4, 1, 31366, 1, 1, 1, 1, 2, 12, 1, 1, 1, 2, 1, 1, 1,
    23, 5, 1, 5, 15, 4, 1, 1, 6, 1, 5, 1, 1, 1, 28, 1, 22315, 26, 1221, 40, 136, 36, 156, 11, 1, 15,
    1, 7, 1, 2, 1770, 51, 3053, 32, 21888, 32, 26016, 26, 26, 26, 26, 26, 26, 1, 1, 2, 2, 1, 2, 2,
    2, 4, 1, 8, 26, 26, 26, 2, 1, 4, 2, 8, 1, 7, 27, 2, 1, 4, 1, 5, 1, 1, 3, 7, 27, 26, 26, 26, 26,
    26, 26, 26, 26, 26, 26, 26, 30, 25, 33, 25, 33, 25, 33, 25, 33, 25, 33, 1, 4405, 34, 2062, 26,
    6, 26, 6, 26]
    ++ [⟨256, 310, 2⟩, ⟨313, 327, 2⟩, ⟨330, 374, 2⟩, ⟨461, 475, 2⟩, ⟨478, 494, 2⟩, ⟨506, 562, 2⟩,
      ⟨584, 590, 2⟩, ⟨984, 1006, 2⟩, ⟨1120, 1152, 2⟩, ⟨1162, 1214, 2⟩, ⟨1219, 1229, 2⟩,
      ⟨1232, 1326, 2⟩, ⟨7680, 7828, 2⟩, ⟨7838, 7934, 2⟩, ⟨8025, 8031, 2⟩, ⟨8484, 8488, 2⟩,
      ⟨11367, 11371, 2⟩, ⟨11394, 11490, 2⟩, ⟨42560, 42604, 2⟩, ⟨42624, 42650, 2⟩, ⟨42786, 42798, 2⟩,
      ⟨42802, 42862, 2⟩, ⟨42880, 42886, 2⟩, ⟨42902, 42920, 2⟩, ⟨42934, 42946, 2⟩]

def lowercaseTable : Charset :=
  Charset.ofLengths 0 [170, 1, 10, 1, 4, 1, 36, 24, 1, 8, 55, 2, 15, 2, 48, 1, 1, 1, 1, 3, 2, 1, 1,
    1, 2, 1, 3, 2, 4, 1, 2, 1, 3, 3, 2, 1, 9, 1, 1, 2, 1, 1, 2, 1, 3, 1, 1, 1, 2, 2, 2, 3, 6, 1, 2,
    1, 18, 2, 17, 2, 2, 1, 1, 1, 61, 7, 2, 1, 2, 2, 1, 1, 12, 69, 1, 36, 7, 2, 30, 5, 96, 1, 43, 1,
    1, 1, 3, 1, 2, 4, 18, 1, 27, 35, 1, 2, 3, 3, 23, 5, 1, 1, 2, 1, 2, 2, 51, 48, 110, 2, 144, 41,
    2887, 43, 1, 4, 760, 6, 2178, 9, 119, 192, 213, 9, 97, 9, 8, 6, 10, 8, 8, 8, 8, 6, 10, 8, 8, 8,
    8, 14, 2, 8, 8, 8, 8, 8, 8, 5, 1, 2, 6, 1, 3, 3, 1, 2, 8, 4, 2, 2, 8, 8, 10, 3, 1, 2, 121, 1,
    13, 1, 16, 13, 109, 1, 3, 2, 3, 1, 27, 1, 4, 1, 4, 1, 2, 2, 8, 4, 4, 1, 33, 16, 4, 1, 843, 26,
    1862, 48, 1, 1, 3, 2, 10, 1, 1, 2, 1, 8, 101, 2, 7, 1, 1, 1, 4, 1, 12, 38, 1, 1, 5, 1, 31085, 3,
    145, 3, 61, 10, 1, 1, 1, 1, 15, 1, 1, 1, 2, 1, 1, 3, 25, 1, 24, 1, 1, 1, 39, 3, 1, 1, 1, 3, 821,
    43, 1, 14, 6, 80, 20288, 7, 12, 5, 1065, 26, 1229, 40, 136, 36, 155, 11, 1, 15, 1, 7, 1, 2, 451,
    1, 2, 3, 1, 42, 1, 9, 1285, 51, 3021, 32, 21888, 32, 26010, 26, 26, 7, 1, 18, 26, 26, 26, 4, 1,
    1, 1, 7, 1, 11, 26, 26, 26, 26, 26, 26, 26, 26, 26, 26, 26, 26, 26, 26, 26, 26, 26, 28, 28, 25,
    1, 6, 26, 25, 1, 6, 26, 25, 1, 6, 26, 25, 1, 6, 26, 25, 1, 6, 1, 1, 1844, 10, 1, 20, 6, 6, 261,
    62, 2228, 34]
    ++ [⟨257, 309, 2⟩, ⟨314, 326, 2⟩, ⟨331, 375, 2⟩, ⟨417, 421, 2⟩, ⟨460, 474, 2⟩, ⟨479, 493, 2⟩,
      ⟨505, 561, 2⟩, ⟨583, 589, 2⟩, ⟨985, 1005, 2⟩, ⟨1121, 1153, 2⟩, ⟨1163, 1215, 2⟩,
      ⟨1218, 1228, 2⟩, ⟨1233, 1327, 2⟩, ⟨7681, 7827, 2⟩, ⟨7839, 7933, 2⟩, ⟨11368, 11372, 2⟩,
      ⟨11393, 11489, 2⟩, ⟨42561, 42605, 2⟩, ⟨42625, 42649, 2⟩, ⟨42787, 42797, 2⟩, ⟨42803, 42861, 2⟩,
      ⟨42879, 42887, 2⟩, ⟨42903, 42921, 2⟩, ⟨42933, 42947, 2⟩, ⟨42961, 42969, 2⟩]

def isUppercase (c : Char) : Bool :=
  if c.toNat < 128 then c.isUpper else uppercaseTable.contains c

def isLowercase (c : Char) : Bool :=
  if c.toNat < 128 then c.isLower else lowercaseTable.contains c

end JavaSlice.Text
