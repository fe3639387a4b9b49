import JavaSlice.Text.Hex
import JavaSlice.Yaml.Cursor

/-!
# Scalars

The text of a scalar in each of the styles in which it can be written. In plain and quoted scalars a
line break stands for a space, and an empty line for a line break; what separates two words is a
`Gap`, and `Gap.text` is what it stands for. Block scalars keep their lines; in the folded style a
single break between two lines of text is a space too.

Every reader takes the place where the scalar starts and gives its text and the place after it, or
nothing if it is not well formed.
-/

namespace JavaSlice.Yaml

inductive Style where
  | plain
  | singleQuoted
  | doubleQuoted
  | literal
  | folded
deriving DecidableEq, Repr, Inhabited

/-! ## Gaps -/

/-- What stands between two words: blanks, or line breaks with blanks around them. -/
structure Gap where
  blanks : List Char
  breaks : List Char
deriving Inhabited

namespace Gap

def none : Gap :=
  ⟨[], []⟩

/-- The gap that a run of blanks and line breaks makes: blanks count only if there is no line
break. -/
def ofRun (run : List Char) : Gap :=
  let breaks := run.filter isBreak
  ⟨if breaks.isEmpty then run else [], breaks⟩

/-- The text that line breaks between words stand for. -/
def foldBreaks : List Char → List Char
  | [] => []
  | first :: rest =>
    if first == '\n' then
      if rest.isEmpty then [' '] else rest
    else first :: rest

def text (gap : Gap) : List Char :=
  if gap.breaks.isEmpty then gap.blanks else foldBreaks gap.breaks

end Gap

def takeGap (cursor : Cursor) : Gap × Cursor :=
  let (run, after) := cursor.span isGap
  (.ofRun run, after)

/-! ## Plain scalars -/

/-- Whether a character ends a plain word inside brackets. -/
def isFlowIndicator (c : Char) : Bool :=
  [',', '[', ']', '\x7b', '\x7d'].contains c

/-- A word of a plain scalar. A colon ends it if a gap follows; inside brackets commas and brackets
end it too, and a colon must not stand right before one of them. -/
def plainWord (inFlow : Bool) : List Char → Option (List Char)
  | [] => some []
  | c :: rest =>
    let follower := rest.head?
    let colon := c == ':'
    if isGap c then some []
    else if inFlow && colon && (follower.map fun d => d == '?' || isFlowIndicator d).getD false
      then none
    else if colon && (follower.map isGap).getD true then some []
    else if inFlow && isFlowIndicator c then some []
    else (plainWord inFlow rest).map (c :: ·)

/-- Whether a tab stands in the indentation of a line, where `column` is the place of the first
character of a run of blanks and breaks and `margin` the column that text has to reach. -/
def tabInIndent (margin : Nat) : Bool → Nat → List Char → Bool
  | _, _, [] => false
  | afterBreak, column, c :: rest =>
    if isBreak c then tabInIndent margin true 0 rest
    else afterBreak && c == '\t' && column < margin ||
      tabInIndent margin afterBreak (column + 1) rest

/-- What a plain scalar has been read to: its text, the gap after it and the place after the gap. -/
structure PlainScalar where
  text : List Char
  gap : Gap
  after : Cursor

/-- Reads on in a plain scalar, at most one word for each character of `bound`. -/
def plainWords (inFlow : Bool) (margin : Nat) (read : PlainScalar) : List Char → Option PlainScalar
  | [] => some read
  | _ :: bound => do
    let cursor := read.after
    if cursor.atDocumentMarker || cursor.isAt 0 '#' then some read
    else
      let word ← plainWord inFlow cursor.rest
      let after := cursor.drop word.length
      let text := if word.isEmpty then read.text else read.text ++ read.gap.text ++ word
      let pending := if word.isEmpty then read.gap else .none
      let (run, place) := after.span isGap
      if run.isEmpty then some ⟨text, pending, after⟩
      else if tabInIndent margin false after.column run then none
      else
        let read := ⟨text, .ofRun run, place⟩
        if !inFlow && place.column < margin then some read
        else plainWords inFlow margin read bound

/-- A plain scalar, whose lines after the first are indented to `margin` at least. -/
def plainScalar (inFlow : Bool) (margin : Nat) (cursor : Cursor) : Option PlainScalar :=
  plainWords inFlow margin ⟨[], .none, cursor⟩ (' ' :: cursor.rest)

/-! ## Quoted scalars -/

/-- The characters up to a gap or the closing quote of a single-quoted scalar, with their number; a
quote is written twice. -/
def singleQuotedWord : List Char → List Char × Nat
  | [] => ([], 0)
  | '\'' :: '\'' :: rest =>
    let (word, length) := singleQuotedWord rest
    ('\'' :: word, length + 2)
  | c :: rest =>
    if c == '\'' || isGap c then ([], 0)
    else
      let (word, length) := singleQuotedWord rest
      (c :: word, length + 1)

/-- Reads on in a single-quoted scalar, at most one word for each character of `bound`. -/
def singleQuotedWords (text : List Char) (cursor : Cursor) : List Char → Option (List Char × Cursor)
  | [] => none
  | _ :: bound =>
    if cursor.atDocumentMarker then none
    else
      let (word, length) := singleQuotedWord cursor.rest
      let after := cursor.drop length
      if after.rest.isEmpty then none
      else if after.isAt 0 '\'' then some (text ++ word, after.next)
      else
        let (gap, place) := takeGap after
        singleQuotedWords (text ++ word ++ gap.text) place bound

def singleQuoted (cursor : Cursor) : Option (List Char × Cursor) :=
  singleQuotedWords [] cursor (' ' :: cursor.rest)

def charOfCode? (code : Nat) : Option Char :=
  if code.isValidChar then some (Char.ofNat code) else none

/-- The characters that are written as a backslash and one letter. -/
def letterEscapes : List (Char × Nat) :=
  [('0', 0x00), ('a', 0x07), ('b', 0x08), ('t', 0x09), ('\t', 0x09), ('n', 0x0A), ('v', 0x0B),
    ('f', 0x0C),
    ('r', 0x0D), ('e', 0x1B), (' ', 0x20), ('"', 0x22), ('/', 0x2F), ('\\', 0x5C), ('N', 0x85),
    ('_', 0xA0), ('L', 0x2028), ('P', 0x2029)]

/-- The letters that introduce a character by its code, with the number of digits of the code. -/
def codeEscapes : List (Char × Nat) :=
  [('x', 2), ('u', 4), ('U', 8)]

/-- The character that an escape stands for, and the number of characters of the escape, given what
follows the backslash. -/
def escape? (follower : List Char) : Option (Char × Nat) :=
  match follower with
  | [] => none
  | letter :: rest =>
    match letterEscapes.lookup letter with
    | some code => (charOfCode? code).map (·, 2)
    | none => do
      let digits ← codeEscapes.lookup letter
      guard (digits ≤ rest.length)
      let code ← Text.ofBase? 16 (rest.take digits)
      let c ← charOfCode? code
      some (c, digits + 2)

/-- The characters up to a gap, an escaped line break or the closing quote of a double-quoted
scalar, with their number; at most one character is read for each character of `bound`. -/
def doubleQuotedWord (cs : List Char) : List Char → Option (List Char × Nat)
  | [] => some ([], 0)
  | _ :: bound =>
    match cs with
    | [] => some ([], 0)
    | '\\' :: follower =>
      if (follower.head?.map isBreak).getD false then some ([], 0)
      else do
        let (c, length) ← escape? follower
        let (word, more) ← doubleQuotedWord (cs.drop length) bound
        some (c :: word, length + more)
    | c :: rest =>
      if c == '"' || isGap c then some ([], 0)
      else (doubleQuotedWord rest bound).map fun (word, length) => (c :: word, length + 1)

/-- Reads on in a double-quoted scalar, at most one word for each character of `bound`. After an
escaped line break the breaks that follow are kept and the blanks are dropped. -/
def doubleQuotedWords (text : List Char) (cursor : Cursor) : List Char → Option (List Char × Cursor)
  | [] => none
  | _ :: bound =>
    if cursor.atDocumentMarker then none
    else do
      let (word, length) ← doubleQuotedWord cursor.rest cursor.rest
      let after := cursor.drop length
      if after.rest.isEmpty then none
      else if after.isAt 0 '"' then some (text ++ word, after.next)
      else if after.isAt 0 '\\' then
        let (run, place) := (after.drop 2).span isGap
        doubleQuotedWords (text ++ word ++ run.filter isBreak) place bound
      else
        let (gap, place) := takeGap after
        doubleQuotedWords (text ++ word ++ gap.text) place bound

def doubleQuoted (cursor : Cursor) : Option (List Char × Cursor) :=
  doubleQuotedWords [] cursor (' ' :: cursor.rest)

/-! ## Block scalars -/

/-- What happens to the line breaks at the end of a block scalar. -/
inductive Chomping where
  | strip
  | clip
  | keep
deriving DecidableEq, Repr

def chomping? (cursor : Cursor) : Option Chomping :=
  if cursor.isAt 0 '+' then some .keep else if cursor.isAt 0 '-' then some .strip else none

def indentDigit? (cursor : Cursor) : Option Nat :=
  (cursor.peek? 0).bind fun c => if c.isDigit then some (c.toNat - '0'.toNat) else none

/-- What stands after the sign of a block scalar: what happens to the line breaks at its end, and
how far it is indented, in either order; zero is no indentation. -/
def blockHeader (cursor : Cursor) : Option (Chomping × Option Nat × Cursor) :=
  let (chomping, digit, after) := match chomping? cursor with
    | some chomping =>
      match indentDigit? cursor.next with
      | some digit => (chomping, some digit, cursor.next.next)
      | none => (chomping, none, cursor.next)
    | none =>
      match indentDigit? cursor with
      | some digit =>
        match chomping? cursor.next with
        | some chomping => (chomping, some digit, cursor.next.next)
        | none => (.clip, some digit, cursor.next)
      | none => (.clip, none, cursor)
  if digit == some 0 then none else some (chomping, digit, after)

/-- The place after the blanks and the comment at the end of a line. -/
def skipLineRest (cursor : Cursor) : Cursor :=
  let after := cursor.dropWhile isBlank
  if after.isAt 0 '#' then after.dropWhile (!isBreak ·) else after

/-- The empty lines at a place: their breaks, the widest column reached, and the place after them.
An indentation of `none` is not known yet, so that all blanks count as indentation. -/
def emptyLines (indent : Option Nat) (breaks : List Char) (widest : Nat) (cursor : Cursor) :
    List Char → Option (List Char × Nat × Cursor)
  | [] => none
  | _ :: bound =>
    let spaces := cursor.rest.takeWhile (· == ' ')
    let wanted := match indent with
      | some column => min spaces.length (column - cursor.column)
      | none => spaces.length
    let after := cursor.drop wanted
    let inIndent := (indent.map fun column => decide (after.column < column)).getD true
    if inIndent && after.isAt 0 '\t' then none
    else
      match after.rest with
      | c :: _ =>
        if isBreak c then emptyLines indent (breaks ++ [c]) (max widest after.column)
          after.next bound
        else some (breaks, max widest after.column, after)
      | [] => some (breaks, max widest after.column, after)

/-- The lines of a block scalar that have been read. -/
structure BlockLines where
  text : List Char
  lineBreak : List Char
  /-- The breaks of the empty lines after it. -/
  emptyBreaks : List Char
  /-- Whether the last line of text starts with a blank. -/
  startsBlank : Bool
  after : Cursor

/-- Reads the lines of a block scalar that is indented to `indent`, at most one for each character
of `bound`. -/
def blockLines (folded : Bool) (indent : Nat) (read : BlockLines) : List Char → Option BlockLines
  | [] => some read
  | _ :: bound => do
    let cursor := read.after
    if cursor.column != indent || cursor.rest.isEmpty then some read
    else
      let blank := (cursor.rest.head?.map isBlank).getD false
      let folds := folded && read.lineBreak == ['\n'] && !read.startsBlank && !blank
      let lineBreak := if folds then (if read.emptyBreaks.isEmpty then [' '] else [])
        else read.lineBreak
      let (line, lineEnd) := cursor.span (!isBreak ·)
      let ending := lineEnd.rest.take 1
      let (breaks, _, after) ← emptyLines (some indent) [] 0 lineEnd.next (' ' :: cursor.rest)
      blockLines folded indent
        ⟨read.text ++ lineBreak ++ read.emptyBreaks ++ line, ending, breaks, blank, after⟩ bound

/-- A block scalar, from after its sign; `margin` is the least column that its lines reach. -/
def blockScalar (folded : Bool) (margin : Nat) (cursor : Cursor) : Option (List Char × Cursor) := do
  let (chomping, digit, header) ← blockHeader cursor
  let lineEnd := skipLineRest header
  guard lineEnd.atLineEnd
  let first := lineEnd.next
  let bound := ' ' :: cursor.rest
  let given := digit.map (margin - 1 + ·)
  let (breaks, widest, after) ← emptyLines given [] 0 first bound
  let indent := given.getD (max widest (max margin 1))
  let lines ← blockLines folded indent ⟨[], [], breaks, false, after⟩ bound
  let tail := match chomping with
    | .strip => []
    | .clip => lines.lineBreak
    | .keep => lines.lineBreak ++ lines.emptyBreaks
  some (lines.text ++ tail, lines.after)

end JavaSlice.Yaml
