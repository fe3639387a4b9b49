import JavaSlice.Yaml.Scalar

/-!
# Tokens

A YAML text is cut into tokens. Indentation is turned into tokens as well: a token opens a block
where its first entry is indented further than the block around it, and a token closes it where the
indentation ends.

Whether a scalar is the key of a mapping shows only at the colon after it. So the place of
everything that could be a key is remembered; when the colon comes, the token for a key is put in
front of what was remembered. A key has to stand on one line, within 1024 characters.
-/

namespace JavaSlice.Yaml

inductive Token where
  | versionDirective (major minor : Nat)
  | tagDirective (handle expansion : String)
  | documentStart
  | documentEnd
  | blockSequenceStart
  | blockMappingStart
  | blockEnd
  | flowSequenceStart
  | flowSequenceEnd
  | flowMappingStart
  | flowMappingEnd
  | blockEntry
  | flowEntry
  | key
  | value
  | alias (name : String)
  | anchor (name : String)
  | tag (handle suffix : String)
  | scalar (text : String) (style : Style)
deriving DecidableEq, Repr, Inhabited

/-! ## The state of the scanner -/

/-- Something that may turn out to be a key. -/
structure PossibleKey where
  /-- Whether it has to be one: it stands where an entry of the block starts. -/
  required : Bool
  /-- The number of tokens before it. -/
  token : Nat
  index : Nat
  line : Nat
  column : Nat
deriving Repr

structure Scanner where
  cursor : Cursor
  /-- The least column of what belongs to the innermost block: one more than its indentation. -/
  margin : Nat
  /-- The margins of the blocks around it. -/
  margins : List Nat
  /-- The possible key of the innermost brackets, and of each around them. -/
  keys : List (Option PossibleKey)
  keyAllowed : Bool
  tokens : List Token

namespace Scanner

def start (text : List Char) : Scanner :=
  { cursor := .start text, margin := 0, margins := [], keys := [none], keyAllowed :=
    true, tokens := [] }

def inFlow (scanner : Scanner) : Bool :=
  1 < scanner.keys.length

def emit (token : Token) (scanner : Scanner) : Scanner :=
  { scanner with tokens := scanner.tokens ++ [token] }

/-- Adds a token behind the first `count` tokens. -/
def insert (count : Nat) (token : Token) (scanner : Scanner) : Scanner :=
  { scanner with tokens := scanner.tokens.take count ++ token :: scanner.tokens.drop count }

def moveTo (cursor : Cursor) (scanner : Scanner) : Scanner :=
  { scanner with cursor }

def allowKey (allowed : Bool) (scanner : Scanner) : Scanner :=
  { scanner with keyAllowed := allowed }

/-! ## Possible keys -/

/-- Forgets the possible key of the innermost brackets, which is an error if it has to be one. -/
def dropKey (scanner : Scanner) : Option Scanner :=
  match scanner.keys with
  | some key :: rest => if key.required then none else some { scanner with keys := none :: rest }
  | _ => some scanner

/-- Remembers that what comes next may be a key. -/
def saveKey (scanner : Scanner) : Option Scanner :=
  if scanner.keyAllowed then do
    let dropped ← scanner.dropKey
    let cursor := scanner.cursor
    let key : PossibleKey :=
      { required := !scanner.inFlow && scanner.margin == cursor.column + 1
        token := scanner.tokens.length
        index := cursor.index
        line := cursor.line
        column := cursor.column }
    some { dropped with keys := some key :: dropped.keys.tail }
  else some scanner

/-- Whether a possible key is too far back to be one. -/
def isStale (cursor : Cursor) (key : PossibleKey) : Bool :=
  key.line < cursor.line || key.index + 1024 < cursor.index

/-- Forgets the possible keys that are too far back, which is an error if one of them has to be
one. -/
def dropStaleKeys (scanner : Scanner) : Option Scanner := do
  let keys ← scanner.keys.mapM fun
    | some key =>
      if isStale scanner.cursor key then (if key.required then none else some none)
        else some (some key)
    | none => some none
  some { scanner with keys }

/-! ## Indentation -/

/-- Opens a block at a column if it is indented further than the innermost one; its token goes
behind the first `count` tokens. -/
def openBlock (column count : Nat) (token : Token) (scanner : Scanner) : Scanner :=
  if !scanner.inFlow && scanner.margin ≤ column then
    { scanner.insert count token with margin := column + 1, margins :=
      scanner.margin :: scanner.margins }
  else scanner

/-- Closes blocks as long as their margin is larger than `least`. -/
def closeTo (least : Nat) : List Nat → Scanner → Scanner
  | [], scanner => scanner
  | outer :: margins, scanner =>
    if least < scanner.margin then
      closeTo least margins { scanner.emit .blockEnd with margin := outer, margins }
    else scanner

/-- Closes the blocks that a column does not belong to any more. -/
def closeBlocks (least : Nat) (scanner : Scanner) : Scanner :=
  if scanner.inFlow then scanner else closeTo least scanner.margins scanner

/-! ## Blanks and comments -/

/-- Skips blanks, comments and line breaks, at most one line for each character of `bound`. A tab is
a blank only where no key may start. -/
def skipToToken (scanner : Scanner) : List Char → Scanner
  | [] => scanner
  | _ :: bound =>
    let tabs := scanner.inFlow || !scanner.keyAllowed
    let blanks := scanner.cursor.dropWhile fun c => c == ' ' || tabs && c == '\t'
    let after := if blanks.isAt 0 '#' then blanks.dropWhile (!isBreak ·) else blanks
    if !after.rest.isEmpty && after.atLineEnd then
      let scanner := scanner.moveTo after.next
      skipToToken (if scanner.inFlow then scanner else scanner.allowKey true) bound
    else scanner.moveTo after

/-! ## Directives, anchors and tags -/

/-- A decimal number of at most nine digits. -/
def versionNumber (cursor : Cursor) : Option (Nat × Cursor) :=
  let (digits, after) := cursor.span Char.isDigit
  if digits.isEmpty || 9 < digits.length then none
  else some (digits.foldl (fun value c => value * 10 + (c.toNat - '0'.toNat)) 0, after)

/-- The handle of a tag: an exclamation mark, or a name between two. -/
def tagHandle (directive : Bool) (cursor : Cursor) : Option (List Char × Cursor) :=
  if cursor.isAt 0 '!' then
    let (name, after) := cursor.next.span isNameChar
    if after.isAt 0 '!' then some ('!' :: name ++ ['!'], after.next)
    else if directive && !name.isEmpty then none
    else some ('!' :: name, after)
  else none

/-- Whether a character may stand in a tag; `verbatim` says whether the tag is between angle
brackets. -/
def isTagChar (verbatim : Bool) (c : Char) : Bool :=
  isNameChar c ||
    [';', '/', '?', ':', '@', '&', '=', '+', '$', '.', '%', '!', '~', '*', '\'', '(',
      ')'].contains c ||
    verbatim && [',', '[', ']'].contains c

/-- The text of a tag in which bytes may be written as a percent sign and two digits; only bytes of
ASCII are read. -/
def decodeTag : List Char → Option (List Char)
  | [] => some []
  | '%' :: first :: second :: rest => do
    let code ← Text.ofBase? 16 [first, second]
    guard (code < 0x80)
    (decodeTag rest).map (Char.ofNat code :: ·)
  | c :: rest => if c == '%' then none else (decodeTag rest).map (c :: ·)

def tagSuffix (verbatim : Bool) (cursor : Cursor) : Option (List Char × Cursor) := do
  let (raw, after) := cursor.span (isTagChar verbatim)
  some (← decodeTag raw, after)

def directive (cursor : Cursor) : Option (Token × Cursor) := do
  let (name, after) := cursor.span isNameChar
  guard (after.endsWordAt 0)
  let arguments := after.dropWhile isBlank
  let (token, last) ← match String.ofList name with
    | "YAML" => do
      let (major, dot) ← versionNumber arguments
      guard (dot.isAt 0 '.')
      let (minor, last) ← versionNumber dot.next
      some (Token.versionDirective major minor, last)
    | "TAG" => do
      let (handle, gap) ← tagHandle true arguments
      guard ((gap.peek? 0).map isBlank |>.getD false)
      let (expansion, last) ← tagSuffix true (gap.dropWhile isBlank)
      guard !expansion.isEmpty
      guard (last.endsWordAt 0)
      some (Token.tagDirective (String.ofList handle) (String.ofList expansion), last)
    | _ => none
  let lineEnd := skipLineRest last
  guard lineEnd.atLineEnd
  some (token, lineEnd.next)

def anchorName (cursor : Cursor) : Option (String × Cursor) :=
  let (name, after) := cursor.span isNameChar
  let ends := after.endsWordAt 0 ||
    ((after.peek? 0).map ['?', ':', ',', ']', '\x7d', '%', '@', '\x60'].contains).getD false
  if name.isEmpty || !ends then none else some (String.ofList name, after)

def tagToken (inFlow : Bool) (cursor : Cursor) : Option (Token × Cursor) := do
  let (token, after) ←
    if cursor.isAt 1 '<' then do
      let (suffix, last) ← tagSuffix true (cursor.drop 2)
      guard (!suffix.isEmpty && last.isAt 0 '>')
      some (Token.tag "" (String.ofList suffix), last.next)
    else do
      let (handle, rest) ← tagHandle false cursor
      let (suffix, last) ← tagSuffix false rest
      if 1 < handle.length && handle.getLast? == some '!' then
        guard !suffix.isEmpty
        some (Token.tag (String.ofList handle) (String.ofList suffix), last)
      else
        let name := handle.tail ++ suffix
        if name.isEmpty then some (Token.tag "" "!", last)
        else some (Token.tag "!" (String.ofList name), last)
  guard (after.endsWordAt 0 || inFlow && after.isAt 0 ',')
  some (token, after)

/-! ## One token at a time -/

/-- The marker of a document or a directive: it ends all blocks. -/
def fetchMarker (token : Token) (after : Cursor) (scanner : Scanner) : Option Scanner := do
  let dropped ← (scanner.closeBlocks 0).dropKey
  some ((dropped.allowKey false).moveTo after |>.emit token)

def fetchOpening (token : Token) (scanner : Scanner) : Option Scanner := do
  let saved ← scanner.saveKey
  some ({ saved with keys := none :: saved.keys, keyAllowed := true }.moveTo saved.cursor.next
    |>.emit token)

def fetchClosing (token : Token) (scanner : Scanner) : Option Scanner := do
  let dropped ← scanner.dropKey
  let keys := if dropped.inFlow then dropped.keys.tail else dropped.keys
  some ({ dropped with keys, keyAllowed := false }.moveTo dropped.cursor.next |>.emit token)

def fetchFlowEntry (scanner : Scanner) : Option Scanner := do
  let dropped ← scanner.dropKey
  some ((dropped.allowKey true).moveTo dropped.cursor.next |>.emit .flowEntry)

/-- Opens a block for an entry that starts here, where one may start. -/
def openEntry (token : Token) (scanner : Scanner) : Option Scanner :=
  if scanner.inFlow then some scanner
  else if scanner.keyAllowed then
    some (scanner.openBlock scanner.cursor.column scanner.tokens.length token)
  else none

def fetchBlockEntry (scanner : Scanner) : Option Scanner := do
  let dropped ← (← scanner.openEntry .blockSequenceStart).dropKey
  some ((dropped.allowKey true).moveTo dropped.cursor.next |>.emit .blockEntry)

def fetchKey (scanner : Scanner) : Option Scanner := do
  let dropped ← (← scanner.openEntry .blockMappingStart).dropKey
  some ((dropped.allowKey !dropped.inFlow).moveTo dropped.cursor.next |>.emit .key)

/-- The sign of a value, which makes a key of the possible key before it. -/
def fetchValue (scanner : Scanner) : Option Scanner := do
  let opened ← match scanner.keys with
    | some key :: rest =>
      let keyed := (scanner.insert key.token .key).openBlock key.column key.token .blockMappingStart
      some { keyed with keys := none :: rest, keyAllowed := false }
    | _ => (scanner.openEntry .blockMappingStart).map (·.allowKey !scanner.inFlow)
  some (opened.moveTo opened.cursor.next |>.emit .value)

/-- An anchor, an alias or a tag. -/
def fetchProperty (read : Cursor → Option (Token × Cursor)) (scanner : Scanner) :
    Option Scanner := do
  let saved ← scanner.saveKey
  let (token, after) ← read saved.cursor
  some ((saved.allowKey false).moveTo after |>.emit token)

def fetchBlockScalar (style : Style) (scanner : Scanner) : Option Scanner := do
  let dropped ← scanner.dropKey
  let (text, after) ← blockScalar (style == .folded) dropped.margin dropped.cursor.next
  some ((dropped.allowKey true).moveTo after |>.emit (.scalar (String.ofList text) style))

def fetchQuoted (style : Style) (scanner : Scanner) : Option Scanner :=
  scanner.fetchProperty fun cursor => do
    let read := if style == .singleQuoted then singleQuoted else doubleQuoted
    let (text, after) ← read cursor.next
    some (.scalar (String.ofList text) style, after)

/-- A plain scalar; after a line break a key may start. -/
def fetchPlain (scanner : Scanner) : Option Scanner := do
  let saved ← scanner.saveKey
  let read ← plainScalar saved.inFlow saved.margin saved.cursor
  some ((saved.allowKey !read.gap.breaks.isEmpty).moveTo read.after |>.emit
    (.scalar (String.ofList read.text) .plain))

/-- Whether a plain scalar may start at a place. -/
def startsPlain (inFlow : Bool) (cursor : Cursor) : Bool :=
  match cursor.rest with
  | [] => false
  | c :: rest =>
    let indicators :=
      ['-', '?', ':', ',', '[', ']', '\x7b', '\x7d', '#', '&', '*', '!', '|', '>', '\'',
      '"', '%', '@', '\x60']
    !isGap c && !indicators.contains c || c == '-' && !((rest.head?.map isBlank).getD false) ||
      !inFlow && (c == '?' || c == ':') && !cursor.endsWordAt 1

def fetch (scanner : Scanner) : Option Scanner :=
  let cursor := scanner.cursor
  let inFlow := scanner.inFlow
  let entry := cursor.endsWordAt 1
  if cursor.column == 0 && cursor.isAt 0 '%' then do
    let (token, after) ← directive cursor.next
    scanner.fetchMarker token after
  else if cursor.atMarker '-' then scanner.fetchMarker .documentStart (cursor.drop 3)
  else if cursor.atMarker '.' then scanner.fetchMarker .documentEnd (cursor.drop 3)
  else if cursor.isAt 0 '[' then scanner.fetchOpening .flowSequenceStart
  else if cursor.isAt 0 '\x7b' then scanner.fetchOpening .flowMappingStart
  else if cursor.isAt 0 ']' then scanner.fetchClosing .flowSequenceEnd
  else if cursor.isAt 0 '\x7d' then scanner.fetchClosing .flowMappingEnd
  else if cursor.isAt 0 ',' then scanner.fetchFlowEntry
  else if cursor.isAt 0 '-' && entry then scanner.fetchBlockEntry
  else if cursor.isAt 0 '?' && (inFlow || entry) then scanner.fetchKey
  else if cursor.isAt 0 ':' && (inFlow || entry) then scanner.fetchValue
  else if cursor.isAt 0 '*' then
    scanner.fetchProperty fun place => (anchorName place.next).map fun (name, after) =>
      (.alias name, after)
  else if cursor.isAt 0 '&' then
    scanner.fetchProperty fun place => (anchorName place.next).map fun (name, after) =>
      (.anchor name, after)
  else if cursor.isAt 0 '!' then scanner.fetchProperty (tagToken inFlow)
  else if cursor.isAt 0 '|' && !inFlow then scanner.fetchBlockScalar .literal
  else if cursor.isAt 0 '>' && !inFlow then scanner.fetchBlockScalar .folded
  else if cursor.isAt 0 '\'' then scanner.fetchQuoted .singleQuoted
  else if cursor.isAt 0 '"' then scanner.fetchQuoted .doubleQuoted
  else if startsPlain inFlow cursor then scanner.fetchPlain
  else none

def finish (scanner : Scanner) : Option Scanner :=
  (scanner.closeBlocks 0).dropKey

/-- Takes all tokens, at most one for each character of `bound`. -/
def run (scanner : Scanner) : List Char → Option Scanner
  | [] => none
  | _ :: bound => do
    let skipped := scanner.skipToToken (' ' :: scanner.cursor.rest)
    let fresh ← skipped.dropStaleKeys
    let placed := fresh.closeBlocks (fresh.cursor.column + 1)
    if placed.cursor.rest.isEmpty then placed.finish
    else run (← placed.fetch) bound

end Scanner

/-- The tokens of a text, or nothing if it cannot be cut into tokens. A byte order mark at the start
is no part of the text. -/
def Token.scan? (text : List Char) : Option (List Token) :=
  let body := match text with
    | c :: rest => if c.toNat == 0xFEFF then rest else text
    | [] => []
  if body.all isPrintable then
    let lines := normalize body
    ((Scanner.start lines).run (' ' :: lines)).map (·.tokens)
  else none

end JavaSlice.Yaml
