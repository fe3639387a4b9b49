import JavaSlice.Syntax.Parser

/-!
# Names

A word is a name unless the language reserves it. Some words are keywords only in certain places,
such as `record`, `sealed` or `yield`; they are names everywhere else.
-/

namespace JavaSlice.Syntax.Grammar

open Syntax.Parser

/-- The words that are never names. -/
def reservedWords : List String :=
  ["abstract", "assert", "boolean", "break", "byte", "case", "catch", "char", "class", "continue",
    "default", "do", "double", "else", "enum", "extends", "final", "finally", "float", "for", "if",
    "implements", "import", "instanceof", "int", "interface", "long", "native", "new", "null",
    "package", "private", "protected", "public", "return", "short", "static", "strictfp", "super",
    "switch", "synchronized", "this", "throw", "throws", "transient", "true", "false", "try",
    "void", "volatile", "while"]

/-- Whether a token is a name. -/
def isName (token : Token) : Bool :=
  token.kind == .word && !reservedWords.contains token.text

/-- A name. -/
def identifier : Phrases :=
  leaf .identifier isName

/-- A dot and a name. -/
def dottedName : Phrases := do
  symbol "."
  identifier

/-- Names with dots between them. -/
def qualifiedName : Phrases := do
  let start ← place
  let first ← identifier
  let rest ← many dottedName
  if rest.isEmpty then pure first
  else pure [← nodeFrom .scopedIdentifier start (first ++ rest)]

/-- The name of a variable, which may be left out with an underscore. -/
def variableName : Phrases :=
  inRole .name (leaf .underscorePattern (·.isWord "_") <|> identifier)

/-- The name of what is declared. -/
def declaredName : Phrases :=
  inRole .name identifier

end JavaSlice.Syntax.Grammar
