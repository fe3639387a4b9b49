import JavaSlice.Syntax.Grammar.Declaration

/-!
# Programs

A source file is a sequence of declarations, statements and methods. `Tree.ofSource` gives the tree
of any text: a piece that cannot be read is an error in the tree.

For a text without errors the tree is meant to be the one that tree-sitter builds. For others the
two may differ, since tree-sitter looks for the cheapest repair: it may put in a missing sign as a
flawed node, or leave out a few tokens in the midst of a phrase and go on with it. Here the whole
statement or member is an error (`badPiece`), and no sign is ever put in.
-/

namespace JavaSlice.Syntax

namespace Grammar

open Syntax.Parser

/-- The parser of every rule, in terms of the rules themselves. -/
def grammar (rules : Rules) : Rules
  | .expression lambdas level => expression rules lambdas level
  | .type => anyType rules
  | .annotationRule => annotationRule rules
  | .statement => statement rules
  | .block => block rules
  | .body kind => body rules kind
  | .typeDeclaration => typeDeclaration rules

variable (rules : Rules)

/-- The declaration of the package. -/
def packageDeclaration : Phrases := node .packageDeclaration do
  let marks ← annotations rules
  word "package"
  let name ← qualifiedName
  symbol ";"
  pure (marks ++ name)

/-- An import. -/
def importDeclaration : Phrases := node .importDeclaration do
  word "import"
  let _ ← tryWord "static"
  let name ← qualifiedName
  let wildcard ← maybe do
    symbol "."
    leaf .asterisk (·.isSymbol "*")
  symbol ";"
  pure (name ++ wildcard)

/-- The declaration of a module, whose directives are not looked at. -/
def moduleDeclaration : Phrases := node .moduleDeclaration do
  let marks ← annotations rules
  let _ ← tryWord "open"
  word "module"
  let name ← qualifiedName
  symbol "\x7b"
  let _ ← many do
    let _ ← satisfy fun token => !token.isSymbol "\x7b" && !token.isSymbol "\x7d"
    pure []
  symbol "\x7d"
  pure (marks ++ name)

/-- A method outside of all types. -/
def looseMethod : Phrases := do
  let start ← place
  let marks ← modifiers rules
  pure [← methodRest rules start marks]

/-- A phrase at the top of a file. -/
def topLevel : Phrases :=
  packageDeclaration rules <|> importDeclaration <|> rules .typeDeclaration <|>
    moduleDeclaration rules <|> looseMethod rules <|> rules .statement

/-- A closing brace that nothing has opened. -/
def strayBrace : Phrases :=
  leaf .error (·.isSymbol "\x7d")

/-- The phrases of a file, errors among them. -/
def program : Phrases :=
  many (topLevel rules <|> badPiece true <|> strayBrace)

end Grammar

/-- A bound on how deep the rules nest when they read some tokens: a few rules stand between a token
and the next. -/
def nesting (tokens : List Token) : Nat :=
  16 * (tokens.length + 1)

/-- The syntax tree of a text. -/
def Tree.ofSource (source : List Char) : Tree :=
  let tokens := Token.scan source
  let phrases := Grammar.program (close Grammar.grammar (nesting tokens)) ⟨tokens, 0⟩
  .node .program none 0 source.length ((phrases.map (·.1)).getD [])

end JavaSlice.Syntax
