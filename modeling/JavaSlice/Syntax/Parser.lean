import JavaSlice.Syntax.Tree

/-!
# Parsers

A parser takes tokens from the front of a cursor and gives the phrases that it has read, or gives
up. Giving up leaves the cursor where it was, so that alternatives can be tried in order. The
phrases of a language contain each other, so the grammar is written with its recursive rules as a
parameter: `Rules` gives a parser for each `Rule`, and `close` ties the rules together, with a bound
on how deep they may nest.
-/

namespace JavaSlice.Syntax

/-- The tokens that are still to be read, and the end of the token read last. -/
structure Cursor where
  tokens : List Token
  last : Nat
deriving Repr, Inhabited

/-- Reads from a cursor, or gives up. -/
abbrev Parser (α : Type) := StateT Cursor Option α

/-- A parser that gives phrases. -/
abbrev Phrases := Parser (List Tree)

namespace Parser

/-- The token at the front. -/
def peek : Parser Token := fun cursor =>
  match cursor.tokens with
  | token :: _ => some (token, cursor)
  | [] => none

/-- The token `n` places behind the front. -/
def peekAt (n : Nat) : Parser Token := fun cursor =>
  (cursor.tokens[n]?).map (·, cursor)

/-- Takes the token at the front, if it is not the end. -/
def next : Parser Token := fun cursor =>
  match cursor.tokens with
  | token :: rest => if token.kind == .finish then none else some (token, ⟨rest, token.stop⟩)
  | [] => none

/-- Takes a token that passes a test. -/
def satisfy (test : Token → Bool) : Parser Token := do
  let token ← next
  if test token then pure token else failure

/-- Takes a symbol. -/
def symbol (text : String) : Parser Unit := do
  let _ ← satisfy (·.isSymbol text)

/-- Takes a keyword. -/
def word (text : String) : Parser Unit := do
  let _ ← satisfy (·.isWord text)

/-- Whether the token at the front passes a test. -/
def ahead (test : Token → Bool) : Parser Bool := do
  pure (test (← peek))

/-- Whether a symbol is at the front. -/
def atSymbol (text : String) : Parser Bool :=
  ahead (·.isSymbol text)

/-- Whether a keyword is at the front. -/
def atWord (text : String) : Parser Bool :=
  ahead (·.isWord text)

/-- Gives up unless a condition holds. -/
def guardThat (condition : Bool) : Parser Unit :=
  if condition then pure () else failure

/-- Takes a symbol if it is at the front, and says whether it did. -/
def trySymbol (text : String) : Parser Bool :=
  (do symbol text; pure true) <|> pure false

/-- Takes a keyword if it is at the front, and says whether it did. -/
def tryWord (text : String) : Parser Bool :=
  (do word text; pure true) <|> pure false

/-- The phrases of a parser, or none if it gives up. -/
def maybe (parser : Phrases) : Phrases :=
  parser <|> pure []

/-- The phrases of as many repetitions as there are, at most one for each token of `bound`. -/
def repeatBounded (parser : Phrases) (bound : List Token) : Phrases :=
  match bound with
  | [] => pure []
  | _ :: bound =>
    (do
      let first ← parser
      let rest ← repeatBounded parser bound
      pure (first ++ rest)) <|> pure []

/-- The phrases of as many repetitions as there are. Each takes a token at least, so that the tokens
bound their number. -/
def many (parser : Phrases) : Phrases := fun cursor =>
  repeatBounded parser cursor.tokens cursor

/-- Grows a phrase step by step, at most once for each token of `bound`. -/
def growBounded (step : Tree → Parser Tree) (bound : List Token) (tree : Tree) : Parser Tree :=
  match bound with
  | [] => pure tree
  | _ :: bound => (do growBounded step bound (← step tree)) <|> pure tree

/-- Grows a phrase as long as something follows that makes it part of a larger one. -/
def grow (step : Tree → Parser Tree) (tree : Tree) : Parser Tree := fun cursor =>
  growBounded step cursor.tokens tree cursor

/-- The phrases of one repetition at least. -/
def many1 (parser : Phrases) : Phrases := do
  let first ← parser
  let rest ← many parser
  pure (first ++ rest)

/-- Phrases with a symbol between them, one at least. -/
def sepBy1 (separator : String) (parser : Phrases) : Phrases := do
  let first ← parser
  let rest ← many do symbol separator; parser
  pure (first ++ rest)

/-- Phrases with commas between them, if there are any. -/
def commas (parser : Phrases) : Phrases :=
  maybe (sepBy1 "," parser)

/-- A node of a kind whose parts are the phrases of a parser; it covers the tokens that the parser
takes. -/
def node (kind : Kind) (parts : Phrases) : Phrases := do
  let start := (← peek).start
  let children ← parts
  let stop := (← get).last
  pure [.node kind none start stop children]

/-- A node that covers what has been read from a place on. -/
def nodeFrom (kind : Kind) (start : Nat) (children : List Tree) : Parser Tree := do
  pure (.node kind none start (← get).last children)

/-- A node without parts that covers one token. -/
def leaf (kind : Kind) (test : Token → Bool) : Phrases := do
  let token ← satisfy test
  pure [.node kind none token.start token.stop []]

/-- Puts the phrases of a parser in a role. -/
def inRole (role : Role) (parser : Phrases) : Phrases := do
  pure ((← parser).map (Tree.withRole role))

/-- Where the token at the front starts. -/
def place : Parser Nat := do
  pure (← peek).start

end Parser

/-! ## Recursive rules -/

/-- The kinds of bodies with different members. -/
inductive BodyKind where
  | ofClass
  | ofInterface
  | ofAnnotationType
deriving DecidableEq, Repr

/-- The rules of the grammar that refer to each other. -/
inductive Rule where
  /-- An expression whose operators bind at least as tightly as `level`; `lambdas` says whether the
  arrow of a lambda may follow its parameters. -/
  | expression (lambdas : Bool) (level : Nat)
  | type
  | annotationRule
  | statement
  | block
  | body (kind : BodyKind)
  | typeDeclaration
deriving DecidableEq, Repr

/-- A parser for each rule. -/
abbrev Rules := Rule → Phrases

/-- The rules that a grammar describes in terms of themselves, nested at most `depth` deep. -/
def close (grammar : Rules → Rules) : Nat → Rules
  | 0 => fun _ => failure
  | depth + 1 => grammar (close grammar depth)

end JavaSlice.Syntax
