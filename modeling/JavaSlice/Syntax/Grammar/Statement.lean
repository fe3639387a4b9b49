import JavaSlice.Syntax.Grammar.Expression

/-!
# Statements

A statement is tried as the phrases that its first word allows. Where no keyword decides, a
declaration is tried before an expression, so that `a < b > c;` declares `c`. A single semicolon is
a statement without parts.

A piece of a block that is no statement becomes an error that reaches to the next semicolon, or to
the end of the block if none comes first; braces inside it are skipped whole. What stands before and
after it is read as usual.
-/

namespace JavaSlice.Syntax.Grammar

open Syntax.Parser

variable (rules : Rules)

/-! ## Variables and expressions -/

/-- A declaration of local variables. -/
def localVariableDeclaration : Phrases := node .localVariableDeclaration do
  let marks ← modifiers rules
  let type ← inRole .type (plainType rules)
  let declared ← variableDeclarators rules
  symbol ";"
  pure (marks ++ type ++ declared)

/-- An expression as a statement. -/
def expressionStatement : Phrases := node .expressionStatement do
  let value ← fullExpression rules
  symbol ";"
  pure value

/-- A statement with a label. -/
def labeledStatement : Phrases := node .labeledStatement do
  let label ← identifier
  symbol ":"
  let body ← rules .statement
  pure (label ++ body)

/-! ## Choices and loops -/

/-- A choice. -/
def ifStatement : Phrases := node .ifStatement do
  word "if"
  let condition ← parenthesized rules
  let consequence ← rules .statement
  if ← tryWord "else" then
    let alternative ← rules .statement
    pure (condition ++ consequence ++ alternative)
  else pure (condition ++ consequence)

/-- A loop that tests before each turn. -/
def whileStatement : Phrases := node .whileStatement do
  word "while"
  let condition ← parenthesized rules
  let body ← rules .statement
  pure (condition ++ body)

/-- A loop that tests after each turn. -/
def doStatement : Phrases := node .doStatement do
  word "do"
  let body ← rules .statement
  word "while"
  let condition ← parenthesized rules
  symbol ";"
  pure (body ++ condition)

/-- The body of a loop over a collection; a semicolon counts as an empty block. -/
def loopBody : Phrases := do
  if ← atSymbol ";" then
    node .block do
      symbol ";"
      pure []
  else rules .statement

/-- A loop over a collection. -/
def enhancedFor : Phrases := node .enhancedFor do
  word "for"
  symbol "("
  let marks ← modifiers rules
  let type ← inRole .type (plainType rules)
  let name ← variableId rules
  symbol ":"
  let value ← inRole .value (fullExpression rules)
  symbol ")"
  let body ← inRole .body (loopBody rules)
  pure (marks ++ type ++ name ++ value ++ body)

/-- A loop with a start, a test and a step. -/
def forStatement : Phrases := node .forStatement do
  word "for"
  symbol "("
  let start ← localVariableDeclaration rules <|> (do
    let values ← commas (fullExpression rules)
    symbol ";"
    pure values)
  let condition ← maybe (fullExpression rules)
  symbol ";"
  let step ← commas (fullExpression rules)
  symbol ")"
  let body ← rules .statement
  pure (start ++ condition ++ step ++ body)

/-! ## Jumps -/

/-- A keyword that may be followed by a label. -/
def jump (kind : Kind) (text : String) : Phrases := node kind do
  word text
  let label ← maybe identifier
  symbol ";"
  pure label

/-- A keyword followed by an expression. -/
def keywordStatement (kind : Kind) (text : String) : Phrases := node kind do
  word text
  let value ← fullExpression rules
  symbol ";"
  pure value

/-- A return, with a value or without. -/
def returnStatement : Phrases := node .returnStatement do
  word "return"
  let value ← maybe (fullExpression rules)
  symbol ";"
  pure value

/-- An assertion, with a message or without. -/
def assertStatement : Phrases := node .assertStatement do
  word "assert"
  let condition ← fullExpression rules
  let message ← (do symbol ":"; fullExpression rules) <|> pure []
  symbol ";"
  pure (condition ++ message)

/-- A block that holds a lock. -/
def synchronizedStatement : Phrases := node .synchronizedStatement do
  word "synchronized"
  let lock ← parenthesized rules
  let body ← inRole .body (rules .block)
  pure (lock ++ body)

/-! ## Exceptions and resources -/

/-- The exceptions that a clause catches. -/
def catchType : Phrases :=
  node .catchType (sepBy1 "|" (plainType rules))

/-- The variable of a clause that catches. -/
def catchFormalParameter : Phrases := node .catchFormalParameter do
  let marks ← modifiers rules
  let types ← catchType rules
  let name ← variableId rules
  pure (marks ++ types ++ name)

/-- A clause that catches exceptions. -/
def catchClause : Phrases := node .catchClause do
  word "catch"
  symbol "("
  let parameter ← catchFormalParameter rules
  symbol ")"
  let body ← inRole .body (rules .block)
  pure (parameter ++ body)

/-- The clause that is run in any case. -/
def finallyClause : Phrases := node .finallyClause do
  word "finally"
  rules .block

/-- A block with clauses for what goes wrong in it; one clause at least is needed. -/
def tryStatement : Phrases := node .tryStatement do
  word "try"
  let body ← inRole .body (rules .block)
  let catches ← many (catchClause rules)
  let last ← maybe (finallyClause rules)
  guardThat (!(catches ++ last).isEmpty)
  pure (body ++ catches ++ last)

/-- A resource with a variable of its own. -/
def declaredResource : Phrases := do
  let marks ← modifiers rules
  let type ← inRole .type (plainType rules)
  let name ← variableId rules
  symbol "="
  let value ← inRole .value (fullExpression rules)
  pure (marks ++ type ++ name ++ value)

/-- A resource held by a variable. -/
def namedResource : Phrases := do
  let tree ← primaryFrom rules (primaryBase rules)
  guardThat (tree.kind == .identifier || tree.kind == .fieldAccess)
  pure [tree]

/-- The resources of a block. -/
def resourceSpecification : Phrases := node .resourceSpecification do
  symbol "("
  let resources ← sepBy1 ";" (node .resource (declaredResource rules <|> namedResource rules))
  let _ ← trySymbol ";"
  symbol ")"
  pure resources

/-- A block with resources. -/
def tryWithResources : Phrases := node .tryWithResources do
  word "try"
  let resources ← resourceSpecification rules
  let body ← inRole .body (rules .block)
  let catches ← many (catchClause rules)
  let last ← maybe (finallyClause rules)
  pure (resources ++ body ++ catches ++ last)

/-! ## Statements -/

/-- A statement that no keyword decides. -/
def plainStatement : Phrases :=
  rules .typeDeclaration <|> localVariableDeclaration rules <|> labeledStatement rules <|>
    expressionStatement rules

/-- A statement that starts with a word. -/
def wordStatement (text : String) : Phrases :=
  match text with
  | "if" => ifStatement rules
  | "while" => whileStatement rules
  | "do" => doStatement rules
  | "for" => enhancedFor rules <|> forStatement rules
  | "try" => tryWithResources rules <|> tryStatement rules
  | "break" => jump .breakStatement "break"
  | "continue" => jump .continueStatement "continue"
  | "return" => returnStatement rules
  | "throw" => keywordStatement rules .throwStatement "throw"
  | "assert" => assertStatement rules
  | "switch" => switchExpression rules
  | "synchronized" => synchronizedStatement rules <|> plainStatement rules
  | "yield" => keywordStatement rules .yieldStatement "yield" <|> plainStatement rules
  | _ => plainStatement rules

/-- Any statement. -/
def statement : Phrases := do
  let token ← peek
  if token.isSymbol ";" then
    symbol ";"
    pure []
  else if token.isSymbol "\x7b" then rules .block
  else if token.kind == .word then wordStatement rules token.text
  else plainStatement rules

/-! ## Blocks -/

/-- Skips what cannot be read, up to the next semicolon or the end of the block; among members the
end of the next braces will do, and the end of the file. `depth` counts the braces that are open,
and `last` is where the last token ended. -/
def skip (amongMembers : Bool) (depth last : Nat) : List Token → Option Cursor
  | [] => none
  | token :: rest =>
    if token.kind == .finish then if amongMembers then some ⟨token :: rest, last⟩ else none
    else if token.isSymbol "\x7b" then skip amongMembers (depth + 1) token.stop rest
    else if token.isSymbol "\x7d" then
      match depth with
      | 0 => some ⟨token :: rest, last⟩
      | outer + 1 =>
        if amongMembers && outer == 0 then some ⟨rest, token.stop⟩
          else skip amongMembers outer token.stop rest
    else if token.isSymbol ";" && depth == 0 then some ⟨rest, token.stop⟩
    else skip amongMembers depth token.stop rest

/-- Whether nothing is left to skip at a token. -/
def halts (amongMembers : Bool) (token : Token) : Bool :=
  token.isSymbol "\x7d" || (amongMembers && token.kind == .finish)

/-- A piece of a block that is no statement, or a piece of a body that is no member. -/
def badPiece (amongMembers : Bool) : Phrases := node .error fun cursor => do
  guard !(cursor.tokens.head?.any (halts amongMembers))
  let after ← skip amongMembers 0 cursor.last cursor.tokens
  pure ([], after)

/-- The statements of a block, errors among them. -/
def statements : Phrases :=
  many (rules .statement <|> badPiece false)

/-- A block. -/
def block : Phrases := node .block do
  symbol "\x7b"
  let parts ← statements rules
  symbol "\x7d"
  pure parts

end JavaSlice.Syntax.Grammar
