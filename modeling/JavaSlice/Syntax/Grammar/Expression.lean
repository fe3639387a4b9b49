import JavaSlice.Syntax.Grammar.Parameter

/-!
# Expressions

An expression is an operand that grows by the operators after it. Every operator has a level; an
operator is taken only if its level is at least the one asked for, and the operand on its right is
asked for at the next level, so that operators of one level group to the left. Signs, `++` and `--`
share one level, whether they stand before or after their operand, so that `-a++` increments `-a`.

Some phrases start alike, and these rules tell them apart.

* Parameters between parentheses that an arrow follows are those of a lambda; this is tried before
  anything else that starts with a parenthesis.
* A parenthesis around a type opens a cast if an operand follows. After a plain name a sign is no
  start of an operand: `(a) - b` is a difference and `(int) - b` a cast.
* A name before `::` is an expression, while an array type, a type with arguments or a primitive
  type stays a type, and so does `Outer.super`.
* Angle brackets after a name are type arguments only if the type is followed by `::` or `.class`.
* An assignment or a lambda takes everything that follows it, whatever stands before.
-/

namespace JavaSlice.Syntax.Grammar

open Syntax.Parser

variable (rules : Rules)

/-! ## Operators -/

/-- The levels of the operators between two operands. -/
def binaryLevels : List (String × Nat) :=
  [("||", 4), ("&&", 5), ("|", 6), ("^", 7), ("&", 8), ("==", 9), ("!=", 9), ("<", 10), (">", 10),
    ("<=", 10), (">=", 10), ("<<", 11), (">>", 11), (">>>", 11), ("+", 12), ("-", 12), ("*", 13),
    ("/", 13), ("%", 13)]

/-- The level of a type test. -/
def instanceofLevel : Nat := 10

/-- The level of a conditional expression. -/
def ternaryLevel : Nat := 3

/-- The level of signs and increments. -/
def unaryLevel : Nat := 15

/-- The operators that assign. -/
def assignmentOperators : List String :=
  ["=", "+=", "-=", "*=", "/=", "&=", "|=", "^=", "%=", "<<=", ">>=", ">>>="]

/-- The text of the operator that some tokens start with, and the tokens after it. Closing angle
brackets and an equals sign make one operator if nothing stands between them. -/
def operatorText : List Token → Option (String × List Token)
  | first :: second :: third :: fourth :: rest =>
    if first.kind != .symbol then none
    else if first.text != ">" then some (first.text, second :: third :: fourth :: rest)
    else if follows first second ">" && follows second third ">" && follows third fourth "=" then
      some (">>>=", rest)
    else if follows first second ">" && follows second third ">" then some (">>>", fourth :: rest)
    else if follows first second ">" && follows second third "=" then some (">>=", fourth :: rest)
    else if follows first second ">" then some (">>", third :: fourth :: rest)
    else if follows first second "=" then some (">=", third :: fourth :: rest)
    else some (">", second :: third :: fourth :: rest)
  | first :: rest => if first.kind != .symbol then none else some (first.text, rest)
  | [] => none
where
  /-- Whether a symbol follows a token without a gap. -/
  follows (before after : Token) (text : String) : Bool :=
    after.isSymbol text && before.stop == after.start

/-- Takes an operator. -/
def operator : Parser String := fun cursor =>
  (operatorText cursor.tokens).map fun (text, rest) =>
    let taken := cursor.tokens.take (cursor.tokens.length - rest.length)
    (text, ⟨rest, (taken.getLast?.map (·.stop)).getD cursor.last⟩)

/-- Whether an operator that assigns comes next. -/
def atAssignment : Parser Bool := do
  match operatorText (← get).tokens with
  | some (text, _) => pure (assignmentOperators.contains text)
  | none => pure false

/-! ## Parts of expressions -/

/-- An expression in which nothing is left out. -/
def fullExpression : Phrases :=
  rules (.expression true 0)

/-- An expression between parentheses. -/
def parenthesized : Phrases := node .parenthesized do
  symbol "("
  let inner ← fullExpression rules
  symbol ")"
  pure inner

/-- Arguments between parentheses. -/
def argumentList : Phrases := node .argumentList do
  symbol "("
  let arguments ← commas (fullExpression rules)
  symbol ")"
  pure arguments

/-- The arguments of a call. -/
def arguments : Phrases :=
  inRole .arguments (argumentList rules)

/-- The length of a new array. -/
def dimensionsExpr : Phrases := node .dimensionsExpr do
  let marks ← annotations rules
  symbol "["
  let length ← fullExpression rules
  symbol "]"
  pure (marks ++ length)

/-! ## Creations -/

/-- The parts of the creation of an object, after the word `new`. -/
def objectParts : Phrases := do
  let marks ← annotations rules
  let typeArgs ← maybe (typeArguments rules)
  let more ← annotations rules
  let type ← inRole .type (simpleType rules)
  let args ← arguments rules
  let body ← maybe (rules (.body .ofClass))
  pure (marks ++ typeArgs ++ more ++ type ++ args ++ body)

/-- The parts of the creation of an array, after the word `new`. -/
def arrayParts : Phrases := do
  let marks ← annotations rules
  let type ← simpleType rules
  let sizes ← (do
      let lengths ← many1 (dimensionsExpr rules)
      let brackets ← maybe (dimensions rules)
      pure (lengths ++ brackets)) <|> (do
      let brackets ← dimensions rules
      let values ← arrayInitializer rules
      pure (brackets ++ values))
  pure (marks ++ type ++ sizes)

/-- The creation of an object or an array. -/
def creation : Phrases :=
  node .objectCreation (do word "new"; objectParts rules) <|>
    node .arrayCreation (do word "new"; arrayParts rules)

/-! ## Types at the start of an operand -/

/-- Whether a phrase is the name of a type, plain or dotted, without anything that an expression
cannot have. -/
def isPlainTypeName (type : Tree) : Bool :=
  (type.kind == .typeIdentifier || type.kind == .scopedTypeIdentifier) &&
    !type.holds fun part => [.typeArguments, .annotationMark, .annotationCall].contains part.kind

/-- The name after `::` in a method reference, with the type arguments before it. -/
def referencedMethod : Phrases := do
  symbol "::"
  let typeArgs ← maybe (typeArguments rules)
  if ← tryWord "new" then pure typeArgs
  else
    let name ← identifier
    pure (typeArgs ++ name)

/-- A class literal, after the type. -/
def classOf (start : Nat) (type : Tree) : Parser Tree := do
  symbol "."
  word "class"
  nodeFrom .classLiteral start [type]

/-- A method reference to the enclosing instance of a type, after the name of the type. -/
def superReference (start : Nat) (type : Tree) : Parser Tree := do
  guardThat (isPlainTypeName type)
  symbol "."
  let self ← leaf .typeIdentifier (·.isWord "super")
  let scope ← nodeFrom .scopedTypeIdentifier start (type :: self)
  let method ← referencedMethod rules
  nodeFrom .methodReference start (scope :: method)

/-- A method reference after a type that is no plain name. -/
def typeReference (start : Nat) (type : Tree) : Parser Tree := do
  guardThat (!isPlainTypeName type)
  let method ← referencedMethod rules
  nodeFrom .methodReference start (type :: method)

/-- An operand that starts with a type. -/
def typeOperand : Parser Tree := do
  let start ← place
  match ← anyType rules with
  | [type] =>
    classOf start type <|> superReference rules start type <|> typeReference rules start type
  | _ => failure

/-! ## Primary expressions -/

/-- A literal. -/
def literal : Phrases :=
  leaf .literal fun token =>
    token.kind == .number || token.kind == .string || token.kind == .character ||
      token.isWord "true" || token.isWord "false" || token.isWord "null"

/-- A name, or a call of a method without a receiver. -/
def nameOrCall : Phrases := do
  let start ← place
  let name ← identifier
  if ← atSymbol "(" then
    let args ← arguments rules
    pure [← nodeFrom .methodInvocation start (name.map (Tree.withRole .name) ++ args)]
  else pure name

/-- The word `super`, which has to be followed by a member. -/
def superBase : Phrases := do
  let self ← leaf .superWord (·.isWord "super")
  guardThat ((← atSymbol ".") || (← atSymbol "::"))
  pure self

/-- The start of a primary expression, parentheses apart. -/
def primaryBase : Phrases :=
  literal <|> leaf .thisWord (·.isWord "this") <|> superBase <|> creation rules <|>
    (do pure [← typeOperand rules]) <|> nameOrCall rules

/-- A field or a call of a method, after the dot. -/
def memberAfterDot (start : Nat) (object : List Tree) : Parser Tree := do
  let typeArgs ← maybe (typeArguments rules)
  let name ← identifier
  if ← atSymbol "(" then
    let args ← arguments rules
    nodeFrom .methodInvocation start (object ++ typeArgs ++ name.map (Tree.withRole .name) ++ args)
  else
    guardThat typeArgs.isEmpty
    nodeFrom .fieldAccess start (object ++ name.map (Tree.withRole .member))

/-- Makes a primary expression longer by what follows a dot. -/
def growByDot (start : Nat) (tree : Tree) : Parser Tree := do
  symbol "."
  let object := tree.withRole .object
  let token ← peek
  if token.isWord "new" then
    word "new"
    let parts ← objectParts rules
    nodeFrom .objectCreation start (tree :: parts)
  else if token.isWord "this" then
    let self ← inRole .member (leaf .thisWord (·.isWord "this"))
    nodeFrom .fieldAccess start (object :: self)
  else if token.isWord "super" then
    let self ← leaf .superWord (·.isWord "super")
    symbol "."
    memberAfterDot rules start (object :: self)
  else if token.kind == .string then
    let template ← literal
    nodeFrom .templateExpression start (tree :: template)
  else memberAfterDot rules start [object]

/-- Makes a primary expression longer by a member, an index or a method reference. -/
def growPrimary (start : Nat) (tree : Tree) : Parser Tree := do
  let token ← peek
  if token.isSymbol "." then growByDot rules start tree
  else if token.isSymbol "[" then
    symbol "["
    let position ← fullExpression rules
    symbol "]"
    nodeFrom .arrayAccess start (tree :: position)
  else
    let method ← referencedMethod rules
    nodeFrom .methodReference start (tree :: method)

/-- A primary expression that starts with a given phrase. -/
def primaryFrom (base : Phrases) : Parser Tree := do
  let start ← place
  match ← base with
  | [tree] => grow (growPrimary rules start) tree
  | _ => failure

/-! ## Lambdas and casts -/

/-- A lambda after its parameters. -/
def lambdaFrom (lambdas : Bool) (start : Nat) (parameters : List Tree) : Parser Tree := do
  symbol "->"
  let body ← inRole .body do
    if ← atSymbol "\x7b" then rules .block else rules (.expression lambdas 0)
  nodeFrom .lambda start (parameters.map (Tree.withRole .parameters) ++ body)

/-- A lambda whose parameters stand between parentheses. -/
def parenthesizedLambda (lambdas : Bool) : Parser Tree := do
  let start ← place
  let parameters ← inferredParameters <|> formalParameters rules
  lambdaFrom rules lambdas start parameters

/-- The words that start an operand and are no names. -/
def operandWords : List String :=
  ["this", "super", "new", "switch", "true", "false", "null", "void"] ++ primitiveTypes

/-- Whether a token starts an operand, signs apart. -/
def startsOperand (token : Token) : Bool :=
  match token.kind with
  | .word => isName token || operandWords.contains token.text
  | .number | .string | .character => true
  | .symbol => ["(", "!", "~"].contains token.text
  | _ => false

/-- Whether an operand follows the cast to a plain name: no sign starts it, and an increment does
only if it stands before its operand. -/
def operandFollowsName : Parser Bool := do
  let token ← peek
  if token.isSymbol "++" || token.isSymbol "--" then pure (startsOperand (← peekAt 1))
  else pure (startsOperand token)

/-! ## Switches -/

/-- Part of a record pattern, where patterns inside it are read at most once for each token of
`bound`. -/
def recordPatternBounded (bound : List Token) : Phrases :=
  match bound with
  | [] => failure
  | _ :: bound => node .recordPattern do
    let name ← (do
        let type ← namedType rules
        guardThat (type.all (·.kind == .genericType))
        pure type) <|> identifier
    let body ← node .recordPatternBody do
      symbol "("
      let parts ← commas (recordPatternBounded bound <|> component)
      symbol ")"
      pure parts
    pure (name ++ body)
where
  /-- A component of a record pattern: a variable or an underscore. -/
  component : Phrases := node .recordPatternComponent do
    (do
      let hole ← leaf .underscorePattern (·.isWord "_")
      guardThat ((← atSymbol ",") || (← atSymbol ")"))
      pure hole) <|> (do
      let type ← plainType rules
      let name ← identifier
      pure (type ++ name))

/-- A pattern for a record and its components. -/
def recordPattern : Phrases := fun cursor =>
  recordPatternBounded rules cursor.tokens cursor

/-- A pattern for a type, with a variable. -/
def typePattern : Phrases := node .typePattern do
  let type ← plainType rules
  let name ← leaf .identifier fun token => isName token && token.text != "when"
  pure (type ++ name)

/-- A pattern in a label, after which the label ends or goes on with a condition. -/
def labelPattern : Phrases := do
  let found ← node .pattern (typePattern rules <|> recordPattern rules)
  let token ← peek
  guardThat (token.isSymbol "->" || token.isSymbol ":" || token.isWord "when")
  pure found

/-- The condition of a label. -/
def guardClause : Phrases := node .guard do
  word "when"
  rules (.expression false 0)

/-- A label of a switch. -/
def switchLabel : Phrases := node .switchLabel do
  if ← tryWord "default" then pure []
  else
    word "case"
    let values ← labelPattern rules <|> sepBy1 "," (rules (.expression false 0))
    let condition ← maybe (guardClause rules)
    pure (values ++ condition)

/-- What follows the arrow of a label. -/
def ruleBody : Phrases := do
  if (← atSymbol "\x7b") || (← atWord "throw") then rules .statement
  else
    node .expressionStatement do
      let value ← fullExpression rules
      symbol ";"
      pure value

/-- A label of a switch with an arrow after it. -/
def switchRule : Phrases := node .switchRule do
  let label ← switchLabel rules
  symbol "->"
  let body ← ruleBody rules
  pure (label ++ body)

/-- A label of a switch with the statements after it. -/
def switchGroup : Phrases := node .switchGroup do
  let label ← switchLabel rules
  symbol ":"
  let statements ← many (rules .statement)
  pure (label ++ statements)

/-- The labels of a switch and what follows them. -/
def switchBlock : Phrases := node .switchBlock do
  symbol "\x7b"
  let parts ← many (switchRule rules <|> switchGroup rules)
  symbol "\x7d"
  pure parts

/-- A switch. -/
def switchExpression : Phrases := node .switchExpression do
  word "switch"
  let subject ← parenthesized rules
  let body ← inRole .body (switchBlock rules)
  pure (subject ++ body)

/-! ## Operands -/

/-- Takes the rest of an assignment, if one follows something that can be assigned. -/
def assignmentFrom (lambdas : Bool) (start : Nat) (target : Tree) : Parser Tree := do
  let assignable :=
    target.kind == .identifier || target.kind == .fieldAccess || target.kind == .arrayAccess
  if assignable && (← atAssignment) then
    let _ ← operator
    let value ← rules (.expression lambdas 0)
    nodeFrom .assignment start (target :: value)
  else pure target

/-- An operand that starts with a primary expression: the expression itself, an assignment to it, or
a lambda of which it is the parameter. -/
def primaryOperand (lambdas : Bool) : Parser Tree := do
  let start ← place
  let base := if (← atSymbol "(") then parenthesized rules
    else if lambdas then primaryBase rules
    else primaryBase rules <|> leaf .identifier (·.isWord "default")
  let tree ← primaryFrom rules base
  if lambdas && tree.kind == .identifier && (← atSymbol "->") then
    lambdaFrom rules lambdas start [tree]
  else assignmentFrom rules lambdas start tree

/-- The value of a cast to several types at once, which no sign starts: a lambda or a primary
expression. -/
def castPrimary (lambdas : Bool) : Phrases := do
  let value ← (do guardThat lambdas; parenthesizedLambda rules lambdas) <|>
    primaryOperand rules lambdas
  pure [value]

/-- A cast. -/
def castExpression (lambdas : Bool) : Parser Tree := do
  let start ← place
  symbol "("
  let types ← sepBy1 "&" (inRole .type (rules .type))
  symbol ")"
  let value ← inRole .value do
    if types.length > 1 then castPrimary rules lambdas
    else
      if types.any isPlainTypeName then guardThat (← operandFollowsName)
      rules (.expression lambdas unaryLevel)
  nodeFrom .cast start (types ++ value)

/-- An operand with the signs before it. -/
def operand (lambdas : Bool) : Parser Tree := do
  let start ← place
  let token ← peek
  if token.isSymbol "(" then
    (do guardThat lambdas; parenthesizedLambda rules lambdas) <|> castExpression rules lambdas <|>
      primaryOperand rules lambdas
  else if token.kind == .symbol && ["+", "-", "!", "~"].contains token.text then
    let _ ← next
    let inner ← inRole .operand (rules (.expression lambdas (unaryLevel + 1)))
    nodeFrom .unary start inner
  else if token.isSymbol "++" || token.isSymbol "--" then
    let _ ← next
    let inner ← rules (.expression lambdas (unaryLevel + 1))
    nodeFrom .update start inner
  else if token.isWord "switch" then
    match ← switchExpression rules with
    | [tree] => pure tree
    | _ => failure
  else primaryOperand rules lambdas

/-! ## Expressions -/

/-- A type test after what is tested. -/
def growByInstanceof (start : Nat) (left : Tree) : Parser Tree := do
  word "instanceof"
  let _ ← tryWord "final"
  let test ← inRole .pattern (recordPattern rules) <|> (do
    let type ← inRole .right (rules .type)
    let name ← maybe declaredName
    pure (type ++ name))
  nodeFrom .instanceofTest start (left.withRole .left :: test)

/-- A conditional expression after its condition. -/
def growByTernary (lambdas : Bool) (start : Nat) (condition : Tree) : Parser Tree := do
  symbol "?"
  let first ← fullExpression rules
  symbol ":"
  let second ← rules (.expression lambdas ternaryLevel)
  nodeFrom .ternary start (condition :: first ++ second)

/-- An operator and its right operand. -/
def growByBinary (lambdas : Bool) (level start : Nat) (left : Tree) : Parser Tree := do
  let text ← operator
  match binaryLevels.find? (·.1 == text) with
  | some (_, own) =>
    guardThat (level ≤ own)
    let right ← inRole .right (rules (.expression lambdas (own + 1)))
    nodeFrom .binary start (left.withRole .left :: right)
  | none => failure

/-- Makes an expression longer by an operator of at least the given level. -/
def growExpression (lambdas : Bool) (level start : Nat) (left : Tree) : Parser Tree := do
  let token ← peek
  if token.isSymbol "++" || token.isSymbol "--" then
    guardThat (level ≤ unaryLevel)
    let _ ← next
    nodeFrom .update start [left]
  else if token.isWord "instanceof" then
    guardThat (level ≤ instanceofLevel)
    growByInstanceof rules start left
  else if token.isSymbol "?" then
    guardThat (level ≤ ternaryLevel)
    growByTernary rules lambdas start left
  else growByBinary rules lambdas level start left

/-- An expression whose operators have at least the given level. -/
def expression (lambdas : Bool) (level : Nat) : Phrases := do
  let start ← place
  let first ← operand rules lambdas
  pure [← grow (growExpression rules lambdas level start) first]

end JavaSlice.Syntax.Grammar
