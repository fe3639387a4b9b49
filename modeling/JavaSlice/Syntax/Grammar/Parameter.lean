import JavaSlice.Syntax.Grammar.Type

/-!
# Variables and parameters

The parameters of methods, constructors, records and lambdas, and the part that they share with
variables: a name with brackets after it.
-/

namespace JavaSlice.Syntax.Grammar

open Syntax.Parser

variable (rules : Rules)

/-- The name of a variable, with the brackets that may follow it. -/
def variableId : Phrases := do
  let name ← variableName
  let brackets ← maybe (dimensions rules)
  pure (name ++ brackets)

/-- Initial values between braces; lists inside it are read at most once for each token of
`bound`. -/
def initializerArray (bound : List Token) : Phrases :=
  match bound with
  | [] => failure
  | _ :: bound => node .arrayInitializer do
    symbol "\x7b"
    let values ← commas do
      if ← atSymbol "\x7b" then initializerArray bound else rules (.expression true 0)
    let _ ← trySymbol ","
    symbol "\x7d"
    pure values

/-- The initial values of an array. -/
def arrayInitializer : Phrases := fun cursor =>
  initializerArray rules cursor.tokens cursor

/-- The initial value of a variable. -/
def variableInitializer : Phrases := do
  if ← atSymbol "\x7b" then arrayInitializer rules else rules (.expression true 0)

/-- A variable with its initial value. -/
def variableDeclarator : Phrases := node .variableDeclarator do
  let name ← variableId rules
  if ← trySymbol "=" then
    let value ← inRole .value (variableInitializer rules)
    pure (name ++ value)
  else pure name

/-- The variables of one declaration. -/
def variableDeclarators : Phrases :=
  sepBy1 "," (inRole .declarator (variableDeclarator rules))

/-- The parameter that stands for the object itself. -/
def receiverParameter : Phrases := node .receiverParameter do
  let marks ← annotations rules
  let type ← plainType rules
  let owners ← many do
    let owner ← identifier
    symbol "."
    pure owner
  let self ← leaf .thisWord (·.isWord "this")
  pure (marks ++ type ++ owners ++ self)

/-- A parameter for any number of arguments. -/
def spreadParameter : Phrases := node .spreadParameter do
  let marks ← modifiers rules
  let type ← plainType rules
  symbol "..."
  let more ← annotations rules
  let declared ← variableDeclarator rules
  pure (marks ++ type ++ more ++ declared)

/-- A parameter for one argument. Where no parameter can stand for the object itself, the word
`this` is a name like any other. -/
def formalParameter : Phrases := node .formalParameter do
  let marks ← modifiers rules
  let type ← inRole .type (plainType rules)
  let name ← variableId rules <|> inRole .name (leaf .identifier (·.isWord "this"))
  guardThat ((← atSymbol ",") || (← atSymbol ")"))
  pure (marks ++ type ++ name)

/-- A parameter after the first. -/
def laterParameter : Phrases :=
  spreadParameter rules <|> formalParameter rules

/-- The first parameter, which stands for the object itself only where it cannot be an ordinary one:
without annotations in front of it, or with the name of a type before the word `this`. -/
def firstParameter : Phrases := do
  if ← atSymbol "@" then laterParameter rules <|> receiverParameter rules
  else receiverParameter rules <|> laterParameter rules

/-- The parameters of a method, constructor or record. -/
def formalParameters : Phrases := node .formalParameters do
  symbol "("
  let parameters ← maybe do
    let first ← firstParameter rules
    let rest ← many do symbol ","; laterParameter rules
    pure (first ++ rest)
  symbol ")"
  pure parameters

/-- The parameters of a lambda, without types. -/
def inferredParameters : Phrases := node .inferredParameters do
  symbol "("
  let names ← sepBy1 "," identifier
  symbol ")"
  pure names

end JavaSlice.Syntax.Grammar
