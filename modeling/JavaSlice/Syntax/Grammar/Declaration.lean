import JavaSlice.Syntax.Grammar.Statement

/-!
# Declarations

Types and their members. The modifiers of a declaration are read first, and then the first phrase
that fits what follows them is taken. A piece of a body that is no member becomes an error that
reaches to the next semicolon or to the end of the next braces.
-/

namespace JavaSlice.Syntax.Grammar

open Syntax.Parser

variable (rules : Rules)

/-! ## Headers -/

/-- Types with commas between them. -/
def typeList : Phrases :=
  node .typeList (sepBy1 "," (rules .type))

/-- The superclass of a class. -/
def superclass : Phrases := node .superclass do
  word "extends"
  rules .type

/-- A keyword with types after it. -/
def typeClause (kind : Kind) (text : String) : Phrases := node kind do
  word text
  typeList rules

/-- The interfaces that a type implements. -/
def superInterfaces : Phrases :=
  typeClause rules .superInterfaces "implements"

/-- The exceptions that a method declares. -/
def throwsClause : Phrases := node .throwsClause do
  word "throws"
  sepBy1 "," (rules .type)

/-! ## Type declarations -/

/-- A constant of an enumeration. -/
def enumConstant : Phrases := node .enumConstant do
  let marks ← modifiers rules
  let name ← declaredName
  let args ← maybe (arguments rules)
  let body ← maybe (inRole .body (rules (.body .ofClass)))
  pure (marks ++ name ++ args ++ body)

/-- A class after its modifiers. -/
def classRest (start : Nat) (marks : List Tree) : Parser Tree := do
  word "class"
  let name ← declaredName
  let parameters ← maybe (typeParameters rules)
  let parent ← maybe (superclass rules)
  let interfaces ← maybe (superInterfaces rules)
  let permitted ← maybe (typeClause rules .permits "permits")
  let body ← inRole .body (rules (.body .ofClass))
  nodeFrom .classDeclaration start
    (marks ++ name ++ parameters ++ parent ++ interfaces ++ permitted ++ body)

/-- An interface after its modifiers. -/
def interfaceRest (start : Nat) (marks : List Tree) : Parser Tree := do
  word "interface"
  let name ← declaredName
  let parameters ← maybe (typeParameters rules)
  let parents ← maybe (typeClause rules .extendsInterfaces "extends")
  let permitted ← maybe (typeClause rules .permits "permits")
  let body ← inRole .body (rules (.body .ofInterface))
  nodeFrom .interfaceDeclaration start (marks ++ name ++ parameters ++ parents ++ permitted ++ body)

/-- A record after its modifiers. -/
def recordRest (start : Nat) (marks : List Tree) : Parser Tree := do
  word "record"
  let name ← declaredName
  let parameters ← maybe (typeParameters rules)
  let components ← inRole .parameters (formalParameters rules)
  let interfaces ← maybe (superInterfaces rules)
  let body ← inRole .body (rules (.body .ofClass))
  nodeFrom .recordDeclaration start (marks ++ name ++ parameters ++ components ++
    interfaces ++ body)

/-- An annotation type after its modifiers. -/
def annotationTypeRest (start : Nat) (marks : List Tree) : Parser Tree := do
  symbol "@interface"
  let name ← declaredName
  let body ← inRole .body (rules (.body .ofAnnotationType))
  nodeFrom .annotationTypeDeclaration start (marks ++ name ++ body)

/-! ## Members -/

/-- A method after its modifiers. -/
def methodRest (start : Nat) (marks : List Tree) : Parser Tree := do
  let parameters ← maybe do
    let parameters ← typeParameters rules
    let more ← annotations rules
    pure (parameters ++ more)
  let type ← inRole .type (plainType rules)
  let name ← declaredName
  let formals ← inRole .parameters (formalParameters rules)
  let brackets ← maybe (dimensions rules)
  let exceptions ← maybe (throwsClause rules)
  let body ← inRole .body (rules .block) <|> (do symbol ";"; pure [])
  nodeFrom .methodDeclaration start
    (marks ++ parameters ++ type ++ name ++ formals ++ brackets ++ exceptions ++ body)

/-- A call of another constructor at the start of a constructor. -/
def explicitConstructorInvocation : Phrases := node .explicitConstructorInvocation do
  let callee ← (do
      let typeArgs ← maybe (typeArguments rules)
      let target ← inRole .constructor
        (leaf .thisWord (·.isWord "this") <|> leaf .superWord (·.isWord "super"))
      guardThat (← atSymbol "(")
      pure (typeArgs ++ target)) <|> (do
      let base := if (← atSymbol "(") then parenthesized rules else primaryBase rules
      let object ← primaryFrom rules base
      symbol "."
      let typeArgs ← maybe (typeArguments rules)
      let target ← inRole .constructor (leaf .superWord (·.isWord "super"))
      pure (object.withRole .object :: typeArgs ++ target))
  let args ← arguments rules
  symbol ";"
  pure (callee ++ args)

/-- The body of a constructor. -/
def constructorBody : Phrases := node .constructorBody do
  symbol "\x7b"
  let invocation ← maybe (explicitConstructorInvocation rules)
  let parts ← statements rules
  symbol "\x7d"
  pure (invocation ++ parts)

/-- A constructor after its modifiers. -/
def constructorRest (start : Nat) (marks : List Tree) : Parser Tree := do
  let parameters ← maybe (typeParameters rules)
  let name ← declaredName
  let formals ← inRole .parameters (formalParameters rules)
  let exceptions ← maybe (throwsClause rules)
  let body ← inRole .body (constructorBody rules)
  nodeFrom .constructorDeclaration start
    (marks ++ parameters ++ name ++ formals ++ exceptions ++ body)

/-- The constructor of a record without parameters of its own, after its modifiers. -/
def compactConstructorRest (start : Nat) (marks : List Tree) : Parser Tree := do
  let name ← declaredName
  let body ← inRole .body (rules .block)
  nodeFrom .compactConstructor start (marks ++ name ++ body)

/-- Fields or constants after their modifiers. -/
def fieldRest (kind : Kind) (start : Nat) (marks : List Tree) : Parser Tree := do
  let type ← inRole .type (plainType rules)
  let declared ← variableDeclarators rules
  symbol ";"
  nodeFrom kind start (marks ++ type ++ declared)

/-- An element of an annotation type after its modifiers. -/
def annotationElementRest (start : Nat) (marks : List Tree) : Parser Tree := do
  let type ← inRole .type (plainType rules)
  let name ← declaredName
  symbol "("
  symbol ")"
  let brackets ← maybe (dimensions rules)
  let value ← maybe do
    word "default"
    inRole .value (elementValueOrArray rules)
  symbol ";"
  nodeFrom .annotationTypeElement start (marks ++ type ++ name ++ brackets ++ value)

/-- A block that is run once for a class. -/
def staticInitializer : Phrases := node .staticInitializer do
  word "static"
  rules .block

/-! ## Bodies -/

/-- The members of an enumeration after its constants. -/
def enumBodyDeclarations (member : Phrases) : Phrases :=
  node .enumBodyDeclarations do
    symbol ";"
    many (member <|> badPiece true)

/-- The body of an enumeration. -/
def enumBody (member : Phrases) : Phrases := node .enumBody do
  symbol "\x7b"
  let constants ← commas (enumConstant rules)
  let _ ← trySymbol ","
  let declarations ← maybe (enumBodyDeclarations member)
  symbol "\x7d"
  pure (constants ++ declarations)

/-- An enumeration after its modifiers. -/
def enumRest (member : Phrases) (start : Nat) (marks : List Tree) : Parser Tree := do
  word "enum"
  let name ← declaredName
  let interfaces ← maybe (superInterfaces rules)
  let body ← inRole .body (enumBody rules member)
  nodeFrom .enumDeclaration start (marks ++ name ++ interfaces ++ body)

/-- A type declaration after its modifiers; `member` reads the members of an enumeration. -/
def typeDeclarationRest (member : Phrases) (start : Nat) (marks : List Tree) :
    Parser Tree :=
  classRest rules start marks <|> interfaceRest rules start marks <|>
    enumRest rules member start marks <|> recordRest rules start marks <|>
    annotationTypeRest rules start marks

/-- A member after its modifiers, as the kind of body allows. -/
def memberRest (kind : BodyKind) (start : Nat) (marks : List Tree) : Parser Tree :=
  match kind with
  | .ofClass =>
    constructorRest rules start marks <|> compactConstructorRest rules start marks <|>
      methodRest rules start marks <|> fieldRest rules .fieldDeclaration start marks
  | .ofInterface => methodRest rules start marks <|>
    fieldRest rules .constantDeclaration start marks
  | .ofAnnotationType =>
    annotationElementRest rules start marks <|> fieldRest rules .constantDeclaration start marks

/-- A member of a body, nested types apart. -/
def plainMember (kind : BodyKind) : Phrases := do
  let start ← place
  let marks ← modifiers rules
  pure [← memberRest rules kind start marks]

/-- Any member of a body. -/
def member (kind : BodyKind) : Phrases := do
  let token ← peek
  if token.isSymbol ";" then
    symbol ";"
    pure []
  else if token.isSymbol "\x7b" && kind == .ofClass then rules .block
  else
    (do guardThat (kind == .ofClass); staticInitializer rules) <|> rules .typeDeclaration <|>
      plainMember rules kind

/-- A declaration of a type. -/
def typeDeclaration : Phrases := do
  let start ← place
  let marks ← modifiers rules
  pure [← typeDeclarationRest rules (member rules .ofClass) start marks]

/-- The kind of node for a kind of body. -/
def BodyKind.node : BodyKind → Kind
  | .ofClass => .classBody
  | .ofInterface => .interfaceBody
  | .ofAnnotationType => .annotationTypeBody

/-- The body of a type, errors among its members. -/
def body (kind : BodyKind) : Phrases := node (BodyKind.node kind) do
  symbol "\x7b"
  let members ← many (member rules kind <|> badPiece true)
  symbol "\x7d"
  pure members

end JavaSlice.Syntax.Grammar
