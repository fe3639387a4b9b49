import JavaSlice.Syntax.Token

/-!
# Syntax trees

A syntax tree shows how a source text is built from phrases. A node has a kind, the role that it
plays in the phrase around it, the piece of source that it covers, and its parts in source order.
Keywords and punctuation are no parts. A piece of source that could not be read is a node of kind
`error`. Where the grammar asks for a phrase or a sign that is missing, a tree may have a *flawed*
node for the phrase that is missing or lacks the sign.

The rules of `Syntax.Grammar` build nodes of kind `error` but no flawed ones. A parser that repairs
its input, such as tree-sitter, builds both. Whatever is read off a tree is therefore told for all
trees, and not only for those of `Tree.ofSource`.
-/

namespace JavaSlice.Syntax

/-- The kinds of phrases. -/
inductive Kind where
  | error
  -- files
  | program
  | packageDeclaration
  | importDeclaration
  | moduleDeclaration
  -- names and literals
  | identifier
  | scopedIdentifier
  | underscorePattern
  | literal
  | thisWord
  | superWord
  | asterisk
  -- types
  | typeIdentifier
  | scopedTypeIdentifier
  | genericType
  | arrayType
  | primitiveType
  | voidType
  | annotatedType
  | typeArguments
  | wildcard
  | dimensions
  | typeParameters
  | typeParameter
  | typeBound
  -- annotations and modifiers
  | annotationMark
  | annotationCall
  | annotationArguments
  | elementValuePair
  | elementValueArray
  | modifiers
  -- expressions
  | assignment
  | binary
  | instanceofTest
  | lambda
  | inferredParameters
  | ternary
  | unary
  | update
  | cast
  | switchExpression
  | switchBlock
  | switchGroup
  | switchRule
  | switchLabel
  | pattern
  | typePattern
  | recordPattern
  | recordPatternBody
  | recordPatternComponent
  | guard
  | classLiteral
  | parenthesized
  | objectCreation
  | arrayCreation
  | dimensionsExpr
  | arrayInitializer
  | fieldAccess
  | arrayAccess
  | methodInvocation
  | methodReference
  | templateExpression
  | argumentList
  -- statements
  | block
  | expressionStatement
  | labeledStatement
  | assertStatement
  | doStatement
  | breakStatement
  | continueStatement
  | returnStatement
  | yieldStatement
  | synchronizedStatement
  | throwStatement
  | tryStatement
  | catchClause
  | catchFormalParameter
  | catchType
  | finallyClause
  | tryWithResources
  | resourceSpecification
  | resource
  | ifStatement
  | whileStatement
  | forStatement
  | enhancedFor
  | localVariableDeclaration
  | variableDeclarator
  -- declarations
  | classDeclaration
  | interfaceDeclaration
  | enumDeclaration
  | recordDeclaration
  | annotationTypeDeclaration
  | superclass
  | superInterfaces
  | extendsInterfaces
  | permits
  | typeList
  | classBody
  | interfaceBody
  | enumBody
  | enumBodyDeclarations
  | enumConstant
  | annotationTypeBody
  | annotationTypeElement
  | fieldDeclaration
  | constantDeclaration
  | methodDeclaration
  | constructorDeclaration
  | compactConstructor
  | constructorBody
  | explicitConstructorInvocation
  | staticInitializer
  | formalParameters
  | formalParameter
  | spreadParameter
  | receiverParameter
  | throwsClause
deriving DecidableEq, Repr, Inhabited

/-- The roles that a phrase can play in the phrase around it, as far as its reading depends on
them. -/
inductive Role where
  | name
  | type
  | value
  | body
  | object
  | arguments
  | parameters
  | member
  | declarator
  | element
  | constructor
  | left
  | right
  | operand
  | pattern
deriving DecidableEq, Repr, Inhabited

/-- What is wrong with a phrase itself, and not with one of its parts. -/
structure Flaw where
  /-- The name that reports give to the kind of the phrase. -/
  label : String
  /-- Whether the phrase could not be read or is missing; else only a sign of it is missing. -/
  isWhole : Bool
deriving DecidableEq, Repr, Inhabited

/-- The flaw of a piece that could not be read. -/
def Flaw.unread : Flaw :=
  ⟨"ERROR", true⟩

/-- A phrase of a source text; `start` and `stop` are the places of its first character and of the
first character after it. -/
inductive Tree where
  | node (kind : Kind) (role : Option Role) (start stop : Nat) (children : List Tree)
  | flawed (flaw : Flaw) (kind : Kind) (role : Option Role) (start stop : Nat)
      (children : List Tree)
deriving Repr, Inhabited

namespace Tree

/-- What a phrase is. -/
def kind : Tree → Kind
  | .node kind _ _ _ _ | .flawed _ kind _ _ _ _ => kind

/-- The role of a phrase. -/
def role : Tree → Option Role
  | .node _ role _ _ _ | .flawed _ _ role _ _ _ => role

/-- Where a phrase starts. -/
def start : Tree → Nat
  | .node _ _ start _ _ | .flawed _ _ _ start _ _ => start

/-- Where a phrase ends. -/
def stop : Tree → Nat
  | .node _ _ _ stop _ | .flawed _ _ _ _ stop _ => stop

/-- The parts of a phrase. -/
def children : Tree → List Tree
  | .node _ _ _ _ children | .flawed _ _ _ _ _ children => children

/-- What is wrong with a phrase itself. -/
def flaw? : Tree → Option Flaw
  | .node kind _ _ _ _ => if kind == .error then some .unread else none
  | .flawed flaw kind _ _ _ _ => some (if kind == .error then .unread else flaw)

/-- A phrase in another role. -/
def withRole (role : Role) : Tree → Tree
  | .node kind _ start stop children => .node kind (some role) start stop children
  | .flawed flaw kind _ start stop children => .flawed flaw kind (some role) start stop children

mutual

/-- Whether a phrase or a part of it, however deep, passes a test. -/
def holds (test : Tree → Bool) : Tree → Bool
  | tree@(.node _ _ _ _ children) | tree@(.flawed _ _ _ _ _ children) =>
    test tree || anyHolds test children

/-- Whether a phrase of a list or a part of one passes a test. -/
def anyHolds (test : Tree → Bool) : List Tree → Bool
  | [] => false
  | tree :: trees => tree.holds test || anyHolds test trees

end

/-- Whether something is wrong with a phrase or with a part of it, however deep. -/
def hasError (tree : Tree) : Bool :=
  tree.holds (·.flaw?.isSome)

/-- The first phrase of a kind. -/
def ofKind? (kind : Kind) (trees : List Tree) : Option Tree :=
  trees.find? (·.kind == kind)

/-- The first phrase in a role. -/
def inRole? (role : Role) (trees : List Tree) : Option Tree :=
  trees.find? (·.role == some role)

end Tree

end JavaSlice.Syntax
