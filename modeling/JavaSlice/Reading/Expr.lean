import JavaSlice.Reading.Phrase

/-!
# The reading of types and expressions

Of each kind of phrase this module says which type, annotation and expression it stands for, given
what its parts stand for; `Phrase.ofTree` puts the answers together for a whole tree.

Most statements only group expressions, and so does every kind of phrase that is not named here. The
members of an anonymous class are read as expressions of the code around them: a method is a lambda,
so that its parameters stay its own, and a field is a local variable.
-/

namespace JavaSlice.Reading

open Syntax Source

variable (source : List Char)

/-! ## Types -/

/-- Whether a phrase of a kind is a type; a type argument with a question mark is none. -/
def isType : Kind → Bool
  | .typeIdentifier | .scopedTypeIdentifier | .genericType | .arrayType | .primitiveType | .voidType
  | .annotatedType => true
  | _ => false

/-- The type that a phrase in the place of a type stands for. -/
def typeAt (phrase : Phrase) : TypeRef :=
  phrase.type?.getD (.other (phrase.text source))

def typesAmong (parts : List Phrase) : List TypeRef :=
  (parts.filter (isType ·.kind)).map (typeAt source)

def declaredType? (parts : List Phrase) : Option TypeRef :=
  (inRole? .type parts).map (typeAt source)

def declaredType (parts : List Phrase) : TypeRef :=
  (declaredType? source parts).getD .inferred

/-- The name of a type with arguments: the part before them. -/
def genericName (parts : List Phrase) : String :=
  let segment := parts.find? fun part =>
    part.kind == .typeIdentifier || part.kind == .scopedTypeIdentifier
  (segment.map fun part => Text.dropBlanks (part.text source)).getD ""

/-- Puts annotations on a named type; other types do not carry any. -/
def annotate (marks : List Annotation) : TypeRef → TypeRef
  | .named name args _ => .named name args marks
  | type => type

/-- The type that a phrase stands for, given its kind, its place and its parts. -/
def typeOf? (kind : Kind) (start stop : Nat) (parts : List Phrase) : Option TypeRef :=
  let text := fun (_ : Unit) => textBetween source start stop
  match kind with
  | .primitiveType => some (.primitive (text ()))
  | .voidType => some .void
  | .typeIdentifier => some (if text () == "var" then .inferred else .simple (text ()))
  | .scopedTypeIdentifier => some (.simple (Text.dropBlanks (text ())))
  | .genericType =>
    some (.named (genericName source parts) ((partsOfKind .typeArguments parts).map (typeAt source))
      [])
  | .arrayType =>
    some (((inRole? .element parts).map fun element => .array (typeAt source element)).getD
      (.other (text ())))
  | .annotatedType =>
    some (annotate (marksOf parts) ((typesAmong source parts).getLast?.getD (.other (text ()))))
  | .wildcard => some (.wildcard (typesAmong source parts).getLast?)
  | _ => none

/-! ## Annotations and parameters -/

/-- The argument of an annotation: the value of a named element, or the phrase itself. -/
def annotationArgument (phrase : Phrase) : Expr :=
  if phrase.kind == .elementValuePair then
    ((inRole? .value phrase.parts).map (·.expr)).getD phrase.expr
  else phrase.expr

/-- The annotation that a phrase stands for, given its kind and its parts. -/
def markOf? (kind : Kind) (parts : List Phrase) : Option Annotation :=
  if kind == .annotationMark || kind == .annotationCall then
    (name? source parts).map fun name =>
      ⟨Text.dropBlanks name, (partsInRole .arguments parts).map annotationArgument⟩
  else none

def param? (phrase : Phrase) : Option Param :=
  match phrase.kind with
  | .formalParameter =>
    some ⟨nameOf source phrase.parts, declaredType source phrase.parts, modifiersOf phrase.parts⟩
  | .spreadParameter =>
    some ⟨nameOf source (partsOfKind .variableDeclarator phrase.parts),
      .array ((typesAmong source phrase.parts).head?.getD .inferred), modifiersOf phrase.parts⟩
  | .identifier => some ⟨phrase.text source, .inferred, []⟩
  | _ => none

def paramsOf (parts : List Phrase) : List Param :=
  parts.filterMap (param? source)

/-- The parameters of a lambda: a single name, or a list between parentheses. -/
def lambdaParams (parts : List Phrase) : List Param :=
  match inRole? .parameters parts with
  | some phrase =>
    if phrase.kind == .identifier then paramsOf source [phrase] else paramsOf source phrase.parts
  | none => []

/-! ## Variables -/

def variableOf (parts : List Phrase) : Variable :=
  ⟨nameOf source parts, (inRole? .value parts).map (·.expr)⟩

def declareOne (type : TypeRef) (parts : List Phrase) : Expr :=
  .declare type [variableOf source parts]

def declaredNames (parts : List Phrase) : List String :=
  (allInRole .declarator parts).filterMap fun part => name? source part.parts

def initializersOf (parts : List Phrase) : List Expr :=
  (allInRole .declarator parts).filterMap fun part => (inRole? .value part.parts).map (·.expr)

/-! ## Bodies of anonymous classes -/

/-- The expressions that a member of an anonymous class stands for. -/
def anonymousMember (phrase : Phrase) : List Expr :=
  match phrase.kind with
  | .methodDeclaration =>
    if (name? source phrase.parts).isSome then
      [.lambda (paramsOf source (partsInRole .parameters phrase.parts))
        (.group (exprsOf (partsInRole .body phrase.parts)))]
    else []
  | .fieldDeclaration =>
    .declare (declaredType source phrase.parts)
      ((declaredNames source phrase.parts).map fun name => ⟨name, none⟩) ::
      initializersOf phrase.parts
  | _ => [phrase.expr]

def anonymousBody (parts : List Phrase) : Expr :=
  .group (parts.flatMap (anonymousMember source))

/-! ## Expressions -/

/-- The name of a method reference: its last part, if that is a name and not what the reference
starts with. -/
def referenceName (parts : List Phrase) : String :=
  match parts.getLast? with
  | some last => if 1 < parts.length && last.kind == .identifier then last.text source else "new"
  | none => "new"

/-- The test of a type: the tested expression, then the type, as a declaration if the test names a
variable, or the pattern. -/
def instanceofParts (parts : List Phrase) : List Expr :=
  let tested := match inRole? .right parts with
    | some right =>
      match name? source parts with
      | some name => [.declare (typeAt source right) [⟨name, none⟩]]
      | none => [.typeUse (typeAt source right)]
    | none => []
  exprInRole .left parts :: tested ++ exprsOf (inRole? .pattern parts).toList

/-- The variable of a clause that catches exceptions: it is declared with the first type. -/
def caughtParts (parts : List Phrase) : List Expr :=
  match typesAmong source (partsOfKind .catchType parts) with
  | [] => [declareOne source .inferred parts]
  | first :: rest => declareOne source first parts :: rest.map .typeUse

/-- The expression that a phrase without faults stands for, given its kind, its place, its parts and
the type or annotation that it stands for. -/
def exprOf (kind : Kind) (start stop : Nat) (type? : Option TypeRef) (mark? : Option Annotation)
    (parts : List Phrase) : Expr :=
  match kind with
  | .literal => .literal
  | .typeIdentifier | .scopedTypeIdentifier | .genericType | .arrayType | .primitiveType | .voidType
  | .annotatedType => .typeUse (type?.getD .inferred)
  | .identifier => .identifier (textBetween source start stop)
  | .thisWord => .thisRef
  | .superWord => .superRef
  | .methodInvocation =>
    .call ((inRole? .object parts).map (·.expr)) (nameOf source parts) (argumentsOf parts)
  | .objectCreation =>
    .create ((declaredType? source parts).getD (.other (textBetween source start stop)))
      (argumentsOf parts) ((ofKind? .classBody parts).map fun body =>
        anonymousBody source body.parts)
  | .explicitConstructorInvocation =>
    let delegates := ((inRole? .constructor parts).map (·.kind == .thisWord)).getD false
    .call (some (if delegates then .thisRef else .superRef)) "<init>" (argumentsOf parts)
  | .fieldAccess =>
    .field (exprInRole .object parts) (((inRole? .member parts).map (·.text source)).getD "")
  | .methodReference =>
    .methodRef ((parts.head?.map (·.expr)).getD .literal) (referenceName source parts)
  | .localVariableDeclaration =>
    .declare (declaredType source parts)
      ((allInRole .declarator parts).map fun part => variableOf source part.parts)
  | .enhancedFor =>
    .group [.declare (declaredType source parts) [⟨nameOf source parts, none⟩],
      exprInRole .value parts, exprInRole .body parts]
  | .catchFormalParameter => .group (caughtParts source parts)
  | .resource =>
    match declaredType? source parts with
    | some type => declareOne source type parts
    | none => .group (exprsOf parts)
  | .lambda => .lambda (lambdaParams source parts) (exprInRole .body parts)
  | .cast =>
    .group ((allInRole .type parts).map (fun part => .typeUse (typeAt source part)) ++
      [exprInRole .value parts])
  | .instanceofTest => .group (instanceofParts source parts)
  | .classLiteral => (parts.head?.map fun part => .typeUse (typeAt source part)).getD .literal
  | .binary => .binary (exprInRole .left parts) (exprInRole .right parts)
  | .unary => .unary (exprInRole .operand parts)
  | .annotationMark | .annotationCall =>
    (mark?.map fun mark => .group (.typeUse (.simple mark.name) :: mark.args)).getD .literal
  | _ => .group (exprsOf parts)

/-- The expression that a phrase stands for, given also what is wrong with the phrase itself. That
is reported, unless it is only a sign that is missing and there is more to report in the parts;
where a part has a fault, the phrase only groups its parts. -/
def faultyExprOf (flaw? : Option Flaw) (kind : Kind) (start stop : Nat) (type? : Option TypeRef)
    (mark? : Option Annotation) (parts : List Phrase) : Expr :=
  let faulty := parts.any (·.faulty)
  match flaw? with
  | some flaw =>
    if faulty && !flaw.isWhole then .group (exprsOf parts)
      else .unsupported flaw.label (lineAt source start)
  | none => if faulty then .group (exprsOf parts)
    else exprOf source kind start stop type? mark? parts

/-- The phrase of a node, given what is wrong with it and the phrases of its parts. -/
def phraseOf (flaw? : Option Flaw) (kind : Kind) (role : Option Role) (start stop : Nat)
    (parts : List Phrase) : Phrase :=
  let type? := typeOf? source kind start stop parts
  let mark? := markOf? source kind parts
  .mk kind role start stop (flaw?.isSome || parts.any (·.faulty)) type? mark?
    (faultyExprOf source flaw? kind start stop type? mark? parts) parts

mutual

def Phrase.ofTree : Tree → Phrase
  | tree@(.node kind role start stop children) | tree@(.flawed _ kind role start stop children) =>
    phraseOf source tree.flaw? kind role start stop (ofTrees children)

def Phrase.ofTrees : List Tree → List Phrase
  | [] => []
  | tree :: trees => Phrase.ofTree tree :: ofTrees trees

end

end JavaSlice.Reading
