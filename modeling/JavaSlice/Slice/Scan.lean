import JavaSlice.Index.Lookup
import JavaSlice.Text.Case

/-!
# What a declaration needs

Scanning a declaration lists, in order, everything that keeping it entails: the declarations and
the import lines that it needs, and the copy of its own text. A scan depends on the index and on the
declaration alone. It is a list of `Step`s, which the work list carries out one after the other; a
step may also say that the declaration cannot be scanned, and then the steps after it count for
nothing.

Names inside a body are understood without regard to blocks: first all local variables and
parameters of a member are collected, then every call, creation, field access, method reference and
name is followed to the declaration that it reaches.
-/

namespace JavaSlice.Slice

open Source

/-- Why a declaration cannot be scanned. -/
inductive Fault where
  | missingType
  | missingField
  | missingMethod
  | missingConstructor
  | unsupported (kind : String) (line : Nat)
deriving DecidableEq, Repr, Inhabited

/-- The text of a fault. -/
def Fault.reason : Fault → String
  | .missingType => "enclosing type is missing from the index"
  | .missingField => "field vanished from the index"
  | .missingMethod => "method vanished from the index"
  | .missingConstructor => "constructor vanished from the index"
  | .unsupported kind line => "unsupported expression `" ++ kind ++ "` at line " ++ toString line

/-- One thing that keeping a declaration entails. -/
inductive Step where
  /-- Another declaration is needed. -/
  | need (kind : EdgeKind) (key : Key)
  /-- The file of the owner needs an import line. -/
  | useImport (line : Import)
  /-- A field declaration is copied into the outline of the owner. -/
  | keepField (field : Field)
  /-- A method or constructor is copied into the outline of the owner. -/
  | keepMethod (key : MemberKey) (method : Method)
  | fail (fault : Fault)
deriving Inhabited

/-- What is known at a place inside a declaration. -/
structure Scope where
  index : Index
  unit : CompilationUnit
  owner : TypeDecl
  typeParams : List String
  /-- The parameters and local variables, with their declared types. -/
  locals : Table TypeRef

namespace Scope

/-- The scope of a declaration of a type, with the type variables of the type and of the types that
enclose it. -/
def ofOwner (index : Index) (unit : CompilationUnit) (owner : TypeDecl) : Scope :=
  ⟨index, unit, owner, (index.scopeTypes owner).flatMap (·.typeParams), []⟩

/-- Whether a name is a parameter or a local variable. -/
def isLocal (scope : Scope) (name : String) : Bool :=
  scope.locals.has name

/-- Brings a variable into scope; it hides others of its name. -/
def declare (scope : Scope) (name : String) (type : TypeRef) : Scope :=
  { scope with locals := scope.locals.put name type }

/-- Brings type variables into scope. -/
def withTypeParams (scope : Scope) (names : List String) : Scope :=
  { scope with typeParams := scope.typeParams ++ names }

/-! ## Imports and types -/

/-- Takes over the line that explains a name. -/
def importSteps (resolution : Resolution) : List Step :=
  resolution.line.toList.map .useImport

/-- Takes over all wildcard imports of libraries. -/
def allWildcards (scope : Scope) (isStatic : Bool) : List Step :=
  (scope.index.libraryWildcards scope.unit isStatic).map .useImport

/-- Whether a name needs no import: it is a local variable, a type variable or a class of the
language. -/
def needsNoImport (scope : Scope) (name : String) : Bool :=
  scope.isLocal name || scope.typeParams.contains name || Index.isLanguageType name

/-- Whether the first character of a name is of a class. -/
def startsWith (isClass : Char → Bool) (name : String) : Bool :=
  match name.toList with
  | c :: _ => isClass c
  | [] => false

/-- The wildcard imports of libraries that may explain a name. A name of a type that starts in lower
case starts with a package and needs none. -/
def wildcardSteps (scope : Scope) (name : String) (isStatic : Bool) : List Step :=
  let head := Dotted.head name
  if scope.needsNoImport head then []
  else if !isStatic && startsWith Text.isLowercase head then []
  else scope.allWildcards isStatic

/-- What the name of a class entails. -/
def classSteps (scope : Scope) (kind : EdgeKind) (name : String) : List Step :=
  match scope.index.resolve? scope.unit name with
  | some resolution => importSteps resolution ++ resolution.target.toList.map (.need kind)
  | none => scope.wildcardSteps name false

/-- Whether a type names classes: bounds of wildcards count. -/
def mentionsClasses : TypeRef → Bool
  | .wildcard (some _) => true
  | type => type.isReference

/-- What the mention of a type entails: every class that it names and every annotation written on
it. -/
def typeSteps (scope : Scope) (kind : EdgeKind) (type : TypeRef) : List Step :=
  if mentionsClasses type then
    (type.annotations.flatMap fun mark => scope.classSteps .annotated mark.name) ++
      type.classNames.flatMap (scope.classSteps kind)
  else []

/-! ## The type of an expression -/

/-- The type of the project that an expression has. -/
def exprType? (scope : Scope) : Expr → Option String
  | .thisRef => some scope.owner.qualifiedName
  | .identifier name =>
    match scope.locals.get? name with
    | some type => scope.index.projectType? scope.unit type
    | none =>
      match scope.index.visibleField? scope.owner name with
      | some key => scope.index.fieldType? key
      | none => (scope.index.qualifiedName? scope.unit name).filter scope.index.hasType
  | .field .superRef name =>
    (scope.index.supertypes scope.owner).head?.bind fun owner =>
      memberType? owner name
  | .field receiver name =>
    ((scope.exprType? receiver).bind scope.index.typeDecl?).bind fun owner =>
      memberType? owner name
  | .call none name args =>
    (scope.index.visibleMethod? scope.owner ⟨name, some args.length⟩).bind scope.index.returnType?
  | .call (some .thisRef) name args =>
    (scope.index.findMethod? ⟨name, some args.length⟩ scope.owner).bind scope.index.returnType?
  | .call (some receiver) name args =>
    ((scope.exprType? receiver).bind scope.index.typeDecl?).bind fun owner =>
      (scope.index.findMethod? ⟨name, some args.length⟩ owner).bind scope.index.returnType?
  | .create type _ _ => scope.index.projectType? scope.unit type
  | .typeUse type => scope.index.projectType? scope.unit type
  | _ => none
where
  /-- The type of a member of a type: that of a field, or a member type itself. -/
  memberType? (owner : TypeDecl) (name : String) : Option String :=
    match scope.index.findField? owner name with
    | some key => scope.index.fieldType? key
    | none => (owner.memberType? name).map (·.qualifiedName)

/-- The declaration of the type of an expression. -/
def exprDecl? (scope : Scope) (expr : Expr) : Option TypeDecl :=
  (scope.exprType? expr).bind scope.index.typeDecl?

/-- The type on which a field or a method reference is looked up. -/
def receiver? (scope : Scope) : Expr → Option TypeDecl
  | .superRef => (scope.index.supertypes scope.owner).head?
  | expr => scope.exprDecl? expr

/-- Whether an expression names a type and not a value. -/
def isTypeName (scope : Scope) : Expr → Bool
  | .identifier name =>
    !scope.isLocal name && (scope.index.visibleField? scope.owner name).isNone
  | .typeUse _ => true
  | _ => false

/-! ## Calls -/

/-- The static import that introduces a method of the project for a call, with the method. -/
def staticMethod? (scope : Scope) (call : CallSite) : Option (Import × Key) :=
  (scope.unit.imports.filter (·.isStatic)).findSome? fun line => do
    let name ← if line.isWildcard then some line.name
      else if line.simpleName == call.name then line.qualifier? else none
    let owner ← scope.index.typeDecl? name
    let key ← scope.index.findMethod? call owner
    pure (line, key)

/-- The static import that names a method of a library for a call. -/
def libraryMethod? (scope : Scope) (call : CallSite) : Option Import :=
  scope.unit.imports.find? fun line =>
    line.isStatic && !line.isWildcard && line.simpleName == call.name &&
      line.qualifier?.any fun owner => !scope.index.hasType owner

/-- What an unqualified call entails that no visible type declares: a static import, or all static
wildcard imports of libraries if none names the method. -/
def externalCallSteps (scope : Scope) (call : CallSite) : List Step :=
  match scope.staticMethod? call with
  | some (line, key) => [.useImport line, .need .call key]
  | none =>
    match scope.libraryMethod? call with
    | some line => [.useImport line]
    | none => scope.allWildcards true

/-- Needs a declaration, if there is one. -/
def needSteps (kind : EdgeKind) (key : Option Key) : List Step :=
  key.toList.map (.need kind)

/-- What a call of another constructor entails: `this(…)` or `super(…)`. -/
def delegationSteps (scope : Scope) (receiver : Option Expr) (count : Nat) : List Step :=
  let candidates := match receiver with
    | some .superRef => scope.index.supertypes scope.owner
    | _ => [scope.owner]
  needSteps .construction (candidates.findSome? (Index.findConstructor? · count))

/-- What a call entails. -/
def callSteps (scope : Scope) (receiver : Option Expr) (name : String) (count : Nat) : List Step :=
  if name == "<init>" then scope.delegationSteps receiver count
  else
    let call : CallSite := ⟨name, some count⟩
    match receiver with
    | none =>
      match scope.index.visibleMethod? scope.owner call with
      | some key => [.need .call key]
      | none => scope.externalCallSteps call
    | some .thisRef => needSteps .call (scope.index.findMethod? call scope.owner)
    | some .superRef =>
      needSteps .call ((scope.index.supertypes scope.owner).findSome?
        (scope.index.findMethod? call))
    | some expr => needSteps .call ((scope.exprDecl? expr).bind (scope.index.findMethod? call))

/-! ## Creations, fields, method references and names -/

/-- What the creation of an object entails. -/
def creationSteps (scope : Scope) (type : TypeRef) (count : Nat) : List Step :=
  scope.typeSteps .construction type ++
    needSteps .construction do
      let name ← scope.index.projectType? scope.unit type
      let decl ← scope.index.typeDecl? name
      Index.findConstructor? decl count

/-- What an access to a field entails. A constant of an enum is no field, and needs its type. -/
def fieldSteps (scope : Scope) (receiver : Expr) (name : String) : List Step :=
  match scope.receiver? receiver with
  | none => []
  | some owner =>
    match scope.index.findField? owner name with
    | some key => [.need .fieldRef key]
    | none =>
      match owner.memberType? name with
      | some type => [.need .fieldRef (.type type.qualifiedName)]
      | none =>
        if scope.isTypeName receiver then [.need .fieldRef (.type owner.qualifiedName)] else []

/-- What a method reference entails. -/
def methodRefSteps (scope : Scope) (receiver : Expr) (name : String) : List Step :=
  match scope.receiver? receiver with
  | none => []
  | some owner =>
    if name == "new" then
      needSteps .construction <| owner.constructors.head?.map fun constructor =>
        .constructor owner.qualifiedName constructor.arity
    else needSteps .call (scope.index.findMethod? ⟨name, none⟩ owner)

/-- Whether a name is written like a constant. -/
def isConstantLike (name : String) : Bool :=
  name.toList.all fun c => c.isUpper || c.isDigit || c == '_'

/-- What a name without explanation entails: `Name` may be a type, `name` a static member, and
`NAME` either. -/
def unknownNameSteps (scope : Scope) (name : String) : List Step :=
  let isTypeLike := startsWith Text.isUppercase name
  (if isTypeLike then scope.wildcardSteps name false else []) ++
    (if isConstantLike name || !isTypeLike then scope.wildcardSteps name true else [])

/-- What a bare name entails: nothing for a local variable, else a visible field, or an import line
with the field that it introduces. -/
def nameSteps (scope : Scope) (name : String) : List Step :=
  if scope.isLocal name then []
  else
    match scope.index.visibleField? scope.owner name with
    | some key => [.need .fieldRef key]
    | none =>
      match scope.index.resolve? scope.unit name with
      | none => scope.unknownNameSteps name
      | some resolution =>
        importSteps resolution ++
          match resolution.target with
          | some ⟨owner, .field field⟩ => [.need .fieldRef (.field owner field)]
          | _ => []

/-! ## Bodies -/

/-- The type under which a variable is known: that of the object it starts with, for a variable
whose type is inferred. -/
def variableType (type : TypeRef) (init : Option Expr) : TypeRef :=
  match type, init with
  | .inferred, some (.create created _ _) => created
  | _, _ => type

/-- Declares one variable of a local declaration, and follows its initial value if that is a bare
name. -/
def declareVariable (type : TypeRef) (state : Scope × List Step) (declared : Variable) :
    Scope × List Step :=
  let scope := state.1.declare declared.name (variableType type declared.init)
  match declared.init with
  | some (.identifier source) => (scope, state.2 ++ scope.nameSteps source)
  | _ => (scope, state.2)

/-- Brings a parameter of a lambda into scope. -/
def declareParam (state : Scope × List Step) (param : Param) : Scope × List Step :=
  (state.1.declare param.name param.type, state.2 ++ state.1.typeSteps .parameterType param.type)

/-- Declares what one subterm of a body declares. -/
def declareSubterm (state : Scope × List Step) : Expr → Scope × List Step
  | .declare type declared =>
    declared.foldl (declareVariable type) (state.1, state.2 ++ state.1.typeSteps .variableType type)
  | .lambda params _ => params.foldl declareParam state
  | _ => state

/-- What one subterm of a body entails, apart from its parts. -/
def subtermSteps (scope : Scope) : Expr → List Step
  | .unsupported kind line => [.fail (.unsupported kind line)]
  | .call receiver name args => scope.callSteps receiver name args.length
  | .create type args _ => scope.creationSteps type args.length
  | .field receiver name => scope.fieldSteps receiver name
  | .methodRef receiver name => scope.methodRefSteps receiver name
  | .identifier name => scope.nameSteps name
  | .typeUse type => scope.typeSteps .variableType type
  | _ => []

/-- What an expression entails. -/
def exprSteps (scope : Scope) (expr : Expr) : List Step :=
  expr.subterms.flatMap scope.subtermSteps

/-- What a body entails: first its local variables are declared, then its expressions are
followed. -/
def bodySteps (scope : Scope) (body : List Expr) : List Step :=
  let (inner, declarations) := (Expr.subtermsOfAll body).foldl declareSubterm (scope, [])
  declarations ++ body.flatMap inner.exprSteps

/-- What an annotation entails. -/
def annotationSteps (scope : Scope) (mark : Annotation) : List Step :=
  scope.classSteps .annotated mark.name ++ mark.args.flatMap scope.exprSteps

/-- What some annotations entail. -/
def annotationsSteps (scope : Scope) (annotations : List Annotation) : List Step :=
  annotations.flatMap scope.annotationSteps

/-! ## Members and types -/

/-- What a field entails. -/
def fieldDeclSteps (scope : Scope) (field : Field) : List Step :=
  .keepField field :: scope.annotationsSteps field.annotations ++
    scope.typeSteps .variableType field.type ++ scope.bodySteps field.initializers

/-- Brings a parameter of a member into scope, after what its annotations and type entail. -/
def memberParam (state : Scope × List Step) (param : Param) : Scope × List Step :=
  (state.1.declare param.name param.type,
    state.2 ++ state.1.annotationsSteps param.annotations ++
      state.1.typeSteps .parameterType param.type)

/-- What a method or constructor entails, with the type that it returns. -/
def methodSteps (outer : Scope) (key : MemberKey) (method : Method) (result : Option TypeRef) :
    List Step :=
  let scope := outer.withTypeParams method.typeParams
  let (inner, params) := method.params.foldl memberParam (scope, [])
  .keepMethod key method :: scope.annotationsSteps method.annotations ++
    method.throws.flatMap (scope.typeSteps .returnType) ++
    result.toList.flatMap (scope.typeSteps .returnType) ++ params ++ inner.bodySteps method.body

/-- What keeping a type entails: all its fields, the constructors of an enum and the elements of an
annotation type. -/
def typeDeclSteps (decl : TypeDecl) : List Step :=
  let name := decl.qualifiedName
  let fields := decl.fields.map fun field => Key.field name field.firstName
  let others := match decl.kind with
    | .enumType => decl.constructors.map fun constructor => Key.constructor name constructor.arity
    | .annotationType => decl.methods.map fun element => Key.method name element.name element.arity
    | _ => []
  (fields ++ others).map (.need .member)

/-- What the header of a type entails: its annotations, the types that it names, and the constants
of an enum. -/
def headerSteps (scope : Scope) : List Step :=
  scope.annotationsSteps scope.owner.annotations ++
    scope.owner.headerTypes.flatMap (scope.typeSteps .supertype) ++
    scope.bodySteps scope.owner.constants

/-- What a member entails. -/
def memberSteps (scope : Scope) : MemberKey → List Step
  | .type => typeDeclSteps scope.owner
  | .field name =>
    match scope.owner.field? name with
    | some field => scope.fieldDeclSteps field
    | none => [.fail .missingField]
  | .method name arity =>
    match scope.owner.method? name arity with
    | some method =>
      scope.methodSteps (.method name arity) method (method.returnType.filter (·.isReference))
    | none => [.fail .missingMethod]
  | .constructor arity =>
    match scope.owner.constructor? arity with
    | some constructor => scope.methodSteps (.constructor arity) constructor none
    | none => [.fail .missingConstructor]

end Scope

/-- The scan of a declaration. -/
def scan (index : Index) (key : Key) : List Step :=
  match index.unitOf? key.owner, index.typeDecl? key.owner with
  | some unit, some owner => (Scope.ofOwner index unit owner).memberSteps key.member
  | _, _ => [.fail .missingType]

/-- The scan of the header of a type; a type that the index does not know has none. -/
def scanHeader (index : Index) (name : String) : List Step :=
  match index.unitOf? name, index.typeDecl? name with
  | some unit, some owner => (Scope.ofOwner index unit owner).headerSteps
  | _, _ => []

end JavaSlice.Slice
