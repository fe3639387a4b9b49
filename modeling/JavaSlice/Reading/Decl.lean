import JavaSlice.Reading.Expr
import JavaSlice.Source.Decl
import JavaSlice.Syntax.Program

/-!
# The reading of declarations

Fields, methods, types and whole files are read off their phrases. Declarations keep their source
text as it is written. Phrases that declare nothing to be sliced are passed over: initializer
blocks, the short constructors of records, and statements outside of types.
-/

namespace JavaSlice.Reading

open Syntax Source

variable (source : List Char)

/-! ## Members -/

def typeParamNames (parts : List Phrase) : List String :=
  ((partsOfKind .typeParameters parts).filter (·.kind == .typeParameter)).filterMap fun part =>
    (ofKind? .typeIdentifier part.parts).map (·.text source)

def fieldOf (phrase : Phrase) : Field :=
  { names := declaredNames source phrase.parts
    type := declaredType source phrase.parts
    annotations := modifiersOf phrase.parts
    initializers := initializersOf phrase.parts
    text := phrase.text source }

/-- A method, a constructor or an element of an annotation type, if it has a name. -/
def methodOf? (phrase : Phrase) : Option Method :=
  (name? source phrase.parts).map fun name =>
    let formals := partsInRole .parameters phrase.parts
    { name
      annotations := modifiersOf phrase.parts
      typeParams := typeParamNames source phrase.parts
      returnType :=
        if phrase.kind == .constructorDeclaration then none else declaredType? source phrase.parts
      params := paramsOf source formals
      throws := typesAmong source (partsOfKind .throwsClause phrase.parts)
      body := exprsOf (partsInRole .body phrase.parts)
      varargs := formals.any (·.kind == .spreadParameter)
      text := phrase.text source }

/-- The member that a phrase in a body declares, if it declares one. -/
def member? (phrase : Phrase) : Option Member :=
  match phrase.kind with
  | .fieldDeclaration | .constantDeclaration => some (.field (fieldOf source phrase))
  | .methodDeclaration | .annotationTypeElement => (methodOf? source phrase).map .method
  | .constructorDeclaration => (methodOf? source phrase).map .constructor
  | _ => none

/-! ## Types -/

def typeKind? : Kind → Option TypeKind
  | .classDeclaration => some .classType
  | .interfaceDeclaration => some .interfaceType
  | .enumDeclaration => some .enumType
  | .recordDeclaration => some .recordType
  | .annotationTypeDeclaration => some .annotationType
  | _ => none

/-- The types that a part of a header lists. -/
def listedTypes (parts : List Phrase) : List TypeRef :=
  parts.flatMap fun part =>
    if part.kind == .typeList then typesAmong source part.parts
    else typesAmong source [part]

/-- The types that a part of a header mentions: supertypes, bounds of type parameters, components of
a record. -/
def typesOfHeaderPart (part : Phrase) : List TypeRef :=
  match part.kind with
  | .superclass | .superInterfaces | .extendsInterfaces => listedTypes source part.parts
  | .typeParameters =>
    part.parts.flatMap fun parameter => listedTypes source (partsOfKind .typeBound parameter.parts)
  | .formalParameters => (paramsOf source part.parts).map (·.type)
  | _ => []

def lineBefore (place : Nat) : List Char :=
  ((source.take place).reverse.takeWhile (· != '\n')).reverse

/-- How far the constants of an enumeration after the first one are indented: as far as the first if
it opens its line, and otherwise four places more than its line. -/
def constantIndent (place : Nat) : Nat :=
  let line := lineBefore source place
  let indent := (line.takeWhile fun c => c == ' ' || c == '\t').length
  if indent == line.length then indent else indent + 4

/-- The text of the constants of an enumeration, one on a line. -/
def preambleOf (constants : List Phrase) : Option String :=
  constants.head?.map fun first =>
    let separator := ",\n" ++ String.ofList (List.replicate (constantIndent source first.start) ' ')
    String.intercalate separator (constants.map (·.text source)) ++ ";"

def constantOf (phrase : Phrase) : Expr :=
  .group (argumentsOf phrase.parts ++
    ((inRole? .body phrase.parts).map fun body => anonymousBody source body.parts).toList)

def constantsIn (body : List Phrase) : List Phrase :=
  body.filter (·.kind == .enumConstant)

/-- The qualified name of a type, given the package and the qualified name of the type around it. -/
def qualifiedIn (package outer : Option String) (name : String) : String :=
  match outer with
  | some outer => outer ++ "." ++ name
  | none => Dotted.within package name

mutual

/-- The type that a phrase declares, if it declares one, in a package and within the type called
`outer`. -/
def typeDecl? (package outer : Option String) : Phrase → Option TypeDecl
  | .mk kind _ start _ _ _ _ _ parts =>
    match typeKind? kind, name? source parts, inRole? .body parts with
    | some typeKind, some name, some body =>
      let qualifiedName := qualifiedIn package outer name
      let isEnum := typeKind == .enumType
      let constants := if isEnum then constantsIn body.parts else []
      let declarations :=
        if isEnum then partsOfKind .enumBodyDeclarations body.parts else body.parts
      some {
        name
        qualifiedName
        kind := typeKind
        outer
        header := Text.trim (textBetween source start body.start)
        preamble := preambleOf source constants
        constants := constants.map (constantOf source)
        annotations := modifiersOf parts
        typeParams := typeParamNames source parts
        headerTypes := parts.flatMap (typesOfHeaderPart source)
        members := declarations.filterMap (member? source)
        nested := typesInBody package qualifiedName isEnum parts }
    | _, _, _ => none

/-- The types in the body among the parts of a type declaration. -/
def typesInBody (package : Option String) (outer : String) (isEnum : Bool) : List Phrase →
    List TypeDecl
  | [] => []
  | .mk _ role _ _ _ _ _ _ parts :: rest =>
    if role == some .body then
      if isEnum then typesAfterConstants package outer parts
      else typeDecls package (some outer) parts
    else typesInBody package outer isEnum rest

def typesAfterConstants (package : Option String) (outer : String) : List Phrase → List TypeDecl
  | [] => []
  | .mk kind _ _ _ _ _ _ _ parts :: rest =>
    if kind == .enumBodyDeclarations then typeDecls package (some outer) parts
    else typesAfterConstants package outer rest

def typeDecls (package outer : Option String) : List Phrase → List TypeDecl
  | [] => []
  | phrase :: phrases =>
    (typeDecl? package outer phrase).toList ++ typeDecls package outer phrases

end

/-! ## Files -/

def packageName? (phrase : Phrase) : Option String :=
  (phrase.parts.find? fun part => part.kind == .scopedIdentifier || part.kind == .identifier).map
    fun part => Text.dropBlanks (part.text source)

/-- The package that some phrases of a file declare, given the one declared before them. -/
def packageAfter (package : Option String) (phrases : List Phrase) : Option String :=
  phrases.foldl (fun package phrase =>
    if phrase.kind == .packageDeclaration then packageName? source phrase else package) package

/-- The types of a file; each belongs to the package declared last before it. -/
def typesOfFile (package : Option String) : List Phrase → List TypeDecl
  | [] => []
  | phrase :: phrases =>
    (typeDecl? source package none phrase).toList ++
      typesOfFile (packageAfter source package [phrase]) phrases

def importsOfFile (phrases : List Phrase) : List Import :=
  (phrases.filter (·.kind == .importDeclaration)).filterMap fun phrase =>
    Import.ofString? (phrase.text source)

end JavaSlice.Reading

namespace JavaSlice.Source

open Reading

/-- What is read off a tree of a file, whatever parser has made it. -/
def CompilationUnit.ofTree (path : String) (source : List Char) (tree : Syntax.Tree) :
    CompilationUnit :=
  let phrases := (Phrase.ofTree source tree).parts
  { path
    package := packageAfter source none phrases
    imports := importsOfFile source phrases
    types := typesOfFile source none phrases }

/-- What is read off a file. -/
def CompilationUnit.ofSource (path text : String) : CompilationUnit :=
  .ofTree path text.toList (.ofSource text.toList)

end JavaSlice.Source
