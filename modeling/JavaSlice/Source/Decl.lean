import JavaSlice.Source.Expr
import JavaSlice.Source.Import

/-!
# Declarations

A source file is a `CompilationUnit`: a package, import lines and type declarations. A type has
fields, methods and constructors, and member types nested to any depth. Each declaration keeps its
source text, because a slice copies declarations as they are written.
-/

namespace JavaSlice.Source

/-- The kinds of types. -/
inductive TypeKind where
  | classType
  | interfaceType
  | enumType
  | recordType
  | annotationType
deriving DecidableEq, Repr, Inhabited

/-- The name of a kind. -/
def TypeKind.name : TypeKind → String
  | .classType => "class"
  | .interfaceType => "interface"
  | .enumType => "enum"
  | .recordType => "record"
  | .annotationType => "annotation"

/-- A field declaration, which may declare several names. -/
structure Field where
  /-- The declared names: `a` and `b` of `int a, b;`. -/
  names : List String
  type : TypeRef
  annotations : List Annotation
  initializers : List Expr
  text : String
deriving Inhabited

/-- The name by which a field declaration is found. -/
def Field.firstName (field : Field) : String :=
  field.names.headD ""

/-- A method, a constructor or an element of an annotation type. -/
structure Method where
  name : String
  annotations : List Annotation
  typeParams : List String
  /-- The return type; constructors have none. -/
  returnType : Option TypeRef
  params : List Param
  throws : List TypeRef
  body : List Expr
  /-- Whether the last parameter takes any number of arguments. -/
  varargs : Bool
  text : String
deriving Inhabited

namespace Method

/-- The number of parameters. -/
def arity (method : Method) : Nat :=
  method.params.length

/-- Whether a call with `count` arguments can reach the method. -/
def accepts (method : Method) (count : Nat) : Bool :=
  if method.varargs then method.arity ≤ count + 1 else count == method.arity

/-- Whether the method takes exactly `count` arguments, without a variable number of them. -/
def takesExactly (method : Method) (count : Nat) : Bool :=
  !method.varargs && method.arity == count

end Method

/-- A member of a type that is not itself a type. -/
inductive Member where
  | field (decl : Field)
  | method (decl : Method)
  | constructor (decl : Method)
deriving Inhabited

/-- A type declaration with its members and member types. -/
structure TypeDecl where
  name : String
  qualifiedName : String
  kind : TypeKind
  /-- The qualified name of the enclosing type, for a member type. -/
  outer : Option String
  /-- The source text up to the brace that opens the body. -/
  header : String
  /-- The text of the constants of an enum. -/
  preamble : Option String
  /-- The arguments and bodies of the constants of an enum. -/
  constants : List Expr
  annotations : List Annotation
  typeParams : List String
  /-- The supertypes, the bounds of type parameters and the component types of a record. -/
  headerTypes : List TypeRef
  members : List Member
  nested : List TypeDecl
deriving Inhabited

namespace TypeDecl

/-- The fields of a type. -/
def fields (decl : TypeDecl) : List Field :=
  decl.members.filterMap fun
    | .field field => some field
    | _ => none

/-- The methods of a type. -/
def methods (decl : TypeDecl) : List Method :=
  decl.members.filterMap fun
    | .method method => some method
    | _ => none

/-- The constructors of a type. -/
def constructors (decl : TypeDecl) : List Method :=
  decl.members.filterMap fun
    | .constructor method => some method
    | _ => none

/-- The field with a name. -/
def field? (decl : TypeDecl) (name : String) : Option Field :=
  decl.fields.find? (·.names.contains name)

/-- The method with a name and a number of parameters. -/
def method? (decl : TypeDecl) (name : String) (arity : Nat) : Option Method :=
  decl.methods.find? fun method => method.name == name && method.arity == arity

/-- The constructor with a number of parameters. -/
def constructor? (decl : TypeDecl) (arity : Nat) : Option Method :=
  decl.constructors.find? (·.arity == arity)

/-- The direct member type with a name. -/
def memberType? (decl : TypeDecl) (name : String) : Option TypeDecl :=
  decl.nested.find? (·.name == name)

mutual

/-- The member type with a simple name at any depth: a direct one if there is one, else the first
that a search through the direct ones in order finds. -/
def findNested? (name : String) : TypeDecl → Option TypeDecl
  | { nested, .. } => (nested.find? (·.name == name)).or (findNestedInAll? name nested)

/-- The first type that a search through the member types of each of the listed types finds. -/
def findNestedInAll? (name : String) : List TypeDecl → Option TypeDecl
  | [] => none
  | decl :: decls => (findNested? name decl).or (findNestedInAll? name decls)

end

mutual

/-- The types nested in a type at any depth and then the type itself: member types come before the
type that encloses them. -/
def withNested : TypeDecl → List TypeDecl
  | ⟨name, qualifiedName, kind, outer, header, preamble, constants, annotations, typeParams,
      headerTypes, members, nested⟩ =>
    withNestedOfAll nested ++
      [⟨name, qualifiedName, kind, outer, header, preamble, constants, annotations, typeParams,
        headerTypes, members, nested⟩]

/-- The types of a list, each after the types nested in it. -/
def withNestedOfAll : List TypeDecl → List TypeDecl
  | [] => []
  | decl :: decls => decl.withNested ++ withNestedOfAll decls

end

end TypeDecl

/-- A source file. -/
structure CompilationUnit where
  path : String
  package : Option String
  imports : List Import
  types : List TypeDecl
deriving Inhabited

namespace CompilationUnit

/-- The top-level type with a name. -/
def findType? (unit : CompilationUnit) (name : String) : Option TypeDecl :=
  unit.types.find? (·.name == name)

/-- The type with a simple name declared anywhere in the file, top-level types first. -/
def findDeclared? (unit : CompilationUnit) (name : String) : Option TypeDecl :=
  (unit.findType? name).or (TypeDecl.findNestedInAll? name unit.types)

/-- A name in the package of a file. -/
def qualify (unit : CompilationUnit) (name : String) : String :=
  Dotted.within unit.package name

/-- All types of a file. -/
def declaredTypes (unit : CompilationUnit) : List TypeDecl :=
  TypeDecl.withNestedOfAll unit.types

end CompilationUnit

end JavaSlice.Source
