import JavaSlice.Index.Resolve

/-!
# Members of types

Which declaration does a seed, a call or a use of a field reach? A call is matched by name and
number of arguments, first within a type and then within its supertypes. Supertypes are searched in
depth, in the order in which a type names them, and every type is looked at once, so that the search
ends on any hierarchy, cycles included.
-/

namespace JavaSlice

open Source Slice

/-- A call as far as it decides between methods: a name and the number of arguments, which is
unknown for a method reference. -/
structure CallSite where
  name : String
  count : Option Nat
deriving DecidableEq, Repr, Inhabited

namespace Index

/-! ## Members of one type -/

/-- Whether a type declares a member. -/
def declaresMember (decl : TypeDecl) : MemberKey → Bool
  | .type => true
  | .field name => (decl.field? name).isSome
  | .method name arity => (decl.method? name arity).isSome
  | .constructor arity => (decl.constructor? arity).isSome

/-- Whether the index declares a key. -/
def declares (index : Index) (key : Key) : Bool :=
  match index.typeDecl? key.owner with
  | some decl => declaresMember decl key.member
  | none => false

/-- The declaration that a seed means: the first method of the name, else a field, else the first
constructor if the name is that of the type. -/
def resolveSeed? (index : Index) (owner member : String) : Option Key := do
  let decl ← index.typeDecl? owner
  match decl.methods.find? (·.name == member) with
  | some method => some (.method owner method.name method.arity)
  | none =>
    if (decl.field? member).isSome then some (.field owner member)
    else if member == decl.name then
      decl.constructors.head?.map fun constructor => .constructor owner constructor.arity
    else none

/-- The method of a type that fits a call best: one that takes exactly the given number of
arguments, else one that accepts it. -/
def bestMethod? (call : CallSite) (decl : TypeDecl) : Option Method :=
  let candidates := decl.methods.filter (·.name == call.name)
  match call.count with
  | none => candidates.head?
  | some count => (candidates.find? (·.takesExactly count)).or (candidates.find? (·.accepts count))

/-- The first constructor of a type that accepts a number of arguments. -/
def findConstructor? (decl : TypeDecl) (count : Nat) : Option Key :=
  (decl.constructors.find? (·.accepts count)).map fun constructor =>
    .constructor decl.qualifiedName constructor.arity

/-! ## Supertypes -/

/-- The types of the project that the header of a type names, in order. -/
def supertypes (index : Index) (decl : TypeDecl) : List TypeDecl :=
  match index.unitOf? decl.qualifiedName with
  | none => []
  | some unit =>
    (decl.headerTypes.filterMap (·.baseName?)).filterMap fun base =>
      (index.qualifiedName? unit base).bind index.typeDecl?

/-- The types that a depth-first search from the types of a stack visits, each once, without those
already `seen`; at most `bound` steps are made. -/
def visit (index : Index) : Nat → List String → List TypeDecl → List TypeDecl
  | bound + 1, seen, decl :: stack =>
    if seen.contains decl.qualifiedName then index.visit bound seen stack
    else decl :: index.visit bound (decl.qualifiedName :: seen) (index.supertypes decl ++ stack)
  | _, _, _ => []

/-- A bound on the steps of a search: every type is expanded once and each step takes one type off
the stack. -/
def visitBound (index : Index) (decl : TypeDecl) : Nat :=
  index.types.total (·.decl.headerTypes.length) + decl.headerTypes.length + 1

/-- A type and its direct and indirect supertypes, in the order of a depth-first search, each
once. -/
def lineage (index : Index) (decl : TypeDecl) : List TypeDecl :=
  index.visit (index.visitBound decl) [] [decl]

/-- The method that a call on a type reaches, in the type itself or the first supertype that has
one. -/
def findMethod? (index : Index) (call : CallSite) (decl : TypeDecl) : Option Key :=
  (index.lineage decl).findSome? fun type =>
    (bestMethod? call type).map fun method =>
      .method type.qualifiedName method.name method.arity

/-- The field of a name in a type or in the first supertype that declares it. -/
def findField? (index : Index) (decl : TypeDecl) (name : String) : Option Key :=
  ((index.lineage decl).find? fun type => (type.field? name).isSome).map fun type =>
    .field type.qualifiedName name

/-! ## What is visible inside a type -/

/-- The method that an unqualified call inside a type reaches: its own or an inherited one, else one
of the nearest enclosing type. -/
def visibleMethod? (index : Index) (decl : TypeDecl) (call : CallSite) : Option Key :=
  (index.scopeTypes decl).findSome? (index.findMethod? call)

/-- The field that an unqualified name inside a type means: its own or an inherited one, else one of
the nearest enclosing type. -/
def visibleField? (index : Index) (decl : TypeDecl) (name : String) : Option Key :=
  (index.scopeTypes decl).findSome? (index.findField? · name)

/-- The type of the project that a type names in a file. -/
def projectType? (index : Index) (unit : CompilationUnit) (type : TypeRef) : Option String := do
  let base ← type.baseName?
  let qualified ← index.qualifiedName? unit base
  if index.hasType qualified then some qualified else none

/-- The type of a field. -/
def fieldType? (index : Index) (key : Key) : Option String :=
  match key.member with
  | .field name => do
    let decl ← index.typeDecl? key.owner
    let field ← decl.field? name
    let unit ← index.unitOf? key.owner
    index.projectType? unit field.type
  | _ => none

/-- The type that a method returns. -/
def returnType? (index : Index) (key : Key) : Option String :=
  match key.member with
  | .method name arity => do
    let decl ← index.typeDecl? key.owner
    let method ← decl.method? name arity
    let type ← method.returnType
    let unit ← index.unitOf? key.owner
    index.projectType? unit type
  | _ => none

end Index

end JavaSlice
