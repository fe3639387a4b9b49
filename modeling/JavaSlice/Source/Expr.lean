/-!
# Types, annotations and expressions

What a slice needs to know of a piece of source code is which other declarations it mentions. The
model keeps the shapes that mention something: calls, object creations, field accesses, method
references, names, declarations of local variables, lambdas and uses of types. A statement that only
groups such expressions (a block, a loop, a `return`) is a `group` of them.

Types carry annotations, annotations have expressions as arguments, and expressions mention types,
so the three are defined together.
-/

namespace JavaSlice.Source

mutual

/-- A type as it is written. -/
inductive TypeRef where
  | primitive (text : String)
  | void
  /-- The type of a `var` local or of a lambda parameter without a type. -/
  | inferred
  /-- A class, interface, enum or record, with its type arguments. -/
  | named (name : String) (args : List TypeRef) (annotations : List Annotation)
  | array (element : TypeRef)
  | wildcard (bound : Option TypeRef)
  | other (text : String)

/-- An annotation `@Name` or `@Name(args)`. -/
structure Annotation where
  name : String
  args : List Expr

/-- A parameter. -/
structure Param where
  name : String
  type : TypeRef
  annotations : List Annotation

/-- One variable of a local declaration, with its initial value if it has one. -/
structure Variable where
  name : String
  init : Option Expr

/-- An expression or a statement, as far as it mentions declarations. -/
inductive Expr where
  | call (scope : Option Expr) (name : String) (args : List Expr)
  /-- The creation of an object; an anonymous class has a body. -/
  | create (type : TypeRef) (args : List Expr) (body : Option Expr)
  | field (scope : Expr) (name : String)
  | methodRef (scope : Expr) (name : String)
  | identifier (text : String)
  | thisRef
  | superRef
  | declare (type : TypeRef) (declared : List Variable)
  | lambda (params : List Param) (body : Expr)
  | typeUse (type : TypeRef)
  | literal
  | binary (left right : Expr)
  | unary (operand : Expr)
  | group (items : List Expr)
  /-- A piece of source that could not be read, by the kind of its syntax node and its line. -/
  | unsupported (kind : String) (line : Nat)

end

deriving instance Inhabited for TypeRef, Expr, Annotation, Param, Variable
deriving instance Repr for Expr

/-! ## Types -/

namespace TypeRef

/-- A type without arguments and annotations. -/
def simple (name : String) : TypeRef :=
  .named name [] []

/-- Whether a type is a class or an array of them. -/
def isReference : TypeRef → Bool
  | .named _ _ _ => true
  | .array element => element.isReference
  | _ => false

/-- The name of a type, seen through arrays. -/
def baseName? : TypeRef → Option String
  | .named name _ _ => some name
  | .array element => element.baseName?
  | _ => none

/-- The annotations written on a type, seen through arrays. -/
def annotations : TypeRef → List Annotation
  | .named _ _ annotations => annotations
  | .array element => element.annotations
  | _ => []

mutual

/-- Every class name that a type mentions, the outermost first. -/
def classNames : TypeRef → List String
  | .named name args _ => name :: classNamesOfAll args
  | .array element => element.classNames
  | .wildcard (some bound) => bound.classNames
  | _ => []

/-- The classes that some types name. -/
def classNamesOfAll : List TypeRef → List String
  | [] => []
  | type :: types => type.classNames ++ classNamesOfAll types

end

end TypeRef

/-! ## Expressions -/

namespace Expr

/-- The direct parts of an expression, in source order. -/
def children : Expr → List Expr
  | .call scope _ args => scope.toList ++ args
  | .create _ args body => args ++ body.toList
  | .field scope _ => [scope]
  | .methodRef scope _ => [scope]
  | .declare _ declared => declared.filterMap (·.init)
  | .lambda _ body => [body]
  | .binary left right => [left, right]
  | .unary operand => [operand]
  | .group items => items
  | .identifier _ | .thisRef | .superRef | .typeUse _ | .literal | .unsupported _ _ => []

mutual

/-- An expression and all its parts at any depth: each before its own parts, parts in source
order. -/
def subterms : Expr → List Expr
  | .call scope name args => .call scope name args :: (subtermsOfSome scope ++ subtermsOfAll args)
  | .create type args body => .create type args body :: (subtermsOfAll args ++ subtermsOfSome body)
  | .field scope name => .field scope name :: scope.subterms
  | .methodRef scope name => .methodRef scope name :: scope.subterms
  | .declare type declared => .declare type declared :: subtermsOfVariables declared
  | .lambda params body => .lambda params body :: body.subterms
  | .binary left right => .binary left right :: (left.subterms ++ right.subterms)
  | .unary operand => .unary operand :: operand.subterms
  | .group items => .group items :: subtermsOfAll items
  | .identifier text => [.identifier text]
  | .thisRef => [.thisRef]
  | .superRef => [.superRef]
  | .typeUse type => [.typeUse type]
  | .literal => [.literal]
  | .unsupported kind line => [.unsupported kind line]

/-- The subterms of some expressions. -/
def subtermsOfAll : List Expr → List Expr
  | [] => []
  | expr :: exprs => expr.subterms ++ subtermsOfAll exprs

def subtermsOfSome : Option Expr → List Expr
  | none => []
  | some expr => expr.subterms

def subtermsOfVariables : List Variable → List Expr
  | [] => []
  | ⟨_, init⟩ :: rest => subtermsOfSome init ++ subtermsOfVariables rest

end

end Expr

end JavaSlice.Source
