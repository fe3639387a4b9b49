import JavaSlice.Source.Decl
import JavaSlice.Table

/-!
# The index of a project

An index holds the source files of a project and a table of all their types by qualified name,
member types included. A type that is declared twice keeps its last declaration, where files count
in order and, within a file, member types come before the type that encloses them. Each earlier
declaration that is replaced gives a warning.
-/

namespace JavaSlice

open Source

/-- A type with its file. -/
structure IndexedType where
  unit : CompilationUnit
  decl : TypeDecl
deriving Inhabited

/-- The files of a project and their types by qualified name. -/
structure Index where
  units : List CompilationUnit
  types : Table IndexedType
deriving Inhabited

namespace Index

/-- All types of some files, each with its file, in the order in which they enter an index. -/
def declarations (units : List CompilationUnit) : List IndexedType :=
  units.flatMap fun unit => unit.declaredTypes.map (⟨unit, ·⟩)

/-- Enters a type; it replaces one of the same name. -/
def enter (types : Table IndexedType) (type : IndexedType) : Table IndexedType :=
  types.put type.decl.qualifiedName type

/-- The index of some files. -/
def ofUnits (units : List CompilationUnit) : Index :=
  ⟨units, (declarations units).foldl enter []⟩

/-- The warning for a type that replaces another. -/
def duplicateWarning (type : IndexedType) : String :=
  "duplicate type " ++ type.decl.qualifiedName ++ " in " ++ type.unit.path

/-- The warnings for types that replace an earlier one, where `seen` holds the names entered
before. -/
def duplicateWarnings : List String → List IndexedType → List String
  | _, [] => []
  | seen, type :: types =>
    let name := type.decl.qualifiedName
    if seen.contains name then duplicateWarning type :: duplicateWarnings seen types
    else duplicateWarnings (name :: seen) types

/-- The warnings for all types that replace another. -/
def warnings (index : Index) : List String :=
  duplicateWarnings [] (declarations index.units)

/-- The number of types. -/
def typeCount (index : Index) : Nat :=
  index.types.length

/-- Whether a name is that of a type. -/
def hasType (index : Index) (name : String) : Bool :=
  index.types.has name

/-- The type with a qualified name. -/
def typeDecl? (index : Index) (name : String) : Option TypeDecl :=
  (index.types.get? name).map (·.decl)

/-- The file of a type. -/
def unitOf? (index : Index) (name : String) : Option CompilationUnit :=
  (index.types.get? name).map (·.unit)

/-- Whether a file is in a package. -/
def hasPackage (index : Index) (name : String) : Bool :=
  index.units.any (·.package == some name)

/-! ## Enclosing types -/

/-- Follows the names of enclosing types, at most `bound` of them, so that it ends on a cycle
too. -/
def outerChain (index : Index) : Nat → Option String → List TypeDecl
  | bound + 1, some name =>
    match index.typeDecl? name with
    | some decl => decl :: outerChain index bound decl.outer
    | none => []
  | _, _ => []

/-- The types that enclose a type, the innermost first. No chain that ends is longer than the table.
Outer names that lead back to where they started have no end: to follow them would take forever, and
here the chain is cut at the number of types. -/
def enclosingTypes (index : Index) (decl : TypeDecl) : List TypeDecl :=
  index.outerChain index.typeCount decl.outer

/-- A type and the types that enclose it, the innermost first. -/
def scopeTypes (index : Index) (decl : TypeDecl) : List TypeDecl :=
  decl :: index.enclosingTypes decl

end Index

end JavaSlice
