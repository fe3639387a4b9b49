import JavaSlice.Index.Basic
import JavaSlice.Slice.Key

/-!
# What a name means in a file

A name is looked up in a fixed order: single imports of the file, types of the file, types of its
package, and imports of whole packages or of all static members of a type. `resolve?` says
which import line makes a name visible and which declaration it means, if the project declares it.
`qualifiedName?` says only which type is meant, and serves where a type is wanted. A dotted name is
looked up by its first segment and then followed through member types.
-/

namespace JavaSlice

open Source Slice

/-- The meaning of a name in a file. -/
structure Resolution where
  /-- The import line that makes the name visible; names of the same file or package need none. -/
  line : Option Import
  /-- The declaration that is meant, if the project declares it. -/
  target : Option Key
deriving DecidableEq, Repr, Inhabited

namespace Index

/-- The classes that are visible everywhere without an import. -/
def languageTypes : List String :=
  ["AutoCloseable", "Boolean", "Byte", "CharSequence", "Character", "Class", "ClassLoader",
    "Cloneable", "Comparable", "Deprecated", "Double", "Enum", "Error", "Exception",
    "Float", "FunctionalInterface", "IllegalArgumentException", "IllegalStateException",
    "IndexOutOfBoundsException", "Integer", "Iterable", "Long", "Math", "NullPointerException",
    "Number", "NumberFormatException", "Object", "Override", "Process", "Record", "Runnable",
    "Runtime", "RuntimeException", "SafeVarargs", "Short", "StrictMath", "String", "StringBuffer",
    "StringBuilder", "SuppressWarnings", "System", "Thread", "ThreadLocal", "Throwable",
    "UnsupportedOperationException", "Void"]

/-- Whether a class is visible without an import. -/
def isLanguageType (name : String) : Bool :=
  languageTypes.contains name

/-- Follows segments through member types, up to the first segment that names none. -/
def followMembers (index : Index) (qualified : String) : List String → String
  | [] => qualified
  | segment :: rest =>
    let candidate := Dotted.join qualified segment
    if index.hasType candidate then index.followMembers candidate rest else qualified

/-- What the import of a static member means: a field, or else the type that should hold the
member. -/
def staticMember? (index : Index) (owner member : String) : Option Key :=
  (index.typeDecl? owner).map fun decl =>
    if (decl.field? member).isSome then .field owner member else .type owner

/-! ## The meaning of a name -/

/-- The meaning that an import of one name gives to it. -/
def resolveImport (index : Index) (line : Import) (name : String) : Resolution :=
  let target :=
    if line.isStatic then line.qualifier?.bind (index.staticMember? · name)
    else if index.hasType line.name then some (.type line.name) else none
  ⟨some line, target⟩

/-- The meaning that a wildcard import gives to a name, if it gives one. -/
def resolveWildcard? (index : Index) (line : Import) (name : String) : Option Resolution :=
  if line.isStatic then do
    let decl ← index.typeDecl? line.name
    let _ ← decl.field? name
    pure ⟨some line, some (.field line.name name)⟩
  else
    let candidate := Dotted.join line.name name
    if index.hasType candidate then some ⟨some line, some (.type candidate)⟩ else none

/-- The line that imports a name by itself. -/
def singleImport? (unit : CompilationUnit) (name : String) : Option Import :=
  unit.imports.find? fun line => !line.isWildcard && line.simpleName == name

/-- The meaning of a name without dots. -/
def resolveSimple? (index : Index) (unit : CompilationUnit) (name : String) : Option Resolution :=
  match singleImport? unit name with
  | some line => some (index.resolveImport line name)
  | none =>
    match unit.findDeclared? name with
    | some decl => some ⟨none, some (.type decl.qualifiedName)⟩
    | none =>
      if index.hasType (unit.qualify name) then some ⟨none, some (.type (unit.qualify name))⟩
      else (unit.imports.filter (·.isWildcard)).findSome? (index.resolveWildcard? · name)

/-- The meaning of a name; a dotted one is followed through member types. -/
def resolve? (index : Index) (unit : CompilationUnit) (name : String) : Option Resolution :=
  match Dotted.splitHead? name with
  | none => index.resolveSimple? unit name
  | some (head, rest) =>
    if index.hasType name then some ⟨none, some (.type name)⟩
    else
      (index.resolveSimple? unit head).map fun resolution =>
        match resolution.target with
        | some ⟨owner, .type⟩ =>
          { resolution with
            target := some (.type (index.followMembers owner (Dotted.segments rest))) }
        | _ => resolution

/-! ## The type that a name means -/

/-- The qualified name of a type from the files and wildcards that are searched last: the same
package and imported packages. -/
def packageType? (index : Index) (unit : CompilationUnit) (name : String) : Option String :=
  if index.hasType (unit.qualify name) then some (unit.qualify name)
  else
    ((unit.imports.filter fun line => line.isWildcard && !line.isStatic).map
      fun line => Dotted.join line.name name).find? index.hasType

/-- The qualified name of a type by the means that come first: the name is qualified itself, is
imported, or is declared in the file. -/
def nearType? (index : Index) (unit : CompilationUnit) (name : String) : Option String :=
  if index.hasType name then some name
  else
    match unit.imports.find? fun line => line.isSingleType && line.simpleName == name with
    | some line => some line.name
    | none => (unit.findDeclared? name).map (·.qualifiedName)

/-- The qualified name that a name without dots means. -/
def qualifiedSimple? (index : Index) (unit : CompilationUnit) (name : String) : Option String :=
  (index.nearType? unit name).or (index.packageType? unit name)

/-- The qualified name of the type that a name means in a file. A dotted name has to lead to a type
of the project. -/
def qualifiedName? (index : Index) (unit : CompilationUnit) (name : String) : Option String :=
  match Dotted.splitHead? name with
  | none => index.qualifiedSimple? unit name
  | some (head, rest) =>
    (index.nearType? unit name).or do
      let outer ← index.qualifiedSimple? unit head
      let qualified := index.followMembers outer (Dotted.segments rest)
      if index.hasType qualified then some qualified else none

/-- The wildcard imports of a file that name a package or type outside the project. A name that
nothing else explains may come from any of them. -/
def libraryWildcards (index : Index) (unit : CompilationUnit) (isStatic : Bool) : List Import :=
  unit.imports.filter fun line =>
    line.isWildcard && line.isStatic == isStatic && !index.hasType line.name &&
      (isStatic || !index.hasPackage line.name)

end Index

end JavaSlice
