import JavaSlice.Path
import JavaSlice.Slice.Key
import JavaSlice.Source.Decl

/-!
# Outlines of types and output files

An `Outline` is a partial copy of a type declaration: its header and the members that are kept, each
as it is written. An `OutputFile` holds the outline of one type and the imports it needs. A member
type has a file of its own while a slice grows and is folded into the file of its enclosing type at
the end.

Members and imports arrive in the order of their discovery. `OutputFile.finalize` puts them into an
order that does not depend on it: fields, constructors and methods, each by name, number of
parameters and text, then member types by name.
-/

namespace JavaSlice.Slice

open Source

/-! ## Members -/

/-- The three kinds of member, in the order of output. -/
inductive MemberKind where
  | field
  | constructor
  | method
deriving DecidableEq, Repr, Inhabited

/-- The place of a kind of member in the order of output. -/
def MemberKind.rank : MemberKind → Nat
  | .field => 0
  | .constructor => 1
  | .method => 2

/-- A member copied into an outline. -/
structure OutlineMember where
  kind : MemberKind
  key : MemberKey
  /-- The names it declares; a field declaration may declare several. -/
  names : List String
  arity : Nat
  text : String
deriving DecidableEq, Repr, Inhabited

namespace OutlineMember

/-- The first name that a member declares. -/
def name (member : OutlineMember) : String :=
  member.names.headD ""

/-- The name by which a member is ordered; constructors are ordered without their names. -/
def sortName (member : OutlineMember) : String :=
  match member.kind with
  | .constructor => ""
  | _ => member.name

/-- The order of members in the output. -/
def compare (first second : OutlineMember) : Ordering :=
  (Ord.compare first.kind.rank second.kind.rank).then <|
    (Ord.compare first.sortName second.sortName).then <|
      (Ord.compare first.arity second.arity).then (Ord.compare first.text second.text)

/-- Whether a member comes before another or equals it. -/
def le (first second : OutlineMember) : Bool :=
  (first.compare second).isLE

/-- The copy of a field. -/
def ofField (field : Field) : OutlineMember :=
  ⟨.field, .field field.firstName, field.names, 0, field.text⟩

/-- The copy of a method or constructor. -/
def ofMethod (key : MemberKey) (method : Method) : OutlineMember :=
  let kind := match key with
    | .constructor _ => .constructor
    | _ => .method
  ⟨kind, key, [method.name], method.arity, method.text⟩

end OutlineMember

/-! ## Outlines -/

/-- A partial copy of a type declaration. -/
structure Outline where
  name : String
  kind : TypeKind
  header : String
  preamble : Option String
  members : List OutlineMember
  nested : List Outline
deriving Inhabited

namespace Outline

/-- An outline without members. -/
def ofDecl (decl : TypeDecl) : Outline :=
  ⟨decl.name, decl.kind, decl.header, decl.preamble, [], []⟩

/-- Whether a field is declared by a copied member. -/
def hasField (outline : Outline) (name : String) : Bool :=
  outline.members.any fun member => member.kind == .field && member.names.contains name

/-- Whether a member has been copied. -/
def hasMember (outline : Outline) (key : MemberKey) : Bool :=
  outline.members.any (·.key == key)

/-- Whether a field declaration may be copied: none of its names is present. -/
def admitsField (outline : Outline) (field : Field) : Bool :=
  !field.names.any outline.hasField

/-- Copies a field, unless one of its names is present. -/
def addField (outline : Outline) (field : Field) : Outline :=
  if outline.admitsField field then
    { outline with members := outline.members ++ [.ofField field] }
  else outline

/-- Copies a method or constructor, unless it is present. -/
def addMethod (outline : Outline) (key : MemberKey) (method : Method) : Outline :=
  if outline.hasMember key then outline
  else { outline with members := outline.members ++ [.ofMethod key method] }

/-- The names of the members of a kind. -/
def namesOf (outline : Outline) (kind : MemberKind) : List String :=
  (outline.members.filter (·.kind == kind)).map (·.name)

/-- The number of constructors. -/
def constructorCount (outline : Outline) : Nat :=
  outline.members.countP (·.kind == .constructor)

mutual

/-- Sorts the members and member types of an outline, and those of its member types. -/
def sort : Outline → Outline
  | ⟨name, kind, header, preamble, members, nested⟩ =>
    ⟨name, kind, header, preamble, members.mergeSort OutlineMember.le,
      (sortAll nested).mergeSort fun first second => decide (first.name ≤ second.name)⟩

/-- Sorts all outlines of a list, each within itself. -/
def sortAll : List Outline → List Outline
  | [] => []
  | outline :: outlines => outline.sort :: sortAll outlines

end

/-! ### The text of an outline -/

/-- The blanks before a line. -/
def indent (depth : Nat) : String :=
  String.ofList (List.replicate (4 * depth) ' ')

/-- The text that stands before the members: the constants of an enum, or the lone semicolon that an
enum without constants needs before a body. -/
def leadText? (kind : TypeKind) (preamble : Option String) (hasBody : Bool) : Option String :=
  match preamble with
  | some text => some text
  | none => if kind = .enumType && hasBody then some ";" else none

/-- The blocks of a body, with an empty line between them. -/
def joinBlocks (blocks : List String) : String :=
  "\n".intercalate blocks

mutual

/-- The text of an outline at a nesting depth. The text of a member is copied, so that only its
first line is indented here. -/
def renderAt (depth : Nat) : Outline → String
  | ⟨_, kind, header, preamble, members, nested⟩ =>
    let lead := leadText? kind preamble (!members.isEmpty || !nested.isEmpty)
    let texts := lead.toList ++ members.map (·.text)
    let blocks := texts.map fun text => indent (depth + 1) ++ text ++ "\n"
    indent depth ++ header ++ " \x7b\n" ++ joinBlocks (blocks ++ renderAllAt (depth + 1) nested) ++
      indent depth ++ "\x7d\n"

/-- The texts of some outlines. -/
def renderAllAt (depth : Nat) : List Outline → List String
  | [] => []
  | outline :: outlines => outline.renderAt depth :: renderAllAt depth outlines

end

end Outline

/-! ## Output files -/

/-- The outline of one type with the imports it needs. -/
structure OutputFile where
  qualifiedName : String
  /-- The qualified name of the enclosing type, for a member type. -/
  outer : Option String
  package : Option String
  imports : List Import
  type : Outline
deriving Inhabited

namespace OutputFile

/-- The file of a type, without imports and members. -/
def ofDecl (unit : CompilationUnit) (decl : TypeDecl) : OutputFile :=
  ⟨decl.qualifiedName, decl.outer, unit.package, [], .ofDecl decl⟩

/-- Whether an import names one type of the file's own package, which needs no import. -/
def isOwnPackage (file : OutputFile) (line : Import) : Bool :=
  line.isSingleType && line.qualifier? == file.package

/-- Whether an import is new and needed. -/
def admitsImport (file : OutputFile) (line : Import) : Bool :=
  !file.isOwnPackage line && !file.imports.contains line

/-- Records an import, unless it is present or names a type of the file's own package. -/
def addImport (file : OutputFile) (line : Import) : OutputFile :=
  if file.admitsImport line then { file with imports := file.imports ++ [line] } else file

/-- Copies a field into the outline of a file. -/
def addField (file : OutputFile) (field : Field) : OutputFile :=
  { file with type := file.type.addField field }

/-- Copies a method or constructor into the outline of a file. -/
def addMethod (file : OutputFile) (key : MemberKey) (method : Method) : OutputFile :=
  { file with type := file.type.addMethod key method }

/-- Folds the file of a member type into a file: the imports join and the type becomes nested. -/
def absorb (file member : OutputFile) : OutputFile :=
  let joined := member.imports.foldl addImport file
  { joined with type := { joined.type with nested := joined.type.nested ++ [member.type] } }

/-- A file with its imports and its outline in order. -/
def finalize (file : OutputFile) : OutputFile :=
  { file with imports := file.imports.mergeSort Import.le, type := file.type.sort }

/-- The path of a file below the source root of the output: a directory for each segment of the
package. -/
def relativePath (file : OutputFile) : String :=
  let directories := match file.package with
    | some name => Dotted.segments name
    | none => []
  Path.join (directories.foldl Path.join "") (file.type.name ++ ".java")

/-- The text of a file. -/
def render (file : OutputFile) : String :=
  let package := match file.package with
    | some name => "package " ++ name ++ ";\n\n"
    | none => ""
  let imports := if file.imports.isEmpty then "" else
    String.join (file.imports.map fun line => line.render ++ "\n") ++ "\n"
  package ++ imports ++ file.type.renderAt 0

end OutputFile

end JavaSlice.Slice
