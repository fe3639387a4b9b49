import JavaSlice.Proofs.Table
import JavaSlice.Proofs.Views

/-!
# Skeletons

The skeleton of a declaration is what others can see of it: of a method its name, its parameters and
what it returns, of a field its names and its type. Annotations, bodies, initial values and texts
are taken away. The skeletons of types, files and projects are made of those of the members in them.

Nothing that is looked up in an index depends on more than skeletons: a project is seen as its
skeleton (`Index.shows_skeleton`).
-/

namespace JavaSlice.Source

open List

/-! ## Declarations -/

/-- A method without its annotations, type variables, exceptions, body and text. -/
def Method.skeleton (method : Method) : Method :=
  { method with annotations := [], typeParams := [], throws := [], body := [], text := "" }

/-- A field declaration without its annotations, initial values and text. -/
def Field.skeleton (field : Field) : Field :=
  { field with annotations := [], initializers := [], text := "" }

def Member.skeleton : Member → Member
  | .field decl => .field decl.skeleton
  | .method decl => .method decl.skeleton
  | .constructor decl => .constructor decl.skeleton

namespace TypeDecl

mutual

/-- A type with the skeletons of its members and member types. -/
def skeleton : TypeDecl → TypeDecl
  | ⟨name, qualifiedName, kind, outer, header, preamble, constants, annotations, typeParams,
      headerTypes, members, nested⟩ =>
    ⟨name, qualifiedName, kind, outer, header, preamble, constants, annotations, typeParams,
      headerTypes, members.map Member.skeleton, skeletonOfAll nested⟩

/-- The skeletons of some types. -/
def skeletonOfAll : List TypeDecl → List TypeDecl
  | [] => []
  | decl :: decls => decl.skeleton :: skeletonOfAll decls

end

/-- Types lose their bodies one by one. -/
theorem skeletonOfAll_eq (decls : List TypeDecl) : skeletonOfAll decls = decls.map skeleton := by
  induction decls with
  | nil => rfl
  | cons decl decls ih => rw [skeletonOfAll, ih, map_cons]

variable (decl : TypeDecl)

@[simp]
theorem skeleton_name : decl.skeleton.name = decl.name := by
  cases decl
  rfl

@[simp]
theorem skeleton_qualifiedName : decl.skeleton.qualifiedName = decl.qualifiedName := by
  cases decl
  rfl

@[simp]
theorem skeleton_kind : decl.skeleton.kind = decl.kind := by
  cases decl
  rfl

@[simp]
theorem skeleton_outer : decl.skeleton.outer = decl.outer := by
  cases decl
  rfl

@[simp]
theorem skeleton_header : decl.skeleton.header = decl.header := by
  cases decl
  rfl

@[simp]
theorem skeleton_preamble : decl.skeleton.preamble = decl.preamble := by
  cases decl
  rfl

@[simp]
theorem skeleton_constants : decl.skeleton.constants = decl.constants := by
  cases decl
  rfl

@[simp]
theorem skeleton_annotations : decl.skeleton.annotations = decl.annotations := by
  cases decl
  rfl

@[simp]
theorem skeleton_typeParams : decl.skeleton.typeParams = decl.typeParams := by
  cases decl
  rfl

@[simp]
theorem skeleton_headerTypes : decl.skeleton.headerTypes = decl.headerTypes := by
  cases decl
  rfl

theorem skeleton_members : decl.skeleton.members = decl.members.map Member.skeleton := by
  cases decl
  rfl

@[simp]
theorem skeleton_nested : decl.skeleton.nested = decl.nested.map skeleton := by
  cases decl
  exact skeletonOfAll_eq _

@[simp]
theorem skeleton_fields : decl.skeleton.fields = decl.fields.map Field.skeleton := by
  rw [fields, skeleton_members, filterMap_map, fields, map_filterMap]
  congr 1
  funext member
  cases member <;> rfl

@[simp]
theorem skeleton_methods : decl.skeleton.methods = decl.methods.map Method.skeleton := by
  rw [methods, skeleton_members, filterMap_map, methods, map_filterMap]
  congr 1
  funext member
  cases member <;> rfl

@[simp]
theorem skeleton_constructors : decl.skeleton.constructors =
    decl.constructors.map Method.skeleton := by
  rw [constructors, skeleton_members, filterMap_map, constructors, map_filterMap]
  congr 1
  funext member
  cases member <;> rfl

theorem find?_name_map_skeleton (decls : List TypeDecl) (name : String) :
    (decls.map skeleton).find? (·.name == name) = (decls.find? (·.name == name)).map skeleton := by
  rw [find?_map]
  congr 2
  funext decl
  rw [Function.comp, skeleton_name]

@[simp]
theorem skeleton_memberType? (name : String) :
    decl.skeleton.memberType? name = (decl.memberType? name).map skeleton := by
  rw [memberType?, skeleton_nested, find?_name_map_skeleton, memberType?]

mutual

theorem findNested?_skeleton (name : String) (decl : TypeDecl) :
    findNested? name decl.skeleton = (findNested? name decl).map skeleton := by
  match decl with
  | ⟨_, _, _, _, _, _, _, _, _, _, _, nested⟩ =>
    rw [skeleton, findNested?, findNested?, findNestedInAll?_skeleton name nested, skeletonOfAll_eq,
      find?_name_map_skeleton, Option.map_or]

theorem findNestedInAll?_skeleton (name : String) (decls : List TypeDecl) :
    findNestedInAll? name (skeletonOfAll decls) = (findNestedInAll? name decls).map skeleton := by
  match decls with
  | [] => rfl
  | decl :: rest =>
    rw [skeletonOfAll, findNestedInAll?, findNestedInAll?, findNested?_skeleton name decl,
      findNestedInAll?_skeleton name rest, Option.map_or]

end

mutual

theorem withNested_skeleton (decl : TypeDecl) :
    decl.skeleton.withNested = decl.withNested.map skeleton := by
  match decl with
  | ⟨_, _, _, _, _, _, _, _, _, _, _, nested⟩ =>
    rw [skeleton, withNested, withNested, withNestedOfAll_skeleton nested, map_append]
    rfl

theorem withNestedOfAll_skeleton (decls : List TypeDecl) :
    withNestedOfAll (skeletonOfAll decls) = (withNestedOfAll decls).map skeleton := by
  match decls with
  | [] => rfl
  | decl :: rest =>
    rw [skeletonOfAll, withNestedOfAll, withNestedOfAll, withNested_skeleton decl,
      withNestedOfAll_skeleton rest, map_append]

end

end TypeDecl

namespace CompilationUnit

/-- A file with the skeletons of its types. -/
def skeleton (unit : CompilationUnit) : CompilationUnit :=
  { unit with types := unit.types.map TypeDecl.skeleton }

variable (unit : CompilationUnit)

@[simp]
theorem skeleton_findDeclared? (name : String) :
    unit.skeleton.findDeclared? name = (unit.findDeclared? name).map TypeDecl.skeleton := by
  rw [findDeclared?, findType?, skeleton, TypeDecl.find?_name_map_skeleton,
    ← TypeDecl.skeletonOfAll_eq, TypeDecl.findNestedInAll?_skeleton, ← Option.map_or]
  rfl

theorem skeleton_declaredTypes :
    unit.skeleton.declaredTypes = unit.declaredTypes.map TypeDecl.skeleton := by
  rw [declaredTypes, skeleton, ← TypeDecl.skeletonOfAll_eq, TypeDecl.withNestedOfAll_skeleton,
    declaredTypes]

end CompilationUnit

end JavaSlice.Source

namespace JavaSlice

open List Source Slice

/-! ## Indexes -/

/-- A type of an index with the skeletons of its file and its declaration. -/
def IndexedType.skeleton (type : IndexedType) : IndexedType :=
  ⟨type.unit.skeleton, type.decl.skeleton⟩

namespace Index

/-- An index with the skeletons of its files and types. -/
def skeleton (index : Index) : Index :=
  ⟨index.units.map CompilationUnit.skeleton, index.types.map fun (name, type) =>
    (name, type.skeleton)⟩

theorem declarations_skeleton (units : List CompilationUnit) :
    declarations (units.map CompilationUnit.skeleton) =
      (declarations units).map IndexedType.skeleton := by
  simp only [declarations, flatMap_map, map_flatMap, CompilationUnit.skeleton_declaredTypes,
    map_map]
  rfl

/-- The index of the skeletons of some files is the skeleton of the index of the files. -/
theorem ofUnits_skeleton (units : List CompilationUnit) :
    ofUnits (units.map CompilationUnit.skeleton) = (ofUnits units).skeleton := by
  have types : ∀ (entries : List IndexedType) (table : Table IndexedType),
      (entries.map IndexedType.skeleton).foldl enter
        (table.map fun (name, type) => (name, type.skeleton)) =
        (entries.foldl enter table).map fun (name, type) => (name, type.skeleton) := by
    intro entries
    induction entries with
    | nil => exact fun _ => rfl
    | cons entry rest ih =>
      intro table
      rw [map_cons, foldl_cons, foldl_cons, ← ih, enter, enter, ← Table.put_map,
        IndexedType.skeleton, TypeDecl.skeleton_qualifiedName]
  rw [ofUnits, declarations_skeleton]
  exact congrArg (Index.mk _) (types (declarations units) [])

variable (index : Index)

/-- Skeletons in the place of declarations. -/
def skeletonView : View :=
  ⟨CompilationUnit.skeleton, TypeDecl.skeleton, Field.skeleton, Method.skeleton⟩

/-- A project is seen as its skeleton. -/
theorem shows_skeleton : skeletonView.Shows index index.skeleton where
  package _ := rfl
  imports _ := rfl
  findDeclared? := CompilationUnit.skeleton_findDeclared?
  name := TypeDecl.skeleton_name
  qualifiedName := TypeDecl.skeleton_qualifiedName
  kind := TypeDecl.skeleton_kind
  outer := TypeDecl.skeleton_outer
  header := TypeDecl.skeleton_header
  preamble := TypeDecl.skeleton_preamble
  constants := TypeDecl.skeleton_constants
  annotations := TypeDecl.skeleton_annotations
  typeParams := TypeDecl.skeleton_typeParams
  headerTypes := TypeDecl.skeleton_headerTypes
  memberType? := TypeDecl.skeleton_memberType?
  fields := TypeDecl.skeleton_fields
  methods := TypeDecl.skeleton_methods
  constructors := TypeDecl.skeleton_constructors
  names _ := rfl
  type _ := rfl
  methodName _ := rfl
  params _ := rfl
  varargs _ := rfl
  returnType _ := rfl
  unitOf? name := by
    rw [unitOf?, skeleton, Table.get?_map, unitOf?, Option.map_map, Option.map_map]
    rfl
  typeDecl? name := by
    rw [typeDecl?, skeleton, Table.get?_map, typeDecl?, Option.map_map, Option.map_map]
    rfl
  hasType := by
    funext name
    rw [hasType, Table.has, skeleton, Table.get?_map, Option.isSome_map, hasType, Table.has]
  hasPackage := by
    funext name
    rw [hasPackage, skeleton, any_map, hasPackage]
    rfl
  typeCount := length_map _
  total := Table.total_map IndexedType.skeleton index.types

end Index

end JavaSlice
