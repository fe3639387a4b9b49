import JavaSlice.Proofs.FileTypes
import JavaSlice.Proofs.ResolutionOrder

/-!
# Two ways to look up a type

A type that is mentioned is looked up twice. `Index.resolve?` finds the declaration that the scan
needs and the import line that goes with it. `Index.qualifiedName?` finds the name of the type, on
which constructors and methods are then looked up. The two go through imports, files and packages in
different ways, and still they agree on every name, simple or dotted, with a first segment that no
static import and no type without a package explains (`Index.PlainHead`): what the first needs is
what the second names, as far as the project declares it (`target_resolve?`).

So constructors and methods are looked up on the type that is needed (`lookups_agree`).
-/

namespace JavaSlice

open List Option Slice Source

namespace Index

variable {name : String}

/-- The first segment of a name in a file is explained by plain imports, types of the file and types
of packages only, and no plain import names a part of a qualified name that is no type itself. -/
structure PlainHead (index : Index) (unit : CompilationUnit) (head : String) : Prop where
  noStatic : ∀ line ∈ unit.imports, line.isStatic = true → line.isWildcard = false →
    line.simpleName ≠ head
  noStaticField : ∀ line ∈ unit.imports, line.isStatic = true → line.isWildcard = true →
    index.declares (.field line.name head) = false
  notQualified : index.hasType head = false
  noPackage : ∀ line ∈ unit.imports, line.isSingleType = true → index.hasType line.name = false →
    ∀ name ∈ index.types.names, ¬ (Dotted.join line.name "").toList <+: name.toList

instance (index : Index) (unit : CompilationUnit) (head : String) :
    Decidable (index.PlainHead unit head) :=
  decidable_of_iff (_ ∧ _ ∧ _ ∧ _)
    ⟨fun ⟨noStatic, noStaticField, notQualified, noPackage⟩ =>
      ⟨noStatic, noStaticField, notQualified, noPackage⟩,
      fun plain => ⟨plain.noStatic, plain.noStaticField, plain.notQualified, plain.noPackage⟩⟩

/-- The name of a type, if the project declares it, as the key of that type. -/
def indexedKey? (index : Index) (name : Option String) : Option Key :=
  (name.filter index.hasType).map .type

variable {index : Index} {unit : CompilationUnit} {head : String}

@[simp] theorem indexedKey?_none : index.indexedKey? none = none :=
  rfl

theorem indexedKey?_of_hasType (isType : index.hasType name) :
    index.indexedKey? (some name) = some (.type name) := by
  simp [indexedKey?, isType]

theorem indexedKey?_of_not_hasType (unknown : index.hasType name = false) :
    index.indexedKey? (some name) = none := by
  simp [indexedKey?, unknown]

theorem indexedKey?_eq_some_iff {name type} :
    index.indexedKey? name = some (.type type) ↔ name = some type ∧ index.hasType type := by
  cases name with
  | none => simp
  | some name =>
    simp only [indexedKey?, map_eq_some_iff, filter_eq_some_iff, some.injEq]
    constructor
    · rintro ⟨_, ⟨rfl, isType⟩, same⟩
      cases same
      exact ⟨rfl, isType⟩
    · rintro ⟨rfl, isType⟩
      exact ⟨name, ⟨rfl, isType⟩, rfl⟩

/-! ## Simple names -/

section

variable (plain : index.PlainHead unit head)
include plain

/-- Both ways find the same single import. -/
theorem PlainHead.singleImport?_eq :
    singleImport? unit head = unit.imports.find? fun line => line.isSingleType &&
      line.simpleName == head := by
  rw [singleImport?, ← head?_filter, ← head?_filter]
  refine congrArg List.head? (filter_congr fun line listed => ?_)
  cases isStatic : line.isStatic with
  | false => simp [Import.isSingleType, isStatic]
  | true =>
    cases wild : line.isWildcard with
    | false => simp [Import.isSingleType, isStatic, plain.noStatic line listed isStatic wild]
    | true => simp [Import.isSingleType, isStatic]

/-- Static wildcards explain nothing, so both ways find the same type through a wildcard. -/
theorem PlainHead.target_wildcards :
    ((unit.imports.filter (·.isWildcard)).findSome? (index.resolveWildcard? · head)).bind
      (·.target) =
      index.indexedKey? (((unit.imports.filter fun line => line.isWildcard && !line.isStatic).map
        fun line => Dotted.join line.name head).find? index.hasType) := by
  have noField := plain.noStaticField
  generalize unit.imports = lines at noField ⊢
  induction lines with
  | nil => rfl
  | cons line rest ih =>
    rw [forall_mem_cons] at noField
    have others := ih noField.2
    cases wild : line.isWildcard with
    | false => simpa [wild] using others
    | true =>
      have offered := index.resolveWildcard?_eq_offer head wild
      cases isStatic : line.isStatic with
      | true =>
        have unexplained : index.explains head line = false := by
          simp [explains, wild, isStatic, noField.1 isStatic wild]
        simpa [wild, isStatic, offered, unexplained] using others
      | false =>
        cases isType : index.hasType (Dotted.join line.name head) with
        | false => simpa [wild, isStatic, offered, explains, isType] using others
        | true =>
          simp [wild, isStatic, offered, explains, isType, offer, indexedKey?_of_hasType isType]

/-- On a simple name the two ways agree. -/
theorem PlainHead.target_resolveSimple?
    (indexed : ∀ decl ∈ unit.declaredTypes, index.hasType decl.qualifiedName) :
    (index.resolveSimple? unit head).bind (·.target) =
      index.indexedKey? (index.qualifiedSimple? unit head) := by
  rw [resolveSimple?, qualifiedSimple?, nearType?, packageType?, plain.notQualified,
    plain.singleImport?_eq]
  cases single : unit.imports.find? fun line => line.isSingleType && line.simpleName == head with
  | some line =>
    have isSingle : line.isStatic = false := by
      have found := find?_some single
      simp only [Import.isSingleType, Bool.and_eq_true, Bool.not_eq_true'] at found
      exact found.1.1
    cases isType : index.hasType line.name with
    | true => simp [resolveImport, isSingle, isType, indexedKey?_of_hasType isType]
    | false => simp [resolveImport, isSingle, isType, indexedKey?_of_not_hasType isType]
  | none =>
    cases inFile : unit.findDeclared? head with
    | some decl =>
      have isType := indexed decl (CompilationUnit.mem_declaredTypes_of_findDeclared? inFile).1
      simp [indexedKey?_of_hasType isType]
    | none =>
      cases isType : index.hasType (unit.qualify head) with
      | true => simp [indexedKey?_of_hasType isType]
      | false => simpa using plain.target_wildcards

end

/-! ## Dotted names -/

theorem hasType_followMembers (isType : index.hasType type) (segments : List String) :
    index.hasType (index.followMembers type segments) := by
  induction segments generalizing type with
  | nil => exact isType
  | cons segment rest ih =>
    rw [followMembers]
    split
    next further => exact ih further
    next _ => exact isType

section

variable {outer : String} (plain : index.PlainHead unit head)
  (indexed : ∀ decl ∈ unit.declaredTypes, index.hasType decl.qualifiedName = true)
  (means : index.qualifiedSimple? unit head = some outer) (unknown : index.hasType outer = false)
include plain indexed means unknown

/-- A simple name that leads to no type of the project is that of a single import. -/
theorem PlainHead.exists_import : ∃ line ∈ unit.imports, line.isSingleType ∧ line.name = outer := by
  rw [qualifiedSimple?, nearType?, packageType?, plain.notQualified, if_neg Bool.false_ne_true]
    at means
  rcases or_eq_some_iff.mp means with near | ⟨-, far⟩
  · split at near
    next line single =>
      have found := find?_some single
      rw [Bool.and_eq_true] at found
      exact ⟨line, mem_of_find?_eq_some single, found.1, some.inj near⟩
    next _ =>
      obtain ⟨decl, inFile, rfl⟩ := map_eq_some_iff.mp near
      have isType := indexed decl (CompilationUnit.mem_declaredTypes_of_findDeclared? inFile).1
      simp [isType] at unknown
  · split at far
    next isType =>
      obtain rfl := some.inj far
      simp [isType] at unknown
    next _ =>
      have isType := find?_some far
      simp [isType] at unknown

/-- Such a name leads no further, since no type is qualified by it. -/
theorem PlainHead.followMembers_eq (segments : List String) :
    index.followMembers outer segments = outer := by
  obtain ⟨line, listed, isSingle, rfl⟩ := plain.exists_import indexed means unknown
  cases segments with
  | nil => rfl
  | cons segment rest =>
    rw [followMembers, if_neg]
    intro isType
    obtain ⟨decl, found⟩ := hasType_iff.mp isType
    refine plain.noPackage line listed isSingle unknown _ (mem_names_of_typeDecl? found)
      ⟨segment.toList, ?_⟩
    simp [Dotted.join]

end

/-- No import and no type of a file has a dotted name as its simple name. -/
theorem nearType?_of_dotted (dotted : '.' ∈ name.toList) (unknown : index.hasType name = false)
    (simple : ∀ decl ∈ unit.declaredTypes, '.' ∉ decl.name.toList) :
    index.nearType? unit name = none := by
  have noImport : (unit.imports.find? fun line => line.isSingleType && line.simpleName == name) =
      none := by
    refine find?_eq_none.mpr fun line _ explains => ?_
    simp only [Bool.and_eq_true, beq_iff_eq] at explains
    rw [← explains.2] at dotted
    exact Dotted.simple_last line.name dotted
  have noDecl : unit.findDeclared? name = none := by
    refine Option.eq_none_iff_forall_ne_some.mpr fun decl found => ?_
    obtain ⟨declared, rfl⟩ := CompilationUnit.mem_declaredTypes_of_findDeclared? found
    exact simple decl declared dotted
  rw [nearType?, unknown, if_neg Bool.false_ne_true, noImport, noDecl, map_none]

/-- A dotted name that is not qualified means what its first segment means, followed through member
types. -/
theorem target_of_dotted (split : Dotted.splitHead? name = some (head, rest))
    (unknown : index.hasType name = false) :
    (index.resolve? unit name).bind (·.target) =
      ((index.resolveSimple? unit head).bind (·.target)).map fun key =>
        if key.member = .type then .type (index.followMembers key.owner (Dotted.segments rest))
          else key := by
  rw [resolve?, split]
  dsimp only
  rw [unknown, if_neg Bool.false_ne_true]
  cases index.resolveSimple? unit head with
  | none => rfl
  | some resolution =>
    obtain ⟨line, target⟩ := resolution
    cases target with
    | none => rfl
    | some key =>
      obtain ⟨owner, member⟩ := key
      cases member <;> rfl

/-- On every name the two ways agree, where all types of the file are types of the project with
simple names. -/
theorem PlainHead.target_resolve? (plain : index.PlainHead unit (Dotted.head name))
    (indexed : ∀ decl ∈ unit.declaredTypes, index.hasType decl.qualifiedName)
    (simple : ∀ decl ∈ unit.declaredTypes, '.' ∉ decl.name.toList) :
    (index.resolve? unit name).bind (·.target) =
      index.indexedKey? (index.qualifiedName? unit name) := by
  rw [Dotted.head] at plain
  cases split : Dotted.splitHead? name with
  | none =>
    rw [split] at plain
    rw [resolve?, qualifiedName?, split]
    exact plain.target_resolveSimple? indexed
  | some parts =>
    obtain ⟨head, rest⟩ := parts
    rw [split] at plain
    cases isType : index.hasType name with
    | true =>
      simp [resolve?, qualifiedName?, split, nearType?, isType, indexedKey?_of_hasType isType]
    | false =>
      -- nothing has the whole name as its simple name, so both ways go by the first segment
      have dotted : '.' ∈ name.toList := by
        by_contra undotted
        rw [Dotted.splitHead?_eq_none_iff.mpr undotted] at split
        cases split
      rw [target_of_dotted split isType, plain.target_resolveSimple? indexed, qualifiedName?, split]
      dsimp only
      rw [nearType?_of_dotted dotted isType simple, none_or]
      cases means : index.qualifiedSimple? unit head with
      | none => rfl
      | some outer =>
        cases known : index.hasType outer with
        | true =>
          have atEnd := hasType_followMembers known (Dotted.segments rest)
          simp [indexedKey?_of_hasType known, atEnd, indexedKey?_of_hasType atEnd, Key.type]
        | false =>
          have stays := plain.followMembers_eq indexed means known (Dotted.segments rest)
          simp [indexedKey?_of_not_hasType known, stays, known]

/-- Every type of a file of a project is a type of the project. -/
theorem hasType_of_mem_declaredTypes {units} (listed : unit ∈ units) {decl}
    (declared : decl ∈ unit.declaredTypes) : (ofUnits units).hasType decl.qualifiedName := by
  have entered : (⟨unit, decl⟩ : IndexedType) ∈ declarations units :=
    mem_declarations_iff.mpr ⟨listed, declared⟩
  rw [hasType, Table.has, get?_ofUnits, find?_isSome]
  exact ⟨⟨unit, decl⟩, mem_reverse.mpr entered, beq_self_eq_true _⟩

theorem projectType?_eq_some_iff (base : type.baseName? = some name) :
    index.projectType? unit type = some qualified ↔
      index.qualifiedName? unit name = some qualified ∧ index.hasType qualified := by
  simp only [projectType?, base, Option.bind_eq_bind, bind_some, bind_eq_some_iff]
  constructor
  · rintro ⟨found, means, kept⟩
    split at kept
    next isType =>
      cases kept
      exact ⟨means, isType⟩
    next _ => cases kept
  · rintro ⟨means, isType⟩
    exact ⟨qualified, means, if_pos isType⟩

end Index

namespace Slice

/-! ## Mentions of types -/

namespace Scope

variable {name : String} {type : TypeRef}

/-- Expressions whose type is written: a new object, the type itself, and a local variable. -/
inductive HasWritten (scope : Scope) (type : TypeRef) : Expr → Prop where
  | create (args : List Expr) (body : Option Expr) : HasWritten scope type (.create type args body)
  | typeUse : HasWritten scope type (.typeUse type)
  | ofLocal {name : String} : scope.locals.get? name = some type →
      HasWritten scope type (.identifier name)

/-- For a written type, constructors and methods are looked up on a declaration. -/
structure LooksUpOn (scope : Scope) (type : TypeRef) (decl : TypeDecl) : Prop where
  constructors : ∀ count, scope.creationSteps type count =
    scope.typeSteps .construction type ++ needSteps .construction
      (Index.findConstructor? decl count)
  methods : ∀ expr, scope.HasWritten type expr → ∀ name, name ≠ "<init>" → ∀ count,
    scope.callSteps (some expr) name count =
      needSteps .call (scope.index.findMethod? ⟨name, some count⟩ decl)

variable {index : Index} {unit : CompilationUnit} {scope : Scope}

/-- The mention of a class needs a type exactly if the class means it. -/
theorem need_mem_classSteps_iff (within : Within index unit scope) {kind type} :
    .need kind (.type type) ∈ scope.classSteps kind name ↔
      (index.resolve? unit name).bind (·.target) = some (.type type) := by
  obtain ⟨rfl, rfl⟩ := within
  rw [classSteps]
  cases scope.index.resolve? scope.unit name with
  | none =>
    simp only [wildcardSteps, bind_none, reduceCtorEq, iff_false]
    split
    next _ => exact not_mem_nil
    next _ =>
      split
      next _ => exact not_mem_nil
      next _ => simp [allWildcards]
  | some resolution => simp [importSteps]

theorem classSteps_subset_typeSteps (base : type.baseName? = some name) (kind : EdgeKind) :
    scope.classSteps kind name ⊆ scope.typeSteps kind type := by
  have isReference : type.isReference = true := by
    fun_induction TypeRef.baseName? type with
    | case1 => rfl
    | case2 element ih => exact ih base
    | case3 => cases base
  have outermost : name ∈ type.classNames := by
    fun_induction TypeRef.baseName? type with
    | case1 => cases base; exact mem_cons_self
    | case2 element ih => exact ih base isReference
    | case3 => cases base
  intro step isStep
  rw [typeSteps, if_pos (mentionsClasses_of_isReference isReference)]
  exact mem_append_right _ (mem_flatMap.mpr ⟨name, outermost, isStep⟩)

theorem exprType?_of_hasWritten (written : scope.HasWritten type expr) :
    scope.exprType? expr = scope.index.projectType? scope.unit type := by
  cases written with
  | create => rfl
  | typeUse => rfl
  | ofLocal known => rw [exprType?, known]

theorem looksUpOn_of_projectType? (within : Within index unit scope)
    (means : index.projectType? unit type = some name) (found : index.typeDecl? name = some decl) :
    scope.LooksUpOn type decl := by
  obtain ⟨rfl, rfl⟩ := within
  constructor
  · intro count
    simp only [creationSteps, means, Option.bind_eq_bind, bind_some, found]
  · intro expr written method isMethod count
    have typed : scope.exprDecl? expr = some decl := by
      rw [exprDecl?, exprType?_of_hasWritten written, means, bind_some, found]
    rw [callSteps, if_neg (by simpa using isMethod)]
    cases written <;> simp only [typed, bind_some]

end Scope

/-- The two ways to look up a name agree, on every name with a plain first segment: the declaration
that the name means is a type exactly if the project declares the type that the name leads to, and
it is that type. So the type that a mention needs is the one on which constructors and methods are
looked up. -/
theorem lookups_agree (units : List CompilationUnit)
    (simple : ∀ type ∈ Index.declarations units, '.' ∉ type.decl.name.toList)
    {unit : CompilationUnit} (listed : unit ∈ units) {name : String}
    (plain : (Index.ofUnits units).PlainHead unit (Dotted.head name)) :
    let index := Index.ofUnits units
    (∀ qualified, (index.resolve? unit name).bind (·.target) = some (.type qualified) ↔
      index.qualifiedName? unit name = some qualified ∧ index.hasType qualified = true) ∧
    ∀ scope, Scope.Within index unit scope → ∀ type : TypeRef, type.baseName? = some name → ∀ kind,
      scope.classSteps kind name ⊆ scope.typeSteps kind type ∧
      ∀ qualified, (.need kind (.type qualified) ∈ scope.classSteps kind name ↔
          index.projectType? unit type = some qualified) ∧
        (index.projectType? unit type = some qualified →
          ∃ decl, index.typeDecl? qualified = some decl ∧ scope.LooksUpOn type decl) := by
  intro index
  have agree : ∀ qualified, (index.resolve? unit name).bind (·.target) = some (.type qualified) ↔
      index.qualifiedName? unit name = some qualified ∧ index.hasType qualified = true := by
    intro qualified
    rw [plain.target_resolve? (fun _ => Index.hasType_of_mem_declaredTypes listed)
      (fun decl declared => simple ⟨unit, decl⟩
        (Index.mem_declarations_iff.mpr ⟨listed, declared⟩)),
      Index.indexedKey?_eq_some_iff]
  refine ⟨agree, fun scope within type base kind =>
    ⟨Scope.classSteps_subset_typeSteps base kind, fun qualified => ?_⟩⟩
  refine ⟨?_, fun means => ?_⟩
  · rw [Scope.need_mem_classSteps_iff within, agree, Index.projectType?_eq_some_iff base]
  · obtain ⟨decl, found⟩ := Index.hasType_iff.mp ((Index.projectType?_eq_some_iff base).mp means).2
    exact ⟨decl, found, Scope.looksUpOn_of_projectType? within means found⟩

/-- A file with a member type, and with imports of a type of the project, a type of a library, a
package and the static members of a class. -/
def parcels : List CompilationUnit :=
  let classOf (outer : Option String) (name qualified : String) (members : List Member)
      (nested : List TypeDecl) : TypeDecl :=
    ⟨name, qualified, .classType, outer, "public class " ++ name, none, [], [], [], [], members,
      nested⟩
  let limit : Member :=
    .field ⟨["LIMIT"], .primitive "int", [], [.literal], "static int LIMIT = 1;"⟩
  [⟨"p/Main.java", some "p",
      [⟨"q.Outer", false, false⟩, ⟨"lib.Thing", false, false⟩, ⟨"r", false, true⟩,
        ⟨"q.Sizes", true, true⟩],
      [classOf none "Main" "p.Main" [] [classOf (some "p.Main") "Part" "p.Main.Part" [] []]]⟩,
    ⟨"p/Near.java", some "p", [], [classOf none "Near" "p.Near" [] []]⟩,
    ⟨"q/Outer.java", some "q", [],
      [classOf none "Outer" "q.Outer" [] [classOf (some "q.Outer") "Inner" "q.Outer.Inner" [] []]]⟩,
    ⟨"q/Sizes.java", some "q", [], [classOf none "Sizes" "q.Sizes" [limit] []]⟩,
    ⟨"r/Box.java", some "r", [], [classOf none "Box" "r.Box" [] []]⟩]

/-- Names of the file that mean types, with those types. The last one has a segment too many. -/
def parcelTypes : List (String × String) :=
  [("Part", "p.Main.Part"), ("Near", "p.Near"), ("Outer", "q.Outer"), ("Box", "r.Box"),
    ("q.Sizes", "q.Sizes"), ("Outer.Inner", "q.Outer.Inner"), ("Outer.Inner.Lid", "q.Outer.Inner")]

/-- On these names the two ways agree. -/
theorem parcels_lookups_agree :
    ∃ unit ∈ parcels, (∀ type ∈ Index.declarations parcels, '.' ∉ type.decl.name.toList) ∧
      ∀ entry ∈ parcelTypes, (Index.ofUnits parcels).PlainHead unit (Dotted.head entry.1) ∧
        (Index.ofUnits parcels).qualifiedName? unit entry.1 = some entry.2 ∧
        ((Index.ofUnits parcels).resolve? unit entry.1).bind (·.target) = some (.type entry.2) := by
  obtain ⟨unit, listed, simple, names⟩ : ∃ unit ∈ parcels,
      (∀ type ∈ Index.declarations parcels, '.' ∉ type.decl.name.toList) ∧
      ∀ entry ∈ parcelTypes, (Index.ofUnits parcels).PlainHead unit (Dotted.head entry.1) ∧
        (Index.ofUnits parcels).qualifiedName? unit entry.1 = some entry.2 ∧
        (Index.ofUnits parcels).hasType entry.2 = true :=
    ⟨_, .head _, by decide, by decide⟩
  refine ⟨unit, listed, simple, fun entry isEntry => ?_⟩
  obtain ⟨plain, means, isType⟩ := names entry isEntry
  exact ⟨plain, means, ((lookups_agree parcels simple listed plain).1 entry.2).mpr ⟨means, isType⟩⟩

end Slice

end JavaSlice
