import JavaSlice.Proofs.Names
import JavaSlice.Proofs.Places

/-!
# Imports of signatures

A member is copied with the types in its signature, and a type with those in its header, so the
output needs what these types name. A scan goes through each of them and takes up every class name
in it, at any depth, and every annotation that is written on it. What a scan takes up ends in the
file of the owner or among the visited declarations (`signature_names_kept`).

Annotations on type arguments are not looked at, and what they name is lost
(`argument_annotation_lost`).
-/

namespace JavaSlice

open List Option Slice Source

variable {type : TypeRef} {resolution : Resolution}

/-! ## The types in a signature -/

namespace Source

namespace TypeRef

/-- Whether a type is a wildcard, seen through arrays. A wildcard can only be written as a type
argument. -/
def isWildcard : TypeRef → Bool
  | .wildcard _ => true
  | .array element => element.isWildcard
  | _ => false

/-- The names of the classes in a type at any depth, and of the annotations written on it, seen
through arrays. -/
def names (type : TypeRef) : List String :=
  type.classNames ++ type.annotations.map (·.name)

mutual

/-- The names of all annotations in a type, on it and on its type arguments at any depth. -/
def annotationNames : TypeRef → List String
  | .named _ args annotations => annotations.map (·.name) ++ annotationNamesOfAll args
  | .array element => element.annotationNames
  | .wildcard (some bound) => bound.annotationNames
  | _ => []

/-- The names of the annotations in the types of a list. -/
def annotationNamesOfAll : List TypeRef → List String
  | [] => []
  | type :: types => type.annotationNames ++ annotationNamesOfAll types

end

/-- A type with a name in it is a class or an array of classes, unless it is a wildcard. -/
theorem isReference_of_mem_names :
    ∀ type : TypeRef, type.isWildcard = false → name ∈ type.names → type.isReference
  | .named _ _ _, _, _ => rfl
  | .array element, written, mentioned => isReference_of_mem_names element written mentioned
  | .wildcard _, written, _ => nomatch written
  | .primitive _, _, mentioned => nomatch mentioned
  | .void, _, mentioned => nomatch mentioned
  | .inferred, _, mentioned => nomatch mentioned
  | .other _, _, mentioned => nomatch mentioned

end TypeRef

/-- The types of the parameters of a method, and the exceptions that it throws. -/
def Method.parameterTypes (method : Method) : List TypeRef :=
  method.params.map (·.type) ++ method.throws

/-- The types that are written in the declaration of a member, apart from its body. -/
def TypeDecl.signature (decl : TypeDecl) : MemberKey → List TypeRef
  | .type => []
  | .field name => (decl.field? name).toList.map (·.type)
  | .method name arity =>
    (decl.method? name arity).toList.flatMap fun method => method.returnType.toList ++
      method.parameterTypes
  | .constructor arity => (decl.constructor? arity).toList.flatMap (·.parameterTypes)

end Source

namespace Slice

/-- The types that a task goes through before it comes to bodies: those in the signature of a
member, and those in the header of a type. -/
def Task.types (owner : TypeDecl) : Task → List TypeRef
  | .header _ => owner.headerTypes
  | .node key => owner.signature key.member

/-! ## Names that a scan takes up -/

/-- Steps take up what a name means: they use the import line that explains it, and need what it
means. -/
structure Step.TakeUp (steps : List Step) (resolution : Resolution) : Prop where
  line : ∀ line ∈ resolution.line, .useImport line ∈ steps
  target : ∀ key ∈ resolution.target, ∃ kind, .need kind key ∈ steps

/-- Steps follow a type in a file: they take up what each name in it means there. -/
def Step.Follow (index : Index) (unit : CompilationUnit) (steps : List Step) (type : TypeRef) :
    Prop :=
  ∀ name ∈ type.names, ∀ resolution, index.resolve? unit name = some resolution →
    TakeUp steps resolution

theorem Step.TakeUp.mono (taken : TakeUp steps resolution) (subset : steps ⊆ more) :
    TakeUp more resolution :=
  ⟨fun line explains => subset (taken.line line explains),
    fun key means => (taken.target key means).imp fun _ needed => subset needed⟩

theorem Step.Follow.mono
    (follow : Follow index unit steps type) (subset : steps ⊆ more) : Follow index unit more type :=
  fun name mentioned resolution resolved => (follow name mentioned resolution resolved).mono subset

namespace Scope

variable {index : Index} {unit : CompilationUnit} {scope : Scope}

section

variable (within : Within index unit scope) (kind : EdgeKind)
include within kind

theorem takeUp_classSteps (resolved : index.resolve? unit name = some resolution) :
    Step.TakeUp (scope.classSteps kind name) resolution := by
  obtain ⟨rfl, rfl⟩ := within
  rw [classSteps, resolved]
  constructor
  · intro line explains
    exact mem_append_left _ (List.mem_map_of_mem (mem_toList.mpr explains))
  · intro key means
    exact ⟨kind, mem_append_right _ (List.mem_map_of_mem (mem_toList.mpr means))⟩

theorem follow_typeSteps (isReference : type.isReference) :
    Step.Follow index unit (scope.typeSteps kind type) type := by
  intro name mentioned resolution resolved
  rw [typeSteps, if_pos (mentionsClasses_of_isReference isReference)]
  rcases mem_append.mp mentioned with isClass | isMark
  · refine (takeUp_classSteps within kind resolved).mono fun step isStep => ?_
    exact mem_append_right _ (mem_flatMap.mpr ⟨name, isClass, isStep⟩)
  · obtain ⟨mark, written, rfl⟩ := List.mem_map.mp isMark
    refine (takeUp_classSteps within .annotated resolved).mono fun step isStep => ?_
    exact mem_append_left _ (mem_flatMap.mpr ⟨mark, written, isStep⟩)

/-- One type after the other is followed. -/
theorem follow_flatMap {types : List TypeRef} (mem : type ∈ types)
    (isReference : type.isReference) :
    Step.Follow index unit (types.flatMap (scope.typeSteps kind)) type :=
  (follow_typeSteps within kind isReference).mono fun _ isStep =>
    mem_flatMap.mpr ⟨type, mem, isStep⟩

end

/-- Where items come into scope one after the other and steps are only added, the file stays the
same, and what each item adds is kept. -/
theorem gathered_foldl {α : Type} {advance}
    (grows : ∀ state item, Within index unit state.1 →
      Within index unit (advance state item).1 ∧ state.2 ⊆ (advance state item).2)
    (items : List α) (state : Scope × List Step) (within : Within index unit state.1) :
    Within index unit (items.foldl advance state).1 ∧ state.2 ⊆ (items.foldl advance state).2 ∧
      ∀ item ∈ items, ∃ before : Scope × List Step, Within index unit before.1 ∧
        (advance before item).2 ⊆ (items.foldl advance state).2 := by
  induction items generalizing state with
  | nil => exact ⟨within, Subset.refl _, fun _ mem => nomatch mem⟩
  | cons first rest ih =>
    obtain ⟨stays, added⟩ := grows state first within
    obtain ⟨atEnd, kept, later⟩ := ih (advance state first) stays
    exact ⟨atEnd, fun _ isStep => kept (added isStep),
      forall_mem_cons.mpr ⟨⟨state, within, kept⟩, later⟩⟩

theorem memberParam_grows (state : Scope × List Step) (param : Param)
    (within : Within index unit state.1) :
    Within index unit (memberParam state param).1 ∧ state.2 ⊆ (memberParam state param).2 :=
  ⟨⟨within.index, within.unit⟩, fun _ isStep => mem_append_left _ (mem_append_left _ isStep)⟩

theorem follow_memberParams (params : List Param) (state : Scope × List Step)
    (within : Within index unit state.1) (isParam : param ∈ params)
    (isReference : param.type.isReference) :
    Step.Follow index unit (params.foldl memberParam state).2 param.type := by
  obtain ⟨-, -, each⟩ := gathered_foldl memberParam_grows params state within
  obtain ⟨before, stays, kept⟩ := each param isParam
  refine (follow_typeSteps stays .parameterType isReference).mono fun step isStep => kept ?_
  exact mem_append_right _ isStep

theorem follow_methodSteps (within : Within index unit scope) (key : MemberKey) (method : Method)
    (result : Option TypeRef) (mem : type ∈ result.toList ++ method.parameterTypes)
    (isReference : type.isReference) :
    Step.Follow index unit (scope.methodSteps key method result) type := by
  have inner : Within index unit (scope.withTypeParams method.typeParams) :=
    ⟨within.index, within.unit⟩
  rw [methodSteps]
  rcases mem_append.mp mem with isResult | isParameter
  · refine (follow_flatMap inner .returnType isResult isReference).mono fun step isStep => ?_
    simp [isStep]
  · rcases mem_append.mp isParameter with ofParam | thrown
    · obtain ⟨param, isParam, rfl⟩ := List.mem_map.mp ofParam
      have params := follow_memberParams method.params (scope.withTypeParams method.typeParams, [])
        inner isParam
      refine (params isReference).mono fun step isStep => ?_
      simp [isStep]
    · refine (follow_flatMap inner .returnType thrown isReference).mono fun step isStep => ?_
      simp [isStep]

theorem follow_memberSteps (within : Within index unit scope)
    (mem : type ∈ scope.owner.signature member) (isReference : type.isReference) :
    Step.Follow index unit (scope.memberSteps member) type := by
  cases member with
  | type => nomatch mem
  | field name =>
    obtain ⟨field, isField, rfl⟩ := List.mem_map.mp mem
    rw [memberSteps, mem_toList.mp isField]
    refine (follow_typeSteps within .variableType isReference).mono fun step isStep => ?_
    simp [fieldDeclSteps, isStep]
  | method name arity =>
    obtain ⟨method, isMethod, written⟩ := mem_flatMap.mp mem
    rw [memberSteps, mem_toList.mp isMethod]
    -- the scan passes over a return type that is no class, which has no names
    refine follow_methodSteps within _ method _ ?_ isReference
    rw [mem_append, mem_toList, filter_eq_some_iff]
    exact (mem_append.mp written).imp_left fun returned =>
      ⟨mem_toList.mp returned, isReference⟩
  | constructor arity =>
    obtain ⟨constructor, isConstructor, written⟩ := mem_flatMap.mp mem
    rw [memberSteps, mem_toList.mp isConstructor]
    exact follow_methodSteps within _ constructor none written isReference

end Scope

/-- A task follows the types that it goes through. -/
theorem Task.follow {index : Index} {unit : CompilationUnit} {owner : TypeDecl} {task : Task}
    (file : index.unitOf? task.owner = some unit)
    (present : index.typeDecl? task.owner = some owner) (mem : type ∈ task.types owner)
    (isReference : type.isReference) : Step.Follow index unit (task.steps index) type := by
  have within : Scope.Within index unit (Scope.ofOwner index unit owner) := ⟨rfl, rfl⟩
  cases task with
  | header name =>
    rw [Task.owner] at file present
    rw [steps, scanHeader, file, present]
    refine (Scope.follow_flatMap within .supertype mem isReference).mono fun step isStep => ?_
    exact mem_append_left _ (mem_append_right _ isStep)
  | node key =>
    rw [Task.owner] at file present
    rw [steps, scan, file, present]
    exact Scope.follow_memberSteps within mem isReference

/-! ## What is kept -/

namespace Walk

/-- A walk has kept what a name in a declaration of a type means. The file of the type has
the import line, or needs none for its own package, and the declaration that is meant has been
visited. -/
structure Keeps (walk : Walk) (index : Index) (owner : String) (resolution : Resolution) :
    Prop where
  line : ∀ line ∈ resolution.line, ∃ file, walk.registry.file? owner = some file ∧
    (line ∈ file.imports ∨ file.isOwnPackage line = true)
  target : ∀ key ∈ resolution.target, index.declares key = true → key ∈ walk.registry.visitedKeys

theorem Finished.keeps_of_takeUp (finished : Finished units seeds walk)
    (done : walk.Done task) (taken : Step.TakeUp (task.steps (Index.ofUnits units)) resolution) :
    walk.Keeps (Index.ofUnits units) task.owner resolution := by
  constructor
  · intro line explains
    have owned := finished.solved.tracks.coherent.owner_mem_fileNames (Index.named_ofUnits units)
      (found_of_done done)
    obtain ⟨file, isFile⟩ := mem_fileNames_iff.mp owned
    obtain ⟨fresh, tasks, history⟩ := finished.recorded task.owner file isFile
    refine ⟨file, isFile, ?_⟩
    rw [history.imports.2, history.isOwnPackage_eq]
    cases fresh.isOwnPackage line with
    | true => exact .inr rfl
    | false => exact .inl ⟨⟨task, ⟨rfl, done⟩, taken.line line explains⟩, rfl⟩
  · intro key means declared
    have found := finished.solved.settled.found task done key ⟨taken.target key means, declared⟩
    exact Registry.mem_visitedKeys_iff.mpr ((finished.solved.found_iff_done (.node key)).mp found)

end Walk

/-- In a slice without an error, every name in the signature of a member that was found, and in the
header of a type with a file, is kept with what it means: class names at any depth, and the names of
annotations that are written on a type or on the elements of an array. -/
theorem signature_names_kept (units : List CompilationUnit) (seeds : List Seed)
    (ok : (Walk.start.solve (Index.ofUnits units) seeds).2 = none) :
    let index := Index.ofUnits units
    let walk := (Walk.start.solve index seeds).1
    ∀ task : Task, walk.Found task → ∃ unit owner, index.unitOf? task.owner = some unit ∧
      index.typeDecl? task.owner = some owner ∧ ∀ type ∈ task.types owner, type.isWildcard = false →
        ∀ name ∈ type.names, ∀ resolution, index.resolve? unit name = some resolution →
          walk.Keeps index task.owner resolution := by
  intro index walk task found
  have finished := Walk.finished_solve ok
  have named := Index.named_ofUnits units
  have coherent := finished.solved.tracks.coherent
  obtain ⟨owner, present⟩ :=
    Index.hasType_iff.mp (coherent.hasType named (coherent.owner_mem_fileNames named found))
  obtain ⟨unit, file⟩ := (Index.unitOf?_eq_some_iff index task.owner).mpr ⟨owner, present⟩
  refine ⟨unit, owner, file, present,
    fun type membership written name mentioned resolution resolved => ?_⟩
  have isReference := TypeRef.isReference_of_mem_names type written mentioned
  have taken := Task.follow file present membership isReference name mentioned resolution resolved
  exact finished.keeps_of_takeUp ((finished.solved.found_iff_done task).mp found) taken

/-- A class with a field whose type arguments are annotated, by an annotation of another package. A
method takes an array of annotated strings. -/
def roster : List CompilationUnit :=
  let nonNull : Annotation := ⟨"NonNull", []⟩
  let names : Field :=
    ⟨["names"], .named "List" [.named "String" [] [nonNull]] [], [], [],
      "List<@NonNull String> names;"⟩
  let enrol : Method :=
    ⟨"enrol", [], [], some .void, [⟨"given", .array (.named "String" [] [nonNull]), []⟩], [],
      [], false, "void enrol(@NonNull String[] given) {}"⟩
  [⟨"p/Main.java", some "p", [⟨"java.util.List", false, false⟩, ⟨"q.NonNull", false, false⟩],
      [⟨"Main", "p.Main", .classType, none, "public class Main", none, [], [], [], [],
        [.field names, .method enrol], []⟩]⟩,
    ⟨"q/NonNull.java", some "q", [],
      [⟨"NonNull", "q.NonNull", .annotationType, none, "public @interface NonNull", none, [], [],
        [], [], [], []⟩]⟩]

/-- The annotation on the elements of the array is kept, with its import and its declaration. -/
theorem element_annotation_kept : let index := Index.ofUnits roster
    let walk := (Walk.start.solve index [⟨"p.Main", "enrol"⟩]).1
    let type : TypeRef := .array (.named "String" [] [⟨"NonNull", []⟩])
    (Walk.start.solve index [⟨"p.Main", "enrol"⟩]).2 = none ∧
      walk.Found (.node (.method "p.Main" "enrol" 1)) ∧
      type.isWildcard = false ∧ "NonNull" ∈ type.names ∧
      walk.Keeps index "p.Main" ⟨some ⟨"q.NonNull", false, false⟩, some (.type "q.NonNull")⟩ := by
  intro index walk type
  have ok : (Walk.start.solve index [⟨"p.Main", "enrol"⟩]).2 = none := by decide
  have found : walk.Found (.node (.method "p.Main" "enrol" 1)) := .head _
  obtain ⟨unit, owner, file, present, kept⟩ := signature_names_kept roster _ ok _ found
  cases file
  cases present
  exact ⟨ok, found, rfl, by decide, kept type (.tail _ (.head _)) rfl "NonNull" (by decide) _ rfl⟩

/-- The annotation on the type argument is found through an import line of the file. The line is not
recorded, although it is of another package, and the annotation is not visited. -/
theorem argument_annotation_lost : let index := Index.ofUnits roster
    let walk := (Walk.start.solve index [⟨"p.Main", "names"⟩]).1
    let line : Import := ⟨"q.NonNull", false, false⟩
    (Walk.start.solve index [⟨"p.Main", "names"⟩]).2 = none ∧
      .field "p.Main" "names" ∈ walk.registry.visitedKeys ∧
      (∃ unit owner type, index.unitOf? "p.Main" = some unit ∧
        index.typeDecl? "p.Main" = some owner ∧
        type ∈ owner.signature (.field "names") ∧ "NonNull" ∈ type.annotationNames ∧
        index.resolve? unit "NonNull" = some ⟨some line, some (.type "q.NonNull")⟩) ∧
      (∃ file, walk.registry.file? "p.Main" = some file ∧ line ∉ file.imports ∧
        file.isOwnPackage line = false) ∧
      index.declares (.type "q.NonNull") = true ∧
        .type "q.NonNull" ∉ walk.registry.visitedKeys := by
  intro index walk line
  refine ⟨by decide, ?_, ⟨_, _, _, rfl, rfl, .head _, by decide, rfl⟩,
    ⟨_, rfl, by decide, by decide⟩, by decide, ?_⟩
  · rw [Registry.mem_visitedKeys_iff]
    decide
  · rw [Registry.mem_visitedKeys_iff]
    decide

end Slice

end JavaSlice
