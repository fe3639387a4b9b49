import JavaSlice.Proofs.DeclaredNames
import JavaSlice.Proofs.ResolutionOrder
import JavaSlice.Proofs.Signatures

/-!
# Member types by their simple names

Inside a type its member types go by their simple names. But a simple name is looked up in the file,
from wherever it is mentioned: it means the first type of that name in the order of
`CompilationUnit.searchOrder`, unless it is imported. Every mention of the name in a member that is
scanned needs that type, and methods are looked up on it (`member_type_means_first`).

So a type's own member type is found if no type of the same name comes before it in the file. If one
does, that one is taken in its place (`builder_of_sibling_taken`).
-/

namespace JavaSlice

open List Option Slice Source

/-! ## Mentions of types -/

namespace Source

variable {name : String}

/-- The names in some types, as far as these are no wildcards. -/
def TypeRef.namesOfAll (types : List TypeRef) : List String :=
  (types.filter (!·.isWildcard)).flatMap (·.names)

/-- The types of which an expression makes objects or which it uses itself, without those of its
parts. -/
def Expr.usedTypes : Expr → List TypeRef
  | .create type _ _ => [type]
  | .typeUse type => [type]
  | _ => []

/-- The types with which an expression declares variables, without those of its parts. -/
def Expr.variableTypes : Expr → List TypeRef
  | .declare type _ => [type]
  | .lambda params _ => params.map (·.type)
  | _ => []

/-- The names of types that some annotations mention, in their arguments too. -/
def annotationMentions (annotations : List Annotation) : List String :=
  annotations.map (·.name) ++ TypeRef.namesOfAll
    ((annotationTerms annotations).flatMap (·.usedTypes))

/-- The names of types that a body mentions. -/
def bodyMentions (body : List Expr) : List String :=
  TypeRef.namesOfAll ((Expr.subtermsOfAll body).flatMap fun term => term.usedTypes ++
    term.variableTypes)

/-- The names of types that the annotations and initial values of a field declaration mention. -/
def Field.mentions (field : Field) : List String :=
  annotationMentions field.annotations ++ bodyMentions field.initializers

/-- The names of types that the body of a method or constructor mentions, and the annotations on it
and on its parameters. -/
def Method.mentions (method : Method) : List String :=
  annotationMentions (method.annotations ++ method.params.flatMap (·.annotations)) ++
    bodyMentions method.body

/-- The names of types that the annotations and the body of a member mention. -/
def TypeDecl.codeMentions (decl : TypeDecl) : MemberKey → List String
  | .type => []
  | .field name => (decl.field? name).toList.flatMap (·.mentions)
  | .method name arity => (decl.method? name arity).toList.flatMap (·.mentions)
  | .constructor arity => (decl.constructor? arity).toList.flatMap (·.mentions)

/-- The names of types that a member mentions: in its signature, its annotations and its body. -/
def TypeDecl.mentions (decl : TypeDecl) (member : MemberKey) : List String :=
  TypeRef.namesOfAll (decl.signature member) ++ decl.codeMentions member

theorem TypeRef.mem_namesOfAll :
    name ∈ namesOfAll types ↔
      ∃ type ∈ types, type.isReference ∧ type.isWildcard = false ∧ name ∈ type.names := by
  simp only [namesOfAll, mem_flatMap, mem_filter, Bool.not_eq_true']
  constructor
  · rintro ⟨type, ⟨listed, written⟩, mentioned⟩
    exact ⟨type, listed, isReference_of_mem_names type written mentioned, written, mentioned⟩
  · rintro ⟨type, listed, -, written, mentioned⟩
    exact ⟨type, ⟨listed, written⟩, mentioned⟩

theorem mem_annotationMentions :
    name ∈ annotationMentions annotations ↔
      ∃ mark ∈ annotations, name ∈ annotationMentions [mark] := by
  simp only [annotationMentions, annotationTerms, TypeRef.namesOfAll, mem_append, List.mem_map,
    mem_flatMap, mem_filter, mem_singleton, exists_eq_left]
  grind

end Source

namespace Slice

namespace Scope

variable {term : Expr} {type : TypeRef}

/-! ## Mentions are taken up -/

variable {index : Index} {unit : CompilationUnit} {scope : Scope} {name : String}
  {resolution : Resolution}

section

variable (within : Within index unit scope)
include within

theorem follow_subtermSteps (used : type ∈ term.usedTypes)
    (isReference : type.isReference) : Step.Follow index unit (scope.subtermSteps term) type := by
  cases term with
  | create created args body =>
    obtain rfl := mem_singleton.mp used
    exact (follow_typeSteps within .construction isReference).mono (subset_append_left _ _)
  | typeUse other =>
    obtain rfl := mem_singleton.mp used
    exact follow_typeSteps within .variableType isReference
  | _ => cases used

/-- The types that expressions use are taken up, at any depth. -/
theorem takeUp_exprsSteps (resolved : index.resolve? unit name = some resolution)
    (mentioned : name ∈ TypeRef.namesOfAll ((Expr.subtermsOfAll exprs).flatMap (·.usedTypes))) :
    Step.TakeUp (exprs.flatMap scope.exprSteps) resolution := by
  obtain ⟨type, written, isReference, -, inType⟩ := TypeRef.mem_namesOfAll.mp mentioned
  obtain ⟨term, isTerm, used⟩ := mem_flatMap.mp written
  have taken := follow_subtermSteps within used isReference name inType resolution resolved
  rw [flatMap_exprSteps]
  exact taken.mono fun step isStep => mem_flatMap.mpr ⟨term, isTerm, isStep⟩

theorem takeUp_annotationsSteps (resolved : index.resolve? unit name = some resolution)
    (mentioned : name ∈ annotationMentions annotations) :
    Step.TakeUp (scope.annotationsSteps annotations) resolution := by
  obtain ⟨mark, isMark, inMark⟩ := mem_annotationMentions.mp mentioned
  have ofMark : Step.TakeUp (scope.annotationSteps mark) resolution := by
    rw [annotationMentions, annotationTerms, flatMap_singleton] at inMark
    rcases mem_append.mp inMark with itself | inArguments
    · obtain rfl := mem_singleton.mp itself
      exact (takeUp_classSteps within .annotated resolved).mono (subset_append_left _ _)
    · exact (takeUp_exprsSteps within resolved inArguments).mono (subset_append_right _ _)
  exact ofMark.mono fun step isStep => mem_flatMap.mpr ⟨mark, isMark, isStep⟩

end

/-! ## Bodies

Variables come into scope first, and the types with which they are declared are taken up on the
way. -/

theorem declareVariable_grows (type : TypeRef) (state : Scope × List Step) (declared : Variable)
    (within : Within index unit state.1) :
    Within index unit (declareVariable type state declared).1 ∧
      state.2 ⊆ (declareVariable type state declared).2 := by
  unfold declareVariable
  dsimp only
  split
  next _ _ => exact ⟨⟨within.index, within.unit⟩, subset_append_left _ _⟩
  next _ => exact ⟨⟨within.index, within.unit⟩, Subset.refl _⟩

theorem declareParam_grows (state : Scope × List Step) (param : Param)
    (within : Within index unit state.1) :
    Within index unit (declareParam state param).1 ∧ state.2 ⊆ (declareParam state param).2 :=
  ⟨⟨within.index, within.unit⟩, subset_append_left _ _⟩

theorem declareSubterm_grows (state : Scope × List Step) (term : Expr)
    (within : Within index unit state.1) :
    Within index unit (declareSubterm state term).1 ∧ state.2 ⊆ (declareSubterm state term).2 := by
  cases term with
  | declare type declared =>
    obtain ⟨stays, kept, -⟩ := gathered_foldl (declareVariable_grows type) declared
      (state.1, state.2 ++ state.1.typeSteps .variableType type) within
    exact ⟨stays, fun _ isStep => kept (mem_append_left _ isStep)⟩
  | lambda params body =>
    obtain ⟨stays, kept, -⟩ := gathered_foldl declareParam_grows params state within
    exact ⟨stays, kept⟩
  | _ => exact ⟨within, Subset.refl _⟩

theorem follow_declareSubterm (within : Within index unit state.1)
    (declared : type ∈ term.variableTypes) (isReference : type.isReference) :
    Step.Follow index unit (declareSubterm state term).2 type := by
  cases term with
  | declare other introduced =>
    obtain rfl := mem_singleton.mp declared
    obtain ⟨-, kept, -⟩ := gathered_foldl (declareVariable_grows type) introduced
      (state.1, state.2 ++ state.1.typeSteps .variableType type) within
    refine (follow_typeSteps within .variableType isReference).mono fun _ isStep => kept ?_
    exact mem_append_right _ isStep
  | lambda params body =>
    obtain ⟨param, isParam, rfl⟩ := List.mem_map.mp declared
    obtain ⟨-, -, each⟩ := gathered_foldl declareParam_grows params state within
    obtain ⟨before, stays, kept⟩ := each param isParam
    refine (follow_typeSteps stays .parameterType isReference).mono fun _ isStep => kept ?_
    exact mem_append_right _ isStep
  | _ => cases declared

theorem takeUp_bodySteps (within : Within index unit scope)
    (resolved : index.resolve? unit name = some resolution)
    (mentioned : name ∈ bodyMentions body) : Step.TakeUp (scope.bodySteps body) resolution := by
  obtain ⟨atEnd, -, each⟩ :=
    gathered_foldl declareSubterm_grows (Expr.subtermsOfAll body) (scope, []) within
  obtain ⟨type, written, isReference, noWildcard, inType⟩ := TypeRef.mem_namesOfAll.mp mentioned
  obtain ⟨term, isTerm, ofTerm⟩ := mem_flatMap.mp written
  -- what is used is looked up when all variables are known, and what declares a variable when those
  -- before it are
  rcases mem_append.mp ofTerm with used | declared
  · have inExprs : name ∈ TypeRef.namesOfAll ((Expr.subtermsOfAll body).flatMap (·.usedTypes)) :=
      TypeRef.mem_namesOfAll.mpr
        ⟨type, mem_flatMap.mpr ⟨term, isTerm, used⟩, isReference, noWildcard, inType⟩
    exact (takeUp_exprsSteps atEnd resolved inExprs).mono (subset_append_right _ _)
  · obtain ⟨before, stays, kept⟩ := each term isTerm
    have taken := follow_declareSubterm stays declared isReference name inType resolution resolved
    exact taken.mono fun _ isStep => mem_append_left _ (kept isStep)

/-! ## Members -/

theorem takeUp_methodSteps (within : Within index unit scope)
    (resolved : index.resolve? unit name = some resolution) (key : MemberKey) (method : Method)
    (result : Option TypeRef) (mentioned : name ∈ method.mentions) :
    Step.TakeUp (scope.methodSteps key method result) resolution := by
  have inner : Within index unit (scope.withTypeParams method.typeParams) :=
    ⟨within.index, within.unit⟩
  obtain ⟨atEnd, -, each⟩ :=
    gathered_foldl memberParam_grows method.params
      (scope.withTypeParams method.typeParams, []) inner
  rw [methodSteps]
  rcases mem_append.mp mentioned with inAnnotations | inBody
  · obtain ⟨mark, isMark, inMark⟩ := mem_annotationMentions.mp inAnnotations
    rcases mem_append.mp isMark with own | ofParams
    · refine (takeUp_annotationsSteps inner resolved
        (mem_annotationMentions.mpr ⟨mark, own, inMark⟩)).mono ?_
      intro step isStep
      simp [isStep]
    · obtain ⟨param, isParam, ofParam⟩ := mem_flatMap.mp ofParams
      obtain ⟨before, stays, kept⟩ := each param isParam
      refine (takeUp_annotationsSteps stays resolved
        (mem_annotationMentions.mpr ⟨mark, ofParam, inMark⟩)).mono ?_
      intro step isStep
      have gathered := kept (mem_append_left _ (mem_append_right _ isStep))
      simp [gathered]
  · exact (takeUp_bodySteps atEnd resolved inBody).mono (subset_append_right _ _)

/-- Every type that a member mentions by a name with a meaning is taken up by its scan. -/
theorem takeUp_memberSteps (within : Within index unit scope)
    (resolved : index.resolve? unit name = some resolution)
    (mentioned : name ∈ scope.owner.mentions member) :
    Step.TakeUp (scope.memberSteps member) resolution := by
  rcases mem_append.mp mentioned with inSignature | inCode
  · obtain ⟨type, written, isReference, -, inType⟩ := TypeRef.mem_namesOfAll.mp inSignature
    exact follow_memberSteps within written isReference name inType resolution resolved
  · cases member with
    | type => cases inCode
    | field fieldName =>
      obtain ⟨field, found, inField⟩ := mem_flatMap.mp inCode
      rw [memberSteps, mem_toList.mp found]
      rcases mem_append.mp inField with inAnnotations | inBody
      · refine (takeUp_annotationsSteps within resolved inAnnotations).mono fun step isStep => ?_
        simp [fieldDeclSteps, isStep]
      · exact (takeUp_bodySteps within resolved inBody).mono (subset_append_right _ _)
    | method methodName arity =>
      obtain ⟨method, found, inMethod⟩ := mem_flatMap.mp inCode
      rw [memberSteps, mem_toList.mp found]
      exact takeUp_methodSteps within resolved _ method _ inMethod
    | constructor arity =>
      obtain ⟨constructor, found, inConstructor⟩ := mem_flatMap.mp inCode
      rw [memberSteps, mem_toList.mp found]
      exact takeUp_methodSteps within resolved _ constructor none inConstructor

end Scope

end Slice

/-! ## Names of types of the file -/

namespace Index

variable {type : TypeDecl}

/-- A simple name in a file means a type of the project: a mention of the name needs the type and
no import. The type is also the one that the name leads to where it stands alone, unless a type
without a package has this name. -/
structure MeansType (index : Index) (unit : CompilationUnit) (name : String) (type : TypeDecl) :
    Prop where
  present : index.typeDecl? type.qualifiedName = some type
  resolved : index.resolve? unit name = some ⟨none, some (.type type.qualifiedName)⟩
  qualified : index.qualifiedName? unit name = some (if index.hasType name then name
    else type.qualifiedName)
  receiver : ∀ scope, Scope.Within index unit scope → scope.locals.get? name = none →
    index.visibleField? scope.owner name = none →
    scope.exprType? (.identifier name) = some (if index.hasType name then name
      else type.qualifiedName)

/-- A simple name that no single import introduces means the type that is found for it in the
file. -/
theorem meansType_of_findDeclared? {index : Index} {unit : CompilationUnit} {name : String}
    (simple : '.' ∉ name.toList)
    (notImported : ∀ line ∈ unit.imports, line.isWildcard = false → line.simpleName ≠ name)
    (found : unit.findDeclared? name = some type)
    (present : index.typeDecl? type.qualifiedName = some type) :
    index.MeansType unit name type := by
  have qualified : index.qualifiedName? unit name =
      some (if index.hasType name then name else type.qualifiedName) := by
    have noImport : (unit.imports.find? fun line => line.isSingleType && line.simpleName == name) =
        none := by
      refine find?_eq_none.mpr fun line listed explains => ?_
      simp only [Import.isSingleType, Bool.and_eq_true, Bool.not_eq_true', beq_iff_eq] at explains
      exact notImported line listed explains.1.2 explains.2
    rw [qualifiedName?, Dotted.splitHead?_eq_none_iff.mpr simple]
    dsimp only
    rw [qualifiedSimple?, nearType?, noImport, found]
    split <;> rfl
  refine ⟨present, ?_, qualified, ?_⟩
  · have noImport : singleImport? unit name = none := by
      refine find?_eq_none.mpr fun line listed explains => ?_
      simp only [Bool.and_eq_true, Bool.not_eq_true', beq_iff_eq] at explains
      exact notImported line listed explains.1 explains.2
    rw [resolve?_of_simple simple, resolveSimple?, noImport, found]
  · rintro scope ⟨rfl, rfl⟩ notLocal noField
    rw [Scope.exprType?, notLocal]
    dsimp only
    rw [noField]
    dsimp only
    rw [qualified, Option.filter_some, if_pos]
    split
    next isType => exact isType
    next _ => exact hasType_iff.mpr ⟨type, present⟩

/-- Every mention of the name in a member that is scanned needs the type. -/
theorem MeansType.needed (means : index.MeansType unit name type)
    (file : index.unitOf? owner = some unit) (present : index.typeDecl? owner = some decl)
    (mentioned : name ∈ decl.mentions member) :
    (∃ kind, .need kind (.type type.qualifiedName) ∈ scan index ⟨owner, member⟩) ∧
      ((Task.node ⟨owner, member⟩).error? index = none →
        .type type.qualifiedName ∈ scanFinds index ⟨owner, member⟩) := by
  have within : Scope.Within index unit (Scope.ofOwner index unit decl) := ⟨rfl, rfl⟩
  have taken : Step.TakeUp (scan index ⟨owner, member⟩)
      ⟨none, some (.type type.qualifiedName)⟩ := by
    rw [scan, file, present]
    exact Scope.takeUp_memberSteps within means.resolved mentioned
  refine ⟨taken.target _ rfl, fun faultless => mem_scanFinds.mpr ?_⟩
  have carried := Task.carried_eq faultless
  rw [Task.steps] at carried
  rw [carried]
  exact ⟨taken.target _ rfl, (declares_iff index _).mpr ⟨type, means.present, rfl⟩⟩

end Index

namespace Slice

/-- In files that are read, with no qualified name declared twice, a member type that is not
imported goes by its simple name as follows. The name means the first type of the file that is
called so, wherever in the file it is mentioned. Every mention in a member of the type around it
needs that type. It is the member type itself exactly if no type of this name is searched before
it. -/
theorem member_type_means_first (files : List ParsedFile)
    (unique : ((Index.declarations (ParsedFile.index files).units).map
      (·.decl.qualifiedName)).Nodup)
    {owner : String} {unit : CompilationUnit} {decl member : TypeDecl}
    (file : (ParsedFile.index files).unitOf? owner = some unit)
    (present : (ParsedFile.index files).typeDecl? owner = some decl)
    (isMember : member ∈ decl.nested)
    (notImported : ∀ line ∈ unit.imports, line.isWildcard = false → line.simpleName ≠ member.name) :
    let index := ParsedFile.index files
    member.qualifiedName = Dotted.join owner member.name ∧
      ∃ first, unit.searchOrder.find? (·.name == member.name) = some first ∧
        index.MeansType unit member.name first ∧
        (first = member ↔ ∃ before after, unit.searchOrder = before ++ member :: after ∧
          ∀ other ∈ before, other.name ≠ member.name) ∧
        ∀ key : MemberKey, member.name ∈ decl.mentions key →
          (∃ kind, .need kind (.type first.qualifiedName) ∈ scan index ⟨owner, key⟩) ∧
          ((Task.node ⟨owner, key⟩).error? index = none →
            .type first.qualifiedName ∈ scanFinds index ⟨owner, key⟩) := by
  intro index
  obtain ⟨type, stored, rfl⟩ := map_eq_some_iff.mp file
  obtain rfl : type.decl = decl := by
    rw [Index.typeDecl?, stored] at present
    exact some.inj present
  obtain ⟨listed, declared⟩ := Index.mem_declarations_iff.mp (Index.mem_declarations_of_get? stored)
  obtain ⟨nested, spelled⟩ := ParsedFile.of_mem_declarations (Index.mem_declarations_of_get? stored)
  obtain ⟨memberDeclared, isMemberOf⟩ :=
    CompilationUnit.member_of_mem_nested nested declared isMember
  have qualified : member.qualifiedName = Dotted.join owner member.name := by
    rw [isMemberOf.qualifiedName, Index.qualifiedName_of_get? stored]
  obtain ⟨first, found⟩ := CompilationUnit.exists_find?_searchOrder memberDeclared
  have inFile := found
  rw [← CompilationUnit.findDeclared?_eq_find?] at inFile
  have firstPresent : index.typeDecl? first.qualifiedName = some first := by
    have entered : (⟨type.unit, first⟩ : IndexedType) ∈ Index.declarations index.units :=
      Index.mem_declarations_iff.mpr ⟨listed,
        (CompilationUnit.mem_declaredTypes_of_findDeclared? inFile).1⟩
    have stored := Index.get?_of_mem_declarations unique entered
    exact congrArg (Option.map (·.decl)) stored
  have simple := (spelled member memberDeclared).name '.' mem_cons_self
  have means := Index.meansType_of_findDeclared? simple notImported inFile firstPresent
  exact ⟨qualified, first, found, means, CompilationUnit.eq_iff_of_find?_searchOrder found,
    fun key mentioned => means.needed file present mentioned⟩

/-- A class with two member types, each of which has a member type of its own called `Builder` and a
field of it. -/
def apiFiles : List (String × String) :=
  let part (name : String) : String :=
    "  class " ++ name ++ " \x7b class Builder \x7b\x7d Builder next = new Builder(); \x7d\n"
  [("p/Api.java", "package p;\nclass Api \x7b\n" ++ part "Request" ++ part "Response" ++ "\x7d\n")]

/-- The names of the types in the two classes, and what is found for `Builder` in their file. All of
it is evaluated together, so that the source is read once. -/
theorem apiFiles_read : let index := ParsedFile.index (apiFiles.map .ofSource)
    ((Index.declarations index.units).map (·.decl.qualifiedName)).Nodup ∧
      (∀ type ∈ ["p.Api.Request", "p.Api.Response"],
        (∃ unit ∈ index.unitOf? type, unit.imports = [] ∧
          index.qualifiedName? unit "Builder" = some "p.Api.Request.Builder" ∧
          ∀ first ∈ unit.searchOrder.find? (·.name == "Builder"),
            first.qualifiedName = "p.Api.Request.Builder") ∧
        (∃ decl ∈ index.typeDecl? type, "Builder" ∈ decl.mentions (.field "next") ∧
          ∃ member ∈ decl.nested, member.name = "Builder" ∧
            member.qualifiedName = type ++ ".Builder") ∧
        ((Task.node (.field type "next")).error? index).isNone = true) ∧
      scanFinds index (.field "p.Api.Response" "next") = [.type "p.Api.Request.Builder"] := by
  decide +kernel

/-- In the first of the two, the name means its own member type. -/
theorem builder_of_request_means_first : let index := Index.ofSources apiFiles
    ((Index.declarations index.units).map (·.decl.qualifiedName)).Nodup ∧
      ∃ unit decl member, index.unitOf? "p.Api.Request" = some unit ∧
        index.typeDecl? "p.Api.Request" = some decl ∧
        unit.imports = [] ∧ member ∈ decl.nested ∧ member.name = "Builder" ∧
        member.qualifiedName = "p.Api.Request.Builder" ∧ "Builder" ∈ decl.mentions (.field "next") ∧
        .type "p.Api.Request.Builder" ∈ scanFinds index (.field "p.Api.Request" "next") := by
  rw [← ParsedFile.index_ofSources]
  intro index
  obtain ⟨unique, both, -⟩ := apiFiles_read
  obtain ⟨⟨unit, file, noImports, -, isFirst⟩,
      ⟨decl, present, mentioned, member, isMember, named, -⟩, faultless⟩ :=
    both "p.Api.Request" mem_cons_self
  obtain ⟨qualified, first, found, -, -, needed⟩ :=
    member_type_means_first (apiFiles.map .ofSource) unique file present
    isMember (by rw [noImports]; exact fun line listed => nomatch listed)
  rw [named] at qualified found needed
  have finds := (needed _ mentioned).2 (isNone_iff_eq_none.mp faultless)
  rw [isFirst first found] at finds
  exact ⟨unique, unit, decl, member, file, present, noImports, isMember, named, qualified,
    mentioned, finds⟩

/-- In the second, the name means the member type of the first, and the field needs that one and not
its own. -/
theorem builder_of_sibling_taken : let index := Index.ofSources apiFiles
    ((Index.declarations index.units).map (·.decl.qualifiedName)).Nodup ∧
      ∃ unit decl member, index.unitOf? "p.Api.Response" = some unit ∧
        index.typeDecl? "p.Api.Response" = some decl ∧
        unit.imports = [] ∧ member ∈ decl.nested ∧ member.name = "Builder" ∧
        member.qualifiedName = "p.Api.Response.Builder" ∧
          "Builder" ∈ decl.mentions (.field "next") ∧
        index.qualifiedName? unit "Builder" = some "p.Api.Request.Builder" ∧
        scanFinds index (.field "p.Api.Response" "next") = [.type "p.Api.Request.Builder"] := by
  rw [← ParsedFile.index_ofSources]
  intro index
  obtain ⟨unique, both, finds⟩ := apiFiles_read
  obtain ⟨⟨unit, file, noImports, means, -⟩,
      ⟨decl, present, mentioned, member, isMember, named, qualified⟩, -⟩ :=
    both "p.Api.Response" (mem_cons_of_mem _ mem_cons_self)
  exact ⟨unique, unit, decl, member, file, present, noImports, isMember, named, qualified,
    mentioned, means, finds⟩

end Slice

end JavaSlice
