import JavaSlice.Slice.Scan
import Mathlib.Data.List.Basic

/-!
# What scans are made of

A scan of a declaration starts with the copy of the declaration and goes on with what its
annotations, types and expressions mention. Import lines come from few places only: a name that is
looked up in the file, a call that a static import explains, and the wildcards of libraries for
names that nothing explains. So a property of lists of steps that is kept when lists are joined
holds of every scan if it holds in these places (`ScanRule`).
-/

namespace JavaSlice.Source.Expr

open List

variable {term part : Expr}

/-! ## Parts of expressions -/

theorem subtermsOfAll_eq (exprs : List Expr) : subtermsOfAll exprs = exprs.flatMap subterms := by
  induction exprs with
  | nil => rfl
  | cons expr rest ih => rw [subtermsOfAll, ih, flatMap_cons]

theorem subtermsOfSome_eq (expr : Option Expr) :
    subtermsOfSome expr = expr.toList.flatMap subterms := by
  cases expr with
  | none => rfl
  | some expr => simp [subtermsOfSome]

theorem subtermsOfVariables_eq (declared : List Variable) :
    subtermsOfVariables declared = (declared.filterMap (·.init)).flatMap subterms := by
  induction declared with
  | nil => rfl
  | cons first rest ih =>
    obtain ⟨name, init⟩ := first
    rw [subtermsOfVariables, ih, subtermsOfSome_eq]
    cases init <;> simp

/-- The subterms of an expression are itself and the subterms of its parts. -/
theorem subterms_eq (expr : Expr) : expr.subterms = expr :: expr.children.flatMap subterms := by
  cases expr <;> simp [subterms, children, subtermsOfAll_eq, subtermsOfSome_eq,
    subtermsOfVariables_eq]

theorem sizeOf_lt_of_mem_children {expr : Expr} (isPart : part ∈ expr.children) :
    sizeOf part < sizeOf expr := by
  cases expr with
  | call scope name args =>
    simp only [children, mem_append, Option.mem_toList] at isPart
    rw [call.sizeOf_spec]
    rcases isPart with rfl | further
    · rw [Option.some.sizeOf_spec]
      omega
    · have := sizeOf_lt_of_mem further
      omega
  | create type args body =>
    simp only [children, mem_append, Option.mem_toList] at isPart
    rw [create.sizeOf_spec]
    rcases isPart with further | rfl
    · have := sizeOf_lt_of_mem further
      omega
    · rw [Option.some.sizeOf_spec]
      omega
  | declare type declared =>
    obtain ⟨⟨name, init⟩, mem, rfl⟩ := mem_filterMap.mp isPart
    have := sizeOf_lt_of_mem mem
    rw [Variable.mk.sizeOf_spec, Option.some.sizeOf_spec] at this
    rw [declare.sizeOf_spec]
    omega
  | group items =>
    have := sizeOf_lt_of_mem (show part ∈ items from isPart)
    rw [group.sizeOf_spec]
    omega
  | binary left right =>
    rw [binary.sizeOf_spec]
    rcases mem_pair.mp isPart with rfl | rfl <;> omega
  | field | methodRef | lambda | unary =>
    obtain rfl := mem_singleton.mp isPart
    simp only [field.sizeOf_spec, methodRef.sizeOf_spec, lambda.sizeOf_spec, unary.sizeOf_spec]
    omega
  | identifier | thisRef | superRef | typeUse | literal | unsupported => cases isPart

/-- The parts of a subterm are subterms. -/
theorem mem_subterms_of_mem_children {expr : Expr} (inside : term ∈ expr.subterms)
    (isPart : part ∈ term.children) : part ∈ expr.subterms := by
  rw [subterms_eq] at inside ⊢
  rcases mem_cons.mp inside with rfl | deeper
  · refine mem_cons_of_mem _ (mem_flatMap.mpr ⟨part, isPart, ?_⟩)
    rw [subterms_eq]
    exact mem_cons_self
  · obtain ⟨child, isChild, inChild⟩ := mem_flatMap.mp deeper
    have smaller := sizeOf_lt_of_mem_children isChild
    exact mem_cons_of_mem _
      (mem_flatMap.mpr ⟨child, isChild, mem_subterms_of_mem_children inChild isPart⟩)
termination_by sizeOf expr

/-- Subterms are closed under parts. -/
theorem mem_subtermsOfAll_of_mem_children (inside : term ∈ subtermsOfAll exprs)
    (isPart : part ∈ term.children) : part ∈ subtermsOfAll exprs := by
  rw [subtermsOfAll_eq, mem_flatMap] at inside ⊢
  obtain ⟨expr, mem, inExpr⟩ := inside
  exact ⟨expr, mem, mem_subterms_of_mem_children inExpr isPart⟩

end JavaSlice.Source.Expr

namespace JavaSlice.Slice

open List Source

variable {name : String} {state : Scope × List Step}

/-- The classes of a reference type are followed. -/
theorem Scope.mentionsClasses_of_isReference (isReference : type.isReference) :
    mentionsClasses type := by
  cases type with
  | wildcard bound => nomatch isReference
  | _ => exact isReference

/-! ## Rules -/

/-- A scope belongs to a file of an index. -/
structure Scope.Within (index : Index) (unit : CompilationUnit) (scope : Scope) : Prop where
  index : scope.index = index
  unit : scope.unit = unit

/-- A property of lists of steps that holds wherever the names and calls in a file add import lines
to a scan, as far as they stand in some terms, and that is kept when lists are joined. -/
structure ScanRule (index : Index) (unit : CompilationUnit) (terms : List Expr)
    (holds : List Step → Prop) : Prop where
  append : ∀ steps more, holds steps → holds more → holds (steps ++ more)
  need : ∀ kind (keys : List Key), holds (keys.map (.need kind))
  unread : ∀ kind line, .unsupported kind line ∈ terms → holds [.fail (.unsupported kind line)]
  wildcards : ∀ isStatic, holds ((index.libraryWildcards unit isStatic).map .useImport)
  /-- A name is looked up and what it means is needed. -/
  mention : ∀ name resolution, index.resolve? unit name = some resolution →
    ∀ kind, holds (Scope.importSteps resolution ++ resolution.target.toList.map (.need kind))
  /-- A bare name that means no field is looked up. -/
  bare : ∀ name resolution, .identifier name ∈ terms → index.resolve? unit name = some resolution →
    (∀ owner field, resolution.target ≠ some (.field owner field)) →
      holds (Scope.importSteps resolution)
  static : ∀ scope, Scope.Within index unit scope →
    ∀ name args line key, .call none name args ∈ terms →
    scope.staticMethod? ⟨name, some args.length⟩ = some (line, key) →
      holds [.useImport line, .need .call key]
  library : ∀ scope, Scope.Within index unit scope →
    ∀ call line, scope.libraryMethod? call = some line → holds [.useImport line]

namespace ScanRule

variable {index : Index} {unit : CompilationUnit} {terms : List Expr} {holds : List Step → Prop}
  {scope : Scope}

theorem nil (rule : ScanRule index unit terms holds) : holds [] :=
  rule.need .call []

theorem flatMap {α : Type} (rule : ScanRule index unit terms holds) {items : List α}
    {stepsOf : α → List Step} (each : ∀ item ∈ items, holds (stepsOf item)) :
    holds (items.flatMap stepsOf) := by
  induction items with
  | nil => exact rule.nil
  | cons item rest ih =>
    rw [forall_mem_cons] at each
    exact rule.append _ _ each.1 (ih each.2)

/-! ## Names and types -/

section

variable (rule : ScanRule index unit terms holds) (within : Scope.Within index unit scope)
include rule within

theorem wildcardSteps (name : String) (isStatic : Bool) :
    holds (scope.wildcardSteps name isStatic) := by
  obtain ⟨rfl, rfl⟩ := within
  unfold Scope.wildcardSteps
  dsimp only
  split
  next _ => exact rule.nil
  next _ =>
    split
    next _ => exact rule.nil
    next _ => exact rule.wildcards isStatic

theorem classSteps (kind : EdgeKind) (name : String) : holds (scope.classSteps kind name) := by
  unfold Scope.classSteps
  rw [within.index, within.unit]
  split
  next resolution resolved => exact rule.mention name resolution resolved kind
  next _ => exact rule.wildcardSteps within name false

theorem typeSteps (kind : EdgeKind) (type : TypeRef) : holds (scope.typeSteps kind type) := by
  unfold Scope.typeSteps
  split
  next _ =>
    refine rule.append _ _ (rule.flatMap ?_) (rule.flatMap ?_)
    · exact fun mark _ => rule.classSteps within .annotated mark.name
    · exact fun name _ => rule.classSteps within kind name
  next _ => exact rule.nil

theorem unknownNameSteps (name : String) : holds (scope.unknownNameSteps name) := by
  refine rule.append _ _ ?_ ?_
  · split
    next _ => exact rule.wildcardSteps within name false
    next _ => exact rule.nil
  · split
    next _ => exact rule.wildcardSteps within name true
    next _ => exact rule.nil

theorem nameSteps (inside : .identifier name ∈ terms) : holds (scope.nameSteps name) := by
  unfold Scope.nameSteps
  rw [within.index, within.unit]
  split
  next _ => exact rule.nil
  next _ =>
    split
    next key _ => exact rule.need .fieldRef [key]
    next _ =>
      split
      next _ => exact rule.unknownNameSteps within name
      next resolution resolved =>
        split
        next owner field means =>
          have needed := rule.mention name resolution resolved .fieldRef
          rw [means] at needed
          exact needed
        next other =>
          rw [append_nil]
          exact rule.bare name resolution inside resolved other

end

/-! ## Expressions -/

section

variable (rule : ScanRule index unit terms holds)
include rule

theorem externalCallSteps (within : Scope.Within index unit scope)
    (inside : .call none name args ∈ terms) :
    holds (scope.externalCallSteps ⟨name, some args.length⟩) := by
  unfold Scope.externalCallSteps
  split
  next line key explains => exact rule.static scope within name args line key inside explains
  next _ =>
    split
    next line explains => exact rule.library scope within _ line explains
    next _ =>
      obtain ⟨rfl, rfl⟩ := within
      exact rule.wildcards true

/-- The steps of a call. -/
theorem callSteps (within : Scope.Within index unit scope)
    (inside : .call receiver name args ∈ terms) :
    holds (scope.callSteps receiver name args.length) := by
  unfold Scope.callSteps
  split
  next _ => exact rule.need .construction _
  next _ =>
    dsimp only
    split
    next _ =>
      split
      next key _ => exact rule.need .call [key]
      next _ => exact rule.externalCallSteps within inside
    next _ => exact rule.need .call _
    next _ => exact rule.need .call _
    next _ => exact rule.need .call _

theorem fieldSteps (receiver : Expr) (name : String) : holds (scope.fieldSteps receiver name) := by
  unfold Scope.fieldSteps
  split
  next _ => exact rule.nil
  next owner _ =>
    split
    next key _ => exact rule.need .fieldRef [key]
    next _ =>
      split
      next type _ => exact rule.need .fieldRef [.type type.qualifiedName]
      next _ =>
        split
        next _ => exact rule.need .fieldRef [.type owner.qualifiedName]
        next _ => exact rule.nil

theorem methodRefSteps (receiver : Expr) (name : String) :
    holds (scope.methodRefSteps receiver name) := by
  unfold Scope.methodRefSteps
  split
  next _ => exact rule.nil
  next _ =>
    split
    next _ => exact rule.need .construction _
    next _ => exact rule.need .call _

/-- The steps of any expression, its parts apart. -/
theorem subtermSteps (within : Scope.Within index unit scope) (inside : term ∈ terms) :
    holds (scope.subtermSteps term) := by
  cases term with
  | unsupported kind line => exact rule.unread kind line inside
  | call receiver name args => exact rule.callSteps within inside
  | create type args body =>
    exact rule.append _ _ (rule.typeSteps within .construction type) (rule.need .construction _)
  | field receiver name => exact rule.fieldSteps receiver name
  | methodRef receiver name => exact rule.methodRefSteps receiver name
  | identifier name => exact rule.nameSteps within inside
  | typeUse type => exact rule.typeSteps within .variableType type
  | thisRef | superRef | declare | lambda | literal | binary | unary | group => exact rule.nil

end

end ScanRule

/-- The steps of some expressions are those of their subterms. -/
theorem Scope.flatMap_exprSteps (scope : Scope) (exprs : List Expr) :
    exprs.flatMap scope.exprSteps = (Expr.subtermsOfAll exprs).flatMap scope.subtermSteps := by
  rw [Expr.subtermsOfAll_eq, flatMap_assoc]
  rfl

/-- The subterms of the arguments of some annotations. -/
def annotationTerms (annotations : List Annotation) : List Expr :=
  annotations.flatMap fun mark => Expr.subtermsOfAll mark.args

namespace ScanRule

variable {index : Index} {unit : CompilationUnit} {terms : List Expr} {holds : List Step → Prop}
  {scope : Scope}

theorem exprsSteps (rule : ScanRule index unit terms holds) (within : Scope.Within index unit scope)
    (inside : Expr.subtermsOfAll exprs ⊆ terms) : holds (exprs.flatMap scope.exprSteps) := by
  rw [scope.flatMap_exprSteps]
  exact rule.flatMap fun term mem => rule.subtermSteps within (inside mem)

theorem annotationsSteps (rule : ScanRule index unit terms holds)
    (within : Scope.Within index unit scope) (inside : annotationTerms annotations ⊆ terms) :
    holds (scope.annotationsSteps annotations) := by
  refine rule.flatMap fun mark mem => ?_
  refine rule.append _ _ (rule.classSteps within .annotated mark.name) (rule.exprsSteps within ?_)
  exact fun term isTerm => inside (mem_flatMap.mpr ⟨mark, mem, isTerm⟩)

/-! ## Bodies

Variables come into scope one after the other, while steps are gathered. The file stays the same. -/

/-- A scope inside a file, with steps gathered so far. -/
structure Gathers (index : Index) (unit : CompilationUnit) (holds : List Step → Prop)
    (state : Scope × List Step) : Prop where
  within : Scope.Within index unit state.1
  steps : holds state.2

section

variable (rule : ScanRule index unit terms holds)
include rule

/-- A declared variable keeps what has been gathered. -/
theorem declareVariable (gathers : Gathers index unit holds state) (type : TypeRef)
    (inside : ∀ name, .identifier name ∈ declared.init → .identifier name ∈ terms) :
    Gathers index unit holds (Scope.declareVariable type state declared) := by
  have within : Scope.Within index unit
      (state.1.declare declared.name (Scope.variableType type declared.init)) :=
    ⟨gathers.within.index, gathers.within.unit⟩
  unfold Scope.declareVariable
  dsimp only
  split
  next source isName =>
    exact ⟨within, rule.append _ _ gathers.steps (rule.nameSteps within (inside source isName))⟩
  next _ => exact ⟨within, gathers.steps⟩

theorem declareSubterm (gathers : Gathers index unit holds state)
    (inside : ∀ name, .identifier name ∈ term.children → .identifier name ∈ terms) :
    Gathers index unit holds (Scope.declareSubterm state term) := by
  cases term with
  | declare type declared =>
    refine foldlRecOn declared _ ?_ fun state gathers each mem =>
      rule.declareVariable gathers type fun name isInit =>
        inside name (mem_filterMap.mpr ⟨each, mem, isInit⟩)
    exact ⟨gathers.within, rule.append _ _ gathers.steps
      (rule.typeSteps gathers.within .variableType type)⟩
  | lambda params body =>
    refine foldlRecOn params _ gathers fun state gathers param _ => ?_
    exact ⟨⟨gathers.within.index, gathers.within.unit⟩,
      rule.append _ _ gathers.steps (rule.typeSteps gathers.within .parameterType param.type)⟩
  | _ => exact gathers

/-- The steps of a body, in which variables are declared. -/
theorem bodySteps (within : Scope.Within index unit scope)
    (inside : Expr.subtermsOfAll body ⊆ terms) : holds (scope.bodySteps body) := by
  have gathers : Gathers index unit holds
      ((Expr.subtermsOfAll body).foldl Scope.declareSubterm (scope, [])) :=
    foldlRecOn _ _ ⟨within, rule.nil⟩ fun _ gathers term mem =>
      rule.declareSubterm gathers fun _ isPart =>
        inside (Expr.mem_subtermsOfAll_of_mem_children mem isPart)
  exact rule.append _ _ gathers.steps (rule.exprsSteps gathers.within inside)

end

end ScanRule

/-! ## Members and headers -/

/-- The first method or constructor of a type that fits a key. -/
def callable? (decl : TypeDecl) : MemberKey → Option Method
  | .method name arity => decl.method? name arity
  | .constructor arity => decl.constructor? arity
  | _ => none

/-- All expressions that the scan of a header goes through. -/
def headerTerms (owner : TypeDecl) : List Expr :=
  annotationTerms owner.annotations ++ Expr.subtermsOfAll owner.constants

/-- All expressions that the scan of a field goes through. -/
def fieldTerms (field : Field) : List Expr :=
  annotationTerms field.annotations ++ Expr.subtermsOfAll field.initializers

/-- All expressions that the scan of a method or constructor goes through. -/
def methodTerms (method : Method) : List Expr :=
  annotationTerms method.annotations ++ method.params.flatMap (annotationTerms ·.annotations) ++
    Expr.subtermsOfAll method.body

/-- All expressions that the scan of a member goes through. -/
def memberTerms (owner : TypeDecl) : MemberKey → List Expr
  | .field name => (owner.field? name).toList.flatMap fieldTerms
  | member => (callable? owner member).toList.flatMap methodTerms

/-- The copies with which the scan of a member starts: one, or none for a type. -/
def keptSteps (owner : TypeDecl) : MemberKey → List Step
  | .field name => (owner.field? name).toList.map .keepField
  | member => (callable? owner member).toList.map (.keepMethod member)

theorem useImport_not_mem_keptSteps : .useImport line ∉ keptSteps owner member := by
  cases member <;> simp [keptSteps]

namespace ScanRule

variable {index : Index} {unit : CompilationUnit} {holds : List Step → Prop} {scope : Scope}

/-- The steps of a header. -/
theorem headerSteps (rule : ScanRule index unit (headerTerms scope.owner) holds)
    (within : Scope.Within index unit scope) : holds scope.headerSteps := by
  refine rule.append _ _ (rule.append _ _ (rule.annotationsSteps within ?_) (rule.flatMap ?_))
    (rule.bodySteps within ?_)
  · exact subset_append_left _ _
  · exact fun type _ => rule.typeSteps within .supertype type
  · exact subset_append_right _ _

/-- A field is kept first; the rest is what it mentions. -/
theorem fieldDeclSteps (rule : ScanRule index unit (fieldTerms field) holds)
    (within : Scope.Within index unit scope) :
    ∃ mentions, scope.fieldDeclSteps field = .keepField field :: mentions ∧ holds mentions := by
  refine ⟨_, rfl, rule.append _ _ (rule.append _ _ (rule.annotationsSteps within ?_) ?_)
    (rule.bodySteps within ?_)⟩
  · exact subset_append_left _ _
  · exact rule.typeSteps within .variableType field.type
  · exact subset_append_right _ _

theorem memberParam (rule : ScanRule index unit terms holds)
    (gathers : Gathers index unit holds state) (marks : annotationTerms param.annotations ⊆ terms) :
    Gathers index unit holds (Scope.memberParam state param) :=
  ⟨⟨gathers.within.index, gathers.within.unit⟩,
    rule.append _ _ (rule.append _ _ gathers.steps (rule.annotationsSteps gathers.within marks))
      (rule.typeSteps gathers.within .parameterType param.type)⟩

/-- A method is kept first; the rest is what it mentions. -/
theorem methodSteps (rule : ScanRule index unit (methodTerms method) holds)
    (within : Scope.Within index unit scope) (key : MemberKey) (result : Option TypeRef) :
    ∃ mentions, scope.methodSteps key method result = .keepMethod key method :: mentions ∧
      holds mentions := by
  have inner : Scope.Within index unit (scope.withTypeParams method.typeParams) :=
    ⟨within.index, within.unit⟩
  have marks : ∀ param ∈ method.params, annotationTerms param.annotations ⊆ methodTerms method := by
    intro param mem term isTerm
    exact mem_append_left _ (mem_append_right _ (mem_flatMap.mpr ⟨param, mem, isTerm⟩))
  have gathers : Gathers index unit holds
      (method.params.foldl Scope.memberParam (scope.withTypeParams method.typeParams, [])) :=
    foldlRecOn _ _ ⟨inner, rule.nil⟩ fun _ gathers param mem =>
      rule.memberParam gathers (marks param mem)
  have types : ∀ refs : List TypeRef,
      holds (refs.flatMap ((scope.withTypeParams method.typeParams).typeSteps .returnType)) :=
    fun refs => rule.flatMap fun type _ => rule.typeSteps inner .returnType type
  refine ⟨_, rfl, rule.append _ _
    (rule.append _ _ (rule.append _ _ (rule.append _ _ ?_ (types _)) (types _))
    gathers.steps) (rule.bodySteps gathers.within ?_)⟩
  · exact rule.annotationsSteps inner fun term isTerm =>
      mem_append_left _ (mem_append_left _ isTerm)
  · exact subset_append_right _ _

/-- The scan of a member is its copy and what it mentions. -/
theorem memberSteps (rule : ScanRule index unit (memberTerms scope.owner member) holds)
    (missing : ∀ fault, holds [.fail fault]) (within : Scope.Within index unit scope) :
    ∃ mentions, scope.memberSteps member = keptSteps scope.owner member ++ mentions ∧
      holds mentions := by
  cases member with
  | type => exact ⟨_, rfl, rule.need .member _⟩
  | field name =>
    simp only [memberTerms, Scope.memberSteps, keptSteps] at rule ⊢
    cases found : scope.owner.field? name with
    | none => exact ⟨_, rfl, missing .missingField⟩
    | some field =>
      rw [found, Option.toList_some, flatMap_singleton] at rule
      exact rule.fieldDeclSteps within
  | method name arity =>
    simp only [memberTerms, Scope.memberSteps, keptSteps, callable?] at rule ⊢
    cases found : scope.owner.method? name arity with
    | none => exact ⟨_, rfl, missing .missingMethod⟩
    | some method =>
      rw [found, Option.toList_some, flatMap_singleton] at rule
      exact rule.methodSteps within _ _
  | constructor arity =>
    simp only [memberTerms, Scope.memberSteps, keptSteps, callable?] at rule ⊢
    cases found : scope.owner.constructor? arity with
    | none => exact ⟨_, rfl, missing .missingConstructor⟩
    | some method =>
      rw [found, Option.toList_some, flatMap_singleton] at rule
      exact rule.methodSteps within _ _

end ScanRule

end JavaSlice.Slice
