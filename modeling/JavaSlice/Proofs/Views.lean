import JavaSlice.Proofs.Scanning
import JavaSlice.Slice.Walk

/-!
# Projects that look alike

One project may be *seen* as another: the other has some file, type, field or method in the place of
each of the first. What is looked up by a name is then what stands in the place of what the first
project has for the name, and what others can see of a declaration stays the same (`View.Shows`).

Nothing else is asked of a project. So every query has the same answer in both, a scope lists the
same steps, and a walk finds the same declarations. Only the scan of a member takes more from a
project, which is the member itself.
-/

namespace JavaSlice

open List Option Slice Source

/-- What another project has in the place of the declarations of a project. -/
structure View where
  unit : CompilationUnit → CompilationUnit
  decl : TypeDecl → TypeDecl
  field : Field → Field
  method : Method → Method

namespace View

/-- A project is seen as another one. -/
structure Shows (view : View) (index other : Index) : Prop where
  package unit : (view.unit unit).package = unit.package
  imports unit : (view.unit unit).imports = unit.imports
  findDeclared? unit name : (view.unit unit).findDeclared? name =
    (unit.findDeclared? name).map view.decl
  name decl : (view.decl decl).name = decl.name
  qualifiedName decl : (view.decl decl).qualifiedName = decl.qualifiedName
  kind decl : (view.decl decl).kind = decl.kind
  outer decl : (view.decl decl).outer = decl.outer
  header decl : (view.decl decl).header = decl.header
  preamble decl : (view.decl decl).preamble = decl.preamble
  constants decl : (view.decl decl).constants = decl.constants
  annotations decl : (view.decl decl).annotations = decl.annotations
  typeParams decl : (view.decl decl).typeParams = decl.typeParams
  headerTypes decl : (view.decl decl).headerTypes = decl.headerTypes
  memberType? decl name : (view.decl decl).memberType? name = (decl.memberType? name).map view.decl
  fields decl : (view.decl decl).fields = decl.fields.map view.field
  methods decl : (view.decl decl).methods = decl.methods.map view.method
  constructors decl : (view.decl decl).constructors = decl.constructors.map view.method
  names field : (view.field field).names = field.names
  type field : (view.field field).type = field.type
  methodName method : (view.method method).name = method.name
  params method : (view.method method).params = method.params
  varargs method : (view.method method).varargs = method.varargs
  returnType method : (view.method method).returnType = method.returnType
  unitOf? name : other.unitOf? name = (index.unitOf? name).map view.unit
  typeDecl? name : other.typeDecl? name = (index.typeDecl? name).map view.decl
  hasType : other.hasType = index.hasType
  hasPackage : other.hasPackage = index.hasPackage
  typeCount : other.typeCount = index.typeCount
  total size : other.types.total size = index.types.total fun type =>
    size ⟨view.unit type.unit, view.decl type.decl⟩

namespace Shows

variable {view : View} {index other : Index} (shows : view.Shows index other)

include shows

/-! ## Members of one type -/

theorem arity (method : Method) : (view.method method).arity = method.arity := by
  rw [Method.arity, shows.params, Method.arity]

theorem accepts (method : Method) : (view.method method).accepts = method.accepts := by
  unfold Method.accepts
  rw [shows.varargs, shows.arity]

theorem takesExactly (method : Method) :
    (view.method method).takesExactly = method.takesExactly := by
  unfold Method.takesExactly
  rw [shows.varargs, shows.arity]

theorem field? (decl : TypeDecl) (name : String) :
    (view.decl decl).field? name = (decl.field? name).map view.field := by
  simp only [TypeDecl.field?, shows.fields, find?_map, Function.comp_def, shows.names]

theorem method? (decl : TypeDecl) (name : String) (arity : Nat) :
    (view.decl decl).method? name arity = (decl.method? name arity).map view.method := by
  simp only [TypeDecl.method?, shows.methods, find?_map, Function.comp_def, shows.methodName,
    shows.arity]

theorem constructor? (decl : TypeDecl) (arity : Nat) :
    (view.decl decl).constructor? arity = (decl.constructor? arity).map view.method := by
  simp only [TypeDecl.constructor?, shows.constructors, find?_map, Function.comp_def, shows.arity]

theorem declaresMember (decl : TypeDecl) :
    Index.declaresMember (view.decl decl) = Index.declaresMember decl := by
  funext member
  cases member <;> simp [Index.declaresMember, shows.field?, shows.method?, shows.constructor?]

theorem bestMethod? (call : CallSite) (decl : TypeDecl) :
    Index.bestMethod? call (view.decl decl) = (Index.bestMethod? call decl).map view.method := by
  simp only [Index.bestMethod?, shows.methods, List.filter_map, Function.comp_def, shows.methodName]
  cases call.count with
  | none => exact head?_map
  | some count =>
    simp only [find?_map, Function.comp_def, shows.takesExactly, shows.accepts, map_or]

theorem findConstructor? (decl : TypeDecl) :
    Index.findConstructor? (view.decl decl) = Index.findConstructor? decl := by
  funext count
  simp only [Index.findConstructor?, shows.constructors, find?_map, Function.comp_def,
    shows.accepts, Option.map_map, shows.qualifiedName, shows.arity]

/-! ## Names -/

theorem bind_typeDecl? (name : Option String) :
    name.bind other.typeDecl? = (name.bind index.typeDecl?).map view.decl := by
  cases name with
  | none => rfl
  | some name => exact shows.typeDecl? name

theorem qualify (unit : CompilationUnit) : (view.unit unit).qualify = unit.qualify := by
  unfold CompilationUnit.qualify
  rw [shows.package]

theorem followMembers : other.followMembers = index.followMembers := by
  funext qualified segments
  induction segments generalizing qualified with
  | nil => rfl
  | cons segment rest ih => simp only [Index.followMembers, shows.hasType, ih]

section

variable (unit : CompilationUnit)

theorem resolveSimple? : other.resolveSimple? (view.unit unit) = index.resolveSimple? unit := by
  funext name
  simp only [Index.resolveSimple?, Index.singleImport?, Index.resolveImport, Index.staticMember?,
    Index.resolveWildcard?, shows.imports, shows.findDeclared?, shows.qualify, shows.hasType,
      shows.typeDecl?,
    shows.field?, Option.map_map, Function.comp_def, isSome_map, bind, Option.bind_map]
  split
  next => rfl
  next => cases unit.findDeclared? name <;> simp [shows.qualifiedName]

/-- Names mean the same in both projects. -/
theorem resolve? : other.resolve? (view.unit unit) = index.resolve? unit := by
  unfold Index.resolve?
  rw [shows.resolveSimple?, shows.hasType, shows.followMembers]

theorem qualifiedName? : other.qualifiedName? (view.unit unit) = index.qualifiedName? unit := by
  funext name
  simp only [Index.qualifiedName?, Index.qualifiedSimple?, Index.nearType?, Index.packageType?,
    shows.imports,
    shows.qualify, shows.hasType, shows.findDeclared?, Option.map_map, Function.comp_def,
    shows.qualifiedName, shows.followMembers]

theorem libraryWildcards :
    other.libraryWildcards (view.unit unit) = index.libraryWildcards unit := by
  unfold Index.libraryWildcards
  rw [shows.imports, shows.hasType, shows.hasPackage]

end

/-! ## Enclosing types and supertypes -/

theorem outerChain (bound : Nat) (name : Option String) :
    other.outerChain bound name = (index.outerChain bound name).map view.decl := by
  induction bound generalizing name with
  | zero => cases name <;> rfl
  | succ bound ih =>
    cases name with
    | none => rfl
    | some name =>
      rw [Index.outerChain, Index.outerChain, shows.typeDecl?]
      cases index.typeDecl? name with
      | none => rfl
      | some decl => simp [ih, shows.outer]

theorem scopeTypes (decl : TypeDecl) :
    other.scopeTypes (view.decl decl) = (index.scopeTypes decl).map view.decl := by
  simp [Index.scopeTypes, Index.enclosingTypes, shows.outerChain, shows.typeCount, shows.outer]

theorem supertypes (decl : TypeDecl) :
    other.supertypes (view.decl decl) = (index.supertypes decl).map view.decl := by
  rw [Index.supertypes, shows.qualifiedName, shows.unitOf?, Index.supertypes]
  cases index.unitOf? decl.qualifiedName with
  | none => rfl
  | some unit =>
    simp only [map_some, shows.headerTypes, shows.qualifiedName?, shows.bind_typeDecl?,
      map_filterMap]

theorem visit (bound : Nat) (seen : List String) (stack : List TypeDecl) :
    other.visit bound seen (stack.map view.decl) =
      (index.visit bound seen stack).map view.decl := by
  induction bound generalizing seen stack with
  | zero => rfl
  | succ bound ih =>
    cases stack with
    | nil => rfl
    | cons decl rest =>
      rw [map_cons, Index.visit, Index.visit, shows.qualifiedName, shows.supertypes, ← map_append]
      split
      next => exact ih seen rest
      next => rw [map_cons, ih]

theorem lineage (decl : TypeDecl) :
    other.lineage (view.decl decl) = (index.lineage decl).map view.decl := by
  have bound : other.visitBound (view.decl decl) = index.visitBound decl := by
    simp only [Index.visitBound, shows.total, shows.headerTypes]
  rw [Index.lineage, bound]
  exact shows.visit _ [] [decl]

/-! ## Members that are found -/

theorem resolveSeed? : other.resolveSeed? = index.resolveSeed? := by
  funext owner member
  rw [Index.resolveSeed?, shows.typeDecl?, Index.resolveSeed?]
  cases index.typeDecl? owner with
  | none => rfl
  | some decl =>
    simp only [map_some, bind_some, bind, shows.methods, find?_map, shows.field?,
      isSome_map,
      shows.name, shows.constructors, head?_map, Option.map_map, Function.comp_def, shows.arity,
        shows.methodName]
    cases decl.methods.find? (·.name == member) <;> simp [shows.methodName, shows.arity]

theorem findMethod? (call : CallSite) (decl : TypeDecl) :
    other.findMethod? call (view.decl decl) = index.findMethod? call decl := by
  simp only [Index.findMethod?, shows.lineage, findSome?_map, Function.comp_def, shows.bestMethod?,
    Option.map_map, shows.qualifiedName, shows.methodName, shows.arity]

theorem findField? (decl : TypeDecl) :
    other.findField? (view.decl decl) = index.findField? decl := by
  funext name
  simp only [Index.findField?, shows.lineage, find?_map, Function.comp_def, shows.field?,
    isSome_map, Option.map_map, shows.qualifiedName]

theorem visibleMethod? (decl : TypeDecl) :
    other.visibleMethod? (view.decl decl) = index.visibleMethod? decl := by
  funext call
  simp only [Index.visibleMethod?, shows.scopeTypes, findSome?_map, Function.comp_def,
    shows.findMethod?]

theorem visibleField? (decl : TypeDecl) :
    other.visibleField? (view.decl decl) = index.visibleField? decl := by
  funext name
  simp only [Index.visibleField?, shows.scopeTypes, findSome?_map, Function.comp_def,
    shows.findField?]

theorem projectType? (unit : CompilationUnit) :
    other.projectType? (view.unit unit) = index.projectType? unit := by
  unfold Index.projectType?
  rw [shows.qualifiedName?, shows.hasType]

theorem fieldType? : other.fieldType? = index.fieldType? := by
  funext key
  simp only [Index.fieldType?, shows.typeDecl?, shows.unitOf?, bind, Option.bind_map,
    Function.comp_def, shows.field?, shows.type, shows.projectType?]

theorem returnType? : other.returnType? = index.returnType? := by
  funext key
  simp only [Index.returnType?, shows.typeDecl?, shows.unitOf?, bind, Option.bind_map,
    Function.comp_def, shows.method?, shows.returnType, shows.projectType?]

end Shows

end View

/-! ## Scopes -/

namespace Slice.Scope

/-- A scope of a project and the same scope of another one. -/
structure Seen (view : View) (scope other : Scope) : Prop where
  shows : view.Shows scope.index other.index
  unit : other.unit = view.unit scope.unit
  owner : other.owner = view.decl scope.owner
  typeParams : other.typeParams = scope.typeParams
  locals : other.locals = scope.locals

theorem seen_ofOwner {view index other} (shows : view.Shows index other)
    (unit : CompilationUnit) (owner : TypeDecl) :
    (ofOwner index unit owner).Seen view (ofOwner other (view.unit unit) (view.decl owner)) := by
  refine ⟨shows, rfl, rfl, ?_, rfl⟩
  simp only [ofOwner, shows.scopeTypes, flatMap_map, shows.typeParams]

namespace Seen

variable {view : View} {scope other : Scope} (seen : scope.Seen view other)

include seen

theorem declare (name : String) (type : TypeRef) :
    (scope.declare name type).Seen view (other.declare name type) :=
  { seen with locals := by rw [Scope.declare, Scope.declare, seen.locals] }

theorem withTypeParams (names : List String) :
    (scope.withTypeParams names).Seen view (other.withTypeParams names) :=
  { seen with typeParams := by rw [Scope.withTypeParams, Scope.withTypeParams, seen.typeParams] }

theorem isLocal : other.isLocal = scope.isLocal := by
  unfold Scope.isLocal
  rw [seen.locals]

/-! ### Imports and types -/

theorem allWildcards : other.allWildcards = scope.allWildcards := by
  unfold Scope.allWildcards
  rw [seen.unit, seen.shows.libraryWildcards]

theorem wildcardSteps : other.wildcardSteps = scope.wildcardSteps := by
  unfold Scope.wildcardSteps needsNoImport
  rw [seen.isLocal, seen.typeParams, seen.allWildcards]

theorem classSteps : other.classSteps = scope.classSteps := by
  unfold Scope.classSteps
  rw [seen.unit, seen.shows.resolve?, seen.wildcardSteps]

theorem typeSteps : other.typeSteps = scope.typeSteps := by
  unfold Scope.typeSteps
  rw [seen.classSteps]

/-! ### Types of expressions -/

theorem memberType? (owner : TypeDecl) (name : String) :
    exprType?.memberType? other (view.decl owner) name =
      exprType?.memberType? scope owner name := by
  simp only [exprType?.memberType?, seen.shows.findField?, seen.shows.fieldType?,
    seen.shows.memberType?, Option.map_map, Function.comp_def, seen.shows.qualifiedName]

theorem exprType? : other.exprType? = scope.exprType? := by
  obtain ⟨shows, unit, owner, -, locals⟩ := id seen
  funext expr
  fun_induction Scope.exprType? scope expr with
  | case1 => simp only [Scope.exprType?, owner, shows.qualifiedName]
  | case2 name type found => simp only [Scope.exprType?, locals, found, unit, shows.projectType?]
  | case3 name absent key found =>
    simp only [Scope.exprType?, locals, absent, owner, shows.visibleField?, found, shows.fieldType?]
  | case4 name absent hidden =>
    simp only [Scope.exprType?, locals, absent, owner, shows.visibleField?, hidden, unit,
      shows.qualifiedName?, shows.hasType]
  | case5 name =>
    simp only [Scope.exprType?, owner, shows.supertypes, head?_map, Option.bind_map,
      Function.comp_def, seen.memberType?]
  | case6 receiver name _ ih =>
    simp only [Scope.exprType?, ih, seen.shows.bind_typeDecl?, Option.bind_map, Function.comp_def,
      seen.memberType?]
  | case7 name args => simp only [Scope.exprType?, owner, shows.visibleMethod?, shows.returnType?]
  | case8 name args => simp only [Scope.exprType?, owner, shows.findMethod?, shows.returnType?]
  | case9 name args receiver _ ih =>
    simp only [Scope.exprType?, ih, seen.shows.bind_typeDecl?, Option.bind_map, Function.comp_def,
      shows.findMethod?, shows.returnType?]
  | case10 | case11 => simp only [Scope.exprType?, unit, shows.projectType?]
  | case12 => simp only [Scope.exprType?]

theorem exprDecl? (expr : Expr) : other.exprDecl? expr = (scope.exprDecl? expr).map view.decl := by
  rw [Scope.exprDecl?, seen.exprType?, seen.shows.bind_typeDecl?, Scope.exprDecl?]

theorem receiver? (expr : Expr) : other.receiver? expr = (scope.receiver? expr).map view.decl := by
  unfold Scope.receiver?
  split
  next => rw [seen.owner, seen.shows.supertypes, head?_map]
  next => exact seen.exprDecl? expr

theorem isTypeName : other.isTypeName = scope.isTypeName := by
  funext expr
  simp only [Scope.isTypeName, seen.isLocal, seen.owner, seen.shows.visibleField?]

/-! ### Calls, creations and names -/

theorem externalCallSteps : other.externalCallSteps = scope.externalCallSteps := by
  funext call
  simp only [Scope.externalCallSteps, staticMethod?, libraryMethod?, seen.unit, seen.shows.imports,
    seen.shows.typeDecl?, bind, Option.bind_map, Function.comp_def, seen.shows.findMethod?,
    seen.shows.hasType, seen.allWildcards]

theorem delegationSteps : other.delegationSteps = scope.delegationSteps := by
  funext receiver count
  unfold Scope.delegationSteps
  rw [seen.owner, seen.shows.supertypes]
  split <;> simp [findSome?_map, Function.comp_def, seen.shows.findConstructor?]

theorem callSteps : other.callSteps = scope.callSteps := by
  funext receiver name count
  simp only [Scope.callSteps, seen.delegationSteps, seen.externalCallSteps, seen.owner,
    seen.shows.supertypes,
    seen.shows.visibleMethod?, seen.shows.findMethod?, seen.exprDecl?, findSome?_map,
    Option.bind_map, Function.comp_def]

theorem creationSteps : other.creationSteps = scope.creationSteps := by
  funext type count
  simp only [Scope.creationSteps, seen.typeSteps, seen.unit, seen.shows.projectType?,
    seen.shows.typeDecl?, bind, Option.bind_map, Function.comp_def, seen.shows.findConstructor?]

theorem fieldSteps : other.fieldSteps = scope.fieldSteps := by
  funext receiver name
  unfold Scope.fieldSteps
  rw [seen.receiver?, seen.isTypeName]
  cases scope.receiver? receiver with
  | none => rfl
  | some owner =>
    simp only [map_some, seen.shows.findField?, seen.shows.memberType?,
      seen.shows.qualifiedName]
    cases owner.memberType? name <;> simp [seen.shows.qualifiedName]

theorem methodRefSteps : other.methodRefSteps = scope.methodRefSteps := by
  funext receiver name
  unfold Scope.methodRefSteps
  rw [seen.receiver?]
  cases scope.receiver? receiver with
  | none => rfl
  | some owner =>
    simp only [map_some, seen.shows.constructors, head?_map, Option.map_map,
      Function.comp_def, seen.shows.qualifiedName, seen.shows.arity, seen.shows.findMethod?]

theorem nameSteps : other.nameSteps = scope.nameSteps := by
  funext name
  simp only [Scope.nameSteps, unknownNameSteps, seen.isLocal, seen.owner, seen.unit,
    seen.shows.visibleField?, seen.shows.resolve?, seen.wildcardSteps]

theorem exprSteps : other.exprSteps = scope.exprSteps := by
  have subterms : other.subtermSteps = scope.subtermSteps := by
    funext term
    simp only [subtermSteps, seen.callSteps, seen.creationSteps, seen.fieldSteps,
      seen.methodRefSteps, seen.nameSteps, seen.typeSteps]
  unfold Scope.exprSteps
  rw [subterms]

theorem annotationsSteps : other.annotationsSteps = scope.annotationsSteps := by
  have one : other.annotationSteps = scope.annotationSteps := by
    unfold annotationSteps
    rw [seen.classSteps, seen.exprSteps]
  unfold Scope.annotationsSteps
  rw [one]

end Seen

/-! ### Bodies and members -/

/-- Scopes that are seen as one, with the same steps listed so far. -/
def StatesSeen (view : View) (state other : Scope × List Step) : Prop :=
  state.1.Seen view other.1 ∧ other.2 = state.2

section

variable {view : View} {state state' : Scope × List Step} (seen : StatesSeen view state state')

variable {α : Type} {change : Scope × List Step → α → Scope × List Step} (each : ∀ {state state'},
  StatesSeen view state state' → ∀ item, StatesSeen view (change state item) (change state' item))
    (items : List α)

include each in
theorem StatesSeen.foldl (seen : StatesSeen view state state') :
    StatesSeen view (items.foldl change state) (items.foldl change state') :=
  foldl_rel seen fun item _ _ _ seen => each seen item

include each in
theorem Seen.foldl (seen : scope.Seen view other) :
    StatesSeen view (items.foldl change (scope, [])) (items.foldl change (other, [])) :=
  .foldl each items ⟨seen, rfl⟩

include seen

theorem seen_declareVariable (type : TypeRef) (declared : Variable) :
    StatesSeen view (declareVariable type state declared)
      (declareVariable type state' declared) := by
  have inner := seen.1.declare declared.name (variableType type declared.init)
  unfold declareVariable
  dsimp only
  rw [inner.nameSteps, seen.2]
  split <;> exact ⟨inner, rfl⟩

theorem seen_declareParam (param : Param) :
    StatesSeen view (declareParam state param) (declareParam state' param) := by
  refine ⟨seen.1.declare _ _, ?_⟩
  rw [declareParam, declareParam, seen.1.typeSteps, seen.2]

theorem seen_declareSubterm (term : Expr) :
    StatesSeen view (declareSubterm state term) (declareSubterm state' term) := by
  cases term with
  | declare type declared =>
    refine .foldl (seen_declareVariable · type) declared ⟨seen.1, ?_⟩
    rw [seen.1.typeSteps, seen.2]
  | lambda params body => exact .foldl seen_declareParam params seen
  | _ => exact seen

theorem seen_memberParam (param : Param) :
    StatesSeen view (memberParam state param) (memberParam state' param) := by
  refine ⟨seen.1.declare _ _, ?_⟩
  rw [memberParam, memberParam, seen.1.annotationsSteps, seen.1.typeSteps, seen.2]

end

namespace Seen

variable {view : View} {scope other : Scope} (seen : scope.Seen view other)

include seen

theorem bodySteps : other.bodySteps = scope.bodySteps := by
  funext body
  obtain ⟨inner, declared⟩ := seen.foldl seen_declareSubterm (Expr.subtermsOfAll body)
  unfold Scope.bodySteps
  dsimp only
  rw [declared, inner.exprSteps]

theorem headerSteps : other.headerSteps = scope.headerSteps := by
  unfold Scope.headerSteps
  rw [seen.owner, seen.shows.annotations, seen.shows.headerTypes, seen.shows.constants,
    seen.annotationsSteps, seen.typeSteps, seen.bodySteps]

theorem fieldDeclSteps : other.fieldDeclSteps = scope.fieldDeclSteps := by
  unfold Scope.fieldDeclSteps
  rw [seen.annotationsSteps, seen.typeSteps, seen.bodySteps]

theorem methodSteps : other.methodSteps = scope.methodSteps := by
  funext key method result
  have here := seen.withTypeParams method.typeParams
  obtain ⟨inner, params⟩ := here.foldl seen_memberParam method.params
  unfold Scope.methodSteps
  dsimp only
  rw [params, here.annotationsSteps, here.typeSteps, inner.bodySteps]

end Seen

/-- Two scopes list the same steps for a member that is declared alike in both, if they do so for
every field and method. -/
theorem memberSteps_congr {scope other : Scope}
    (fieldSteps : scope.fieldDeclSteps = other.fieldDeclSteps)
    (methodSteps : scope.methodSteps = other.methodSteps)
    (types : typeDeclSteps scope.owner = typeDeclSteps other.owner) {member : MemberKey}
    (fields : ∀ name, member = .field name → scope.owner.field? name = other.owner.field? name)
    (callables : callable? scope.owner member = callable? other.owner member) :
    scope.memberSteps member = other.memberSteps member := by
  cases member with
  | type => exact types
  | field name => simp only [memberSteps, fields name rfl, fieldSteps]
  | method | constructor =>
    rw [callable?, callable?] at callables
    simp only [memberSteps, callables, methodSteps]

end Slice.Scope

/-! ## Walks -/

namespace View.Shows

variable {view : View} {index other : Index} (shows : view.Shows index other)

include shows

theorem typeDeclSteps (decl : TypeDecl) :
    Scope.typeDeclSteps (view.decl decl) = Scope.typeDeclSteps decl := by
  unfold Scope.typeDeclSteps
  simp only [shows.qualifiedName, shows.fields, List.map_map, Function.comp_def, Field.firstName,
    shows.names, shows.kind, shows.constructors, shows.methods, shows.arity, shows.methodName]

theorem scanHeader : Slice.scanHeader other = Slice.scanHeader index := by
  funext name
  unfold Slice.scanHeader
  rw [shows.unitOf?, shows.typeDecl?]
  cases index.unitOf? name with
  | none => rfl
  | some unit =>
    cases index.typeDecl? name with
    | none => rfl
    | some owner => exact (Scope.seen_ofOwner shows unit owner).headerSteps

theorem ensureFile (unit : CompilationUnit) (number : Nat) (walk : Walk) (decl : TypeDecl) :
    Walk.ensureFile (view.unit unit) number walk (view.decl decl) =
      Walk.ensureFile unit number walk decl := by
  simp [Walk.ensureFile, Registry.ensureFile, OutputFile.ofDecl, Outline.ofDecl, shows.package,
    shows.name, shows.qualifiedName, shows.kind, shows.outer, shows.header, shows.preamble]

/-- The same keys are found in both projects. -/
theorem push : Walk.push other = Walk.push index := by
  funext walk source key
  unfold Walk.push
  rw [shows.unitOf?, shows.typeDecl?]
  cases index.unitOf? key.owner with
  | none => rfl
  | some unit =>
    cases index.typeDecl? key.owner with
    | none => rfl
    | some decl =>
      simp only [map_some, shows.declaresMember, shows.scopeTypes, foldl_map,
        shows.ensureFile]

theorem addSeed : Walk.addSeed other = Walk.addSeed index := by
  unfold Walk.addSeed
  rw [shows.resolveSeed?, shows.push]

theorem performAll : Walk.performAll other = Walk.performAll index := by
  funext number owner walk steps
  induction steps generalizing walk with
  | nil => rfl
  | cons step rest ih => simp only [Walk.performAll, Walk.perform, shows.push, ih]

theorem turnBound : Walk.turnBound other = Walk.turnBound index := by
  funext walk
  simp [Walk.turnBound, shows.total, Walk.keyCount, Function.comp_def, shows.fields, shows.methods,
    shows.constructors, shows.names]

end View.Shows

end JavaSlice
