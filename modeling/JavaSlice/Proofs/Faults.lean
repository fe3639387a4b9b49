import JavaSlice.Proofs.Imports

/-!
# When a walk fails

A scan stops at the first piece of source that could not be read: an unsupported expression, at any
depth, among the expressions that are written in the declaration (`Task.exprs`). What else a scan
does never stops it, so the faults of a scan are these pieces, in the order in which the scan comes
to them (`Task.faults_steps`). The other reasons to stop, a type or a member that is missing, do not
arise: a walk finds declarations of the project only.

So a walk fails if and only if its seeds need something that holds such a piece
(`solve_fails_iff_faulty`).
-/

namespace JavaSlice.Source.Expr

variable {α : Type}

/-! ## Parts at any depth -/

/-- An expression is another one, or a part of it at any depth. -/
def Within (part whole : Expr) : Prop :=
  Relation.ReflTransGen (fun expr child => child ∈ expr.children) whole part

theorem within_of_mem_subterms {part whole : Expr} (inside : part ∈ whole.subterms) :
    part.Within whole := by
  rw [subterms_eq] at inside
  rcases List.mem_cons.mp inside with rfl | deeper
  · exact .refl
  · obtain ⟨child, isChild, inChild⟩ := List.mem_flatMap.mp deeper
    have smaller := sizeOf_lt_of_mem_children isChild
    exact .head isChild (within_of_mem_subterms inChild)
termination_by sizeOf whole

/-- The subterms of an expression are the expressions within it. -/
theorem mem_subterms_iff {part whole : Expr} : part ∈ whole.subterms ↔ part.Within whole := by
  refine ⟨within_of_mem_subterms, fun within => ?_⟩
  induction within with
  | refl =>
    rw [subterms_eq]
    exact List.mem_cons_self
  | tail _ isChild ih => exact mem_subterms_of_mem_children ih isChild

/-- The kind and the line of an expression that could not be read. -/
def unsupported? : Expr → Option (String × Nat)
  | .unsupported kind line => some (kind, line)
  | _ => none

theorem unsupported?_eq_some_iff {expr : Expr} {kind : String} {line : Nat} :
    expr.unsupported? = some (kind, line) ↔ expr = .unsupported kind line := by
  cases expr <;> simp [unsupported?]

end JavaSlice.Source.Expr

namespace JavaSlice.Slice

open List Option Source

variable {index : Index} {seeds : List Seed} {task : Task}

/-! ## The expressions of a task -/

/-- The arguments of some annotations. -/
def annotationArgs (annotations : List Annotation) : List Expr :=
  annotations.flatMap (·.args)

/-- The expressions that are written in a field: arguments of annotations, and initial values. -/
def fieldExprs (field : Field) : List Expr :=
  annotationArgs field.annotations ++ field.initializers

/-- The expressions that are written in a method or constructor: arguments of its annotations and of
those of its parameters, and its body. -/
def methodExprs (method : Method) : List Expr :=
  annotationArgs method.annotations ++ method.params.flatMap (annotationArgs ·.annotations) ++
    method.body

/-- The expressions that are written in the header of a type: arguments of annotations, and the
constants of an enum. -/
def headerExprs (decl : TypeDecl) : List Expr :=
  annotationArgs decl.annotations ++ decl.constants

/-- The expressions that are written in a member. -/
def memberExprs (owner : TypeDecl) : MemberKey → List Expr
  | .field name => (owner.field? name).toList.flatMap fieldExprs
  | member => (callable? owner member).toList.flatMap methodExprs

theorem subtermsOfAll_append (exprs more : List Expr) :
    Expr.subtermsOfAll (exprs ++ more) = Expr.subtermsOfAll exprs ++ Expr.subtermsOfAll more := by
  simp only [Expr.subtermsOfAll_eq, flatMap_append]

theorem subtermsOfAll_flatMap (items : List α) (exprs : α → List Expr) :
    Expr.subtermsOfAll (items.flatMap exprs) = items.flatMap fun item =>
      Expr.subtermsOfAll (exprs item) := by
  simp only [Expr.subtermsOfAll_eq, flatMap_assoc]

theorem subtermsOfAll_fieldExprs (field : Field) :
    Expr.subtermsOfAll (fieldExprs field) = fieldTerms field := by
  rw [fieldExprs, subtermsOfAll_append, annotationArgs, subtermsOfAll_flatMap]
  rfl

theorem subtermsOfAll_methodExprs (method : Method) :
    Expr.subtermsOfAll (methodExprs method) = methodTerms method := by
  simp only [methodExprs, subtermsOfAll_append, annotationArgs, subtermsOfAll_flatMap]
  rfl

theorem subtermsOfAll_headerExprs (decl : TypeDecl) :
    Expr.subtermsOfAll (headerExprs decl) = headerTerms decl := by
  rw [headerExprs, subtermsOfAll_append, annotationArgs, subtermsOfAll_flatMap]
  rfl

theorem subtermsOfAll_memberExprs (owner : TypeDecl) (member : MemberKey) :
    Expr.subtermsOfAll (memberExprs owner member) = memberTerms owner member := by
  cases member <;>
    simp only [memberExprs, memberTerms, subtermsOfAll_flatMap, subtermsOfAll_fieldExprs,
      subtermsOfAll_methodExprs]

namespace Task

/-- The expressions that are written in what a task scans. -/
def exprs (index : Index) (task : Task) : List Expr :=
  match index.typeDecl? task.owner with
  | none => []
  | some owner =>
    match task with
    | .header _ => headerExprs owner
    | .node key => memberExprs owner key.member

/-- An expression that could not be read is written in what a task scans, at any depth. -/
def Faulty (index : Index) (task : Task) : Prop :=
  ∃ expr ∈ task.exprs index, ∃ kind line, Expr.Within (.unsupported kind line) expr

/-- The kinds and lines of what could not be read, in the order of the scan. -/
def unread (index : Index) (task : Task) : List (String × Nat) :=
  (Expr.subtermsOfAll (task.exprs index)).filterMap Expr.unsupported?

/-- A task looks at the subterms of its expressions. -/
theorem subtermsOfAll_exprs (index : Index) (task : Task) :
    Expr.subtermsOfAll (task.exprs index) = task.terms index := by
  rw [exprs, terms]
  cases index.typeDecl? task.owner with
  | none => rfl
  | some owner =>
    cases task with
    | header name => exact subtermsOfAll_headerExprs owner
    | node key => exact subtermsOfAll_memberExprs owner key.member

/-- A task is faulty if it has something unread to look at. -/
theorem faulty_iff : task.Faulty index ↔ task.unread index ≠ [] := by
  simp only [Faulty, unread, Expr.subtermsOfAll_eq]
  constructor
  · rintro ⟨expr, written, kind, line, within⟩
    have inside := mem_flatMap.mpr ⟨expr, written, Expr.mem_subterms_iff.mpr within⟩
    exact ne_nil_of_mem (mem_filterMap.mpr ⟨_, inside, rfl⟩)
  · intro some
    obtain ⟨⟨kind, line⟩, found⟩ := exists_mem_of_ne_nil _ some
    obtain ⟨part, inside, unread⟩ := mem_filterMap.mp found
    obtain ⟨expr, written, within⟩ := mem_flatMap.mp inside
    rw [Expr.unsupported?_eq_some_iff.mp unread] at within
    exact ⟨expr, written, kind, line, Expr.mem_subterms_iff.mp within⟩

end Task

/-! ## Steps that stop a scan -/

namespace Step

/-- The faults among some steps. -/
def faults (steps : List Step) : List Fault :=
  steps.filterMap fault?

theorem faults_append (steps more : List Step) :
    faults (steps ++ more) = faults steps ++ faults more :=
  filterMap_append

theorem faults_flatMap (items : List α) (stepsOf : α → List Step) :
    faults (items.flatMap stepsOf) = items.flatMap fun item => faults (stepsOf item) :=
  filterMap_flatMap

/-- None of some steps stops a scan. -/
def Quiet (steps : List Step) : Prop :=
  faults steps = []

theorem quiet_nil : Quiet [] := rfl

theorem Quiet.append (first : Quiet steps) (second : Quiet more) : Quiet (steps ++ more) := by
  rw [Quiet, faults_append, first, second, append_nil]

theorem quiet_flatMap {items : List α} {stepsOf : α → List Step}
    (each : ∀ item, Quiet (stepsOf item)) : Quiet (items.flatMap stepsOf) := by
  rw [Quiet, faults_flatMap, flatMap_eq_nil_iff]
  exact fun item _ => each item

theorem quiet_need (kind : EdgeKind) (keys : List Key) : Quiet (keys.map (.need kind)) := by
  simp [Quiet, faults, fault?]

theorem quiet_useImport (lines : List Import) : Quiet (lines.map .useImport) := by
  simp [Quiet, faults, fault?]

end Step

namespace Scope

open Step

variable (scope : Scope)

/-- Nothing but what could not be read stops a scan. -/
theorem quiet_rule (index : Index) (unit : CompilationUnit)
    (readable : ∀ term ∈ terms, term.unsupported? = none) : ScanRule index unit terms Quiet where
  append := fun _ _ => Quiet.append
  need := quiet_need
  unread := fun _ _ inside => by cases readable _ inside
  wildcards := fun _ => quiet_useImport _
  mention := fun _ _ _ kind => (quiet_useImport _).append (quiet_need kind _)
  bare := fun _ _ _ _ _ => quiet_useImport _
  static := fun _ _ _ _ line key _ _ => (quiet_useImport [line]).append (quiet_need .call [key])
  library := fun _ _ _ line _ => quiet_useImport [line]

theorem quiet_classSteps (kind : EdgeKind) (name : String) : Quiet (scope.classSteps kind name) :=
  (quiet_rule scope.index scope.unit (forall_mem_nil _)).classSteps ⟨rfl, rfl⟩ kind name

theorem quiet_typeSteps (kind : EdgeKind) (type : TypeRef) : Quiet (scope.typeSteps kind type) :=
  (quiet_rule scope.index scope.unit (forall_mem_nil _)).typeSteps ⟨rfl, rfl⟩ kind type

/-! ### Expressions -/

/-- What could not be read, as faults. -/
def unreadFaults (terms : List Expr) : List Fault :=
  (terms.filterMap Expr.unsupported?).map fun (kind, line) => .unsupported kind line

theorem unreadFaults_append (terms more : List Expr) :
    unreadFaults (terms ++ more) = unreadFaults terms ++ unreadFaults more := by
  simp only [unreadFaults, filterMap_append, map_append]

theorem unreadFaults_flatMap (items : List α) (termsOf : α → List Expr) :
    unreadFaults (items.flatMap termsOf) = items.flatMap fun item =>
      unreadFaults (termsOf item) := by
  simp only [unreadFaults, filterMap_flatMap, map_flatMap]

/-- A term stops a scan only if it could not be read itself. -/
theorem faults_subtermSteps (term : Expr) :
    faults (scope.subtermSteps term) = unreadFaults [term] := by
  cases unread : term.unsupported? with
  | none =>
    have rule := quiet_rule scope.index scope.unit (forall_mem_singleton.mpr unread)
    have quiet : faults (scope.subtermSteps term) = [] :=
      rule.subtermSteps ⟨rfl, rfl⟩ (mem_singleton_self term)
    simp [quiet, unreadFaults, unread]
  | some place =>
    rw [Expr.unsupported?_eq_some_iff.mp unread]
    rfl

/-- The steps of expressions have the faults of their subterms. -/
theorem faults_exprsSteps (exprs : List Expr) :
    faults (exprs.flatMap scope.exprSteps) = unreadFaults (Expr.subtermsOfAll exprs) := by
  rw [scope.flatMap_exprSteps, faults_flatMap]
  simp only [faults_subtermSteps]
  rw [← unreadFaults_flatMap, flatMap_singleton']

theorem faults_annotationsSteps (annotations : List Annotation) :
    faults (scope.annotationsSteps annotations) = unreadFaults (annotationTerms annotations) := by
  rw [annotationsSteps, faults_flatMap, annotationTerms, unreadFaults_flatMap]
  congr 1
  funext mark
  rw [annotationSteps, faults_append, scope.quiet_classSteps, nil_append, faults_exprsSteps]

/-! ### Bodies -/

theorem faults_bodySteps (body : List Expr) :
    faults (scope.bodySteps body) = unreadFaults (Expr.subtermsOfAll body) := by
  -- declaring names never stops a scan, because it follows bare names and types only
  have readable : ∀ term ∈ (Expr.subtermsOfAll body).filter (·.unsupported? == none),
      term.unsupported? = none := by
    simp
  have rule := quiet_rule scope.index scope.unit readable
  have gathers : ScanRule.Gathers scope.index scope.unit Quiet
      ((Expr.subtermsOfAll body).foldl declareSubterm (scope, [])) :=
    List.foldlRecOn _ _ ⟨⟨rfl, rfl⟩, quiet_nil⟩ fun _ gathers term mem =>
      rule.declareSubterm gathers fun _ isPart =>
        mem_filter.mpr ⟨Expr.mem_subtermsOfAll_of_mem_children mem isPart, rfl⟩
  have quiet : faults ((Expr.subtermsOfAll body).foldl declareSubterm (scope, [])).2 = [] :=
    gathers.steps
  unfold bodySteps
  rw [faults_append, quiet, nil_append, faults_exprsSteps]

/-! ### Members and headers -/

theorem faults_headerSteps : faults scope.headerSteps = unreadFaults (headerTerms scope.owner) := by
  have types : Quiet (scope.owner.headerTypes.flatMap (scope.typeSteps .supertype)) :=
    quiet_flatMap fun type => scope.quiet_typeSteps .supertype type
  rw [headerSteps, faults_append, faults_append, types, append_nil, faults_annotationsSteps,
    faults_bodySteps, headerTerms, unreadFaults_append]

theorem faults_fieldDeclSteps (field : Field) :
    faults (scope.fieldDeclSteps field) = unreadFaults (fieldTerms field) := by
  have copy : faults [.keepField field] = [] := rfl
  rw [fieldDeclSteps, cons_append, cons_append, ← singleton_append, faults_append, faults_append,
    faults_append, copy, scope.quiet_typeSteps, faults_annotationsSteps, faults_bodySteps,
    nil_append, append_nil, fieldTerms, unreadFaults_append]

/-- The parameters of a member add what could not be read in their annotations. -/
theorem faults_memberParams (params : List Param) (state : Scope × List Step) :
    faults (params.foldl memberParam state).2 =
      faults state.2 ++ unreadFaults (params.flatMap (annotationTerms ·.annotations)) := by
  induction params generalizing state with
  | nil => simp [unreadFaults]
  | cons param rest ih =>
    rw [foldl_cons, ih, memberParam, faults_append, faults_append, quiet_typeSteps,
      faults_annotationsSteps, append_nil, flatMap_cons, unreadFaults_append, append_assoc]

theorem faults_methodSteps (key : MemberKey) (method : Method) (result : Option TypeRef) :
    faults (scope.methodSteps key method result) = unreadFaults (methodTerms method) := by
  have copy : faults [.keepMethod key method] = [] := rfl
  have types : ∀ refs : List TypeRef,
      faults (refs.flatMap ((scope.withTypeParams method.typeParams).typeSteps .returnType)) = [] :=
    fun refs => quiet_flatMap fun type => quiet_typeSteps _ .returnType type
  have none : faults [] = [] := rfl
  unfold methodSteps
  dsimp only
  simp only [cons_append]
  rw [← singleton_append]
  simp only [faults_append, copy, types, none, faults_annotationsSteps, faults_memberParams,
    faults_bodySteps, nil_append, append_nil, methodTerms, unreadFaults_append]

/-- A member that is there stops its scan only by what could not be read in it. -/
theorem faults_memberSteps (declared : Index.declaresMember scope.owner member = true) :
    faults (scope.memberSteps member) = unreadFaults (memberTerms scope.owner member) := by
  cases member with
  | type => exact quiet_need .member _
  | field name =>
    obtain ⟨field, found⟩ := isSome_iff_exists.mp declared
    simp only [memberSteps, memberTerms, found, toList_some, flatMap_singleton]
    exact scope.faults_fieldDeclSteps field
  | method name arity =>
    obtain ⟨method, found⟩ := isSome_iff_exists.mp declared
    simp only [memberSteps, memberTerms, callable?, found, toList_some, flatMap_singleton]
    exact scope.faults_methodSteps _ method _
  | constructor arity =>
    obtain ⟨method, found⟩ := isSome_iff_exists.mp declared
    simp only [memberSteps, memberTerms, callable?, found, toList_some, flatMap_singleton]
    exact scope.faults_methodSteps _ method _

end Scope

/-! ## Tasks that fail -/

/-- A key that is needed is declared. -/
theorem Needed.declares (needed : Needed index seeds key) : index.declares key = true := by
  cases needed with
  | seed _ resolved => exact Index.declares_of_resolveSeed? resolved
  | scan _ finds => exact (mem_scanFinds.mp finds).2
  | header _ _ _ finds => exact (mem_headerFinds.mp finds).2

namespace Task

/-- The faults of a scan that a walk makes are what could not be read, in the order of the scan. -/
theorem Needed.faults_steps (named : index.Named) (needed : task.Needed index seeds) :
    Step.faults (task.steps index) = Scope.unreadFaults (task.terms index) := by
  cases task with
  | header name =>
    obtain ⟨key, decl, type, -, present, around, rfl⟩ := needed
    obtain ⟨other, found⟩ := Index.typeDecl?_of_encloses present around
    rw [← named other type found] at found
    obtain ⟨unit, inUnit⟩ := (index.unitOf?_eq_some_iff type.qualifiedName).mpr ⟨type, found⟩
    simp only [steps, scanHeader, terms, Task.owner, inUnit, found]
    exact (Scope.ofOwner index unit type).faults_headerSteps
  | node key =>
    obtain ⟨owner, found, declared⟩ := (index.declares_iff key).mp (Slice.Needed.declares needed)
    obtain ⟨unit, inUnit⟩ := (index.unitOf?_eq_some_iff key.owner).mpr ⟨owner, found⟩
    simp only [steps, scan, terms, Task.owner, inUnit, found]
    exact (Scope.ofOwner index unit owner).faults_memberSteps declared

/-- The error of a task is its first fault. -/
theorem error?_eq (index : Index) (task : Task) :
    task.error? index = (Step.faults (task.steps index)).head?.map (⟨task.key, ·⟩) := by
  rw [error?, Step.faults, head?_filterMap]

/-- A scan that a walk makes fails at the first expression that could not be read. -/
theorem Needed.error?_eq (named : index.Named) (needed : task.Needed index seeds) :
    task.error? index =
      (task.unread index).head?.map fun (kind, line) => ⟨task.key, .unsupported kind line⟩ := by
  rw [Task.error?_eq, needed.faults_steps named, Scope.unreadFaults, unread, subtermsOfAll_exprs,
    head?_map, Option.map_map]
  rfl

/-- A task that is needed ends in an error just if it is faulty. -/
theorem Needed.error?_isSome_iff (named : index.Named) (needed : task.Needed index seeds) :
    (task.error? index).isSome ↔ task.Faulty index := by
  rw [needed.error?_eq named, isSome_map, isSome_head?, faulty_iff]

end Task

namespace Walk

/-- The tasks of a run are needed, and an error is that of one of them. -/
theorem Tracks.tasks_of_runs (named : index.Named)
    (tracks : Tracks index seeds walk) (run : Runs index walk tasks final outcome) :
    (∀ task ∈ tasks, task.Needed index seeds) ∧
      ∀ error, outcome = some error → ∃ task ∈ tasks, task.error? index = some error := by
  refine run.turn_induction named (motive := fun walk tasks _ outcome => Tracks index seeds walk →
    (∀ task ∈ tasks, task.Needed index seeds) ∧
      ∀ error, outcome = some error → ∃ task ∈ tasks, task.error? index = some error) ?_ ?_ ?_
        tracks.coherent tracks
  · intro walk _ _
    exact ⟨fun _ never => (nomatch never), fun _ never => (nomatch never)⟩
  · intro walk task next error _ turn tracks
    refine ⟨fun other last => ?_, fun failure same => ⟨task, mem_singleton_self task, ?_⟩⟩
    · rw [mem_singleton.mp last]
      exact tracks.of_found turn.found
    · rw [← turn.error, same]
  · intro walk task next tasks final outcome _ turn ih tracks
    obtain ⟨needed, fails⟩ := ih (tracks.turn turn)
    refine ⟨forall_mem_cons.mpr ⟨tracks.of_found turn.found, needed⟩, fun error same => ?_⟩
    obtain ⟨other, later, ends⟩ := fails error same
    exact ⟨other, mem_cons_of_mem task later, ends⟩

end Walk

/-- In a project whose outer names have no cycle, a walk fails if and only if its seeds need
something faulty: a member or the header of a type with a file, in which an expression could not be
read, at any depth. The error names such a unit, and gives the kind and the line of the first such
expression in the order of its scan. No scan that a walk makes misses a type or a member. -/
theorem solve_fails_iff_faulty (units : List CompilationUnit)
    (acyclic : (Index.ofUnits units).OuterAcyclic) (seeds : List Seed) :
    let index := Index.ofUnits units
    let outcome := Walk.start.solve index seeds
    (outcome.2.isSome ↔ ∃ task : Task, task.Needed index seeds ∧ task.Faulty index) ∧
    (∀ error, outcome.2 = some error → ∃ (task : Task) (kind : String) (line : Nat),
      task.Needed index seeds ∧
      (task.unread index).head? = some (kind, line) ∧ error.key = task.key ∧
      error.message = "dependency solving failed at " ++ task.key.display ++ ": " ++
        ("unsupported expression `" ++ kind ++ "` at line " ++ toString line)) ∧
    ∃ tasks, Walk.Runs index (Walk.start.addSeeds index seeds) tasks outcome.1 outcome.2 ∧
      ∀ task ∈ tasks, ∀ fault, .fail fault ∈ task.steps index →
        ∃ kind line, fault = .unsupported kind line := by
  intro index outcome
  have named := Index.named_ofUnits units
  have tracks := (Walk.tracks_start index).addSeeds seeds
  obtain ⟨tasks, run, -⟩ := Walk.runs_run named tracks.coherent
  obtain ⟨needed, fails⟩ := tracks.tasks_of_runs named run
  refine ⟨⟨?_, ?_⟩, ?_, tasks, run, ?_⟩
  · intro failed
    obtain ⟨error, same⟩ := isSome_iff_exists.mp failed
    obtain ⟨task, taken, ends⟩ := fails error same
    refine ⟨task, needed task taken, ((needed task taken).error?_isSome_iff named).mp ?_⟩
    rw [ends]
    rfl
  · rintro ⟨task, isNeeded, faulty⟩
    by_contra ok
    have solved := Walk.solved_solve named (not_isSome_iff_eq_none.mp ok)
    have fine := solved.settled.faultless task ((solved.done_iff_needed acyclic task).mpr isNeeded)
    have fault := (isNeeded.error?_isSome_iff named).mpr faulty
    rw [fine] at fault
    cases fault
  · intro error same
    obtain ⟨task, taken, ends⟩ := fails error same
    rw [(needed task taken).error?_eq named, map_eq_some_iff] at ends
    obtain ⟨⟨kind, line⟩, first, rfl⟩ := ends
    exact ⟨task, kind, line, needed task taken, first, rfl, rfl⟩
  · intro task taken fault fails
    have listed : fault ∈ Step.faults (task.steps index) := mem_filterMap.mpr ⟨_, fails, rfl⟩
    rw [(needed task taken).faults_steps named] at listed
    obtain ⟨⟨kind, line⟩, -, rfl⟩ := List.mem_map.mp listed
    exact ⟨kind, line, rfl⟩

/-- A seed whose body could not be read makes the run fail. -/
theorem solve_broken_fails :
    (Index.ofUnits pingPong).OuterAcyclic ∧
      (∃ task : Task, task.Needed (Index.ofUnits pingPong) [⟨"game.Ping", "broken"⟩] ∧
        task.Faulty (Index.ofUnits pingPong)) ∧
      (Walk.start.solve (Index.ofUnits pingPong) [⟨"game.Ping", "broken"⟩]).2.isSome := by
  have acyclic : (Index.ofUnits pingPong).OuterAcyclic := Index.outerAcyclic_of_isNested (by decide)
  have faulty : ∃ task : Task, task.Needed (Index.ofUnits pingPong) [⟨"game.Ping", "broken"⟩] ∧
      task.Faulty (Index.ofUnits pingPong) := by
    refine ⟨.node (.method "game.Ping" "broken" 0), .seed mem_cons_self (by decide), ?_⟩
    exact ⟨.unsupported "ERROR" 7, mem_cons_self, "ERROR", 7, .refl⟩
  exact ⟨acyclic, faulty, (solve_fails_iff_faulty pingPong acyclic _).1.mpr faulty⟩

end JavaSlice.Slice
