import JavaSlice.Proofs.Copies
import JavaSlice.Proofs.Termination

/-!
# Names in a body

A member has one table of local names. Parameters enter it first, then every variable and every
parameter of a lambda that its body declares, in source order and at any depth, and only then are
the names in the body followed. So blocks do not matter: the last declaration of a name in the
member decides what the name means everywhere in it (`Code.typeOf?`), and a name that nothing in the
member declares means a visible field.

`Task.code?` gives the body of anything that is scanned, together with the scope around it, and
`Task.steps_of_code?` says what each subterm of the body adds to the scan.
-/

namespace JavaSlice.Slice

open List Option Source

variable {code : Code} {name : String} {scope : Scope} {index : Index} {task : Task}

/-! ## Declaring names -/

/-- The names that a term declares, without those that its parts declare. -/
def localsOf : Expr → List (String × TypeRef)
  | .declare type declared =>
    declared.map fun each => (each.name, Scope.variableType type each.init)
  | .lambda params _ => params.map fun param => (param.name, param.type)
  | _ => []

namespace Scope

/-- Brings names into scope one after the other. -/
def declareAll (scope : Scope) (names : List (String × TypeRef)) : Scope :=
  names.foldl (fun scope entry => scope.declare entry.1 entry.2) scope

theorem declareAll_append (scope : Scope) (names more : List (String × TypeRef)) :
    scope.declareAll (names ++ more) = (scope.declareAll names).declareAll more :=
  foldl_append

theorem declareAll_eq (scope : Scope) (names : List (String × TypeRef)) :
    scope.declareAll names = { scope with locals := (scope.declareAll names).locals } := by
  induction names generalizing scope with
  | nil => rfl
  | cons entry rest ih => exact ih (scope.declare entry.1 entry.2)

/-- The last declaration of a name decides. -/
theorem get?_declareAll (scope : Scope) (names : List (String × TypeRef)) (name : String) :
    (scope.declareAll names).locals.get? name =
      ((names.reverse.find? (·.1 == name)).map (·.2)).or (scope.locals.get? name) := by
  induction names generalizing scope with
  | nil => rfl
  | cons entry rest ih =>
    have next := ih (scope.declare entry.1 entry.2)
    rw [show (scope.declare entry.1 entry.2).declareAll rest = scope.declareAll (entry :: rest)
      from rfl,
      show (scope.declare entry.1 entry.2).locals = scope.locals.put entry.1 entry.2 from rfl,
      Table.get?_put] at next
    rw [next, reverse_cons, find?_append, map_or, Option.or_assoc]
    by_cases same : entry.1 = name <;> simp [same]

/-- If every item of a list declares its own names, the list declares them all. -/
theorem fst_foldl {α : Type} {advance} (names : α → List (String × TypeRef))
    (one : ∀ state item, (advance state item).1 = state.1.declareAll (names item)) (items : List α)
    (state : Scope × List Step) :
    (items.foldl advance state).1 = state.1.declareAll (items.flatMap names) := by
  induction items generalizing state with
  | nil => rfl
  | cons item rest ih =>
    rw [foldl_cons, ih, one, flatMap_cons, declareAll_append]

theorem fst_declareVariable (type : TypeRef) (state : Scope × List Step) (declared : Variable) :
    (declareVariable type state declared).1 =
      state.1.declareAll [(declared.name, variableType type declared.init)] := by
  unfold declareVariable
  dsimp only
  split <;> rfl

theorem fst_declareSubterm (state : Scope × List Step) (term : Expr) :
    (declareSubterm state term).1 = state.1.declareAll (localsOf term) := by
  cases term with
  | declare type declared =>
    rw [declareSubterm, fst_foldl _ (fst_declareVariable type), localsOf, map_eq_flatMap]
  | lambda params body =>
    rw [declareSubterm, fst_foldl (fun param => [(param.name, param.type)]) (fun _ _ => rfl),
      localsOf, map_eq_flatMap]
  | _ => rfl

/-- A body adds what its declarations add, and then what each of its subterms adds in the scope of
all of them. -/
theorem bodySteps_eq (scope : Scope) (body : List Expr) :
    ∃ declarations, scope.bodySteps body = declarations ++
      (Expr.subtermsOfAll body).flatMap
        (scope.declareAll ((Expr.subtermsOfAll body).flatMap localsOf)).subtermSteps := by
  rw [← fst_foldl localsOf fst_declareSubterm _ (scope, []), ← flatMap_exprSteps]
  exact ⟨_, rfl⟩

/-! ## What a name means -/

theorem nameSteps_of_local (known : scope.locals.get? name = some type) :
    scope.nameSteps name = [] := by
  have isLocal : scope.isLocal name = true := by simp [isLocal, Table.has, known]
  rw [nameSteps, if_pos isLocal]

theorem nameSteps_of_field (free : scope.locals.get? name = none)
    (visible : scope.index.visibleField? scope.owner name = some key) :
    scope.nameSteps name = [.need .fieldRef key] := by
  have notLocal : ¬ scope.isLocal name = true := by simp [isLocal, Table.has, free]
  rw [nameSteps, if_neg notLocal, visible]

/-- A call on a name looks the method up on the type of the name. -/
theorem callSteps_identifier (scope : Scope) (name method : String) (count : Nat)
    (isMethod : method ≠ "<init>") :
    scope.callSteps (some (.identifier name)) method count =
      needSteps .call ((scope.exprDecl? (.identifier name)).bind
        (scope.index.findMethod? ⟨method, some count⟩)) := by
  rw [callSteps, if_neg (by simpa using isMethod)]

end Scope

/-! ## The code of a task -/

/-- A body with the parameters and the scope around it. -/
structure Code where
  /-- The scope outside, without any local name. -/
  outer : Scope
  params : List Param
  body : List Expr

namespace Code

/-- All subterms of the body, in source order. -/
def terms (code : Code) : List Expr :=
  Expr.subtermsOfAll code.body

/-- Everything that is declared: the parameters, and then what the body declares, at any depth. -/
def locals (code : Code) : List (String × TypeRef) :=
  code.params.map (fun param => (param.name, param.type)) ++ code.terms.flatMap localsOf

/-- The scope in which the names of the body are understood. -/
def inner (code : Code) : Scope :=
  code.outer.declareAll code.locals

/-- The type that the last declaration of a name gives it. -/
def typeOf? (code : Code) (name : String) : Option TypeRef :=
  (code.locals.reverse.find? (·.1 == name)).map (·.2)

theorem typeOf?_eq_none_iff : code.typeOf? name = none ↔ ∀ entry ∈ code.locals, entry.1 ≠ name := by
  simp [typeOf?]

/-- Where all declarations of a name agree, each of them decides. -/
theorem typeOf?_of_agree (declared : (name, type) ∈ code.locals)
    (agree : ∀ other, (name, other) ∈ code.locals → other = type) :
    code.typeOf? name = some type := by
  cases last : code.locals.reverse.find? (·.1 == name) with
  | none =>
    have absent := find?_eq_none.mp last (name, type) (mem_reverse.mpr declared)
    simp at absent
  | some entry =>
    obtain ⟨found, other⟩ := entry
    have named : found = name := beq_iff_eq.mp (find?_some last :)
    have mem := mem_reverse.mp (mem_of_find?_eq_some last)
    rw [typeOf?, last, map_some, agree other (named ▸ mem)]

/-- What the subterms of the body add to a scan. -/
def steps (code : Code) : List Step :=
  code.terms.flatMap code.inner.subtermSteps

/-- The body is followed after its parameters have been declared. -/
theorem bodySteps_eq (code : Code) :
    ∃ declarations,
      (code.outer.declareAll (code.params.map fun param => (param.name, param.type))).bodySteps
      code.body = declarations ++ code.steps := by
  rw [steps, inner, locals, Scope.declareAll_append]
  exact Scope.bodySteps_eq _ _

end Code

namespace Task

/-- The code that the scan of a task goes through. A type as such has none: its header and its
members are tasks of their own. -/
def code? (index : Index) (task : Task) : Option Code := do
  let unit ← index.unitOf? task.owner
  let owner ← index.typeDecl? task.owner
  let scope := Scope.ofOwner index unit owner
  match task with
  | .header _ => some ⟨scope, [], owner.constants⟩
  | .node ⟨_, .field name⟩ => (owner.field? name).map fun field => ⟨scope, [], field.initializers⟩
  | .node ⟨_, member⟩ => (callable? owner member).map fun method =>
    ⟨scope.withTypeParams method.typeParams, method.params, method.body⟩

section

variable (isCode : task.code? index = some code)
include isCode

/-- Code is that of the constants of an enum, of a field, or of a method or constructor. -/
theorem code?_cases :
    ∃ unit owner, index.unitOf? task.owner = some unit ∧ index.typeDecl? task.owner = some owner ∧
      let scope := Scope.ofOwner index unit owner
      ((∃ name, task = .header name ∧ code = ⟨scope, [], owner.constants⟩) ∨
        (∃ type name field, task = .node ⟨type, .field name⟩ ∧ owner.field? name = some field ∧
          code = ⟨scope, [], field.initializers⟩) ∨
        ∃ type member method, task = .node ⟨type, member⟩ ∧ callable? owner member = some method ∧
          code = ⟨scope.withTypeParams method.typeParams, method.params, method.body⟩) := by
  simp only [code?, Option.bind_eq_bind, bind_eq_some_iff] at isCode
  obtain ⟨unit, file, owner, present, origin⟩ := isCode
  refine ⟨unit, owner, file, present, ?_⟩
  dsimp only
  split at origin
  next name =>
    cases origin
    exact .inl ⟨name, rfl, rfl⟩
  next type name =>
    obtain ⟨field, found, rfl⟩ := map_eq_some_iff.mp origin
    exact .inr (.inl ⟨type, name, field, rfl, found, rfl⟩)
  next type member _ =>
    obtain ⟨method, found, rfl⟩ := map_eq_some_iff.mp origin
    exact .inr (.inr ⟨type, member, method, rfl, found, rfl⟩)

/-- The scope around the code of a task is that of its owner. -/
theorem outer_of_code? :
    index.typeDecl? task.owner = some code.outer.owner ∧ code.outer.index = index ∧
      code.outer.locals = [] := by
  obtain ⟨unit, owner, -, present, origin⟩ := code?_cases isCode
  rw [present]
  rcases origin with ⟨_, -, rfl⟩ | ⟨_, _, _, -, -, rfl⟩ | ⟨_, _, _, -, -, rfl⟩ <;>
    exact ⟨rfl, rfl, rfl⟩

/-- Declaring names leaves the rest of the scope as it is. -/
theorem inner_of_code? :
    code.inner.index = index ∧ code.inner.unit = code.outer.unit ∧
      code.inner.owner = code.outer.owner := by
  rw [Code.inner, Scope.declareAll_eq]
  exact ⟨(outer_of_code? isCode).2.1, rfl, rfl⟩

end

end Task

namespace Scope

theorem methodSteps_eq (scope : Scope) (key : MemberKey) (method : Method)
    (result : Option TypeRef) :
    ∃ earlier, scope.methodSteps key method result =
      earlier ++ (Code.mk (scope.withTypeParams method.typeParams) method.params
        method.body).steps := by
  obtain ⟨declarations, body⟩ :=
    (Code.mk (scope.withTypeParams method.typeParams) method.params method.body).bodySteps_eq
  have inner := fst_foldl (fun param => [(param.name, param.type)]) (fun _ _ => rfl : ∀ state param,
    (memberParam state param).1 = _) method.params (scope.withTypeParams method.typeParams, [])
  rw [← map_eq_flatMap] at inner
  unfold methodSteps
  dsimp only
  rw [inner, body, ← append_assoc]
  exact ⟨_, rfl⟩

theorem memberSteps_callable (found : callable? scope.owner member = some method) :
    ∃ earlier, scope.memberSteps member =
      earlier ++ (Code.mk (scope.withTypeParams method.typeParams) method.params
        method.body).steps := by
  cases member with
  | type | field => cases found
  | method name arity =>
    rw [callable?] at found
    rw [memberSteps, found]
    exact scope.methodSteps_eq _ method _
  | constructor arity =>
    rw [callable?] at found
    rw [memberSteps, found]
    exact scope.methodSteps_eq _ method _

theorem memberSteps_field (found : scope.owner.field? name = some field) :
    ∃ earlier, scope.memberSteps (.field name) = earlier ++
      (Code.mk scope [] field.initializers).steps := by
  obtain ⟨declarations, body⟩ := (Code.mk scope [] field.initializers).bodySteps_eq
  rw [memberSteps, found]
  exact ⟨_, (congrArg (_ ++ ·) body).trans (append_assoc _ _ _).symm⟩

theorem headerSteps_eq (scope : Scope) :
    ∃ earlier, scope.headerSteps = earlier ++ (Code.mk scope [] scope.owner.constants).steps := by
  obtain ⟨declarations, body⟩ := (Code.mk scope [] scope.owner.constants).bodySteps_eq
  exact ⟨_, (congrArg (_ ++ ·) body).trans (append_assoc _ _ _).symm⟩

end Scope

/-- A scan ends with what the subterms of its code add. -/
theorem Task.steps_of_code? (isCode : task.code? index = some code) :
    ∃ earlier, task.steps index = earlier ++ code.steps := by
  obtain ⟨unit, owner, file, present, origin⟩ := code?_cases isCode
  rcases origin with ⟨name, rfl, rfl⟩ | ⟨type, name, field, rfl, found, rfl⟩ |
    ⟨type, member, method, rfl, found, rfl⟩
  · rw [Task.owner] at file present
    rw [steps, scanHeader, file, present]
    exact (Scope.ofOwner index unit owner).headerSteps_eq
  · rw [Task.owner] at file present
    rw [steps, scan, file, present]
    exact Scope.memberSteps_field found
  · rw [Task.owner] at file present
    rw [steps, scan, file, present]
    exact Scope.memberSteps_callable found

/-! ## What the names of a task mean -/

namespace Code

theorem get?_inner (empty : code.outer.locals = []) (name : String) :
    code.inner.locals.get? name = code.typeOf? name := by
  rw [inner, Scope.get?_declareAll, empty]
  exact Option.or_none

end Code

/-- Every name in the code of a task means what its last declaration in the whole member says, and
else a visible field. -/
theorem names_mean_last_declaration {index : Index} {task : Task} {code : Code}
    (isCode : task.code? index = some code) (name : String) :
    (∃ earlier, task.steps index = earlier ++ code.terms.flatMap code.inner.subtermSteps) ∧
      (∀ type, code.typeOf? name = some type →
        code.inner.subtermSteps (.identifier name) = [] ∧
        ∀ method args, method ≠ "<init>" →
          code.inner.subtermSteps (.call (some (.identifier name)) method args) =
            Scope.needSteps .call
              (((index.projectType? code.outer.unit type).bind index.typeDecl?).bind
              (index.findMethod? ⟨method, some args.length⟩))) ∧
      ((∀ entry ∈ code.locals, entry.1 ≠ name) →
        ∀ key, index.visibleField? code.outer.owner name = some key →
          code.inner.subtermSteps (.identifier name) = [.need .fieldRef key] ∧
          ∀ method args, method ≠ "<init>" →
            code.inner.subtermSteps (.call (some (.identifier name)) method args) =
              Scope.needSteps .call (((index.fieldType? key).bind index.typeDecl?).bind
                (index.findMethod? ⟨method, some args.length⟩))) ∧
      ∀ type, (name, type) ∈ code.locals → (∀ other, (name, other) ∈ code.locals → other = type) →
        code.typeOf? name = some type := by
  obtain ⟨sameIndex, sameUnit, sameOwner⟩ := Task.inner_of_code? isCode
  have lookup := code.get?_inner (Task.outer_of_code? isCode).2.2 name
  refine ⟨Task.steps_of_code? isCode, ?_, ?_,
    fun type declared agree => Code.typeOf?_of_agree declared agree⟩
  · intro type known
    rw [known] at lookup
    refine ⟨Scope.nameSteps_of_local lookup, fun method args isMethod => ?_⟩
    have receiver : code.inner.exprType? (.identifier name) =
        index.projectType? code.outer.unit type := by
      rw [Scope.exprType?, lookup, sameIndex, sameUnit]
    rw [Scope.subtermSteps, Scope.callSteps_identifier _ _ _ _ isMethod, Scope.exprDecl?, receiver,
      sameIndex]
  · intro undeclared key visible
    rw [Code.typeOf?_eq_none_iff.mpr undeclared] at lookup
    rw [← sameIndex, ← sameOwner] at visible
    refine ⟨Scope.nameSteps_of_field lookup visible, fun method args isMethod => ?_⟩
    have receiver : code.inner.exprType? (.identifier name) = index.fieldType? key := by
      rw [Scope.exprType?, lookup, visible, sameIndex]
    rw [Scope.subtermSteps, Scope.callSteps_identifier _ _ _ _ isMethod, Scope.exprDecl?, receiver,
      sameIndex]

/-- In `Pong`, the parameter `other` is a `Ping`, and `right` is a field that `Pong` inherits from
`Ping`. -/
theorem names_of_pong_mean_last_declaration :
    ∃ code, (Task.node (.method "game.Pong" "pong" 1)).code? (Index.ofUnits pingPong) = some code ∧
      code.inner.subtermSteps (.identifier "other") = [] ∧
      code.inner.subtermSteps (.call (some (.identifier "other")) "ping" [.thisRef]) =
        [.need .call (.method "game.Ping" "ping" 1)] ∧
      code.inner.subtermSteps (.identifier "right") =
        [.need .fieldRef (.field "game.Ping" "right")] := by
  refine ⟨_, rfl, ?_⟩
  have names := @names_mean_last_declaration (Index.ofUnits pingPong)
    (.node (.method "game.Pong" "pong" 1)) _ rfl
  obtain ⟨-, declared, -, -⟩ := names "other"
  obtain ⟨-, -, free, -⟩ := names "right"
  obtain ⟨bare, calls⟩ := declared (.simple "Ping") rfl
  refine ⟨bare, ?_, ?_⟩
  · rw [calls "ping" [.thisRef] (by decide)]
    rfl
  · exact (free (by decide) (.field "game.Ping" "right") (by decide)).1

/-- A class whose method declares a variable in a block, and after the block uses the field of the
same name. -/
def siblingBlocks : List CompilationUnit :=
  let total : Field := ⟨["total"], .primitive "int", [], [], "int total;"⟩
  let run : Method :=
    ⟨"run", [], [], some (.primitive "int"), [], [],
      [.group [.declare (.primitive "int") [⟨"total", some .literal⟩]],
        .group [.identifier "total"]],
      false, "int run() { { int total = 1; } return total; }"⟩
  [⟨"p/Main.java", some "p", [],
    [⟨"Main", "p.Main", .classType, none, "public class Main", none, [], [], [], [],
      [.field total, .method run], []⟩]⟩]

/-- The variable of a block hides the field outside of the block: the field is not kept. -/
theorem block_variable_hides_field : let index := Index.ofUnits siblingBlocks
    (∃ code, (Task.node (.method "p.Main" "run" 0)).code? index = some code ∧ code.params = [] ∧
      code.body = [.group [.declare (.primitive "int") [⟨"total", some .literal⟩]],
        .group [.identifier "total"]] ∧
      index.visibleField? code.outer.owner "total" = some (.field "p.Main" "total")) ∧
    let outcome := Walk.start.solve index [⟨"p.Main", "run"⟩]
    outcome.2 = none ∧ .method "p.Main" "run" 0 ∈ outcome.1.registry.visitedKeys ∧
      .field "p.Main" "total" ∉ outcome.1.registry.visitedKeys := by
  simp only [Registry.mem_visitedKeys_iff]
  exact ⟨⟨_, rfl, rfl, rfl, by decide⟩, by decide, by decide, by decide⟩

end JavaSlice.Slice
