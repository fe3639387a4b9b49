import JavaSlice.Proofs.Closure

/-!
# Calls as receivers

A call is looked at twice. The scan follows it to its method (`Scope.callSteps`), and where
something is called or accessed on its result, its type is inferred (`Scope.exprType?`). Both look
for the method in the same places, with two exceptions: the scan also follows calls on `super`, and
unqualified calls that only a static import explains, whose type is not inferred
(`Scope.TypeMissed`).

In all other cases the type of a call is what the method returns that the scan has found. So it is
link by link in a chain of calls of any length, each of which is looked up in the type that the one
before returns (`call_type_follows_method`). In the exceptions nothing after the first link is found
(`super_call_breaks_chain`).
-/

namespace JavaSlice

open List Option Slice Source

/-- The type that the last of some calls has, where the first is made on a type and each other on
what the one before returns. -/
def Index.followCalls? (index : Index) (type : String) : List CallSite → Option String
  | [] => some type
  | call :: rest => do
    let decl ← index.typeDecl? type
    let key ← index.findMethod? call decl
    let next ← index.returnType? key
    index.followCalls? next rest

namespace Slice

/-- Calls one after the other, each on the result of the one before. -/
def chain (receiver : Expr) (links : List (String × List Expr)) : Expr :=
  links.foldl (fun receiver link => .call (some receiver) link.1 link.2) receiver

/-- A link of a chain, as a call. -/
def site (link : String × List Expr) : CallSite :=
  ⟨link.1, some link.2.length⟩

namespace Scope

variable {kind : EdgeKind} {key : Key} {scope : Scope} {receiver : Option Expr} {name : String}

/-- The method that a call reaches. -/
def calledMethod? (scope : Scope) (receiver : Option Expr) (call : CallSite) : Option Key :=
  match receiver with
  | none => (scope.index.visibleMethod? scope.owner call).or ((scope.staticMethod? call).map (·.2))
  | some .thisRef => scope.index.findMethod? call scope.owner
  | some .superRef => (scope.index.supertypes scope.owner).findSome? (scope.index.findMethod? call)
  | some expr => (scope.exprDecl? expr).bind (scope.index.findMethod? call)

/-- Calls whose type is not inferred: those on `super`, and unqualified ones that a static import
alone explains. -/
def TypeMissed (scope : Scope) (receiver : Option Expr) (call : CallSite) : Prop :=
  receiver = some .superRef ∨ receiver = none ∧ scope.index.visibleMethod? scope.owner call = none ∧
    (scope.staticMethod? call).isSome

/-! ## One call -/

theorem mem_needSteps :
    .need kind key ∈ needSteps other found ↔ kind = other ∧ found = some key := by
  cases found <;> simp [needSteps, eq_comm]

/-- An unqualified call that no type around it declares finds what a static import names. -/
theorem need_mem_externalCallSteps :
    .need kind key ∈ scope.externalCallSteps call ↔
      kind = .call ∧ (scope.staticMethod? call).map (·.2) = some key := by
  unfold externalCallSteps
  split
  next line found explains => simp [explains, eq_comm]
  next unexplained =>
    simp only [unexplained, map_none, reduceCtorEq, and_false, iff_false]
    split
    next => simp
    next => simp [allWildcards]

/-- The scan of a call finds the method that the call reaches. -/
theorem need_mem_callSteps {count} (isMethod : name ≠ "<init>") :
    .need kind key ∈ scope.callSteps receiver name count ↔
      kind = .call ∧ scope.calledMethod? receiver ⟨name, some count⟩ = some key := by
  rw [callSteps, if_neg (by simpa using isMethod)]
  cases receiver with
  | none =>
    rw [calledMethod?]
    dsimp only
    cases scope.index.visibleMethod? scope.owner ⟨name, some count⟩ with
    | some visible => simp [eq_comm]
    | none => exact need_mem_externalCallSteps
  | some expr => cases expr <;> exact mem_needSteps

/-- A call of another constructor finds no method. -/
theorem isMethod_of_need {count owner method arity}
    (found : .need kind (.method owner method arity) ∈ scope.callSteps receiver name count) :
    name ≠ "<init>" := by
  rintro rfl
  rw [callSteps, if_pos (by simp)] at found
  obtain ⟨-, found⟩ := mem_needSteps.mp found
  obtain ⟨decl, -, found⟩ := exists_of_findSome?_eq_some found
  obtain ⟨_, -, same⟩ := map_eq_some_iff.mp found
  cases same

/-- The type of a call is what the method returns that the call reaches, unless it is missed. -/
theorem exprType?_call (inferred : ¬ scope.TypeMissed receiver ⟨name, some args.length⟩) :
    scope.exprType? (.call receiver name args) =
      (scope.calledMethod? receiver ⟨name, some args.length⟩).bind scope.index.returnType? := by
  rw [TypeMissed, not_or] at inferred
  cases receiver with
  | none =>
    rw [exprType?, calledMethod?]
    cases visible : scope.index.visibleMethod? scope.owner ⟨name, some args.length⟩ with
    | some key => rfl
    | none =>
      -- without a static import the call reaches nothing
      cases explained : scope.staticMethod? ⟨name, some args.length⟩ with
      | none => rfl
      | some found => exact absurd ⟨rfl, visible, by rw [explained]; rfl⟩ inferred.2
  | some expr =>
    cases expr with
    | superRef => exact absurd rfl inferred.1
    | thisRef => rw [exprType?, calledMethod?]
    | _ => simp only [exprType?, calledMethod?, exprDecl?, Option.bind_assoc]

theorem exprType?_of_missed (missed : scope.TypeMissed receiver ⟨name, some args.length⟩) :
    scope.exprType? (.call receiver name args) = none := by
  rcases missed with rfl | ⟨rfl, invisible, -⟩
  · rfl
  · rw [exprType?, invisible, bind_none]

/-! ## Chains of calls -/

section

variable (scope : Scope) (receiver : Option Expr) (name : String) (args : List Expr)

/-- What is called on the result of a call is looked up in the type of the call. -/
theorem calledMethod?_call (call : CallSite) :
    scope.calledMethod? (some (.call receiver name args)) call =
      ((scope.exprType? (.call receiver name args)).bind scope.index.typeDecl?).bind
        (scope.index.findMethod? call) := rfl

section

variable (links : List (String × List Expr))

/-- The type of a chain of calls is found link by link. -/
theorem exprType?_chain :
    scope.exprType? (chain (.call receiver name args) links) =
      (scope.exprType? (.call receiver name args)).bind
        (scope.index.followCalls? · (links.map site)) := by
  induction links generalizing receiver name args with
  | nil => exact (Option.bind_fun_some _).symm
  | cons link rest ih =>
    have notMissed : ¬ scope.TypeMissed (some (.call receiver name args)) (site link) := by
      rintro (isSuper | ⟨isNone, -⟩)
      · cases isSuper
      · cases isNone
    have first := exprType?_call notMissed
    rw [show (⟨link.1, some link.2.length⟩ : CallSite) = site link from rfl, calledMethod?_call]
      at first
    rw [chain, foldl_cons, ← chain, ih, first]
    simp only [Option.bind_assoc, map_cons, Index.followCalls?, bind]

/-- What is called on the end of a chain is looked up in the type of the chain. -/
theorem callSteps_chain {next} (isMethod : next ≠ "<init>") (count : Nat) :
    scope.callSteps (some (chain (.call receiver name args) links)) next count =
      needSteps .call ((scope.exprDecl? (chain (.call receiver name args) links)).bind
        (scope.index.findMethod? ⟨next, some count⟩)) := by
  induction links generalizing receiver name args with
  | nil => rw [chain, foldl_nil, callSteps, if_neg (by simpa using isMethod)]
  | cons link rest ih => exact ih _ _ _

/-- What is accessed on the end of a chain is looked up in the type of the chain. -/
theorem receiver?_chain :
    scope.receiver? (chain (.call receiver name args) links) =
      scope.exprDecl? (chain (.call receiver name args) links) := by
  induction links generalizing receiver name args with
  | nil => rfl
  | cons link rest ih => exact ih _ _ _

end

end

end Scope

/-- If the scan of a call finds a method that returns a type of the project, then the call has that
type, and what is called or accessed on it is looked up there. So it is along any chain of calls on
it, link by link. The exceptions are calls on `super` and unqualified calls that only a
static import explains, which have no type at all. -/
theorem call_type_follows_method (scope : Scope) (receiver : Option Expr) (name : String)
    (args : List Expr) {kind : EdgeKind} {owner method type : String} {arity : Nat}
    (found : .need kind (.method owner method arity) ∈ scope.callSteps receiver name args.length)
    (returns : scope.index.returnType? (.method owner method arity) = some type) :
    (scope.exprType? (.call receiver name args) = some type ∧
      ∀ links, let decl? :=
  (scope.index.followCalls? type (links.map site)).bind scope.index.typeDecl?
        scope.receiver? (chain (.call receiver name args) links) = decl? ∧
        ∀ next count, next ≠ "<init>" →
          scope.callSteps (some (chain (.call receiver name args) links)) next count =
          Scope.needSteps .call (decl?.bind (scope.index.findMethod? ⟨next, some count⟩))) ∨
    scope.TypeMissed receiver ⟨name, some args.length⟩ ∧
      scope.exprType? (.call receiver name args) = none := by
  have isMethod := Scope.isMethod_of_need found
  obtain ⟨-, reaches⟩ := (Scope.need_mem_callSteps isMethod).mp found
  by_cases missed : scope.TypeMissed receiver ⟨name, some args.length⟩
  · exact .inr ⟨missed, Scope.exprType?_of_missed missed⟩
  · have typed : scope.exprType? (.call receiver name args) = some type := by
      rw [Scope.exprType?_call missed, reaches, bind_some, returns]
    refine .inl ⟨typed, fun links => ?_⟩
    have followed : scope.exprDecl? (chain (.call receiver name args) links) =
        (scope.index.followCalls? type (links.map site)).bind scope.index.typeDecl? := by
      rw [Scope.exprDecl?, Scope.exprType?_chain, typed, bind_some]
    refine ⟨(scope.receiver?_chain receiver name args links).trans followed,
      fun next count callable => ?_⟩
    rw [scope.callSteps_chain receiver name args links callable, followed]

/-- A class that calls an inherited method and goes on with the result, once without a receiver and
once on `super`. -/
def workshop : List CompilationUnit :=
  let make : Method :=
    ⟨"make", [], [], some (.simple "Part"), [], [], [], false, "Part make() { return null; }"⟩
  let go : Method := ⟨"go", [], [], some .void, [], [], [], false, "void go() {}"⟩
  let walk : Method :=
    ⟨"walk", [], [], some .void, [], [], [.call (some (.call none "make" [])) "go" []], false,
      "void walk() { make().go(); }"⟩
  let run : Method :=
    ⟨"run", [], [], some .void, [], [], [.call (some (.call (some .superRef) "make" [])) "go" []],
      false, "void run() { super.make().go(); }"⟩
  [⟨"p/Main.java", some "p", [],
      [⟨"Main", "p.Main", .classType, none, "public class Main extends Base", none, [], [], [],
        [.simple "Base"], [.method walk, .method run], []⟩]⟩,
    ⟨"p/Base.java", some "p", [],
      [⟨"Base", "p.Base", .classType, none, "public class Base", none, [], [], [], [],
        [.method make], []⟩]⟩,
    ⟨"p/Part.java", some "p", [],
      [⟨"Part", "p.Part", .classType, none, "public class Part", none, [], [], [], [],
        [.method go], []⟩]⟩]

/-- The scope inside a type of a project. -/
def Scope.inside? (index : Index) (name : String) : Option Scope := do
  some (.ofOwner index (← index.unitOf? name) (← index.typeDecl? name))

/-- A call of the inherited method has the type that the method returns, and a call on it is looked
up there. -/
theorem inherited_call_type_follows_method :
    ∃ scope, Scope.inside? (Index.ofUnits workshop) "p.Main" = some scope ∧
      .need .call (.method "p.Base" "make" 0) ∈ scope.callSteps none "make" 0 ∧
      scope.index.returnType? (.method "p.Base" "make" 0) = some "p.Part" ∧
      scope.exprType? (.call none "make" []) = some "p.Part" ∧
      scope.callSteps (some (.call none "make" [])) "go" 0 =
        [.need .call (.method "p.Part" "go" 0)] := by
  obtain ⟨scope, isScope, found, returns⟩ :
    ∃ scope, Scope.inside? (Index.ofUnits workshop) "p.Main" = some scope ∧
      .need .call (.method "p.Base" "make" 0) ∈ scope.callSteps none "make" 0 ∧
      scope.index.returnType? (.method "p.Base" "make" 0) = some "p.Part" := ⟨_, rfl, .head _, rfl⟩
  refine ⟨scope, isScope, found, returns, ?_⟩
  rcases call_type_follows_method scope none "make" [] found returns
    with ⟨typed, looked⟩ | ⟨-, untyped⟩
  · cases isScope
    exact ⟨typed, (looked []).2 "go" 0 (by decide)⟩
  · cases isScope
    cases untyped

/-- The call on `super` finds its method and the type that it returns, but what is called on the
result is lost. -/
theorem super_call_breaks_chain : let index := Index.ofUnits workshop
    let outcome := Walk.start.solve index [⟨"p.Main", "run"⟩]
    (∃ scope, Scope.inside? index "p.Main" = some scope ∧
      .need .call (.method "p.Base" "make" 0) ∈ scope.callSteps (some .superRef) "make" 0 ∧
      index.returnType? (.method "p.Base" "make" 0) = some "p.Part" ∧
      scope.exprType? (.call (some .superRef) "make" []) = none) ∧
    outcome.2 = none ∧ .method "p.Base" "make" 0 ∈ outcome.1.registry.visitedKeys ∧
    .method "p.Part" "go" 0 ∉ outcome.1.registry.visitedKeys := by
  simp only [Registry.mem_visitedKeys_iff]
  exact ⟨⟨_, rfl, .head _, rfl, rfl⟩, by decide, by decide, by decide⟩

end Slice

end JavaSlice
