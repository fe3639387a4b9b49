import JavaSlice.Proofs.Closure
import JavaSlice.Proofs.Locals

/-!
# Why a declaration is kept

A slice keeps a declaration because a seed means it, or because something else that is kept refers
to it: another declaration, or the header of a type (`Walk.Justified`). That a method implements a
method of a kept interface is no such reason. Calls are followed by the type that their receiver has
in the source: the first method found from that type upwards is kept, so that a call on a receiver
of a class keeps the method of the class, and a call on a receiver of an interface keeps the method
of the interface alone.
-/

namespace JavaSlice.Slice

open List Source

variable {receiver : Expr} {decl : TypeDecl} {name : String}

/-! ## Every key found has a reason -/

namespace Walk

variable {index : Index} {seeds : List Seed} {walk : Walk}

/-- Every key found is that of a seed, or is needed by a task other than its own scan. -/
def Justified (index : Index) (seeds : List Seed) (walk : Walk) : Prop :=
  ∀ key ∈ walk.keys, (∃ seed ∈ seeds, index.resolveSeed? seed.owner seed.member = some key) ∨
    ∃ task, walk.Done task ∧ task ≠ .node key ∧
      Step.Needs index (Step.carried (task.steps index)) key

theorem justified_start (index : Index) : Justified index [] start := by
  intro key found
  exact absurd found not_mem_keys_start

theorem Justified.addSeed (justified : Justified index seeds walk) (seed : Seed) :
    Justified index (seeds ++ [seed]) (walk.addSeed index seed).2 := by
  intro key found
  rcases mem_keys_addSeed.mp found with known | resolved
  · rcases justified key known with ⟨earlier, mem, means⟩ | ⟨task, done, other, needs⟩
    · exact .inl ⟨earlier, mem_append_left _ mem, means⟩
    · exact .inr ⟨task, ((progress_addSeed index walk seed).done_iff task).mpr done, other, needs⟩
  · exact .inl ⟨seed, by simp, resolved⟩

/-- The task of a turn has been found before, so a key that the turn finds is not the one that it
scans. -/
theorem Justified.turn {next} (justified : Justified index seeds walk)
    (turn : Turn index walk task next error) : Justified index seeds next := by
  intro key found
  by_cases known : key ∈ walk.keys
  · rcases justified key known with seeded | ⟨earlier, done, other, needs⟩
    · exact .inl seeded
    · exact .inr ⟨earlier, (turn.done earlier).mpr (.inl done), other, needs⟩
  · refine .inr ⟨task, (turn.done task).mpr (.inr rfl), ?_,
      ((turn.keys key).mp found).resolve_left known⟩
    rintro rfl
    exact known turn.found

theorem justified_solve (named : index.Named) (seeds : List Seed) :
    Justified index seeds (start.solve index seeds).1 := by
  have seeded := addSeeds_invariant (Justified index) (fun _ _ seed held => held.addSeed seed)
    (justified_start index) seeds
  have coherent := (coherent_start index).addSeeds seeds
  obtain ⟨tasks, run, -⟩ := runs_run named coherent
  rw [solve_eq]
  exact run.invariant named (fun _ _ _ _ _ _ turn held => held.turn turn) coherent seeded

/-- A walk without an error keeps a declaration if and only if it has a reason to. -/
theorem Solved.visited_iff (solved : Solved index seeds walk)
    (justified : Justified index seeds walk) (key : Key) :
    key ∈ walk.registry.visitedKeys ↔
      (∃ seed ∈ seeds, index.resolveSeed? seed.owner seed.member = some key) ∨
      (∃ other ∈ walk.registry.visitedKeys, other ≠ key ∧ key ∈ scanFinds index other) ∨
      ∃ name ∈ walk.fileNames, key ∈ headerFinds index name := by
  simp only [Registry.mem_visitedKeys_iff, mem_scanFinds, mem_headerFinds]
  have done : ∀ task, walk.Found task ↔ walk.Done task := solved.found_iff_done
  have found : ∀ task, walk.Done task →
      ∀ key, Step.Needs index (Step.carried (task.steps index)) key → key ∈ walk.keys := by
    intro task taken key needs
    rw [Task.carried_eq (solved.settled.faultless task taken)] at needs
    exact solved.settled.found task taken key needs
  refine (done (.node key)).symm.trans ⟨fun known => ?_, ?_⟩
  · rcases justified key known with seeded | ⟨task, taken, other, needs⟩
    · exact .inl seeded
    · cases task with
      | node referrer =>
        exact .inr (.inl ⟨referrer, taken, fun same => other (congrArg _ same), needs⟩)
      | header name => exact .inr (.inr ⟨name, taken.1, needs⟩)
  · rintro (⟨seed, mem, means⟩ | ⟨referrer, taken, -, needs⟩ | ⟨name, file, needs⟩)
    · exact solved.tracks.seeds seed mem key means
    · exact found (.node referrer) taken key needs
    · exact found (.header name) ((done (.header name)).mp file) key needs

end Walk

/-! ## Calls keep the methods of the types of their receivers -/

/-- A call on an expression looks the method up on the type of the expression. -/
theorem Scope.callSteps_of_exprDecl? {scope : Scope}
    (own : scope.index.typeDecl? scope.owner.qualifiedName = some scope.owner)
    (typed : scope.exprDecl? receiver = some decl) (isMethod : name ≠ "<init>") (count : Nat) :
    scope.callSteps (some receiver) name count =
      needSteps .call (scope.index.findMethod? ⟨name, some count⟩ decl) := by
  rw [callSteps, if_neg (by simpa using isMethod)]
  cases receiver with
  | thisRef =>
    have same : scope.owner = decl := Option.some.inj (own.symm.trans typed)
    rw [same]
  | superRef => cases typed
  | _ => simp only [typed, Option.bind_some]

/-- A call of a method that the type of its receiver declares itself keeps that method. -/
theorem Walk.Solved.call_keeps_method {index : Index} (named : index.Named) {seeds : List Seed}
    {walk : Walk} (solved : walk.Solved index seeds) {task : Task} (taken : walk.Done task)
    {code : Code} (isCode : task.code? index = some code) {args : List Expr}
    (calls : .call (some receiver) name args ∈ code.terms) (isMethod : name ≠ "<init>")
    (typed : code.inner.exprDecl? receiver = some decl) {own : Method}
    (declared : own ∈ decl.methods) (sameName : own.name = name)
    (takes : own.takesExactly args.length) :
    .method decl.qualifiedName name args.length ∈ walk.registry.visitedKeys := by
  obtain ⟨sameIndex, -, sameOwner⟩ := Task.inner_of_code? isCode
  have present := (Task.outer_of_code? isCode).1
  have ownDecl : code.inner.index.typeDecl? code.inner.owner.qualifiedName =
      some code.inner.owner := by
    rw [sameIndex, sameOwner, named _ _ present, present]
  -- the call adds its method to the scan
  have needed : Step.need .call (.method decl.qualifiedName name args.length) ∈
      task.steps index := by
    obtain ⟨earlier, scanned⟩ := Task.steps_of_code? isCode
    rw [scanned]
    refine mem_append_right _ (mem_flatMap.mpr ⟨_, calls, ?_⟩)
    rw [Scope.subtermSteps, Scope.callSteps_of_exprDecl? ownDecl typed isMethod,
      Index.findMethod?_of_exact _ declared sameName takes]
    exact mem_singleton.mpr rfl
  have known : index.declares (.method decl.qualifiedName name args.length) = true := by
    obtain ⟨type, -, found⟩ := Option.bind_eq_some_iff.mp typed
    rw [sameIndex] at found
    have arity : own.arity = args.length := by simp_all [Method.takesExactly]
    have member := Index.declaresMember_method declared
    rw [sameName, arity] at member
    exact (Index.declares_iff index _).mpr
      ⟨decl, by rw [Key.owner, Key.method, named _ _ found, found], member⟩
  rw [Registry.mem_visitedKeys_iff]
  exact (solved.found_iff_done (.node _)).mp
    (solved.settled.found task taken _ ⟨⟨.call, needed⟩, known⟩)

/-! ## What is kept -/

/-- A declaration is kept exactly if a seed means it, or another kept declaration or the header of a
type with a file refers to it on its own. In particular, a method that takes exactly the arguments
of a call in kept code is kept if the type of the receiver declares it. -/
theorem kept_iff_referenced (units : List CompilationUnit) (seeds : List Seed)
    (ok : (Walk.start.solve (Index.ofUnits units) seeds).2 = none) :
    let index := Index.ofUnits units
    let walk := (Walk.start.solve index seeds).1
    (∀ key, key ∈ walk.registry.visitedKeys ↔
      (∃ seed ∈ seeds, index.resolveSeed? seed.owner seed.member = some key) ∨
      (∃ other ∈ walk.registry.visitedKeys, other ≠ key ∧ key ∈ scanFinds index other) ∨
      ∃ name ∈ walk.fileNames, key ∈ headerFinds index name) ∧
    ∀ task code, walk.Done task → task.code? index = some code →
      ∀ receiver name args decl, .call (some receiver) name args ∈ code.terms → name ≠ "<init>" →
        code.inner.exprDecl? receiver = some decl →
        (∃ own ∈ decl.methods, own.name = name ∧ own.takesExactly args.length = true) →
        .method decl.qualifiedName name args.length ∈ walk.registry.visitedKeys := by
  intro index walk
  have named := Index.named_ofUnits units
  have solved : walk.Solved index seeds := Walk.solved_solve named ok
  refine ⟨solved.visited_iff (Walk.justified_solve named seeds), ?_⟩
  intro task code taken isCode receiver name args decl calls isMethod typed
    ⟨own, declared, sameName, takes⟩
  exact solved.call_keeps_method named taken isCode calls isMethod typed declared sameName takes

/-- `Pong` calls `ping` on a `Ping`, which keeps the method of `Ping`. -/
theorem ping_kept_by_reference :
    (Walk.start.solve (Index.ofUnits pingPong) pingPongSeeds).2 = none ∧
      .method "game.Ping" "ping" 1 ∈
        (Walk.start.solve (Index.ofUnits pingPong) pingPongSeeds).1.registry.visitedKeys := by
  have ok : (Walk.start.solve (Index.ofUnits pingPong) pingPongSeeds).2 = none := by decide
  have taken : .method "game.Pong" "pong" 1 ∈
      (Walk.start.solve (Index.ofUnits pingPong) pingPongSeeds).1.scanned := by decide
  obtain ⟨-, calls⟩ := kept_iff_referenced pingPong pingPongSeeds ok
  exact ⟨ok, calls (.node (.method "game.Pong" "pong" 1)) _ taken rfl (.identifier "other") "ping"
    [.thisRef] _ (.head _) (by decide) rfl ⟨_, .head _, rfl, rfl⟩⟩

/-- A class that implements a method of an interface, and a method that calls it on the
interface. -/
def jobAndTask : List CompilationUnit :=
  let run : Method :=
    ⟨"run", [], [], some .void, [], [],
      [.declare (.simple "Job") [⟨"job", some (.create (.simple "Task") [] none)⟩],
        .group [.call (some (.identifier "job")) "go" []]],
      false, "void run() { Job job = new Task(); job.go(); }"⟩
  let abstractGo : Method := ⟨"go", [], [], some .void, [], [], [], false, "void go();"⟩
  let go : Method := ⟨"go", [], [], some .void, [], [], [], false, "public void go() {}"⟩
  [⟨"p/Main.java", some "p", [],
      [⟨"Main", "p.Main", .classType, none, "public class Main", none, [], [], [], [],
        [.method run], []⟩]⟩,
    ⟨"p/Job.java", some "p", [],
      [⟨"Job", "p.Job", .interfaceType, none, "public interface Job", none, [], [], [], [],
        [.method abstractGo], []⟩]⟩,
    ⟨"p/Task.java", some "p", [],
      [⟨"Task", "p.Task", .classType, none, "public class Task implements Job", none, [], [], [],
        [.simple "Job"], [.method go], []⟩]⟩]

/-- The class and the method of the interface are kept, and the method of the class that implements
it is not. -/
theorem implementation_not_kept : let index := Index.ofUnits jobAndTask
    let outcome := Walk.start.solve index [⟨"p.Main", "run"⟩]
    outcome.2 = none ∧
    (∃ task job, index.typeDecl? "p.Task" = some task ∧ index.typeDecl? "p.Job" = some job ∧
      job.kind = .interfaceType ∧ job.qualifiedName ∈ (index.lineage task).map (·.qualifiedName) ∧
      Index.declaresMember task (.method "go" 0) = true) ∧
    "p.Task" ∈ outcome.1.fileNames ∧
    .method "p.Job" "go" 0 ∈ outcome.1.registry.visitedKeys ∧
    .method "p.Task" "go" 0 ∉ outcome.1.registry.visitedKeys := by
  simp only [Registry.mem_visitedKeys_iff]
  exact ⟨by decide, ⟨_, _, rfl, rfl, rfl, by decide, rfl⟩, by decide, by decide, by decide⟩

end JavaSlice.Slice
