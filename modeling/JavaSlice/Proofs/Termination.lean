import JavaSlice.Proofs.Hierarchy
import JavaSlice.Proofs.Turn

/-!
# Every walk ends

A project has finitely many tasks: the scan of each key that it declares and of each header. A walk
only finds tasks of the project and takes up none of them twice, so that its turns are at most as
many. `Walk.turnBound` is greater than that number. Hence the bound never stops a walk: it ends in
an error or with nothing left to do.

The scans themselves are bounded in two places, when enclosing types are listed and when supertypes
are searched. Neither bound is reached either.
-/

namespace JavaSlice

open List Source Slice

/-! ## The tasks of a project -/

namespace Index

/-- The scans that a project allows: one for each declared key and one for each header. -/
def tasks (index : Index) : List Task :=
  index.declaredKeys.map .node ++ index.types.map (.header ·.2.decl.qualifiedName)

theorem length_keysOf (owner : String) (decl : TypeDecl) :
    (keysOf owner decl).length = Walk.keyCount decl := by
  simp only [keysOf, Walk.keyCount, length_cons, length_append, length_flatMap,
    length_map]
  omega

/-- The number of tasks of a project. -/
theorem length_tasks (index : Index) :
    index.tasks.length = index.types.total (Walk.keyCount ·.decl + 1) := by
  rw [tasks, length_append, length_map, length_map, declaredKeys]
  induction index.types with
  | nil => rfl
  | cons entry rest ih =>
    simp only [flatMap_cons, length_append, length_cons, Table.total, length_keysOf]
    omega

theorem length_tasks_lt_turnBound (index : Index) (walk : Walk) :
    index.tasks.length < walk.turnBound index := by
  rw [length_tasks]
  exact Nat.lt_succ_of_le (Nat.le_add_left _ _)

end Index

namespace Slice.Walk

variable {index : Index} {walk : Walk}

theorem Coherent.mem_tasks (coherent : walk.Coherent index) (found : walk.Found task) :
    task ∈ index.tasks := by
  rw [Index.tasks, mem_append]
  cases task with
  | node key =>
    have declared := coherent.declared key found
    exact .inl (mem_map_of_mem (Index.mem_declaredKeys declared))
  | header name =>
    obtain ⟨key, -, decl, present, type, around, rfl⟩ := (coherent.files name).mp found
    obtain ⟨other, known⟩ :=
      Index.typeDecl?_of_encloses present (Index.encloses_of_mem_scopeTypes around)
    obtain ⟨entry, stored, rfl⟩ := Option.map_eq_some_iff.mp known
    exact .inr (mem_map.mpr ⟨(other, entry), Table.mem_of_get? stored, rfl⟩)

/-- Files belong to types of the project. -/
theorem Coherent.hasType (named : index.Named) (coherent : walk.Coherent index)
    (present : name ∈ walk.fileNames) : index.hasType name := by
  obtain ⟨key, -, decl, found, type, around, rfl⟩ := (coherent.files name).mp present
  obtain ⟨other, known⟩ :=
    Index.typeDecl?_of_encloses found (Index.encloses_of_mem_scopeTypes around)
  rw [named other type known, Index.hasType, Table.has_iff]
  exact Index.mem_names_of_typeDecl? known

/-- A run carries out tasks of the project only. -/
theorem Runs.mem_tasks (named : index.Named) (run : Runs index walk tasks final error)
    (coherent : walk.Coherent index) : ∀ task ∈ tasks, task ∈ index.tasks := by
  refine run.turn_induction named (motive := fun _ tasks _ _ => ∀ task ∈ tasks, task ∈ index.tasks)
    ?_ ?_ ?_ coherent
  · simp
  · intro walk task next error coherent turn
    simpa using coherent.mem_tasks turn.found
  · intro walk task next tasks final error coherent turn ih
    exact forall_mem_cons.mpr ⟨coherent.mem_tasks turn.found, ih⟩

/-! ## Termination -/

/-- A coherent walk runs to its end. -/
theorem runs_run (named : index.Named) (coherent : walk.Coherent index) :
    ∃ tasks, Runs index walk tasks (walk.run index).1 (walk.run index).2 ∧
      Ended index (walk.run index).1 (walk.run index).2 := by
  obtain ⟨tasks, run, ended | full⟩ := runs_turns named (walk.turnBound index) coherent
  · exact ⟨tasks, run, ended⟩
  · -- as many distinct tasks as the bound allows would be more than the project has
    exfalso
    have few := ((run.fresh named coherent).1.subperm (run.mem_tasks named coherent)).length_le
    have bound := index.length_tasks_lt_turnBound walk
    omega

end Slice.Walk

namespace Slice

variable {tasks : List Task}

/-- The keys of the nodes that some tasks scan, in order. -/
def Task.keys (tasks : List Task) : List Key :=
  tasks.filterMap fun
    | .node key => some key
    | .header _ => none

/-- The names of the types whose headers some tasks scan, in order. -/
def Task.headers (tasks : List Task) : List String :=
  tasks.filterMap fun
    | .node _ => none
    | .header name => some name

theorem Task.mem_keys {key} : key ∈ Task.keys tasks ↔ .node key ∈ tasks := by
  rw [Task.keys, mem_filterMap]
  constructor
  · rintro ⟨task, mem, same⟩
    cases task with
    | node other => exact Option.some.inj same ▸ mem
    | header name => cases same
  · exact fun mem => ⟨.node key, mem, rfl⟩

theorem Task.mem_headers : name ∈ Task.headers tasks ↔ .header name ∈ tasks := by
  rw [Task.headers, mem_filterMap]
  constructor
  · rintro ⟨task, mem, same⟩
    cases task with
    | node key => cases same
    | header other => exact Option.some.inj same ▸ mem
  · exact fun mem => ⟨.header name, mem, rfl⟩

theorem Task.keys_nodup (distinct : tasks.Nodup) : (Task.keys tasks).Nodup := by
  refine distinct.filterMap ?_
  intro first second key isFirst isSecond
  cases first <;> cases second <;> simp_all

theorem Task.headers_nodup (distinct : tasks.Nodup) : (Task.headers tasks).Nodup := by
  refine distinct.filterMap ?_
  intro first second name isFirst isSecond
  cases first <;> cases second <;> simp_all

/-- In a project whose outer names have no cycle, every walk ends, whatever cycles calls, fields and
headers form. It makes at most one scan for each declared key and one for each header, and it stops
at an error or with nothing left to do. The listing of enclosing types and the search through
supertypes, on which scans rest, run to their ends too. -/
theorem solve_terminates (units : List CompilationUnit)
    (acyclic : (Index.ofUnits units).OuterAcyclic) (seeds : List Seed) :
    let index := Index.ofUnits units
    let outcome := Walk.start.solve index seeds
    (∃ tasks, Walk.Runs index (Walk.start.addSeeds index seeds) tasks outcome.1 outcome.2 ∧
      (Task.keys tasks).Nodup ∧ (∀ key ∈ Task.keys tasks, index.declares key = true) ∧
      (Task.headers tasks).Nodup ∧ (∀ name ∈ Task.headers tasks, index.hasType name = true)) ∧
    (outcome.2.isSome ∨ outcome.1.pending = [] ∧ outcome.1.registry.workList = []) ∧
    (∀ decl, index.Chain decl.outer (index.enclosingTypes decl)) ∧
    ∀ decl, index.Searches [] [decl] (index.lineage decl) := by
  intro index outcome
  have named := Index.named_ofUnits units
  have seeded := (Walk.coherent_start index).addSeeds seeds
  obtain ⟨tasks, run, ended⟩ := Walk.runs_run named seeded
  have distinct := (run.fresh named seeded).1
  have final := run.coherent named seeded
  have done : ∀ task ∈ tasks, outcome.1.Done task := fun task membership =>
    (run.done_iff named seeded task).mpr (.inr membership)
  refine ⟨⟨tasks, run, Task.keys_nodup distinct, ?_, Task.headers_nodup distinct, ?_⟩, ?_,
    Index.chain_enclosingTypes acyclic, Index.searches_lineage index⟩
  · intro key membership
    have scanned := done _ (Task.mem_keys.mp membership)
    exact final.declared key ((Registry.scanned_sublist_keys _).subset scanned)
  · intro name membership
    have settled := done _ (Task.mem_headers.mp membership)
    exact final.hasType named settled.1
  · refine ended.imp_right fun idle => ?_
    exact (Walk.turn?_eq_none_iff final).mp idle

/-- A project of two files with a cycle of calls and one of supertypes, a member type, a field
declaration of two names, and a method that cannot be scanned. -/
def pingPong : List CompilationUnit :=
  let ping : Method :=
    ⟨"ping", [], [], some .void, [⟨"other", .simple "Pong", []⟩], [],
      [.call (some (.identifier "other")) "pong" [.thisRef]], false, "void ping(Pong other) {}"⟩
  let pong : Method :=
    ⟨"pong", [], [], some .void, [⟨"other", .simple "Ping", []⟩], [],
      [.call (some (.identifier "other")) "ping" [.thisRef], .identifier "right"], false,
      "void pong(Ping other) {}"⟩
  let broken : Method :=
    ⟨"broken", [], [], some .void, [], [], [.unsupported "ERROR" 7], false, "void broken() {}"⟩
  let sides : Field := ⟨["left", "right"], .simple "List", [], [], "List left, right;"⟩
  let core : TypeDecl :=
    ⟨"Core", "game.Ping.Core", .classType, some "game.Ping", "class Core", none, [], [], [], [],
      [.method ping], []⟩
  [⟨"Ping.java", some "game", [⟨"java.util.List", false, false⟩],
      [⟨"Ping", "game.Ping", .classType, none, "class Ping extends Pong", none, [], [], [],
        [.simple "Pong"], [.field sides, .method ping, .method broken], [core]⟩]⟩,
    ⟨"Pong.java", some "game", [],
      [⟨"Pong", "game.Pong", .classType, none, "class Pong extends Ping", none, [], [], [],
        [.simple "Ping"], [.method pong], []⟩]⟩]

/-- Seeds in it, one of which means nothing. -/
def pingPongSeeds : List Seed :=
  [⟨"game.Ping.Core", "ping"⟩, ⟨"game.Pong", "pong"⟩, ⟨"game.Nowhere", "ping"⟩]

/-- Calls and supertypes in a circle do not keep a walk from ending. -/
theorem solve_pingPong_terminates :
    (Index.ofUnits pingPong).OuterAcyclic ∧
      let outcome := Walk.start.solve (Index.ofUnits pingPong) pingPongSeeds
      outcome.2.isSome ∨ outcome.1.pending = [] ∧ outcome.1.registry.workList = [] := by
  have acyclic : (Index.ofUnits pingPong).OuterAcyclic := Index.outerAcyclic_of_isNested (by decide)
  exact ⟨acyclic, (solve_terminates pingPong acyclic pingPongSeeds).2.1⟩

end Slice

end JavaSlice
