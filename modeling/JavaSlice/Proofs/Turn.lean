import JavaSlice.Proofs.Discovery

/-!
# Turns and runs

A walk carries out *tasks*: the scan of the header of a type and the scan of a node. A turn takes
the next task and carries out its steps up to the first that fails. `Turn` says everything that a
turn of a coherent walk does. It is read off once, from `Progress`, and all properties of whole
walks follow from it by induction over `Runs`, a number of turns with the tasks that they carry out.

`Runs` has no bound on the number of turns. The bound of `Walk.run` is a matter of termination.
-/

namespace JavaSlice.Slice

open List Source

/-! ## Tasks -/

/-- Something that is scanned. -/
inductive Task where
  /-- The header of a type. -/
  | header (name : String)
  /-- A declaration. -/
  | node (key : Key)
deriving DecidableEq, Repr, Inhabited

namespace Task

/-- The type into whose file the scan writes. -/
def owner : Task → String
  | .header name => name
  | .node key => key.owner

/-- The key on which a fault is reported. -/
def key : Task → Key
  | .header name => .type name
  | .node key => key

/-- The steps of the scan. -/
def steps (index : Index) : Task → List Step
  | .header name => scanHeader index name
  | .node key => scan index key

/-- The error at which the scan stops, if it does. -/
def error? (index : Index) (task : Task) : Option ScanError :=
  ((task.steps index).findSome? Step.fault?).map (⟨task.key, ·⟩)

end Task

namespace Walk

variable {index : Index} {walk final : Walk} {number : Nat} {error : Option ScanError}
  {tasks : List Task}

/-- A task has been found: its type has a file or its key has a node. -/
def Found (walk : Walk) : Task → Prop
  | .header name => name ∈ walk.fileNames
  | .node key => key ∈ walk.keys

/-- A task has been taken up. -/
def Done (walk : Walk) : Task → Prop
  | .header name => name ∈ walk.fileNames ∧ name ∉ walk.pendingNames
  | .node key => key ∈ walk.scanned

/-- Steps of a scan find tasks and take up none. -/
theorem Progress.done_iff {owner steps before after}
    (progress : Progress index owner steps before after) (task : Task) :
    after.Done task ↔ before.Done task := by
  cases task with
  | header name =>
    -- a file that is made waits, so its header counts as not taken up
    simp only [Done, progress.pending]
    constructor
    · rintro ⟨present, settled⟩
      rw [not_or, not_and_not_right] at settled
      exact ⟨settled.2 present, settled.1⟩
    · rintro ⟨present, settled⟩
      refine ⟨progress.mem_fileNames present, ?_⟩
      rintro (waits | ⟨-, absent⟩)
      · exact settled waits
      · exact absent present
  | node key => simp only [Done, progress.scanned]

/-! ## Taking a task -/

/-- The next task, with the node on whose behalf it is carried out, and the walk that has taken
it. -/
def take? (walk : Walk) : Option (Task × Nat × Walk) :=
  match walk.pending with
  | (name, number) :: rest => some (.header name, number, { walk with pending := rest })
  | [] =>
    match walk.registry.workList with
    | [] => none
    | number :: rest =>
      walk.registry.nodes[number]?.map fun node =>
        (.node node.key, number, { walk with registry := walk.registry.taken number node rest })

/-- The task that the next turn carries out. -/
def task? (walk : Walk) : Option Task :=
  walk.take?.map (·.1)

/-- A turn of a coherent walk takes the next task and carries out its steps. -/
theorem turn?_eq (coherent : walk.Coherent index) :
    walk.turn? index = walk.take?.map fun (task, number, popped) =>
      ((Step.carried (task.steps index)).foldl (advance index number task.owner) popped,
        task.error? index) := by
  cases waits : walk.pending with
  | cons entry rest =>
    simp only [turn?, take?, waits, scanPending, report, performAll_eq, Option.map_some]
    rfl
  | nil =>
    cases next : walk.registry.workList with
    | nil => simp only [turn?, take?, waits, next, Registry.pop, Option.map_none]
    | cons number rest =>
      obtain ⟨node, found, unvisited⟩ := coherent.registry.next next
      simp only [turn?, take?, waits, next, Registry.pop, Registry.markVisited, found, Node.mark,
        unvisited, Bool.not_false, Option.map_some, scanNode, report, performAll_eq]
      rfl

theorem take?_eq_none_iff (coherent : walk.Coherent index) :
    walk.take? = none ↔ walk.pending = [] ∧ walk.registry.workList = [] := by
  unfold take?
  split
  next waits => simp [waits]
  next none =>
    split
    next drained => simp [none, drained]
    next number rest next =>
      obtain ⟨node, found, -⟩ := coherent.registry.next next
      simp [found, next]

/-- What a walk that has taken a task has in common with the walk before. -/
structure Takes (index : Index) (walk : Walk) (task : Task) (popped : Walk) : Prop where
  keys : popped.keys = walk.keys
  files : popped.registry.files = walk.registry.files
  found : walk.Found task
  fresh : ¬ walk.Done task
  done : ∀ other, popped.Done other ↔ walk.Done other ∨ other = task
  coherent : popped.Coherent index

section

variable (coherent : walk.Coherent index)
include coherent

theorem takes_header (next : walk.pending = (name, number) :: rest) :
    Takes index walk (.header name) { walk with pending := rest } := by
  have names : walk.pendingNames = name :: rest.map (·.1) := by simp [pendingNames, next]
  have once := coherent.once.pending
  rw [names, nodup_cons] at once
  have present : name ∈ walk.fileNames := coherent.once.pendingFiles name (by simp [names])
  refine ⟨rfl, rfl, present, ?_, ?_, ?_⟩
  · rintro ⟨-, settled⟩
    exact settled (by simp [names])
  · intro other
    cases other with
    | header other =>
      simp only [Done, names, mem_cons, not_or, Task.header.injEq]
      constructor
      · rintro ⟨known, settled⟩
        by_cases same : other = name
        · exact .inr same
        · exact .inl ⟨known, same, settled⟩
      · rintro (⟨known, -, settled⟩ | rfl)
        · exact ⟨known, settled⟩
        · exact ⟨present, once.1⟩
    | node key => simp [Done, scanned]
  · refine ⟨coherent.registry, ⟨coherent.once.files, once.2, ?_⟩, coherent.declared, coherent.files⟩
    intro other waits
    exact coherent.once.pendingFiles other (names ▸ mem_cons_of_mem name waits)

theorem takes_node (next : walk.registry.workList = number :: rest)
    (found : walk.registry.nodes[number]? = some node) (unvisited : node.visited = false) :
    Takes index walk (.node node.key)
      { walk with registry := walk.registry.taken number node rest } := by
  refine ⟨Registry.taken_keys found rest, rfl, ?_, ?_, ?_, ?_⟩
  · exact Registry.mem_keys_iff.mpr ⟨number, node, found, rfl⟩
  · exact coherent.registry.not_mem_scanned found unvisited
  · intro other
    cases other with
    | header name => simp [Done, fileNames, pendingNames, Registry.taken]
    | node key => simpa [Done, scanned] using Registry.mem_scanned_taken found rest
  · have once : FilesOnce { walk with registry := walk.registry.taken number node rest } :=
      ⟨coherent.once.files, coherent.once.pending, coherent.once.pendingFiles⟩
    refine ⟨coherent.registry.taken next found, once, ?_, ?_⟩
    · simp only [keys, Registry.taken_keys found rest]
      exact coherent.declared
    · simp only [keys, Registry.taken_keys found rest]
      exact coherent.files

theorem takes_of_take?
    (taken : walk.take? = some (task, number, popped)) : Takes index walk task popped := by
  unfold take? at taken
  split at taken
  next name origin rest next =>
    cases taken
    exact takes_header coherent next
  next _ =>
    split at taken
    next _ => cases taken
    next origin rest next =>
      obtain ⟨node, found, unvisited⟩ := coherent.registry.next next
      rw [found, Option.map_some, Option.some.injEq] at taken
      cases taken
      exact takes_node coherent next found unvisited

end

/-! ## Turns -/

/-- Everything that a turn of a coherent walk does. -/
structure Turn (index : Index) (walk : Walk) (task : Task) (next : Walk)
    (error : Option ScanError) : Prop where
  found : walk.Found task
  fresh : ¬ walk.Done task
  done : ∀ other, next.Done other ↔ walk.Done other ∨ other = task
  keys : ∀ key, key ∈ next.keys ↔
    key ∈ walk.keys ∨ Step.Needs index (Step.carried (task.steps index)) key
  kept : ∀ name file, walk.registry.file? name = some file →
    next.registry.file? name = some
      (if name = task.owner then (Step.carried (task.steps index)).foldl OutputFile.takeIn file
        else file)
  made : ∀ name file, name ∉ walk.fileNames → next.registry.file? name = some file →
    MakesFile index name file
  coherent : next.Coherent index
  error : error = task.error? index

/-- The file of the type that a task belongs to is there when the task is taken. -/
theorem Coherent.owner_mem_fileNames (coherent : walk.Coherent index) (named : index.Named)
    (found : walk.Found task) : task.owner ∈ walk.fileNames := by
  cases task with
  | header name => exact found
  | node key =>
    obtain ⟨decl, present, -⟩ := (Index.declares_iff index key).mp (coherent.declared key found)
    refine (coherent.files _).mpr ⟨key, found, decl, present, decl, mem_cons_self, ?_⟩
    exact named _ _ present

theorem turn_of_turn? {next} (named : index.Named) (coherent : walk.Coherent index)
    (turned : walk.turn? index = some (next, error)) :
    ∃ task, walk.task? = some task ∧ Turn index walk task next error := by
  rw [turn?_eq coherent, Option.map_eq_some_iff] at turned
  obtain ⟨⟨task, number, popped⟩, taken, outcome⟩ := turned
  obtain ⟨rfl, rfl⟩ := Prod.mk.inj outcome
  have takes := takes_of_take? coherent taken
  have sameFiles : ∀ name, popped.registry.file? name = walk.registry.file? name := by
    intro name
    rw [Registry.file?, takes.files, Registry.file?]
  have sameNames : popped.fileNames = walk.fileNames := by rw [fileNames, takes.files, fileNames]
  have present : task.owner ∈ popped.fileNames := by
    rw [sameNames]
    exact coherent.owner_mem_fileNames named takes.found
  have progress := progress_foldl index number (Step.carried (task.steps index)) present
  refine ⟨task, by rw [task?, taken, Option.map_some], takes.found, takes.fresh, ?_, ?_, ?_, ?_,
    ?_, rfl⟩
  · intro other
    rw [progress.done_iff, takes.done]
  · intro key
    rw [progress.keys, takes.keys]
  · intro name file known
    exact progress.kept name file (by rw [sameFiles, known])
  · intro name file absent known
    exact progress.made name file (by rwa [sameNames]) known
  · exact takes.coherent.foldl number task.owner _

theorem turn?_eq_none_iff (coherent : walk.Coherent index) :
    walk.turn? index = none ↔ walk.pending = [] ∧ walk.registry.workList = [] := by
  rw [turn?_eq coherent, Option.map_eq_none_iff, take?_eq_none_iff coherent]

/-! ## Runs -/

/-- A number of turns, with the tasks that they carry out; an error ends the run. -/
inductive Runs (index : Index) : Walk → List Task → Walk → Option ScanError → Prop where
  | stop {walk : Walk} : Runs index walk [] walk none
  | failed {walk next : Walk} {task : Task} {error : ScanError} :
      walk.task? = some task → walk.turn? index = some (next, some error) →
      Runs index walk [task] next (some error)
  | turn {walk next final : Walk} {task : Task} {tasks : List Task} {error : Option ScanError} :
      walk.task? = some task → walk.turn? index = some (next, none) →
      Runs index next tasks final error → Runs index walk (task :: tasks) final error

/-- A run ends in an error or with nothing left to do. -/
def Ended (index : Index) (final : Walk) (error : Option ScanError) : Prop :=
  error.isSome ∨ final.turn? index = none

section

variable (named : index.Named)
include named

/-- Under any bound the turns of a coherent walk end, or there is a task for each turn of the
bound. -/
theorem runs_turns (bound : Nat) (coherent : walk.Coherent index) :
    ∃ tasks, Runs index walk tasks (turns index bound walk).1 (turns index bound walk).2 ∧
      (Ended index (turns index bound walk).1 (turns index bound walk).2 ∨
        tasks.length = bound) := by
  induction bound generalizing walk with
  | zero => exact ⟨[], .stop, .inr rfl⟩
  | succ bound ih =>
    rw [turns]
    split
    next idle => exact ⟨[], .stop, .inl (.inr idle)⟩
    next next error turned =>
      obtain ⟨task, isNext, -⟩ := turn_of_turn? named coherent turned
      exact ⟨[task], .failed isNext turned, .inl (.inl rfl)⟩
    next next turned =>
      obtain ⟨task, isNext, turn⟩ := turn_of_turn? named coherent turned
      obtain ⟨tasks, run, outcome⟩ := ih turn.coherent
      refine ⟨task :: tasks, .turn isNext turned run, ?_⟩
      rw [length_cons, Nat.add_right_cancel_iff]
      exact outcome

/-- Induction over the turns of a coherent walk. -/
theorem Runs.turn_induction
    {motive : Walk → List Task → Walk → Option ScanError → Prop}
    (stop : ∀ walk, walk.Coherent index → motive walk [] walk none)
    (failed : ∀ walk task next error, walk.Coherent index → Turn index walk task next (some error) →
      motive walk [task] next (some error))
    (turn : ∀ walk task next tasks final error, walk.Coherent index →
      Turn index walk task next none → motive next tasks final error →
        motive walk (task :: tasks) final error)
    (run : Runs index walk tasks final error) (coherent : walk.Coherent index) :
    motive walk tasks final error := by
  induction run with
  | stop => exact stop _ coherent
  | failed isNext turned =>
    obtain ⟨task, same, made⟩ := turn_of_turn? named coherent turned
    rw [isNext, Option.some.injEq] at same
    exact failed _ _ _ _ coherent (same ▸ made)
  | turn isNext turned _ ih =>
    obtain ⟨task, same, made⟩ := turn_of_turn? named coherent turned
    rw [isNext, Option.some.injEq] at same
    exact turn _ _ _ _ _ _ coherent (same ▸ made) (ih made.coherent)

/-- What every turn keeps, a run keeps. -/
theorem Runs.invariant {holds : Walk → Prop}
    (step : ∀ walk task next fault, fault = none ∨ fault = error → walk.Coherent index →
      Turn index walk task next fault → holds walk → holds next)
    (run : Runs index walk tasks final error) (coherent : walk.Coherent index)
    (initially : holds walk) :
    holds final := by
  refine run.turn_induction named
    (motive := fun walk _ final reason => reason = error → holds walk → holds final) ?_ ?_ ?_
      coherent rfl initially
  · exact fun _ _ _ held => held
  · exact fun walk task next _ coherent turn same held =>
      step walk task next _ (.inr same) coherent turn held
  · exact fun walk task next _ _ _ coherent turn ih same held =>
      ih same (step walk task next none (.inl rfl) coherent turn held)

theorem Runs.coherent (run : Runs index walk tasks final error)
    (coherent : walk.Coherent index) : final.Coherent index :=
  run.invariant named (fun _ _ _ _ _ _ turn _ => turn.coherent) coherent coherent

/-- After a run exactly the tasks of the run have been taken up in addition. -/
theorem Runs.done_iff (run : Runs index walk tasks final error)
    (coherent : walk.Coherent index) : ∀ task, final.Done task ↔ walk.Done task ∨ task ∈ tasks := by
  refine run.turn_induction named
    (motive := fun walk tasks final _ => ∀ task, final.Done task ↔ walk.Done task ∨ task ∈ tasks)
    ?_ ?_ ?_ coherent
  · intro walk _ task
    simp
  · intro walk task next error _ turn other
    rw [turn.done, mem_singleton]
  · intro walk task next tasks final error _ turn ih other
    rw [ih, turn.done, mem_cons, or_assoc]

/-- A run takes up nothing twice, and nothing that was taken up before. -/
theorem Runs.fresh (run : Runs index walk tasks final error)
    (coherent : walk.Coherent index) : tasks.Nodup ∧ ∀ task ∈ tasks, ¬ walk.Done task := by
  refine run.turn_induction named
    (motive := fun walk tasks _ _ => tasks.Nodup ∧ ∀ task ∈ tasks, ¬ walk.Done task) ?_ ?_ ?_
      coherent
  · simp
  · intro walk task next error _ turn
    simpa using turn.fresh
  · intro walk task next tasks final error _ turn ⟨distinct, later⟩
    refine ⟨nodup_cons.mpr ⟨fun again => ?_, distinct⟩, ?_⟩
    · exact later task again ((turn.done task).mpr (.inr rfl))
    · intro other mem done
      rcases mem_cons.mp mem with rfl | further
      · exact turn.fresh done
      · exact later other further ((turn.done other).mpr (.inl done))

end

end Walk

end JavaSlice.Slice
