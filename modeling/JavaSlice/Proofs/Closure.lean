import JavaSlice.Proofs.Termination
import Mathlib.Data.List.TakeWhile
import Mathlib.Order.Bounds.Basic

/-!
# The closure that a walk computes

What a declaration needs is found by scanning it alone, in a walk that has found nothing yet:
`scanFinds` are the keys that its scan finds, and `headerFinds` those that the scan of a header
finds. `Needed` is the least set of keys with the declarations of some seeds that is closed under
both, where a key brings with it the headers of its owner and of all types around it.

A walk that ends without an error has scanned exactly the needed keys (`solve_visits_closure`). The
argument has two halves. At any time a walk has found needed keys only (`Walk.Tracks`). And every
task that has been taken up without an error has found all that it needs (`Walk.Settled`), so that
at the end, when all tasks have been taken up, the keys found are closed. The order of the tasks
plays no part in either.
-/

namespace JavaSlice.Slice

open List Source

variable {final : Walk} {tasks : List Task}
variable {index : Index} {key other : Key} {seeds : List Seed} {task : Task}
variable {number : Nat} {name : String} {more : List Seed}

/-! ## Scans on their own -/

/-- The keys that the scan of a key finds where nothing has been found before. -/
def scanFinds (index : Index) (key : Key) : List Key :=
  (Walk.start.scanNode index 0 key).1.keys

/-- The keys that the scan of a header finds where nothing has been found before. -/
def headerFinds (index : Index) (name : String) : List Key :=
  (Walk.start.scanPending index name 0).1.keys

/-- A scan adds the keys that it needs. -/
theorem mem_keys_scanNode {walk : Walk} :
    other ∈ (walk.scanNode index number key).1.keys ↔
      other ∈ walk.keys ∨ Step.Needs index (Step.carried (scan index key)) other := by
  rw [Walk.scanNode, Walk.performAll_eq]
  exact Walk.mem_keys_foldl_advance index number key.owner _ walk other

theorem mem_keys_scanPending {walk : Walk} :
    other ∈ (walk.scanPending index name number).1.keys ↔
      other ∈ walk.keys ∨ Step.Needs index (Step.carried (scanHeader index name)) other := by
  rw [Walk.scanPending, Walk.performAll_eq]
  exact Walk.mem_keys_foldl_advance index number name _ walk other

theorem not_mem_keys_start : key ∉ Walk.start.keys :=
  not_mem_nil

theorem mem_scanFinds :
    other ∈ scanFinds index key ↔ Step.Needs index (Step.carried (scan index key)) other := by
  rw [scanFinds, mem_keys_scanNode, or_iff_right not_mem_keys_start]

theorem mem_headerFinds :
    other ∈ headerFinds index name ↔
      Step.Needs index (Step.carried (scanHeader index name)) other := by
  rw [headerFinds, mem_keys_scanPending, or_iff_right not_mem_keys_start]

/-! ## The closure -/

/-- A set of keys holds the declarations of some seeds and all that its own keys bring with them. -/
structure Closed (index : Index) (seeds : List Seed) (found : Set Key) : Prop where
  seeds : ∀ seed ∈ seeds, ∀ key, index.resolveSeed? seed.owner seed.member = some key → key ∈ found
  scans : ∀ key ∈ found, ∀ other ∈ scanFinds index key, other ∈ found
  headers : ∀ key ∈ found, ∀ decl, index.typeDecl? key.owner = some decl →
    ∀ type, index.Encloses type decl → ∀ other ∈ headerFinds index type.qualifiedName, other ∈ found

/-- The keys that some seeds need. -/
inductive Needed (index : Index) (seeds : List Seed) : Key → Prop where
  | seed {seed : Seed} {key : Key} :
      seed ∈ seeds → index.resolveSeed? seed.owner seed.member = some key → Needed index seeds key
  | scan {key other : Key} :
      Needed index seeds key → other ∈ scanFinds index key → Needed index seeds other
  | header {key other : Key} {decl type : TypeDecl} :
      Needed index seeds key → index.typeDecl? key.owner = some decl → index.Encloses type decl →
      other ∈ headerFinds index type.qualifiedName → Needed index seeds other

/-- What is needed is the least closed set. -/
theorem needed_isLeast (index : Index) (seeds : List Seed) :
    IsLeast {found | Closed index seeds found} {key | Needed index seeds key} := by
  constructor
  · exact
      { seeds := fun seed mem key resolved => .seed mem resolved
        scans := fun key needed other found => .scan needed found
        headers := fun key needed decl present type around other found =>
          .header needed present around found }
  · intro found closed key needed
    induction needed with
    | seed mem resolved => exact closed.seeds _ mem _ resolved
    | scan _ finds ih => exact closed.scans _ ih _ finds
    | header _ present around finds ih =>
      exact closed.headers _ ih _ present _ around _ finds

/-- More seeds need more. -/
theorem Needed.mono (subset : ∀ seed ∈ seeds, seed ∈ more) (needed : Needed index seeds key) :
    Needed index more key := by
  induction needed with
  | seed mem resolved => exact .seed (subset _ mem) resolved
  | scan _ finds ih => exact .scan ih finds
  | header _ present around finds ih => exact .header ih present around finds

/-- A task that some seeds need: the scan of a needed key, or of the header of a type around one. -/
def Task.Needed (index : Index) (seeds : List Seed) : Task → Prop
  | .node key => Slice.Needed index seeds key
  | .header name => ∃ key decl type, Slice.Needed index seeds key ∧
      index.typeDecl? key.owner = some decl ∧ index.Encloses type decl ∧ type.qualifiedName = name

/-- More seeds need more. -/
theorem Task.Needed.mono (subset : ∀ seed ∈ seeds, seed ∈ more) (needed : task.Needed index seeds) :
    task.Needed index more := by
  cases task with
  | node key => exact Slice.Needed.mono subset needed
  | header name =>
    obtain ⟨key, decl, type, owner, present, around, same⟩ := needed
    exact ⟨key, decl, type, owner.mono subset, present, around, same⟩

/-- What the steps of a needed task need, up to the first that fails, is needed. -/
theorem Task.Needed.of_needs (needed : task.Needed index seeds)
    (needs : Step.Needs index (Step.carried (task.steps index)) key) :
    Slice.Needed index seeds key := by
  cases task with
  | node owner => exact .scan needed (mem_scanFinds.mpr needs)
  | header name =>
    obtain ⟨owner, decl, type, ownerNeeded, present, around, rfl⟩ := needed
    exact .header ownerNeeded present around (mem_headerFinds.mpr needs)

namespace Walk

variable {index : Index} {seeds : List Seed} {walk : Walk} {error : Option ScanError}

/-! ## A walk finds what is needed -/

/-- At any time a walk has found the declarations of its seeds, and needed keys only. -/
structure Tracks (index : Index) (seeds : List Seed) (walk : Walk) : Prop where
  coherent : walk.Coherent index
  needed : ∀ key ∈ walk.keys, Needed index seeds key
  seeds : ∀ seed ∈ seeds, ∀ key, index.resolveSeed? seed.owner seed.member = some key →
    key ∈ walk.keys

theorem tracks_start (index : Index) : Tracks index [] start where
  coherent := coherent_start index
  needed := fun _ found => absurd found not_mem_keys_start
  seeds := fun _ mem => absurd mem not_mem_nil

section

variable (tracks : Tracks index seeds walk)
include tracks

theorem Tracks.addSeed (seed : Seed) :
    Tracks index (seeds ++ [seed]) (walk.addSeed index seed).2 where
  coherent := tracks.coherent.addSeed seed
  needed := by
    intro key found
    rcases mem_keys_addSeed.mp found with known | resolved
    · exact (tracks.needed key known).mono fun _ => mem_append_left _
    · exact .seed (mem_append_right _ (mem_singleton.mpr rfl)) resolved
  seeds := by
    intro other mem key resolved
    rw [mem_keys_addSeed]
    rcases mem_append.mp mem with earlier | last
    · exact .inl (tracks.seeds other earlier key resolved)
    · rw [mem_singleton.mp last] at resolved
      exact .inr resolved

theorem Tracks.addSeeds (more : List Seed) :
    Tracks index (seeds ++ more) (walk.addSeeds index more) :=
  addSeeds_invariant (Tracks index) (fun _ _ seed held => held.addSeed seed) tracks more

/-- What a walk has found to do is needed. -/
theorem Tracks.of_found (found : walk.Found task) : task.Needed index seeds := by
  cases task with
  | node key => exact tracks.needed key found
  | header name =>
    obtain ⟨key, known, decl, present, type, around, same⟩ := (tracks.coherent.files name).mp found
    exact ⟨key, decl, type, tracks.needed key known, present,
      Index.encloses_of_mem_scopeTypes around, same⟩

/-- A turn finds what its task needs, so that all found is needed still; an error makes no
difference. -/
theorem Tracks.turn {next} (turn : Turn index walk task next error) :
    Tracks index seeds next where
  coherent := turn.coherent
  needed := by
    intro key found
    rcases (turn.keys key).mp found with known | needs
    · exact tracks.needed key known
    · exact (tracks.of_found turn.found).of_needs needs
  seeds := fun seed mem key resolved =>
    (turn.keys key).mpr (.inl (tracks.seeds seed mem key resolved))

end

/-- A run finds nothing but what is needed. -/
theorem Tracks.runs (named : index.Named) (tracks : Tracks index seeds walk)
    (run : Runs index walk tasks final error) : Tracks index seeds final :=
  run.invariant named (fun _ _ _ _ _ _ turn held => held.turn turn) tracks.coherent tracks

/-- A run that ends in an error ends at a needed task that cannot be carried out. -/
theorem Tracks.error_needed (named : index.Named) (tracks : Tracks index seeds walk)
    (run : Runs index walk tasks final error) (failed : error.isSome) :
    ∃ task : Task, task.Needed index seeds ∧ (task.error? index).isSome := by
  refine run.turn_induction named (motive := fun walk _ _ error => Tracks index seeds walk →
    error.isSome →
    ∃ task : Task, task.Needed index seeds ∧ (task.error? index).isSome) ?_ ?_ ?_ tracks.coherent
      tracks failed
  · exact fun _ _ _ none => nomatch none
  · intro walk task next error _ turn tracks failed
    exact ⟨task, tracks.of_found turn.found, turn.error ▸ failed⟩
  · exact fun walk task next _ _ _ _ turn ih tracks => ih (tracks.turn turn)

/-! ## A walk finds all that is needed -/

/-- Every task that has been taken up could be carried out, and what it needs has been found. -/
structure Settled (index : Index) (walk : Walk) : Prop where
  faultless : ∀ task, walk.Done task → task.error? index = none
  found : ∀ task, walk.Done task → ∀ key, Step.Needs index (task.steps index) key → key ∈ walk.keys

theorem not_done_start (task : Task) : ¬ start.Done task := by
  cases task with
  | header name => exact fun done => nomatch done.1
  | node key => exact fun done => nomatch done

theorem settled_start (index : Index) : Settled index start where
  faultless := fun task done => absurd done (not_done_start task)
  found := fun task done => absurd done (not_done_start task)

theorem Settled.addSeed (settled : Settled index walk) (seed : Seed) :
    Settled index (walk.addSeed index seed).2 where
  faultless := by
    intro task done
    exact settled.faultless task (((progress_addSeed index walk seed).done_iff task).mp done)
  found := by
    intro task done key needs
    have earlier := ((progress_addSeed index walk seed).done_iff task).mp done
    exact mem_keys_addSeed.mpr (.inl (settled.found task earlier key needs))

theorem Settled.addSeeds (settled : Settled index walk) (seeds : List Seed) :
    Settled index (walk.addSeeds index seeds) := by
  induction seeds generalizing walk with
  | nil => exact settled
  | cons seed rest ih => exact ih (settled.addSeed seed)

end Walk

/-- A task without an error carries out all its steps. -/
theorem Task.carried_eq (faultless : task.error? index = none) :
    Step.carried (task.steps index) = task.steps index := by
  rw [Task.error?, Option.map_eq_none_iff, findSome?_eq_none_iff] at faultless
  rw [Step.carried, takeWhile_eq_self_iff]
  intro step mem
  rw [faultless step mem]
  rfl

namespace Walk

variable {index : Index} {walk : Walk} {task : Task} {seeds : List Seed}

/-- A turn settles its task. -/
theorem Settled.turn {next} (settled : Settled index walk)
    (turn : Turn index walk task next none) : Settled index next where
  faultless := by
    intro other done
    rcases (turn.done other).mp done with earlier | rfl
    · exact settled.faultless other earlier
    · exact turn.error.symm
  found := by
    intro other done key needs
    rw [turn.keys]
    rcases (turn.done other).mp done with earlier | rfl
    · exact .inl (settled.found other earlier key needs)
    · rw [Task.carried_eq turn.error.symm]
      exact .inr needs

/-- All tasks of a run are settled. -/
theorem Settled.runs (named : index.Named) (settled : Settled index walk)
    (coherent : walk.Coherent index) (run : Runs index walk tasks final none) :
    Settled index final :=
  run.invariant named (fun _ _ _ _ ok _ turn held => held.turn (or_self_iff.mp ok ▸ turn)) coherent
    settled

theorem found_of_done (done : walk.Done task) : walk.Found task := by
  cases task with
  | header name => exact done.1
  | node key => exact (Registry.scanned_sublist_keys _).subset done

/-- With nothing left to do, all that has been found has been taken up. -/
theorem Coherent.done_of_found (coherent : walk.Coherent index) (idle : walk.turn? index = none)
    (found : walk.Found task) : walk.Done task := by
  obtain ⟨noHeader, noNode⟩ := (turn?_eq_none_iff coherent).mp idle
  cases task with
  | header name =>
    refine ⟨found, ?_⟩
    rw [pendingNames, noHeader]
    exact not_mem_nil
  | node key => exact (coherent.registry.mem_scanned_of_drained noNode).mpr found

/-- A walk that has come to its end without an error: all that its seeds need has been scanned. -/
structure Solved (index : Index) (seeds : List Seed) (walk : Walk) : Prop where
  tracks : walk.Tracks index seeds
  settled : walk.Settled index
  idle : walk.turn? index = none

/-- What is needed is found, and nothing else. -/
theorem Solved.needed_iff_found (acyclic : index.OuterAcyclic) (solved : Solved index seeds walk)
    (key : Key) : Needed index seeds key ↔ key ∈ walk.keys := by
  have coherent := solved.tracks.coherent
  have done : ∀ {task}, walk.Found task → walk.Done task := coherent.done_of_found solved.idle
  -- the keys found are closed: every task has been taken up, and has found what it needs
  have closed : Closed index seeds {key | key ∈ walk.keys} := by
    refine ⟨solved.tracks.seeds, ?_, ?_⟩
    · intro key found other finds
      have settled : walk.Done (.node key) := done found
      rw [mem_scanFinds, ← Task.steps, Task.carried_eq (solved.settled.faultless _ settled)]
        at finds
      exact solved.settled.found _ settled other finds
    · intro key found decl present type around other finds
      have file : type.qualifiedName ∈ walk.fileNames :=
        (coherent.files _).mpr ⟨key, found, decl, present, type,
          (Index.mem_scopeTypes_iff acyclic).mpr around, rfl⟩
      have settled : walk.Done (.header type.qualifiedName) := done file
      rw [mem_headerFinds, ← Task.steps, Task.carried_eq (solved.settled.faultless _ settled)]
        at finds
      exact solved.settled.found _ settled other finds
  exact ⟨fun needed => (needed_isLeast index seeds).2 closed needed, solved.tracks.needed key⟩

/-- What is found is done. -/
theorem Solved.found_iff_done (solved : Solved index seeds walk) (task : Task) :
    walk.Found task ↔ walk.Done task :=
  ⟨solved.tracks.coherent.done_of_found solved.idle, found_of_done⟩

/-- The tasks taken up are those needed. -/
theorem Solved.done_iff_needed (acyclic : index.OuterAcyclic) (solved : Solved index seeds walk)
    (task : Task) : walk.Done task ↔ task.Needed index seeds := by
  rw [← solved.found_iff_done]
  refine ⟨solved.tracks.of_found, fun needed => ?_⟩
  cases task with
  | node key => exact (solved.needed_iff_found acyclic key).mp needed
  | header name =>
    obtain ⟨key, decl, type, owner, present, around, same⟩ := needed
    exact (solved.tracks.coherent.files name).mpr
      ⟨key, (solved.needed_iff_found acyclic key).mp owner, decl,
      present, type, (Index.mem_scopeTypes_iff acyclic).mpr around, same⟩

/-- Solving some more seeds ends with all solved, or at a needed task that cannot be carried out. -/
theorem solved_or_error (named : index.Named) (tracks : Tracks index seeds walk)
    (settled : Settled index walk) (more : List Seed) :
    (walk.solve index more).2 = none ∧ Solved index (seeds ++ more) (walk.solve index more).1 ∨
      (walk.solve index more).2.isSome ∧
        ∃ task : Task, task.Needed index (seeds ++ more) ∧ (task.error? index).isSome := by
  have seeded := tracks.addSeeds more
  obtain ⟨tasks, run, ended⟩ := runs_run named seeded.coherent
  rw [solve_eq]
  cases outcome : ((walk.addSeeds index more).run index).2 with
  | some error =>
    exact .inr ⟨rfl, seeded.error_needed named run (by rw [outcome]; rfl)⟩
  | none =>
    rw [outcome] at run ended
    refine .inl ⟨rfl, seeded.runs named run, ?_, ended.resolve_left (by simp)⟩
    exact (settled.addSeeds more).runs named seeded.coherent run

/-- A run without errors solves its seeds. -/
theorem solved_solve (named : index.Named) (ok : (start.solve index seeds).2 = none) :
    Solved index seeds (start.solve index seeds).1 := by
  rcases solved_or_error named (tracks_start index) (settled_start index) seeds
    with ⟨-, solved⟩ | ⟨failed, -⟩
  · exact solved
  · rw [ok] at failed
    cases failed

end Walk

/-- A walk without an error visits exactly what its seeds need: the least set of keys that holds the
declarations of the seeds and that is closed under what the scan of a key, and of the headers around
it, finds on its own. A scan adds the same keys in any walk, on behalf of any node. -/
theorem solve_visits_closure (units : List CompilationUnit)
    (acyclic : (Index.ofUnits units).OuterAcyclic) (seeds : List Seed)
    (ok : (Walk.start.solve (Index.ofUnits units) seeds).2 = none) :
    let index := Index.ofUnits units
    IsLeast {found | Closed index seeds found}
      {key | key ∈ (Walk.start.solve index seeds).1.registry.visitedKeys} ∧
    (∀ walk number key other, other ∈ (Walk.scanNode index walk number key).1.keys ↔
      other ∈ walk.keys ∨ other ∈ scanFinds index key) ∧
    ∀ walk name number other, other ∈ (Walk.scanPending index walk name number).1.keys ↔
      other ∈ walk.keys ∨ other ∈ headerFinds index name := by
  intro index
  refine ⟨?_, ?_, ?_⟩
  · have solved := Walk.solved_solve (Index.named_ofUnits units) ok
    have visited : ∀ key, key ∈ (Walk.start.solve index seeds).1.registry.visitedKeys ↔
        Needed index seeds key := by
      intro key
      rw [Registry.mem_visitedKeys_iff]
      exact solved.done_iff_needed acyclic (.node key)
    simp only [visited]
    exact needed_isLeast index seeds
  · intro walk number key other
    rw [mem_keys_scanNode, mem_scanFinds]
  · intro walk name number other
    rw [mem_keys_scanPending, mem_headerFinds]

/-- Two classes that extend each other: what is visited is the least closed set. -/
theorem solve_pingPong_visits_closure :
    (Index.ofUnits pingPong).OuterAcyclic ∧
      (Walk.start.solve (Index.ofUnits pingPong) pingPongSeeds).2 = none ∧
      IsLeast {found | Closed (Index.ofUnits pingPong) pingPongSeeds found}
        {key | key ∈
          (Walk.start.solve (Index.ofUnits pingPong) pingPongSeeds).1.registry.visitedKeys} := by
  have acyclic : (Index.ofUnits pingPong).OuterAcyclic := Index.outerAcyclic_of_isNested (by decide)
  have ok : (Walk.start.solve (Index.ofUnits pingPong) pingPongSeeds).2 = none := by decide
  exact ⟨acyclic, ok, (solve_visits_closure pingPong acyclic pingPongSeeds ok).1⟩

end JavaSlice.Slice
