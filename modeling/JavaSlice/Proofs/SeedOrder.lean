import JavaSlice.Proofs.Contents
import JavaSlice.Proofs.Folding
import JavaSlice.Slice.Result

/-!
# The order of seeds

The slice of a well formed project depends on the set of its seeds alone. Their order does not
matter, nor does it matter that a seed is given twice, or that seeds are solved in several batches
(`slice_depends_on_seed_set`).

A walk takes up exactly the tasks that its seeds need, and that is decided by their set. If one of
these tasks cannot be carried out, every walk ends in an error, though not always in the same one.
Otherwise two walks carry out the same tasks in different orders. Their files are alike then, and
alike files give the same output.
-/

namespace JavaSlice

open List Source Slice

variable {seeds : List Seed} {units : List CompilationUnit}

/-- Files of a project as source files are: no name belongs to two types, member types are nested as
they are written, and no type declares a field name in two declarations. -/
structure Index.WellFormed (units : List CompilationUnit) : Prop where
  unique : ((Index.declarations units).map (·.decl.qualifiedName)).Nodup
  nested : ∀ unit ∈ units, unit.isNested = true
  fields : (Index.ofUnits units).FieldsDistinct

namespace Slice.Walk

variable {index : Index} {walk other : Walk}

/-! ## Walks with the same tasks -/

/-- Files with the same tasks behind them are alike. -/
theorem History.alike {name file mate unit decl tasks others}
    (history : History index walk name file (.ofDecl unit decl) tasks)
    (mateHistory : History index other name mate (.ofDecl unit decl) others)
    (present : index.typeDecl? name = some decl) (apart : decl.FieldsDistinct)
    (same : ∀ task, walk.Done task ↔ other.Done task) : file.Alike mate := by
  have bare : file.bare = (OutputFile.ofDecl unit decl).bare := by
    rw [history.file, OutputFile.bare_foldl_takeIn]
  have mateBare : mate.bare = (OutputFile.ofDecl unit decl).bare := by
    rw [mateHistory.file, OutputFile.bare_foldl_takeIn]
  obtain ⟨once, holds⟩ := history.imports
  obtain ⟨mateOnce, mateHolds⟩ := mateHistory.imports
  refine OutputFile.alike_of_bare_eq (bare.trans mateBare.symm) once ?_ ?_
    (congrArg (·.type.nested) bare)
  · refine (perm_ext_iff_of_nodup once mateOnce).mpr fun line => ?_
    simp only [holds, mateHolds, same]
  · refine (history.copiesOf present apart).perm (mateHistory.copiesOf present apart) fun key => ?_
    exact same (.node ⟨name, key⟩)

/-- Solved walks of a well formed project with the same tasks behind them have alike files. -/
theorem Solved.filesAlike (wellFormed : Index.WellFormed units)
    (solved : Solved (Index.ofUnits units) seeds walk)
    (otherSolved : Solved (Index.ofUnits units) more other)
    (recorded : walk.Recorded (Index.ofUnits units))
    (otherRecorded : other.Recorded (Index.ofUnits units))
    (same : ∀ task, walk.Done task ↔ other.Done task) :
    FilesAlike walk.registry.files other.registry.files := by
  have names : ∀ name, name ∈ walk.fileNames ↔ name ∈ other.fileNames := fun name =>
    (solved.found_iff_done (.header name)).trans
      ((same _).trans (otherSolved.found_iff_done (.header name)).symm)
  refine ⟨solved.tracks.coherent.once.files, otherSolved.tracks.coherent.once.files, fun name => ?_⟩
  by_cases present : name ∈ walk.fileNames
  · obtain ⟨file, found⟩ := mem_fileNames_iff.mp present
    obtain ⟨mate, foundMate⟩ := mem_fileNames_iff.mp ((names name).mp present)
    obtain ⟨fresh, tasks, history⟩ := recorded name file found
    obtain ⟨freshMate, others, mateHistory⟩ := otherRecorded name mate foundMate
    -- both files were made from the one declaration of the name
    obtain ⟨type, stored, rfl⟩ := history.made.eq_ofDecl wellFormed.unique wellFormed.nested
    obtain ⟨typeAgain, storedAgain, rfl⟩ :=
      mateHistory.made.eq_ofDecl wellFormed.unique wellFormed.nested
    rw [stored, Option.some.injEq] at storedAgain
    subst storedAgain
    have declared : (Index.ofUnits units).typeDecl? name = some type.decl := by
      rw [Index.typeDecl?, stored, Option.map_some]
    have apart := wellFormed.fields.of_typeDecl? declared
    exact .inr ⟨file, mate, found, foundMate, history.alike mateHistory declared apart same⟩
  · exact .inl ⟨file?_eq_none_iff.mpr present, file?_eq_none_iff.mpr (mt (names name).mpr present)⟩

theorem Recorded.filesNamed (coherent : walk.Coherent index) (recorded : walk.Recorded index) :
    Registry.FilesNamed walk.registry.files := by
  rintro ⟨name, file⟩ mem
  obtain ⟨fresh, tasks, history⟩ := recorded name file (Table.get?_of_mem coherent.once.files mem)
  have bare : file.bare = fresh.bare := by rw [history.file, OutputFile.bare_foldl_takeIn]
  obtain ⟨_, _, _, _, _, _, _, named, rfl⟩ := history.made
  exact (congrArg (·.qualifiedName) bare).trans named

/-- The same tasks make the same visited keys. -/
theorem visitedKeys_eq (coherent : walk.Coherent index) (otherCoherent : other.Coherent index)
    (same : ∀ task, walk.Done task ↔ other.Done task) :
    walk.registry.visitedKeys = other.registry.visitedKeys := by
  refine Key.sort_eq_of_perm ((perm_ext_iff_of_nodup coherent.registry.scanned_nodup
    otherCoherent.registry.scanned_nodup).mpr fun key => ?_)
  exact same (.node key)

/-! ## Batches of seeds -/

/-- Solves some batches of seeds one after the other, up to the first error. -/
def solveAll (index : Index) : Walk → List (List Seed) → Walk × Option ScanError
  | walk, [] => (walk, none)
  | walk, seeds :: batches =>
    match walk.solve index seeds with
    | (next, none) => solveAll index next batches
    | (next, some error) => (next, some error)

theorem solveAll_singleton (index : Index) (walk : Walk) (seeds : List Seed) :
    walk.solveAll index [seeds] = walk.solve index seeds := by
  rw [solveAll]
  split
  next next solved => rw [solveAll, solved]
  next next error failed => exact failed.symm

theorem solved_start (index : Index) : Solved index [] start where
  tracks := tracks_start index
  settled := settled_start index
  idle := (turn?_eq_none_iff (coherent_start index)).mpr ⟨rfl, rfl⟩

/-- Solving batches ends with all solved, or at a needed task that cannot be carried out. -/
theorem solvedAll_or_error (named : index.Named) (solved : Solved index seeds walk)
    (recorded : walk.Recorded index) (batches : List (List Seed)) :
    (∃ final, walk.solveAll index batches = (final, none) ∧
      Solved index (seeds ++ batches.flatten) final ∧ final.Recorded index) ∨
    (∃ final error, walk.solveAll index batches = (final, some error) ∧
      ∃ task : Task, task.Needed index (seeds ++ batches.flatten) ∧
        (task.error? index).isSome) := by
  induction batches generalizing seeds walk with
  | nil => exact .inl ⟨walk, rfl, by simpa using solved, recorded⟩
  | cons batch rest ih =>
    rw [flatten_cons, ← append_assoc, solveAll]
    rcases solved_or_error named solved.tracks solved.settled batch with
      ⟨ok, next⟩ | ⟨failed, task, needed, faulty⟩
    · have recordedNext := recorded.solve named solved.tracks.coherent ok
      rw [show walk.solve index batch = ((walk.solve index batch).1, none) from Prod.ext rfl ok]
      exact ih next recordedNext
    · obtain ⟨error, isError⟩ := Option.isSome_iff_exists.mp failed
      rw [show walk.solve index batch = ((walk.solve index batch).1, some error)
        from Prod.ext rfl isError]
      exact .inr ⟨_, error, rfl, task, needed.mono fun _ => mem_append_left _, faulty⟩

end Slice.Walk

namespace Slice

/-- The slice of an index for batches of seeds that are solved one after the other. -/
def sliceBatches (index : Index) (batches : List (List Seed)) : Result :=
  let (walk, error) := Walk.start.solveAll index batches
  .ofWalk walk error

theorem sliceBatches_singleton (index : Index) (seeds : List Seed) :
    sliceBatches index [seeds] = slice index seeds := by
  rw [sliceBatches, Walk.solveAll_singleton, slice]

/-- Two slices agree: both failed, or both have the same declarations and the same files, text for
text. -/
def Result.Agrees (first second : Result) : Prop :=
  match first.outcome, second.outcome with
  | .error _, .error _ => True
  | .ok one, .ok other =>
    one.declarations = other.declarations ∧ one.files.names = other.files.names ∧
      one.files.map (·.2.render) = other.files.map (·.2.render)
  | _, _ => False

/-- Solved walks of a well formed project with the same tasks behind them leave results that
agree. -/
theorem Walk.Solved.agrees (wellFormed : Index.WellFormed units)
    (solved : Solved (Index.ofUnits units) seeds walk)
    (otherSolved : Solved (Index.ofUnits units) more other)
    (recorded : walk.Recorded (Index.ofUnits units))
    (otherRecorded : other.Recorded (Index.ofUnits units))
    (same : ∀ task, walk.Done task ↔ other.Done task) :
    (Result.ofWalk walk none).Agrees (.ofWalk other none) := by
  have coherent := solved.tracks.coherent
  have alike := solved.filesAlike wellFormed otherSolved recorded otherRecorded same
  have texts := alike.outputTexts_eq (recorded.filesNamed coherent)
  refine ⟨Walk.visitedKeys_eq coherent otherSolved.tracks.coherent same, ?_, ?_⟩
  · have names := congrArg (List.map Prod.fst) texts
    rwa [Registry.outputTexts, Registry.outputTexts, map_map, map_map] at names
  · have renders := congrArg (List.map Prod.snd) texts
    rwa [Registry.outputTexts, Registry.outputTexts, map_map, map_map] at renders

/-- No needed task of a solved walk is faulty. -/
theorem Walk.Solved.faultless {index : Index} (acyclic : index.OuterAcyclic) {walk : Walk}
    (solved : Solved index seeds walk) {task : Task} (needed : task.Needed index seeds) :
    ¬ (task.error? index).isSome := by
  rw [solved.settled.faultless task ((solved.done_iff_needed acyclic task).mpr needed)]
  exact nofun

/-- Batches with the same seeds give slices that agree. -/
theorem sliceBatches_agrees (wellFormed : Index.WellFormed units)
    (same : ∀ seed, seed ∈ batches.flatten ↔ seed ∈ others.flatten) :
    (sliceBatches (Index.ofUnits units) batches).Agrees
      (sliceBatches (Index.ofUnits units) others) := by
  have acyclic := Index.outerAcyclic_of_isNested wellFormed.nested
  have outcome := Walk.solvedAll_or_error (Index.named_ofUnits units)
    (Walk.solved_start (Index.ofUnits units)) (Walk.recorded_start (Index.ofUnits units))
  have needed : ∀ task : Task, task.Needed (Index.ofUnits units) ([] ++ batches.flatten) ↔
      task.Needed (Index.ofUnits units) ([] ++ others.flatten) := fun task =>
    ⟨Task.Needed.mono fun seed => (same seed).mp, Task.Needed.mono fun seed => (same seed).mpr⟩
  rw [sliceBatches, sliceBatches]
  -- a task at which one of the walks fails would have stopped the other one too
  rcases outcome batches with
      ⟨walk, isWalk, solved, recorded⟩ | ⟨walk, error, isWalk, task, isNeeded, faulty⟩ <;>
    rcases outcome others with
      ⟨other, isOther, otherSolved, otherRecorded⟩ | ⟨other, otherError, isOther, mate, mateNeeded,
        mateFaulty⟩
  · rw [isWalk, isOther]
    refine solved.agrees wellFormed otherSolved recorded otherRecorded fun task => ?_
    rw [solved.done_iff_needed acyclic, otherSolved.done_iff_needed acyclic, needed]
  · exact absurd mateFaulty (solved.faultless acyclic ((needed mate).mpr mateNeeded))
  · exact absurd faulty (otherSolved.faultless acyclic ((needed task).mp isNeeded))
  · rw [isWalk, isOther]
    trivial

/-- The slice of a well formed project depends on the set of seeds alone: not on their order, on
their repetition or on the batches in which they are solved. -/
theorem slice_depends_on_seed_set (units : List CompilationUnit)
    (wellFormed : Index.WellFormed units) :
    (∀ first second : List Seed, (∀ seed, seed ∈ first ↔ seed ∈ second) →
      (slice (Index.ofUnits units) first).Agrees (slice (Index.ofUnits units) second)) ∧
    ∀ (seeds : List Seed) (batches : List (List Seed)),
      (∀ seed, seed ∈ seeds ↔ ∃ batch ∈ batches, seed ∈ batch) →
      (slice (Index.ofUnits units) seeds).Agrees (sliceBatches (Index.ofUnits units) batches) := by
  constructor
  · intro first second same
    rw [← sliceBatches_singleton, ← sliceBatches_singleton]
    exact sliceBatches_agrees wellFormed (by simpa using same)
  · intro seeds batches same
    rw [← sliceBatches_singleton]
    exact sliceBatches_agrees wellFormed (by simpa [mem_flatten] using same)

/-- Seeds that are repeated, turned round or given in batches. -/
theorem slice_pingPong_depends_on_seed_set :
    Index.WellFormed pingPong ∧
      (slice (Index.ofUnits pingPong) pingPongSeeds).Agrees
        (slice (Index.ofUnits pingPong) (pingPongSeeds.reverse ++ pingPongSeeds)) ∧
      (slice (Index.ofUnits pingPong) pingPongSeeds).Agrees
        (sliceBatches (Index.ofUnits pingPong)
          [pingPongSeeds.drop 1, [], pingPongSeeds.take 2]) := by
  have wellFormed : Index.WellFormed pingPong := ⟨by decide, by decide, by decide⟩
  have same := slice_depends_on_seed_set pingPong wellFormed
  refine ⟨wellFormed, same.1 _ _ ?_, same.2 _ _ ?_⟩
  · simp
  · intro seed
    simp only [pingPongSeeds, drop_succ_cons, drop_zero, take_succ_cons, take_zero,
      mem_cons, not_mem_nil, or_false, exists_eq_or_imp, exists_eq_left, false_or]
    tauto

end Slice

end JavaSlice
