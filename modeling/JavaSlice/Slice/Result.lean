import JavaSlice.Slice.Walk

/-!
# Slices

The slice of an index for some seeds: the output files, the declarations in them, the edges by which
they were found, and the seeds that mean nothing.
-/

namespace JavaSlice.Slice

/-- The counts of a run. -/
structure Stats where
  /-- The number of source files read, where the slice started from files. -/
  filesIndexed : Nat
  /-- The number of types read, where the slice started from files. -/
  typesIndexed : Nat
  nodes : Nat
  visited : Nat
  edges : Nat
  outputFiles : Nat
deriving DecidableEq, Repr, Inhabited

/-- What a finished walk produces. -/
structure Outcome where
  files : Table OutputFile
  declarations : List Key
  edges : List (Key × Key × EdgeKind)
  unresolved : List String
  stats : Stats
deriving Inhabited

/-- What a walk leaves behind, whether it finished or not. -/
structure Result where
  warnings : List String
  outcome : Except ScanError Outcome

/-- The outcome of a finished walk, and the warnings that arise when its files are put together. -/
def Outcome.ofWalk (walk : Walk) : Outcome × List String :=
  let (files, warnings) := walk.registry.outputFiles
  ({ files
     declarations := walk.registry.visitedKeys
     edges := walk.registry.edgeList
     unresolved := walk.unresolved
     stats :=
      { filesIndexed := 0
        typesIndexed := 0
        nodes := walk.registry.nodeCount
        visited := walk.registry.visitedCount
        edges := walk.registry.edgeCount
        outputFiles := files.length } }, warnings)

/-- What a walk leaves behind, given where it ended and whether a scan failed there. -/
def Result.ofWalk (walk : Walk) (error : Option ScanError) : Result :=
  let warnings := walk.unresolved.map Walk.unresolvedWarning
  match error with
  | some error => ⟨warnings, .error error⟩
  | none =>
    let (outcome, more) := Outcome.ofWalk walk
    ⟨warnings ++ more, .ok outcome⟩

/-- The slice of some seeds. -/
def slice (index : Index) (seeds : List Seed) : Result :=
  let (walk, error) := Walk.start.solve index seeds
  .ofWalk walk error

end JavaSlice.Slice
