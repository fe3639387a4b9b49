import JavaSlice.Project
import JavaSlice.Settings
import JavaSlice.Slice.Result

/-!
# Runs

A run reads the sources of a project, walks from the seeds of its settings and puts the output files
together. It writes nothing. Seeds are checked before any file is read.
-/

namespace JavaSlice

open Storage

/-- The parts of a run. -/
inductive Phase where
  | indexing
  | solving
  | assembling
deriving DecidableEq, Repr, Inhabited

namespace Phase

def name : Phase → String
  | indexing => "indexing"
  | solving => "solving"
  | assembling => "assembling"

def label : Phase → String
  | indexing => "Parsing source files"
  | solving => "Walking dependencies"
  | assembling => "Assembling output files"

end Phase

/-- What can go wrong in a run. -/
inductive RunError where
  /-- A text in the settings is no seed. -/
  | invalidSeed (text : String)
  /-- The sources cannot be read. -/
  | unreadable
  /-- The walk came to something that it does not understand. -/
  | scan (error : Slice.ScanError)

/-- What is said about files that cannot be read or written. -/
def accessMessage : String :=
  "I/O error"

/-- The text of an error. -/
def RunError.message : RunError → String
  | invalidSeed text => Slice.Seed.invalidMessage text
  | unreadable => accessMessage
  | scan error => error.message

/-- What a run leaves behind, whether it finished or not. -/
structure Run where
  phases : List Phase
  warnings : List String
  result : Except RunError Slice.Outcome
  /-- The nanoseconds that each finished phase took, by its name. -/
  timings : Table Nat
  /-- The nanoseconds that the run took. -/
  elapsed : Nat

namespace Run

/-- A run that ended in an error. -/
def failed (phases : List Phase) (warnings : List String) (error : RunError) : Run :=
  ⟨phases, warnings, .error error, [], 0⟩

variable {m : Type → Type} [Monad m]

/-- Reads the project and slices it. -/
def perform (access : Access m) (settings : Settings) : m Run := do
  match settings.seeds with
  | .error text => pure (failed [] [] (.invalidSeed text))
  | .ok seeds =>
    let begun ← access.clock
    match ← (Project.index access settings.sourceRoot settings.excludePatterns).run with
    | none => pure (failed [.indexing] [] .unreadable)
    | some index =>
      let indexed ← access.clock
      let (walk, error) := Slice.Walk.start.solve index seeds
      let solved ← access.clock
      let slice := Slice.Result.ofWalk walk error
      let warnings := index.warnings ++ slice.warnings
      match slice.outcome with
      | .error error => pure (failed [.indexing, .solving] warnings (.scan error))
      | .ok outcome =>
        let stats := { outcome.stats with filesIndexed := index.units.length, typesIndexed :=
          index.typeCount }
        let assembled ← access.clock
        pure {
          phases := [.indexing, .solving, .assembling]
          warnings
          result := .ok { outcome with stats }
          timings :=
            [(Phase.assembling.name, assembled - solved), (Phase.indexing.name, indexed - begun),
            (Phase.solving.name, solved - indexed)]
          elapsed := assembled - begun }

end Run

end JavaSlice
