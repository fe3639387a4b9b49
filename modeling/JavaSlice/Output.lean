import JavaSlice.Report
import JavaSlice.Run
import JavaSlice.Text.Instant

/-!
# Writing the result of a run

The result of a run is a project of its own: the directories that every project has, the build files
of the sliced project that are there, and the output files. A report goes with it if the settings
want one. Things are written one after the other, and what has been written before a failure stays.
-/

namespace JavaSlice.Output

open Storage

/-- The directories that every project has. -/
def scaffoldDirectories : List String :=
  ["src/main/java", "src/main/resources", "src/test/java"]

/-- What has been written: the build files by name and the output files by path. -/
structure Written where
  copied : List String
  files : List String
deriving DecidableEq, Repr, Inhabited

variable {m : Type → Type} [Monad m]

/-- Fails if an action does not succeed. -/
def require (action : m Bool) : OptionT m Unit := do
  guard (← action)

/-- Creates the directory of a file. -/
def createParent (access : Access m) (path : String) : OptionT m Unit := do
  match Path.parent? path with
  | some parent => require (access.createAll parent)
  | none => pure ()

/-- Creates the directories of the new project. -/
def scaffold (access : Access m) (settings : Settings) : OptionT m Unit :=
  (scaffoldDirectories ++ [settings.sourceDir]).forM fun directory =>
    require (access.createAll (Path.join settings.outputPath directory))

/-- Copies the build files that the sliced project has, and gives their names. -/
def copyManifests (access : Access m) (settings : Settings) : OptionT m (List String) :=
  settings.buildManifests.filterM fun name => do
    let source := Path.join settings.basePath name
    if ← access.isFile source then
      require (access.copy source (Path.join settings.outputPath name))
      pure true
    else pure false

/-- Writes the output files, and gives their paths. -/
def writeFiles (access : Access m) (settings : Settings) (files : Table Slice.OutputFile) :
    OptionT m (List String) :=
  files.mapM fun (_, file) => do
    let path := Path.join settings.outputSourceRoot file.relativePath
    createParent access path
    require (access.writeText path file.render)
    pure path

/-- Writes the new project. -/
def writeProject (access : Access m) (settings : Settings) (outcome : Slice.Outcome) :
    OptionT m Written := do
  scaffold access settings
  let copied ← copyManifests access settings
  let files ← writeFiles access settings outcome.files
  pure ⟨copied, files⟩

/-! ## Reports -/

/-- The version of the form of reports. -/
def reportVersion : String :=
  "1.0"

/-- The version of the program. -/
def toolVersion : String :=
  "0.1.0"

/-- So many nanoseconds in seconds. -/
def seconds (nanoseconds : Nat) : Float :=
  nanoseconds.toFloat / 1000000000

/-- So many nanoseconds in milliseconds, to a tenth. -/
def roundedMilliseconds (nanoseconds : Nat) : Float :=
  (nanoseconds.toFloat / 100000).round / 10

/-- An edge as reports show it. -/
def reportEdge : Slice.Key × Slice.Key × Slice.EdgeKind → ReportEdge
  | (source, target, kind) => ⟨source.display, target.display, kind.name⟩

/-- The report of a run, given the full path of the project and the moment of the report. -/
def report (settings : Settings) (run : Run) (outcome : Slice.Outcome) (basePath : String)
    (now : Nat) : Report where
  version := reportVersion
  metadata :=
    { toolVersion
      basePath
      slicedAt := Instant.render now
      durationMs := roundedMilliseconds run.elapsed
      phaseTimings := run.timings.map fun (name, time) => (name, seconds time)
      seeds := settings.methods
      unresolvedSeeds := outcome.unresolved }
  stats := outcome.stats
  declarations := outcome.declarations.map (·.display)
  edges := outcome.edges.map reportEdge
  files := outcome.files.map fun (_, file) => file.relativePath

/-- Writes the report of a run. -/
def writeReport (access : Access m) (settings : Settings) (run : Run) (outcome : Slice.Outcome)
    (path : String) : OptionT m Unit := do
  let basePath := (← OptionT.lift (access.canonical settings.basePath)).getD settings.basePath
  let now ← access.now
  createParent access path
  require (access.writeText path (report settings run outcome basePath now).render)

/-- Writes the project that a run has produced, and the report if one is wanted. -/
def write (access : Access m) (settings : Settings) (run : Run) (outcome : Slice.Outcome) :
    OptionT m Written := do
  let written ← writeProject access settings outcome
  match settings.report with
  | some path => writeReport access settings run outcome path
  | none => pure ()
  pure written

end JavaSlice.Output
