import JavaSlice.Command.Request
import JavaSlice.Output

/-!
# Commands

What a command does and says. It ends with the code zero if all went well, with one if something
failed and with two if the command line means nothing.
-/

namespace JavaSlice.Command

open Storage

/-- How a command ends. -/
structure Exit where
  code : Nat
  output : List String
  warnings : List String
  errors : List String
deriving DecidableEq, Repr, Inhabited

namespace Exit

def success (output warnings : List String) : Exit :=
  ⟨0, output, warnings, []⟩

def failure (warnings : List String) (message : String) : Exit :=
  ⟨1, [], warnings, [message]⟩

end Exit

def usage : List String :=
  ["Cut a minimal, buildable slice out of a Java project", "",
    "Usage: slice [--output <path>] [--report <path>] [--verbose] [--quiet] <settings>"]

/-! ## Settings -/

/-- The settings of a request, given those of the file. Paths are seen from the directory of the
file. -/
def Request.settle (request : Request) (settings : Settings) : Settings :=
  let directory := (Path.parent? request.settings).getD "."
  let report := if request.report.isSome then request.report else settings.report
  { settings with
    basePath := Path.join directory settings.basePath
    outputPath := Path.join directory (request.output.getD settings.outputPath)
    report := report.map (Path.join directory)
    verbose := settings.verbose || request.verbose
    quiet := settings.quiet || request.quiet }

/-! ## The summary of a run -/

/-- A text with blanks after it that make it fourteen characters wide. -/
def column (text : String) : String :=
  text ++ String.ofList (List.replicate (14 - text.length) ' ')

def row (name value : String) : String :=
  column name ++ " " ++ value

/-- So many nanoseconds in milliseconds, with a tenth. -/
def milliseconds (nanoseconds : Nat) : String :=
  let tenths := (nanoseconds + 50000) / 100000
  toString (tenths / 10) ++ "." ++ toString (tenths % 10) ++ "ms"

/-- What is said about a run that went well; `elapsed` counts the nanoseconds from its start to the
last write. -/
def summary (settings : Settings) (run : Run) (outcome : Slice.Outcome) (written : Output.Written)
    (elapsed : Nat) : List String :=
  ["", "✓  Scion slice: " ++ (Path.fileName? settings.basePath).getD "",
    "  " ++ row "Seeds:" (toString settings.methods.length),
    "  " ++ row "Indexed:" (toString outcome.stats.filesIndexed),
    "  " ++ row "Declarations:" (toString outcome.declarations.length),
    "  " ++ row "Edges:" (toString outcome.stats.edges),
    "  " ++ row "Files:" (toString written.files.length),
    "  " ++ row "Duration:" (milliseconds elapsed)] ++
  (if outcome.unresolved.isEmpty then []
    else ["", "  Unresolved seeds:"] ++ outcome.unresolved.map ("    " ++ ·)) ++
  (if settings.verbose then
      ["", "  Phase Timings:"] ++ run.timings.map fun (name, time) =>
        "    " ++ row name (milliseconds time)
    else []) ++
  ["", "  Output written to: " ++ settings.outputPath] ++
  (match settings.report with
    | some path => ["  Report: " ++ path]
    | none => [])

/-! ## Performing a command -/

variable {m : Type → Type} [Monad m]

def runAndWrite (access : Access m) (settings : Settings) : m Exit := do
  let begun ← access.clock
  let run ← Run.perform access settings
  let warnings := if settings.quiet then [] else run.warnings
  match run.result with
  | .error error =>
    let mark := if settings.quiet then "" else "✗ "
    pure (.failure warnings (mark ++ "Slicing failed: " ++ error.message))
  | .ok outcome =>
    match ← (Output.write access settings run outcome).run with
    | none => pure (.failure warnings ("Error writing output: " ++ accessMessage))
    | some written =>
      let finished ← access.clock
      let lines := summary settings run outcome written (finished - begun)
      pure (.success (if settings.quiet then [] else lines) warnings)

def Request.perform (access : Access m) (request : Request) : m Exit := do
  let unloaded (reason : String) : Exit :=
    .failure [] ("Could not load " ++ request.settings ++ ": " ++ reason)
  match ← access.readText request.settings with
  | none => pure (unloaded accessMessage)
  | some text =>
    match Settings.ofYaml? text with
    | none => pure (unloaded "invalid settings file")
    | some settings => runAndWrite access (request.settle settings)

def perform (access : Access m) (words : List String) : m Exit :=
  match Meaning.ofWords? words with
  | some (.slice request) => request.perform access
  | some .help => pure (.success usage [])
  | none => pure ⟨2, [], [], usage⟩

end JavaSlice.Command
