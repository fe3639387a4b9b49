import JavaSlice.Decimal.Shortest
import JavaSlice.Json.Number
import JavaSlice.Slice.Result

/-!
# Reports

The report of a run: what was asked for, how long it took, what was found and which files were
written. A report is a JSON object, or a list of the values of its fields in order; fields that mean
nothing are passed over, and no field may be given twice.
-/

namespace JavaSlice

open Json

/-- What a report says about the run itself. -/
structure ReportMetadata where
  toolVersion : String
  basePath : String
  slicedAt : String
  durationMs : Float
  /-- The time that each phase took, in seconds. -/
  phaseTimings : Table Float
  seeds : List String
  unresolvedSeeds : List String
deriving Inhabited

structure ReportEdge where
  source : String
  target : String
  kind : String
deriving DecidableEq, Repr, Inhabited

structure Report where
  version : String
  metadata : ReportMetadata
  stats : Slice.Stats
  declarations : List String
  edges : List ReportEdge
  /-- The files that were written, seen from the directory of the sources, sorted. -/
  files : List String
deriving Inhabited

namespace Report

/-! ## Writing -/

def ofText (text : String) : Value :=
  .string (some text)

def ofTexts (texts : List String) : Value :=
  .array (texts.map ofText)

def ofCount (count : Nat) : Value :=
  .number (Nat.toDigits 10 count)

def ofFloat (x : Float) : Value :=
  .number (Decimal.floatText x).toList

def ofFields (fields : List (String × Value)) : Value :=
  .object (fields.map fun (name, value) => (some name, value))

def metadataValue (metadata : ReportMetadata) : Value :=
  ofFields [("tool_version", ofText metadata.toolVersion), ("base_path", ofText metadata.basePath),
    ("sliced_at", ofText metadata.slicedAt), ("duration_ms", ofFloat metadata.durationMs),
    ("phase_timings", ofFields (metadata.phaseTimings.map fun (name, time) =>
      (name, ofFloat time))),
    ("seeds", ofTexts metadata.seeds), ("unresolved_seeds", ofTexts metadata.unresolvedSeeds)]

def statsValue (stats : Slice.Stats) : Value :=
  ofFields [("files_indexed", ofCount stats.filesIndexed),
    ("types_indexed", ofCount stats.typesIndexed),
    ("nodes", ofCount stats.nodes), ("visited", ofCount stats.visited),
    ("edges", ofCount stats.edges), ("output_files", ofCount stats.outputFiles)]

def edgeValue (edge : ReportEdge) : Value :=
  ofFields [("from", ofText edge.source), ("to", ofText edge.target), ("kind", ofText edge.kind)]

def toValue (report : Report) : Value :=
  ofFields [("version", ofText report.version), ("metadata", metadataValue report.metadata),
    ("stats", statsValue report.stats), ("declarations", ofTexts report.declarations),
    ("edges", .array (report.edges.map edgeValue)), ("files", ofTexts report.files)]

def render (report : Report) : String :=
  report.toValue.render

/-! ## Reading -/

/-- The value of a field of an object; each field is there at most once. -/
def uniqueField? (members : List (Option String × Value)) (name : String) : Option (Option Value) :=
  match members.filter (·.1 == some name) with
  | [] => some none
  | [(_, value)] => some (some value)
  | _ => none

/-- The values of the fields with the given names, in order: of an object by their names, of a list
by their places. A list has no more items than there are names, and all names of an object have to
be texts. -/
def fields? (names : List String) : Value → Option (List (Option Value))
  | .object members =>
    if members.all (·.1.isSome) then names.mapM (uniqueField? members) else none
  | .array items =>
    if items.length ≤ names.length then
      some ((items.map some) ++ List.replicate (names.length - items.length) none)
    else none
  | _ => none

/-- The times of phases; the last time of a phase counts. -/
def timings? : Value → Option (Table Float)
  | .object members => members.foldlM (fun table (name, value) => do
      let name ← name
      let time ← value.float?
      some (table.put name time)) []
  | _ => none

/-- Reads what a report says about the run itself; seeds that name no declaration may be left
out. -/
def metadata? (value : Value) : Option ReportMetadata := do
  match ← fields? ["tool_version", "base_path", "sliced_at", "duration_ms", "phase_timings",
    "seeds",
      "unresolved_seeds"] value with
  | [some toolVersion, some basePath, some slicedAt, some durationMs, some phaseTimings, some seeds,
      unresolvedSeeds] =>
    some {
      toolVersion := ← toolVersion.text?
      basePath := ← basePath.text?
      slicedAt := ← slicedAt.text?
      durationMs := ← durationMs.float?
      phaseTimings := ← timings? phaseTimings
      seeds := ← seeds.texts?
      unresolvedSeeds := ← match unresolvedSeeds with
        | some texts => texts.texts?
        | none => some [] }
  | _ => none

def stats? (value : Value) : Option Slice.Stats := do
  match ← fields? ["files_indexed", "types_indexed", "nodes", "visited", "edges", "output_files"]
    value with
  | [some filesIndexed, some typesIndexed, some nodes, some visited, some edges,
      some outputFiles] =>
    some {
      filesIndexed := ← filesIndexed.count?
      typesIndexed := ← typesIndexed.count?
      nodes := ← nodes.count?
      visited := ← visited.count?
      edges := ← edges.count?
      outputFiles := ← outputFiles.count? }
  | _ => none

def edge? (value : Value) : Option ReportEdge := do
  match ← fields? ["from", "to", "kind"] value with
  | [some source, some target, some kind] =>
    some { source := ← source.text?, target := ← target.text?, kind := ← kind.text? }
  | _ => none

def ofValue? (value : Value) : Option Report := do
  match ← fields? ["version", "metadata", "stats", "declarations", "edges", "files"] value with
  | [some version, some metadata, some stats, some declarations, some edges, some files] =>
    some {
      version := ← version.text?
      metadata := ← metadata? metadata
      stats := ← stats? stats
      declarations := ← declarations.texts?
      edges := ← (← edges.items?).mapM edge?
      files := ← files.texts? }
  | _ => none

def ofString? (text : String) : Option Report := do
  ofValue? (← Value.parse? text)

end Report

end JavaSlice
