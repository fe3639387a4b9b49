import JavaSlice.Path
import JavaSlice.Slice.Seed
import JavaSlice.Yaml.Node
import JavaSlice.Yaml.Plain

/-!
# Settings

What a run of the slicer is told: where the project is, from which members to slice, and where the
result goes. Settings are read from a YAML document whose content is a mapping from the names of the
settings to their values. Names that mean nothing are passed over with their values, and a setting
that is not given has its default.

Where a text is wanted any scalar will do, as it is written; only the seeds tell texts from numbers,
truth values and nulls.
-/

namespace JavaSlice

open Yaml

structure Settings where
  basePath : String
  /-- The directory of the sources, seen from the project; the output has it too. -/
  sourceDir : String
  outputPath : String
  methods : List String
  buildManifests : List String
  /-- The names that are passed over when sources are looked for. -/
  excludePatterns : List String
  report : Option String
  verbose : Bool
  quiet : Bool
deriving DecidableEq, Repr, Inhabited

namespace Settings

/-- The settings of a run that is told nothing. -/
def default : Settings :=
  { basePath := ""
    sourceDir := "src/main/java"
    outputPath := ""
    methods := []
    buildManifests := ["pom.xml", "build.gradle", "build.gradle.kts", "settings.gradle"]
    excludePatterns := []
    report := none
    verbose := false
    quiet := false }

def sourceRoot (settings : Settings) : String :=
  Path.join settings.basePath settings.sourceDir

def outputSourceRoot (settings : Settings) : String :=
  Path.join settings.outputPath settings.sourceDir

def seeds (settings : Settings) : Except String (List Slice.Seed) :=
  settings.methods.mapM fun text =>
    match Slice.Seed.ofString? text with
    | some seed => .ok seed
    | none => .error text

/-! ## Values -/

/-- Whether a node has a tag that only its document knows. -/
def hasLocalTag (node : Node) : Bool :=
  (node.properties.tag.map fun tag => tag.toList.head? == some '!').getD false

def coreTag (name : String) : String :=
  "tag:yaml.org,2002:" ++ name

def text? (root node : Node) : Option String := do
  match ← root.follow? node with
  | .scalar _ text _ => some text
  | _ => none

/-- Whether a scalar is written for null: it is plain and empty or a word for null. A tag says that
it is none, unless it is the tag of null, which nothing but a word for null may have; `none` stands
for that fault. -/
def isNull? : Node → Option Bool
  | .scalar properties text style =>
    if style != .plain then some false
    else
      match properties.tag with
      | some tag =>
        if tag != coreTag "null" then some false
        else if Plain.isNull text then some true
        else none
      | none => some (text.isEmpty || Plain.isNull text)
  | _ => some false

def optionalText? (root node : Node) : Option (Option String) := do
  let target ← root.follow? node
  if ← isNull? target then some none else (text? root target).map some

/-- The truth value of a scalar, which is plain, or literal with the tag of truth values. -/
def bool? (root node : Node) : Option Bool := do
  match ← root.follow? node with
  | .scalar properties text style =>
    guard (style == .plain || style == .literal && properties.tag == some (coreTag "bool"))
    Plain.bool? text
  | _ => none

/-- The items of a sequence, which must not have a tag of its own. -/
def items? (root node : Node) : Option (List Node) := do
  let target ← root.follow? node
  guard !hasLocalTag target
  match target with
  | .sequence _ items => some items
  | _ => none

def texts? (root node : Node) : Option (List String) := do
  (← items? root node).mapM (text? root)

/-- The text of a scalar that stands for a text and not for a number, a truth value or null. -/
def strictText? (root node : Node) : Option String := do
  let target ← root.follow? node
  guard !hasLocalTag target
  match target with
  | .scalar properties text style =>
    match properties.tag with
    | some tag =>
      guard !(["bool", "int", "float", "null"].map coreTag).contains tag
      some text
    | none =>
      guard (style != .plain || Plain.isText text)
      some text
  | _ => none

/-- The texts of seeds: one of them, a sequence of them, or null for none. -/
def oneOrMany? (root node : Node) : Option (List String) := do
  let target ← root.follow? node
  if ← isNull? target then some []
  else
    match target with
    | .sequence _ _ => (← items? root target).mapM (strictText? root)
    | _ => (strictText? root target).map ([·])

/-! ## Documents -/

def names : List String :=
  ["base_path", "source_dir", "output_path", "methods", "build_manifests", "exclude_patterns",
    "report", "verbose", "quiet"]

/-- Settings in which the one with a name is given by a node. -/
def set? (root : Node) (settings : Settings) (name : String) (node : Node) : Option Settings :=
  match name with
  | "base_path" => (text? root node).map fun basePath => { settings with basePath }
  | "source_dir" => (text? root node).map fun sourceDir => { settings with sourceDir }
  | "output_path" => (text? root node).map fun outputPath => { settings with outputPath }
  | "methods" => (oneOrMany? root node).map fun methods => { settings with methods }
  | "build_manifests" =>
    (texts? root node).map fun buildManifests => { settings with buildManifests }
  | "exclude_patterns" =>
    (texts? root node).map fun excludePatterns => { settings with excludePatterns }
  | "report" => (optionalText? root node).map fun report => { settings with report }
  | "verbose" => (bool? root node).map fun verbose => { settings with verbose }
  | "quiet" => (bool? root node).map fun quiet => { settings with quiet }
  | _ => some settings

/-- Reads the entries of a mapping into settings; `seen` holds the names that are given already,
since none may be given twice. -/
def ofEntries? (root : Node) (settings : Settings) (seen : List String) :
    List (Node × Node) → Option Settings
  | [] => some settings
  | (key, value) :: entries => do
    let name ← text? root key
    guard !seen.contains name
    let changed ← set? root settings name value
    ofEntries? root changed (if names.contains name then name :: seen else seen) entries

def ofNode? (root : Node) : Option Settings := do
  guard !hasLocalTag root
  match root with
  | .mapping _ entries => ofEntries? root default [] entries
  | _ => none

/-- The settings in a YAML text; nothing if the text is not well formed or gives a setting a value
that it cannot have. A text without a document gives the defaults. -/
def ofYaml? (text : String) : Option Settings := do
  match ← Document.parse? text with
  | some root => ofNode? root
  | none => some default

end Settings

end JavaSlice
