/-!
# Command lines

The words of a command line, and what they ask for. There is one command, `slice`, which takes the
path of a settings file. An option takes a value, which follows it as a word of its own or is
attached to it; no option or flag may be given twice. A word of its own that starts with a hyphen is
never the value of an option, and after the word `--` every word is a path.
-/

namespace JavaSlice.Command

/-- What a command line asks for. -/
structure Request where
  settings : String
  /-- Where to write, instead of where the settings say. -/
  output : Option String
  /-- Where the report goes, instead of where the settings say. -/
  report : Option String
  verbose : Bool
  quiet : Bool
deriving DecidableEq, Repr, Inhabited

inductive Meaning where
  | help
  | slice (request : Request)
deriving DecidableEq, Repr, Inhabited

/-- What the words read so far ask for. -/
structure Draft where
  settings : Option String := none
  output : Option String := none
  report : Option String := none
  verbose : Bool := false
  quiet : Bool := false
deriving DecidableEq, Repr, Inhabited

/-- The options that take a value. -/
inductive Valued where
  | output
  | report
deriving DecidableEq, Repr

inductive Flag where
  | verbose
  | quiet
deriving DecidableEq, Repr

/-- What a word is: a path, the end of the options, a request for help, a flag, or an option that
may have its value attached. -/
inductive Word where
  | path
  | endOfOptions
  | help
  | flag (flag : Flag)
  | option (option : Valued) (attached : Option String)
deriving DecidableEq, Repr

/-- What a word after two hyphens is, by its name and what stands after the sign of equality. -/
def Word.ofLong? (name : String) (attached : Option String) : Option Word :=
  match name, attached with
  | "output", attached => some (.option .output attached)
  | "report", attached => some (.option .report attached)
  | "verbose", none => some (.flag .verbose)
  | "quiet", none => some (.flag .quiet)
  | "help", none => some .help
  | _, _ => none

/-- What is attached to a letter, with or without a sign of equality. -/
def attachedToLetter : List Char → Option String
  | [] => none
  | '=' :: value => some (String.ofList value)
  | value => some (String.ofList value)

def Word.ofString? (word : String) : Option Word :=
  match word.toList with
  | ['-', '-'] => some .endOfOptions
  | '-' :: '-' :: long =>
    let name := String.ofList (long.takeWhile (· != '='))
    match long.dropWhile (· != '=') with
    | [] => Word.ofLong? name none
    | _ :: value => Word.ofLong? name (some (String.ofList value))
  | '-' :: 'o' :: more => some (.option .output (attachedToLetter more))
  | '-' :: 'r' :: more => some (.option .report (attachedToLetter more))
  | '-' :: 'h' :: _ => some .help
  | '-' :: _ :: _ => none
  | _ => some .path

/-- Whether a word of its own can be the value of an option. -/
def isFreeValue (word : String) : Bool :=
  Word.ofString? word == some .path

namespace Draft

/-- Takes a path, which must have text and be the only one. -/
def takePath? (draft : Draft) (path : String) : Option Draft :=
  if path.isEmpty || draft.settings.isSome then none else some { draft with settings := some path }

/-- Takes the value of an option, which must have text and be the only one. -/
def takeValue? (draft : Draft) (option : Valued) (value : String) : Option Draft :=
  if value.isEmpty then none
  else
    match option with
    | .output => if draft.output.isSome then none else some { draft with output := some value }
    | .report => if draft.report.isSome then none else some { draft with report := some value }

/-- Takes a flag, which must not be given twice. -/
def takeFlag? (draft : Draft) : Flag → Option Draft
  | .verbose => if draft.verbose then none else some { draft with verbose := true }
  | .quiet => if draft.quiet then none else some { draft with quiet := true }

def finish? (draft : Draft) : Option Meaning := do
  some (.slice ⟨← draft.settings, draft.output, draft.report, draft.verbose, draft.quiet⟩)

def read? (draft : Draft) : List String → Option Meaning
  | [] => draft.finish?
  | word :: rest => do
    match ← Word.ofString? word with
    | .path => (← draft.takePath? word).read? rest
    | .endOfOptions => (← rest.foldlM takePath? draft).finish?
    | .help => some .help
    | .flag flag => (← draft.takeFlag? flag).read? rest
    | .option option (some value) => (← draft.takeValue? option value).read? rest
    | .option option none =>
      match rest with
      | value :: rest =>
        if isFreeValue value then (← draft.takeValue? option value).read? rest else none
      | [] => none

end Draft

def Meaning.ofWords? : List String → Option Meaning
  | "slice" :: words => ({} : Draft).read? words
  | "help" :: words => if words.isEmpty || words == ["slice"] || words == ["help"] then some .help
    else none
  | word :: _ => if Word.ofString? word == some .help then some .help else none
  | [] => none

end JavaSlice.Command
