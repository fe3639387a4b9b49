import JavaSlice.Text.Dotted

/-!
# Paths

A path is text with slashes between its components. Putting a path after another keeps the text of
both: nothing is normalised, an absolute path replaces what stands before it, and a slash is added
only where the first path does not end in one.

Taking a path apart does not see empty components, nor the component `.` except at the start.
-/

namespace JavaSlice.Path

def isAbsolute (path : String) : Bool :=
  path.toList.head? == some '/'

/-- The path `path` seen from the directory `base`. -/
def join (base path : String) : String :=
  if isAbsolute path then path
  else if base.isEmpty then path
  else if base.toList.getLast? == some '/' then base ++ path
  else base ++ "/" ++ path

/-- The components of a path as they are written; one that is absolute starts with an empty
component. -/
def components (path : String) : List String :=
  (Dotted.splitAt '/' path.toList).map String.ofList

/-- Whether a component stands for no step. -/
def isStill (component : String) : Bool :=
  component.isEmpty || component == "."

def endsInDot (path : String) : Bool :=
  ((components path).filter (!·.isEmpty)).getLast? == some "."

/-! ## The last component -/

/-- The reverse of a path without the slashes and the components `.` at its end. The first character
stays, so that the root and a leading `.` are kept. -/
def trimReversed : List Char → List Char
  | '/' :: c :: rest => trimReversed (c :: rest)
  | ['.', '/'] => ['/']
  | '.' :: '/' :: rest => trimReversed ('/' :: rest)
  | cs => cs

/-- The directory that a path is in, which has no text if the path is a single component; the root
is in none. -/
def parent? (path : String) : Option String :=
  let reversed := trimReversed path.toList.reverse
  if reversed.isEmpty || reversed == ['/'] then none
  else
    let before := reversed.dropWhile (· != '/')
    some (String.ofList (trimReversed before).reverse)

/-- The last component of a path, unless it leads upwards. -/
def fileName? (path : String) : Option String :=
  let name := String.ofList ((trimReversed path.toList.reverse).takeWhile (· != '/')).reverse
  if isStill name || name == ".." then none else some name

/-- What follows the last dot of a name, unless the dot comes first. -/
def extension? (name : String) : Option String :=
  let reversed := name.toList.reverse
  match reversed.dropWhile (· != '.') with
  | _ :: _ :: _ => some (String.ofList (reversed.takeWhile (· != '.')).reverse)
  | _ => none

/-- What is left of a path that starts with the path of a directory, from the directory on. -/
def below (directory path : String) : String :=
  let rest := path.toList.drop directory.toList.length
  let steps := (Dotted.splitAt '/' rest).dropWhile fun component =>
    isStill (String.ofList component)
  "/".intercalate (steps.map String.ofList)

end JavaSlice.Path
