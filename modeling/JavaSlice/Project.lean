import JavaSlice.Index.Sources
import JavaSlice.Storage.Access

/-!
# The sources of a project

The source files of a project are found by a walk from its source directory. The walk passes over
hidden directories and over everything with an excluded name: files and directories alike, and the
source directory itself. Sources are read in the order of their paths, compared name by name.
-/

namespace JavaSlice.Project

open Storage

def alwaysExcluded : List String :=
  ["target", "build", "out", "node_modules"]

/-- Whether a walk visits an entry, by its depth, by whether it is a directory and by its name. -/
def visits (excluded : List String) (depth : Nat) (isDirectory : Bool) (name : String) : Bool :=
  !(decide (0 < depth) && isDirectory && name.toList.head? == some '.') &&
    !(alwaysExcluded ++ excluded).contains name

def isSource (name : String) : Bool :=
  Path.extension? name == some "java"

/-- The places of the sources among the files that a walk has visited, in order. The file at no
place below the source directory is that directory itself. -/
def sourcePlaces (root : String) (visited : List Place) : List Place :=
  let ownName := (Path.fileName? root).getD root
  (visited.filter fun place => isSource (place.getLast?.getD ownName)).mergeSort
    fun first second => (List.compareLex Ord.compare first second).isLE

variable {m : Type → Type} [Monad m]

/-- The paths and the texts of the sources below a directory; nothing if one of them cannot be
read. -/
def sources (access : Access m) (root : String) (excluded : List String) :
    OptionT m (List (String × String)) := do
  let visited ← OptionT.mk (access.walk root (visits excluded))
  (sourcePlaces root visited).mapM fun place => do
    let path := "/".intercalate place
    let text ← OptionT.mk (access.readText (Path.join root path))
    pure (path, text)

/-- The index of the sources below a directory; nothing if one of them cannot be read. -/
def index (access : Access m) (root : String) (excluded : List String) : OptionT m Index := do
  pure (Index.ofSources (← sources access root excluded))

end JavaSlice.Project
