import JavaSlice.Path

/-!
# Trees of files

A file system as a value: which directories and files there are, and what the files hold. A place in
it is the list of names that lead to it from the root, which is always a directory. Paths are walked
one component at a time; every component before the last has to be a directory, `..` included, and a
path that ends in a slash names a directory.
-/

namespace JavaSlice.Storage

/-- What a file holds: a text, or bytes that are no text. -/
inductive Content where
  | text (value : String)
  | binary (bytes : List UInt8)
deriving DecidableEq, Repr, Inhabited

def Content.ofBytes (bytes : List UInt8) : Content :=
  match String.fromUTF8? ⟨bytes.toArray⟩ with
  | some value => .text value
  | none => .binary bytes

def Content.text? : Content → Option String
  | .text value => some value
  | .binary _ => none

/-- What is at a place. -/
inductive Item where
  | directory
  | file (content : Content)
deriving DecidableEq, Repr, Inhabited

abbrev Place := List String

/-- The directories and files below the root. -/
structure Tree where
  items : List (Place × Item)
deriving DecidableEq, Repr, Inhabited

namespace Tree

/-- The tree with nothing in it. -/
def empty : Tree :=
  ⟨[]⟩

/-- What stands at a place. -/
def find? (tree : Tree) (place : Place) : Option Item :=
  if place.isEmpty then some .directory else tree.items.lookup place

/-- Whether a directory stands at a place. -/
def isDirectory (tree : Tree) (place : Place) : Bool :=
  tree.find? place == some .directory

/-- The content of the file at a place. -/
def content? (tree : Tree) (place : Place) : Option Content :=
  match tree.find? place with
  | some (.file content) => some content
  | _ => none

/-- Puts something at a place. -/
def put (tree : Tree) (place : Place) (item : Item) : Tree :=
  ⟨tree.items.filter (·.1 != place) ++ [(place, item)]⟩

/-! ## Walking along paths -/

/-- One step from a directory. -/
def step? (tree : Tree) (place : Place) (component : String) : Option Place :=
  if !tree.isDirectory place then none
  else if Path.isStill component then some place
  else if component == ".." then some place.dropLast
  else some (place ++ [component])

/-- The place that a path leads to. -/
def place? (tree : Tree) (path : String) : Option Place :=
  if path.isEmpty then none else (Path.components path).foldlM tree.step? []

/-- Whether a path leads to a file. -/
def isFile (tree : Tree) (path : String) : Bool :=
  ((tree.place? path).bind tree.content?).isSome

/-- The text of a file. -/
def readText? (tree : Tree) (path : String) : Option String := do
  let place ← tree.place? path
  (← tree.content? place).text?

/-- The path from the root to the place that a path leads to, if something is there. -/
def canonical? (tree : Tree) (path : String) : Option String := do
  let place ← tree.place? path
  let _ ← tree.find? place
  some ("/" ++ "/".intercalate place)

/-! ## Changes -/

/-- One step from a directory, which makes the next directory if nothing is there. -/
def enter? (state : Tree × Place) (component : String) : Option (Tree × Place) := do
  let (tree, place) := state
  let next ← tree.step? place component
  match tree.find? next with
  | some .directory => some (tree, next)
  | some (.file _) => none
  | none => some (tree.put next .directory, next)

/-- Takes steps from a place up to the first that cannot be made, and makes directories on the
way. -/
def enterAll : List String → Tree × Place → Bool × Tree
  | [], state => (true, state.1)
  | component :: rest, state =>
    match enter? state component with
    | some next => enterAll rest next
    | none => (false, state.1)

/-- Makes the directory that a path leads to, and all directories on the way. The first step that
cannot be made is an error; the directories before it stay. The path without text leads to a
directory that is there. No directory can be made under the name `.`: a path that ends so has to
lead to one that is there, or else only the directories around it are made. -/
def createAll (path : String) (tree : Tree) : Bool × Tree :=
  if path.isEmpty then (true, tree)
  else if Path.endsInDot path && !((tree.place? path).map tree.isDirectory).getD false then
    (false, (enterAll (Path.components ((Path.parent? path).getD "")) (tree, [])).2)
  else enterAll (Path.components path) (tree, [])

/-- Writes a file at the place that a path leads to, which must not be a directory. -/
def write? (path : String) (content : Content) (tree : Tree) : Option Tree := do
  let place ← tree.place? path
  if tree.isDirectory place then none else some (tree.put place (.file content))

/-- Copies a file. The target is emptied first, so that nothing is left of a file that is copied to
itself. -/
def copy? (source target : String) (tree : Tree) : Option Tree := do
  let place ← tree.place? source
  let content ← tree.content? place
  if tree.place? target == some place then tree.write? target (.text "")
  else tree.write? target content

/-! ## Everything below a directory -/

/-- What is below a place, with the names that lead to it from there. -/
def under (tree : Tree) (place : Place) : List (Place × Item) :=
  tree.items.filterMap fun (found, item) =>
    match place.isPrefixOf? found with
    | some (name :: rest) => some (name :: rest, item)
    | _ => none

/-- Whether a walk gets to a place, given which entries it visits by their depth, by whether they
are directories and by their name; `depth` is the depth of the first name, and the last name is a
directory or not. -/
def reaches (visits : Nat → Bool → String → Bool) (isDirectory : Bool) : Nat → Place → Bool
  | _, [] => true
  | depth, [name] => visits depth isDirectory name
  | depth, name :: rest => visits depth true name && reaches visits isDirectory (depth + 1) rest

/-- The files that a walk from a path visits, by the names that lead to them from there. The walk
visits an entry only if it visits the directory that the entry is in; the path itself is an entry at
depth zero, by its last component. -/
def walk? (path : String) (visits : Nat → Bool → String → Bool) (tree : Tree) :
    Option (List Place) := do
  let place ← tree.place? path
  let item ← tree.find? place
  let name := (Path.fileName? path).getD path
  if !visits 0 (item == .directory) name then some []
  else
    match item with
    | .file _ => some [[]]
    | .directory =>
      some ((tree.under place).filterMap fun (found, item) =>
        if item != .directory && reaches visits false 1 found then some found else none)

end Tree

end JavaSlice.Storage
