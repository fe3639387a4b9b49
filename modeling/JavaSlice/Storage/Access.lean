import JavaSlice.Storage.Tree

/-!
# Access to files

What a run needs to do with files, and the clock. An `Access` says how each of these things is done
in a monad, so that one description of a run serves a tree of files as a value and the files of a
machine. An operation that can fail says so in its result and leaves what it has done so far.
-/

namespace JavaSlice.Storage

/-- The operations of a run. -/
structure Access (m : Type → Type) where
  readText : String → m (Option String)
  isFile : String → m Bool
  /-- The files that a walk from a path visits, as `Tree.walk?` says. -/
  walk : String → (Nat → Bool → String → Bool) → m (Option (List Place))
  /-- Makes a directory and those on the way to it. -/
  createAll : String → m Bool
  writeText : String → String → m Bool
  copy : String → String → m Bool
  /-- The path of something from the root, without detours. -/
  canonical : String → m (Option String)
  /-- The nanoseconds since some moment. -/
  clock : m Nat
  /-- The nanoseconds since the first day of 1970 began. -/
  now : m Nat

/-- A change of a tree that may fail, in which case the tree stays. -/
def attempt (change : Tree → Option Tree) : StateM Tree Bool := fun tree =>
  match change tree with
  | some changed => (true, changed)
  | none => (false, tree)

/-- The operations on a tree, whose clock stands still. -/
def Access.ofTree : Access (StateM Tree) where
  readText path := do pure ((← get).readText? path)
  isFile path := do pure ((← get).isFile path)
  walk path visits := do pure ((← get).walk? path visits)
  createAll path := fun tree => tree.createAll path
  writeText path text := attempt (Tree.write? path (.text text))
  copy source target := attempt (Tree.copy? source target)
  canonical path := do pure ((← get).canonical? path)
  clock := pure 0
  now := pure 0

end JavaSlice.Storage
