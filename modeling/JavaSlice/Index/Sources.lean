import JavaSlice.Index.Basic
import JavaSlice.Reading.Decl

/-!
# Indexing source texts

The index of a project whose files are given as texts, each with its path.
-/

namespace JavaSlice.Index

open Source

/-- The index of some files, given by path and text. -/
def ofSources (files : List (String × String)) : Index :=
  .ofUnits (files.map fun (path, text) => .ofSource path text)

end JavaSlice.Index
