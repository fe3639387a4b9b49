import JavaSlice.Command.Exit
import Std.Time.DateTime.Timestamp

/-!
# The command

Performs a command line on the files of the machine.
-/

namespace JavaSlice.Command

open Storage

/-- The result of an action, or nothing if it fails. -/
def succeeded? {α : Type} (action : IO α) : IO (Option α) :=
  try
    some <$> action
  catch _ => pure none

def succeeds (action : IO Unit) : IO Bool := do
  pure (← succeeded? action).isSome

/-- The files below some entries that a walk visits, with the place that the entries are at. -/
partial def walkEntries (visits : Nat → Bool → String → Bool) (depth : Nat) (place : Place)
    (entries : Array IO.FS.DirEntry) : IO (List Place) := do
  let mut found := []
  for entry in entries do
    let kind := (← entry.path.symlinkMetadata).type
    if visits depth (kind == .dir) entry.fileName then
      let here := place ++ [entry.fileName]
      if kind == .dir then
        found := found ++ (← walkEntries visits (depth + 1) here (← entry.path.readDir))
      else if kind == .file then
        found := found ++ [here]
  pure found

def walkFiles (path : String) (visits : Nat → Bool → String → Bool) : IO (List Place) := do
  let root ← IO.FS.realPath path
  let isDirectory ← root.isDir
  if !visits 0 isDirectory ((Path.fileName? path).getD path) then pure []
  else if isDirectory then walkEntries visits 1 [] (← root.readDir)
  else pure [[]]

def copyFile (source target : String) : IO Unit :=
  IO.FS.withFile source .read fun reader =>
    IO.FS.withFile target .write fun writer => do
      writer.write (← reader.readBinToEnd)

def machine : Access IO where
  readText path := succeeded? (IO.FS.readFile path)
  isFile path := do
    let kind ← succeeded? do pure (← (← IO.FS.realPath path).metadata).type
    pure (kind == some .file)
  walk path visits := succeeded? (walkFiles path visits)
  createAll path := if path.isEmpty then pure true else succeeds (IO.FS.createDirAll path)
  writeText path text := succeeds (IO.FS.writeFile path text)
  copy source target := succeeds (copyFile source target)
  canonical path := succeeded? do pure (← IO.FS.realPath path).toString
  clock := IO.monoNanosNow
  now := do pure (← Std.Time.Timestamp.now).toNanosecondsSinceUnixEpoch.val.toNat

end JavaSlice.Command

def main (args : List String) : IO UInt32 := do
  let exit ← JavaSlice.Command.perform JavaSlice.Command.machine args
  for line in exit.output do
    IO.println line
  for line in exit.warnings do
    IO.eprintln ("WARN " ++ line)
  for line in exit.errors do
    IO.eprintln line
  pure exit.code.toUInt32
