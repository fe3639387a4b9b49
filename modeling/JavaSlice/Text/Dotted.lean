/-!
# Dotted names

Packages, types and imports are named by segments with dots between them, as in `com.acme.Widget`.
The functions here take such a name apart at its first or its last dot and put names together.
-/

namespace JavaSlice.Dotted

/-- The part of a text before the first `mark` and the part after it, if there is one. -/
def cut? (mark : Char) : List Char → Option (List Char × List Char)
  | [] => none
  | c :: rest =>
    if c = mark then some ([], rest)
    else (cut? mark rest).map fun (before, after) => (c :: before, after)

/-- The parts of a text between the occurrences of `mark`; a text without it is its own only
part. -/
def splitAt (mark : Char) : List Char → List (List Char)
  | [] => [[]]
  | c :: rest =>
    match splitAt mark rest with
    | [] => [[c]]
    | part :: parts => if c = mark then [] :: part :: parts else (c :: part) :: parts

/-- The first segment and what follows its dot; `none` for a name of one segment. -/
def splitHead? (name : String) : Option (String × String) :=
  (cut? '.' name.toList).map fun (head, rest) => (String.ofList head, String.ofList rest)

def head (name : String) : String :=
  match splitHead? name with
  | some (first, _) => first
  | none => name

/-- Everything before the last dot; `none` for a name of one segment. -/
def qualifier? (name : String) : Option String :=
  (cut? '.' name.toList.reverse).map fun (_, before) => String.ofList before.reverse

def last (name : String) : String :=
  match cut? '.' name.toList.reverse with
  | some (after, _) => String.ofList after.reverse
  | none => name

def segments (name : String) : List String :=
  (splitAt '.' name.toList).map String.ofList

def join (qualifier name : String) : String :=
  qualifier ++ "." ++ name

/-- A name inside a package; names of the unnamed package are simple. -/
def within (package : Option String) (name : String) : String :=
  match package with
  | some qualifier => join qualifier name
  | none => name

end JavaSlice.Dotted
