/-!
# Sets of characters

Rules of a text format speak of classes of characters such as "a letter" or "an upper case letter".
Such a class is a finite set of code points with long regular stretches, so a `Charset` lists its
stretches: runs of code points at a fixed distance. The distance is one for a plain interval and two
where a standard interleaves the two cases of a script (`Ā ā Ă ă …`).
-/

namespace JavaSlice.Text

/-- The code points `first`, `first + step`, `first + 2 * step`, … up to `last`. -/
structure Run where
  first : Nat
  last : Nat
  step : Nat
deriving DecidableEq, Repr

def Run.contains (run : Run) (code : Nat) : Bool :=
  run.first ≤ code && code ≤ run.last && (code - run.first) % run.step == 0

abbrev Charset := List Run

/-- The characters inside, given how many code points are outside and inside by turns, from `start`
on. -/
def Charset.ofLengths (start : Nat) : List Nat → Charset
  | outside :: inside :: rest =>
    ⟨start + outside, start + outside + inside - 1, 1⟩ :: ofLengths (start + outside + inside) rest
  | _ => []

def Charset.contains (set : Charset) (c : Char) : Bool :=
  set.any (·.contains c.toNat)

end JavaSlice.Text
