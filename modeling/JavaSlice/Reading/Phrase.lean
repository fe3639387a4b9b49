import JavaSlice.Source.Expr
import JavaSlice.Syntax.Tree
import JavaSlice.Text.Blank

/-!
# Phrases

A `Phrase` is a node of a syntax tree together with what it stands for: a type, an annotation, an
expression. What a node stands for depends on its kind and on what its parts stand for, so a tree of
phrases is built from the leaves up, and everything that is asked of a phrase is found by looking at
its parts.

Besides the type this module holds the questions: the part in a role, the part of a kind, the text
of a part.
-/

namespace JavaSlice.Reading

open Syntax Source

/-! ## Pieces of source -/

/-- The characters between two places. -/
def cut (source : List Char) (start stop : Nat) : List Char :=
  (source.drop start).take (stop - start)

/-- The text between two places. -/
def textBetween (source : List Char) (start stop : Nat) : String :=
  String.ofList (cut source start stop)

/-- The number of the line of a place, where the first line is 1. -/
def lineAt (source : List Char) (place : Nat) : Nat :=
  (source.take place).count '\n' + 1

/-! ## Phrases -/

/-- A node of a syntax tree with what it stands for. -/
inductive Phrase where
  | mk (kind : Kind) (role : Option Role) (start stop : Nat) (faulty : Bool)
      (type? : Option TypeRef)
    (mark? : Option Annotation) (expr : Expr) (parts : List Phrase)
deriving Inhabited

namespace Phrase

/-- The kind of a phrase. -/
def kind : Phrase → Kind
  | .mk kind _ _ _ _ _ _ _ _ => kind

/-- The role of a phrase. -/
def role : Phrase → Option Role
  | .mk _ role _ _ _ _ _ _ _ => role

/-- Where a phrase starts. -/
def start : Phrase → Nat
  | .mk _ _ start _ _ _ _ _ _ => start

/-- Where a phrase ends. -/
def stop : Phrase → Nat
  | .mk _ _ _ stop _ _ _ _ _ => stop

/-- Whether a phrase holds a piece of source that could not be read. -/
def faulty : Phrase → Bool
  | .mk _ _ _ _ faulty _ _ _ _ => faulty

/-- The type that a phrase stands for. -/
def type? : Phrase → Option TypeRef
  | .mk _ _ _ _ _ type? _ _ _ => type?

/-- The annotation that a phrase stands for. -/
def mark? : Phrase → Option Annotation
  | .mk _ _ _ _ _ _ mark? _ _ => mark?

/-- The expression that a phrase stands for. -/
def expr : Phrase → Expr
  | .mk _ _ _ _ _ _ _ expr _ => expr

/-- The parts of a phrase. -/
def parts : Phrase → List Phrase
  | .mk _ _ _ _ _ _ _ _ parts => parts

/-- The source of a phrase. -/
def text (source : List Char) (phrase : Phrase) : String :=
  textBetween source phrase.start phrase.stop

end Phrase

/-! ## Questions about the parts of a phrase -/

/-- The first part in a role. -/
def inRole? (role : Role) (parts : List Phrase) : Option Phrase :=
  parts.find? (·.role == some role)

/-- All parts in a role. -/
def allInRole (role : Role) (parts : List Phrase) : List Phrase :=
  parts.filter (·.role == some role)

/-- The first part of a kind. -/
def ofKind? (kind : Kind) (parts : List Phrase) : Option Phrase :=
  parts.find? (·.kind == kind)

/-- The parts of the first part of a kind. -/
def partsOfKind (kind : Kind) (parts : List Phrase) : List Phrase :=
  ((ofKind? kind parts).map (·.parts)).getD []

/-- The parts of the first part in a role. -/
def partsInRole (role : Role) (parts : List Phrase) : List Phrase :=
  ((inRole? role parts).map (·.parts)).getD []

/-- The text of the part that names a declaration. -/
def name? (source : List Char) (parts : List Phrase) : Option String :=
  (inRole? .name parts).map (·.text source)

/-- The text of the part that names a declaration; the empty text if there is none. -/
def nameOf (source : List Char) (parts : List Phrase) : String :=
  (name? source parts).getD ""

/-- The expressions that parts stand for. -/
def exprsOf (parts : List Phrase) : List Expr :=
  parts.map (·.expr)

/-- The expression that the part in a role stands for; a missing part counts as a literal. -/
def exprInRole (role : Role) (parts : List Phrase) : Expr :=
  ((inRole? role parts).map (·.expr)).getD .literal

/-- The arguments of a call. -/
def argumentsOf (parts : List Phrase) : List Expr :=
  exprsOf (partsInRole .arguments parts)

/-- The annotations among some parts. -/
def marksOf (parts : List Phrase) : List Annotation :=
  parts.filterMap (·.mark?)

/-- The annotations among the modifiers. -/
def modifiersOf (parts : List Phrase) : List Annotation :=
  marksOf (partsOfKind .modifiers parts)

end JavaSlice.Reading
