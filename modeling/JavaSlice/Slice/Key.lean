/-!
# Keys of declarations

A declaration is identified by the qualified name of the type that owns it and by what it is inside
that type: the type itself, a field by name, a method by name and number of parameters, or a
constructor by number of parameters. Keys are ordered by owner, then in that order of kinds, then by
name and number.
-/

namespace JavaSlice.Slice

/-- What a declaration is inside the type that owns it. -/
inductive MemberKey where
  | type
  | field (name : String)
  | method (name : String) (arity : Nat)
  | constructor (arity : Nat)
deriving DecidableEq, Repr, Inhabited

namespace MemberKey

/-- The place of a kind of member in the order of keys. -/
def rank : MemberKey → Nat
  | .type => 0
  | .field _ => 1
  | .method _ _ => 2
  | .constructor _ => 3

/-- The name by which members of one kind are ordered. -/
def label : MemberKey → String
  | .field name => name
  | .method name _ => name
  | _ => ""

/-- The number by which members of one kind and name are ordered. -/
def number : MemberKey → Nat
  | .method _ arity => arity
  | .constructor arity => arity
  | _ => 0

/-- The order of the members of one type. -/
def compare (first second : MemberKey) : Ordering :=
  (Ord.compare first.rank second.rank).then <|
    (Ord.compare first.label second.label).then (Ord.compare first.number second.number)

end MemberKey

/-- The identity of a declaration. -/
structure Key where
  owner : String
  member : MemberKey
deriving DecidableEq, Repr, Inhabited

namespace Key

/-- The key of a type. -/
def type (owner : String) : Key :=
  ⟨owner, .type⟩

/-- The key of a field. -/
def field (owner name : String) : Key :=
  ⟨owner, .field name⟩

/-- The key of a method. -/
def method (owner name : String) (arity : Nat) : Key :=
  ⟨owner, .method name arity⟩

/-- The key of a constructor. -/
def constructor (owner : String) (arity : Nat) : Key :=
  ⟨owner, .constructor arity⟩

/-- The text of a key in reports. -/
def display (key : Key) : String :=
  match key.member with
  | .type => key.owner
  | .field name => key.owner ++ "." ++ name
  | .method name arity => key.owner ++ "#" ++ name ++ "/" ++ toString arity
  | .constructor arity => key.owner ++ "#<init>/" ++ toString arity

/-- The order of keys. -/
def compare (first second : Key) : Ordering :=
  (Ord.compare first.owner second.owner).then (first.member.compare second.member)

/-- Whether a key comes before another or equals it. -/
def le (first second : Key) : Bool :=
  (first.compare second).isLE

/-- Keys in order. -/
def sort (keys : List Key) : List Key :=
  keys.mergeSort le

end Key

/-- The way in which a declaration uses another. -/
inductive EdgeKind where
  | call
  | construction
  | fieldRef
  | annotated
  | variableType
  | parameterType
  | returnType
  | supertype
  | member
deriving DecidableEq, Repr, Inhabited

namespace EdgeKind

/-- The name of a kind of edge in reports. -/
def name : EdgeKind → String
  | .call => "call"
  | .construction => "construction"
  | .fieldRef => "field_ref"
  | .annotated => "annotation"
  | .variableType => "variable_type"
  | .parameterType => "parameter_type"
  | .returnType => "return_type"
  | .supertype => "supertype"
  | .member => "member"

/-- All kinds of edges. -/
def all : List EdgeKind :=
  [.call, .construction, .fieldRef, .annotated, .variableType, .parameterType, .returnType,
    .supertype, .member]

/-- The kind of edge with a name. -/
def ofName? (text : String) : Option EdgeKind :=
  all.find? (·.name == text)

end EdgeKind

end JavaSlice.Slice
