import JavaSlice.Reading.Decl

/-!
# Class names that are written, and class names that are read

A class name is written in a phrase if it is the name of a type that stands anywhere in it. It is
read off the phrase if a type that the phrase is read for mentions it: in a signature, in the code,
or in the argument of an annotation (`Member.Mentions`).

What a phrase is read for depends on the phrases around it (`Mode`). A part that is read for nothing
is passed over: `everywhere` lists all parts of a phrase, and `readParts` those that are read.
-/

namespace JavaSlice.Source

/-! ## Class names that are read -/

/-- The types that stand in an expression, its parts apart. -/
def Expr.types : Expr → List TypeRef
  | .create type _ _ | .declare type _ | .typeUse type => [type]
  | .lambda params _ => params.map (·.type)
  | _ => []

/-- The annotations that stand in an expression, its parts apart. -/
def Expr.marks : Expr → List Annotation
  | .lambda params _ => params.flatMap (·.annotations)
  | _ => []

mutual

/-- A class name is among those of a type, or of a type that stands in it. -/
inductive TypeRef.Mentions (name : String) : TypeRef → Prop where
  | own {type : TypeRef} (among : name ∈ type.classNames) : TypeRef.Mentions name type
  | argument {argument : TypeRef} {other : String} {arguments : List TypeRef}
      {marks : List Annotation}
      (isArgument : argument ∈ arguments) (within : TypeRef.Mentions name argument) :
      TypeRef.Mentions name (.named other arguments marks)
  | mark {mark : Annotation} {value : Expr} {other : String} {arguments : List TypeRef}
      {marks : List Annotation}
      (isMark : mark ∈ marks) (isValue : value ∈ mark.args) (within : Expr.Mentions name value) :
      TypeRef.Mentions name (.named other arguments marks)
  | element {element : TypeRef} (within : TypeRef.Mentions name element) :
      TypeRef.Mentions name (.array element)
  | bound {bound : TypeRef} (within : TypeRef.Mentions name bound) :
      TypeRef.Mentions name (.wildcard (some bound))

/-- A class name is among those of a type that stands in an expression. -/
inductive Expr.Mentions (name : String) : Expr → Prop where
  | type {expr : Expr} {type : TypeRef} (isType : type ∈ expr.types)
      (within : TypeRef.Mentions name type) : Expr.Mentions name expr
  | mark {expr value : Expr} {mark : Annotation} (isMark : mark ∈ expr.marks)
      (isValue : value ∈ mark.args) (within : Expr.Mentions name value) : Expr.Mentions name expr
  | part {expr part : Expr} (isPart : part ∈ expr.children) (within : Expr.Mentions name part) :
      Expr.Mentions name expr

end

/-- A class name is among those of the arguments of an annotation. -/
def Annotation.Mentions (name : String) (mark : Annotation) : Prop :=
  ∃ value ∈ mark.args, value.Mentions name

/-- A class name is among those of a parameter. -/
def Param.Mentions (name : String) (param : Param) : Prop :=
  param.type.Mentions name ∨ ∃ mark ∈ param.annotations, mark.Mentions name

/-- A class name is among those of a field. -/
def Field.Mentions (name : String) (field : Field) : Prop :=
  field.type.Mentions name ∨ (∃ mark ∈ field.annotations, mark.Mentions name) ∨
    ∃ value ∈ field.initializers, value.Mentions name

/-- A class name is among those of a method or a constructor. -/
def Method.Mentions (name : String) (method : Method) : Prop :=
  (∃ type ∈ method.returnType.toList ++ method.throws, type.Mentions name) ∨
    (∃ mark ∈ method.annotations, mark.Mentions name) ∨
      (∃ param ∈ method.params, param.Mentions name) ∨
    ∃ expr ∈ method.body, expr.Mentions name

/-- A class name is among those of a member. -/
def Member.Mentions (name : String) : Member → Prop
  | .field decl => decl.Mentions name
  | .method decl | .constructor decl => decl.Mentions name

end JavaSlice.Source

namespace JavaSlice.Reading

open Syntax Source

/-! ## Class names that are written -/

/-- What a phrase is read for. -/
inductive Mode where
  /-- The expression that it stands for. -/
  | code
  | type
  | mark
  /-- An argument of an annotation. -/
  | value
  | parameter
  /-- The initial value of a variable. -/
  | declarator
  /-- The member that it declares. -/
  | member
  /-- A member of an anonymous class, whose code belongs to the code around it. -/
  | entry
  /-- What each of its parts is read for. -/
  | each (use : Mode)
  /-- The types that it lists. -/
  | types
  /-- Nothing: it is a segment of the name of a type, or the name of a type parameter that is
  declared. -/
  | nothing
deriving DecidableEq

/-- The text of a phrase. -/
def textOf (source : List Char) (tree : Tree) : String :=
  textBetween source tree.start tree.stop

/-- The name of a type that is a plain name, with dots or without. -/
def plainName? (source : List Char) (tree : Tree) : Option String :=
  if Grammar.isPlainTypeName tree then some (Text.dropBlanks (textOf source tree)) else none

/-- The class name that a type is in itself, its type arguments apart. -/
def ownName? (source : List Char) (tree : Tree) : Option String :=
  match tree.kind with
  | .typeIdentifier => if textOf source tree == "var" then none else some (textOf source tree)
  | .scopedTypeIdentifier => plainName? source tree
  | .genericType => tree.children.head?.bind (plainName? source)
  | _ => none

section Writes

variable (source : List Char) (parts : Mode → Tree → List (Mode × Tree))

/-- A class name is written in a phrase, and not in a part that is missing from `parts`. -/
inductive Writes (name : String) : Mode → Tree → Prop where
  | own {mode : Mode} {tree : Tree} (asType : mode = .code ∨ mode = .type)
      (own : ownName? source tree = some name) : Writes name mode tree
  | part {mode use : Mode} {whole part : Tree} (listed : (use, part) ∈ parts mode whole)
      (written : Writes name use part) : Writes name mode whole

/-- The class names that are written in a phrase, down to a depth. -/
def writtenNames : Nat → Mode → Tree → List String
  | 0, _, _ => []
  | depth + 1, mode, tree =>
    (if mode = .code ∨ mode = .type then (ownName? source tree).toList else []) ++
      (parts mode tree).flatMap fun (use, part) => writtenNames depth use part

/-- Names that are listed are written. -/
theorem writes_of_mem (listed : name ∈ writtenNames source parts depth mode tree) :
    Writes source parts name mode tree := by
  induction depth generalizing mode tree with
  | zero => cases listed
  | succ depth ih =>
    rw [writtenNames, List.mem_append, List.mem_flatMap] at listed
    rcases listed with isOwn | ⟨⟨use, part⟩, isPart, written⟩
    · split at isOwn
      next asType => exact .own asType (Option.mem_toList.mp isOwn)
      next => cases isOwn
    · exact .part isPart (ih written)

end Writes

/-- Whether a part is only a segment of a name, or the name of something that is declared. -/
def isSegment (whole part : Tree) : Bool :=
  match whole.kind with
  | .scopedTypeIdentifier | .genericType => isType part.kind
  | .typeParameter => part.kind == .typeIdentifier
  | _ => false

/-- Every part of a phrase. -/
def everywhere (_ : Mode) (whole : Tree) : List (Mode × Tree) :=
  whole.children.map fun part => (if isSegment whole part then .nothing else .code, part)

/-! ## What is read -/

section Parts

variable (source : List Char) (whole : Tree)

/-- At most one part. -/
def one (part? : Option Tree) (use : Mode) : List (Mode × Tree) :=
  part?.toList.map (use, ·)

/-- The part in a role. -/
def inRole (role : Role) : Mode → List (Mode × Tree) :=
  one (Tree.inRole? role whole.children)

/-- The part of a kind. -/
def ofKind (kind : Kind) : Mode → List (Mode × Tree) :=
  one (Tree.ofKind? kind whole.children)

/-- The parts that pass a test. -/
def every (test : Tree → Bool) (use : Mode) : List (Mode × Tree) :=
  (whole.children.filter test).map (use, ·)

/-- The parts that declare variables. -/
def declarators : List (Mode × Tree) :=
  every whole (·.role == some .declarator) .declarator

/-- The types among the parts. -/
def typeParts : List Tree :=
  whole.children.filter (isType ·.kind)

/-- Whether a type can carry annotations once it is read: a named type can. -/
def carriesMarks (tree : Tree) : Bool :=
  match tree.kind with
  | .scopedTypeIdentifier | .genericType => true
  | .typeIdentifier => textOf source tree != "var"
  | _ => false

/-- The parts of a type that are read. -/
def partsOfType : List (Mode × Tree) :=
  match whole.kind with
  | .genericType => ofKind whole .typeArguments (.each .type)
  | .arrayType => inRole whole .element .type
  | .wildcard => one (typeParts whole).getLast? .type
  | .annotatedType =>
    let last := (typeParts whole).getLast?
    one (last.filter (·.kind != .annotatedType)) .type ++
      if last.any (carriesMarks source) then every whole (fun _ => true) .mark else []
  | _ => []

/-- The parts of an annotation that are read. -/
def partsOfMark : List (Mode × Tree) :=
  match whole.kind with
  | .annotationMark | .annotationCall =>
    if (Tree.inRole? .name whole.children).isSome then inRole whole .arguments (.each .value)
      else []
  | _ => []

/-- The parts of a phrase in code that are read. Of a call these are the scope and the arguments,
but not the type arguments, and of a variable the type and the value, but not the modifiers. Most
phrases are read part by part. -/
def partsOfCode : List (Mode × Tree) :=
  match whole.kind with
  | .literal | .identifier | .thisWord | .superWord => []
  | .typeIdentifier | .scopedTypeIdentifier | .genericType | .arrayType | .primitiveType | .voidType
  | .annotatedType => partsOfType source whole
  | .annotationMark | .annotationCall => partsOfMark whole
  | .methodInvocation => inRole whole .object .code ++ inRole whole .arguments (.each .code)
  | .explicitConstructorInvocation => inRole whole .arguments (.each .code)
  | .objectCreation =>
    inRole whole .type .type ++ inRole whole .arguments (.each .code) ++
      ofKind whole .classBody (.each .entry)
  | .fieldAccess => inRole whole .object .code
  | .methodReference => one whole.children.head? .code
  | .classLiteral => one whole.children.head? .type
  | .binary => inRole whole .left .code ++ inRole whole .right .code
  | .unary => inRole whole .operand .code
  | .cast => every whole (·.role == some .type) .type ++ inRole whole .value .code
  | .instanceofTest =>
    inRole whole .left .code ++ inRole whole .right .type ++ inRole whole .pattern .code
  | .lambda =>
    one ((Tree.inRole? .parameters whole.children).filter (·.kind != .identifier))
      (.each .parameter) ++ inRole whole .body .code
  | .localVariableDeclaration => inRole whole .type .type ++ declarators whole
  | .enhancedFor => inRole whole .type .type ++ inRole whole .value .code ++
    inRole whole .body .code
  | .catchFormalParameter => ofKind whole .catchType .types
  | .resource =>
    if (Tree.inRole? .type whole.children).isSome
      then inRole whole .type .type ++ inRole whole .value .code
    else every whole (fun _ => true) .code
  | _ => every whole (fun _ => true) .code

/-- The parts of a phrase that are read. A member is read without its type parameters and their
bounds, and a method of an anonymous class for its parameters and its body only. -/
def readParts (mode : Mode) : List (Mode × Tree) :=
  match mode, whole.kind with
  | .code, _ => partsOfCode source whole
  | .type, _ => partsOfType source whole
  | .mark, _ => partsOfMark whole
  | .each use, _ => every whole (fun _ => true) use
  | .types, _ => every whole (isType ·.kind) .type
  | .value, .elementValuePair => inRole whole .value .code
  | .value, _ => partsOfCode source whole
  | .parameter, .formalParameter =>
    ofKind whole .modifiers (.each .mark) ++ inRole whole .type .type
  | .parameter, .spreadParameter =>
    ofKind whole .modifiers (.each .mark) ++ one (typeParts whole).head? .type
  | .declarator, _ => inRole whole .value .code
  | .member, .fieldDeclaration | .member, .constantDeclaration =>
    ofKind whole .modifiers (.each .mark) ++ inRole whole .type .type ++ declarators whole
  | .member, .methodDeclaration | .member, .annotationTypeElement | .member,
      .constructorDeclaration =>
    ofKind whole .modifiers (.each .mark) ++
      (if whole.kind == .constructorDeclaration then [] else inRole whole .type .type) ++
      inRole whole .parameters (.each .parameter) ++ ofKind whole .throwsClause .types ++
      inRole whole .body (.each .code)
  | .entry, .methodDeclaration =>
    if (Tree.inRole? .name whole.children).isSome then
      inRole whole .parameters (.each .parameter) ++ inRole whole .body (.each .code)
    else []
  | .entry, .fieldDeclaration => inRole whole .type .type ++ declarators whole
  | .entry, _ => partsOfCode source whole
  | _, _ => []

end Parts

/-- A class name is written in a phrase, and the reading of the phrase gets to it. -/
abbrev Shows (source : List Char) (name : String) : Mode → Tree → Prop :=
  Writes source (fun mode whole => readParts source whole mode) name

end JavaSlice.Reading
