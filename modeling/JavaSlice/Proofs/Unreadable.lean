import JavaSlice.Proofs.Faults
import JavaSlice.Proofs.TypeMentions

/-!
# Pieces that could not be read

A piece of source that could not be read is a phrase of its own in the syntax tree, at any depth. So
may be a phrase that is missing, and a phrase may lack one of its signs. Signs and comments are no
phrases.

Every fault shows in the expression that is read off the tree. It is reported at a phrase that could
not be read or is missing, or at one that lacks a sign and has no fault in its parts. Nothing else
is reported (`faults_surface`).
-/

namespace JavaSlice.Syntax.Tree

variable {tree part : Tree}

/-- A phrase is another one, or stands in it at any depth. -/
def Within (part whole : Tree) : Prop :=
  Relation.ReflTransGen (fun tree child => child ∈ tree.children) whole part

/-- The fault of a phrase is its own: it could not be read or is missing, or it lacks a sign and its
parts have no fault. -/
def AtFault (tree : Tree) (flaw : Flaw) : Prop :=
  tree.flaw? = some flaw ∧ (flaw.isWhole = true ∨ ∀ part ∈ tree.children, part.hasError = false)

/-- A faulty part makes the whole faulty. -/
theorem hasError_of_within (within : part.Within tree) (wrong : part.hasError = true) :
    tree.hasError = true := by
  induction within using Relation.ReflTransGen.head_induction_on with
  | refl => exact wrong
  | head isPart _ ih =>
    rw [hasError_eq, Bool.or_eq_true, List.any_eq_true]
    exact .inr ⟨_, isPart, ih⟩

/-- A fault is one of the phrase itself, or it is to be looked for in the parts. -/
theorem fault_cases (wrong : tree.hasError = true) : (∃ flaw, tree.AtFault flaw) ∨
    (∀ flaw ∈ tree.flaw?, flaw.isWhole = false) ∧ ∃ part ∈ tree.children, part.hasError = true := by
  rw [hasError_eq, Bool.or_eq_true, List.any_eq_true, Option.isSome_iff_exists] at wrong
  by_cases inside : ∃ part ∈ tree.children, part.hasError = true
  · by_cases whole : ∃ flaw ∈ tree.flaw?, flaw.isWhole = true
    · obtain ⟨flaw, own, isWhole⟩ := whole
      exact .inl ⟨flaw, own, .inl isWhole⟩
    · exact .inr ⟨by simpa using whole, inside⟩
  · obtain ⟨flaw, own⟩ := wrong.resolve_right inside
    exact .inl ⟨flaw, own, .inr (by simpa using inside)⟩

end JavaSlice.Syntax.Tree

namespace JavaSlice.Reading

open List Option Source Syntax

variable (source : List Char)
variable {expr : Expr} {phrase : Phrase}

/-! ## Phrases without faults -/

/-- No part of an expression, however deep, is one that could not be read. -/
def Clean (expr : Expr) : Prop :=
  ∀ term ∈ expr.subterms, term.unsupported? = none

theorem clean_of (other : expr.unsupported? = none)
    (inside : ∀ child ∈ expr.children, Clean child) : Clean expr := by
  rw [Clean, Expr.subterms_eq, forall_mem_cons, forall_mem_flatMap]
  exact ⟨other, inside⟩

theorem clean_leaf (other : expr.unsupported? = none) (leaf : expr.children = []) : Clean expr :=
  clean_of other (leaf ▸ forall_mem_nil _)

theorem clean_getD {expr : Option Expr} (clean : ∀ term ∈ expr, Clean term) :
    Clean (expr.getD .literal) := by
  cases expr with
  | none => exact clean_leaf rfl rfl
  | some term => exact clean term rfl

/-- A phrase and the phrases in it are read without faults. -/
inductive Sound : Phrase → Prop where
  | mk {phrase : Phrase} : Clean phrase.expr → (∀ part ∈ phrase.parts, Sound part) → Sound phrase

/-- A sound phrase stands for an expression that could be read. -/
theorem Sound.clean : Sound phrase → Clean phrase.expr
  | .mk clean _ => clean

/-- The parts of a sound phrase are sound. -/
theorem Sound.inside : Sound phrase → ∀ part ∈ phrase.parts, Sound part
  | .mk _ parts => parts

section Sound

variable {source} {parts : List Phrase} {role : Role} {test : Phrase → Bool}
  (sound : ∀ part ∈ parts, Sound part)
variable {phrase : Phrase}
include sound

theorem sound_find? : ∀ part ∈ parts.find? test, Sound part :=
  fun part found => sound part (mem_of_find?_eq_some found)

theorem sound_parts_find? : ∀ part ∈ ((parts.find? test).map (·.parts)).getD [], Sound part := by
  cases found : parts.find? test with
  | none => exact forall_mem_nil _
  | some whole => exact (sound_find? sound whole found).inside

theorem clean_find? : ∀ expr ∈ (parts.find? test).map (·.expr), Clean expr :=
  Option.forall_mem_map.mpr fun part found => (sound_find? sound part found).clean

theorem clean_exprsOf : ∀ expr ∈ exprsOf parts, Clean expr :=
  List.forall_mem_map.mpr fun part isPart => (sound part isPart).clean

theorem clean_argumentsOf : ∀ expr ∈ argumentsOf parts, Clean expr :=
  clean_exprsOf (sound_parts_find? sound)

theorem clean_initializersOf : ∀ expr ∈ initializersOf parts, Clean expr := by
  intro expr isValue
  obtain ⟨part, isPart, read⟩ := mem_filterMap.mp isValue
  exact clean_find? (sound part (mem_of_mem_filter isPart)).inside expr read

omit sound in
theorem clean_anonymousMember (sound : Sound phrase) :
    ∀ expr ∈ anonymousMember source phrase, Clean expr := by
  unfold anonymousMember
  split
  next =>
    split
    next =>
      refine forall_mem_singleton.mpr (clean_of rfl (forall_mem_singleton.mpr (clean_of rfl ?_)))
      exact clean_exprsOf (sound_parts_find? sound.inside)
    next => exact forall_mem_nil _
  next =>
    refine forall_mem_cons.mpr ⟨clean_leaf rfl ?_, clean_initializersOf sound.inside⟩
    simp [Expr.children]
  next => exact forall_mem_singleton.mpr sound.clean

omit sound in
theorem clean_annotationArgument (sound : Sound phrase) : Clean (annotationArgument phrase) := by
  unfold annotationArgument
  split
  next =>
    cases found : inRole? .value phrase.parts with
    | none => exact sound.clean
    | some part => exact (sound_find? sound.inside part found).clean
  next => exact sound.clean

theorem clean_declareOne (type : TypeRef) : Clean (declareOne source type parts) := by
  refine clean_of rfl fun expr isValue => ?_
  obtain ⟨_, isVariable, read⟩ := mem_filterMap.mp isValue
  obtain rfl := mem_singleton.mp isVariable
  exact clean_find? sound expr read

/-- The arguments of an annotation with sound parts could be read. -/
theorem clean_markOf? (read : markOf? source kind parts = some mark) :
    ∀ arg ∈ mark.args, Clean arg := by
  unfold markOf? at read
  split at read
  next =>
    obtain ⟨_, -, rfl⟩ := map_eq_some_iff.mp read
    exact List.forall_mem_map.mpr fun part isPart =>
      clean_annotationArgument (sound_parts_find? sound part isPart)
  next => cases read

/-- What a phrase stands for is put together from what its parts stand for. -/
theorem clean_exprOf (kind : Kind) (start stop : Nat) (type? : Option TypeRef) :
    Clean (exprOf source kind start stop type? (markOf? source kind parts) parts) := by
  have part (role : Role) : Clean (exprInRole role parts) := clean_getD (clean_find? sound)
  cases kind with
  | literal | typeIdentifier | scopedTypeIdentifier | genericType | arrayType | primitiveType |
      voidType
  | annotatedType | identifier | thisWord | superWord => exact clean_leaf rfl rfl
  | methodInvocation =>
    refine clean_of rfl (forall_mem_append.mpr ⟨fun scope isScope => ?_, clean_argumentsOf sound⟩)
    exact clean_find? sound scope (mem_toList.mp isScope)
  | objectCreation =>
    refine clean_of rfl (forall_mem_append.mpr ⟨clean_argumentsOf sound, fun expr isBody => ?_⟩)
    obtain ⟨body, found, rfl⟩ := map_eq_some_iff.mp (mem_toList.mp isBody)
    exact clean_of rfl (forall_mem_flatMap.mpr fun member isMember =>
      clean_anonymousMember ((sound_find? sound body found).inside member isMember))
  | explicitConstructorInvocation =>
    refine clean_of rfl (forall_mem_cons.mpr ⟨?_, clean_argumentsOf sound⟩)
    split <;> exact clean_leaf rfl rfl
  | methodReference =>
    refine clean_of rfl (forall_mem_singleton.mpr
      (clean_getD (Option.forall_mem_map.mpr fun part first => ?_)))
    exact (sound part (mem_of_mem_head? first)).clean
  | localVariableDeclaration =>
    refine clean_of rfl fun value (isValue : value ∈ List.filterMap _ (List.map _ _)) => ?_
    rw [filterMap_map] at isValue
    exact clean_initializersOf sound value isValue
  | enhancedFor =>
    exact clean_of rfl (forall_mem_cons.mpr ⟨clean_leaf rfl rfl, by simp [part]⟩)
  | catchFormalParameter =>
    refine clean_of rfl (show ∀ child ∈ caughtParts source parts, Clean child from ?_)
    unfold caughtParts
    split
    next => exact forall_mem_singleton.mpr (clean_declareOne sound _)
    next =>
      refine forall_mem_cons.mpr ⟨clean_declareOne sound _, ?_⟩
      exact List.forall_mem_map.mpr fun _ _ => clean_leaf rfl rfl
  | resource =>
    rw [exprOf]
    split
    next => exact clean_declareOne sound _
    next => exact clean_of rfl (clean_exprsOf sound)
  | cast =>
    refine clean_of rfl (forall_mem_append.mpr ⟨?_, forall_mem_singleton.mpr (part _)⟩)
    exact List.forall_mem_map.mpr fun _ _ => clean_leaf rfl rfl
  | instanceofTest =>
    refine clean_of rfl (forall_mem_append.mpr ⟨forall_mem_cons.mpr ⟨part _, ?_⟩, ?_⟩)
    · split
      next =>
        split
        all_goals exact forall_mem_singleton.mpr (clean_leaf rfl rfl)
      next => exact forall_mem_nil _
    · exact clean_exprsOf fun pattern found =>
        sound_find? sound pattern (mem_toList.mp found)
  | classLiteral => exact clean_getD (Option.forall_mem_map.mpr fun _ _ => clean_leaf rfl rfl)
  | fieldAccess | lambda | unary => exact clean_of rfl (forall_mem_singleton.mpr (part _))
  | binary => exact clean_of rfl (show ∀ child ∈ [_, _], Clean child by simp [part])
  | annotationMark | annotationCall =>
    refine clean_getD (Option.forall_mem_map.mpr fun mark read => clean_of rfl ?_)
    exact forall_mem_cons.mpr ⟨clean_leaf rfl rfl, clean_markOf? sound read⟩
  | _ => exact clean_of rfl (clean_exprsOf sound)

end Sound

/-! ## Trees -/

section Trees

variable {source} {tree : Tree}

/-- Nothing is reported where nothing is wrong. -/
theorem sound_ofTree (tree : Tree) (right : tree.hasError = false) :
    Sound (Phrase.ofTree source tree) := by
  induction tree using Tree.rises with
  | step tree ih =>
    have parts : ∀ part ∈ Phrase.ofTrees source tree.children, Sound part := by
      rw [ofTrees_eq_map, List.forall_mem_map]
      exact fun part isPart => ih part isPart (Tree.hasError_of_mem right isPart)
    refine .mk ?_ (by rwa [parts_ofTree])
    rw [expr_ofTree right, mark?_ofTree]
    exact clean_exprOf parts tree.kind tree.start tree.stop _

/-- A phrase at fault stands for an expression that could not be read, with its line. -/
theorem expr_of_atFault (fault : tree.AtFault flaw) :
    (Phrase.ofTree source tree).expr = .unsupported flaw.label (lineAt source tree.start) := by
  obtain ⟨own, alone⟩ := fault
  rw [expr_eq, own, faultyExprOf, any_faulty_ofTrees, if_neg]
  rcases alone with whole | right
  · simp [whole]
  · simp +contextual [right]

/-- A phrase with a faulty part stands for the group of its parts. -/
theorem expr_of_part (notWhole : ∀ flaw ∈ tree.flaw?, flaw.isWhole = false)
    (isPart : part ∈ tree.children) (wrong : part.hasError = true) :
    (Phrase.ofTree source tree).expr = .group (exprsOf (Phrase.ofTrees source tree.children)) := by
  have faulty : tree.children.any Tree.hasError = true := List.any_eq_true.mpr ⟨part, isPart, wrong⟩
  rw [expr_eq]
  cases own : tree.flaw? with
  | none => rw [faultyExprOf, any_faulty_ofTrees, faulty, if_pos rfl]
  | some flaw =>
    rw [faultyExprOf, any_faulty_ofTrees, faulty, notWhole flaw own]
    rfl

end Trees

/-- A phrase in a tree is at fault, and shows in the expression of the tree. -/
def Reported (tree bad : Tree) (flaw : Flaw) : Prop :=
  bad.Within tree ∧ bad.AtFault flaw ∧
    (Expr.unsupported flaw.label (lineAt source bad.start)).Within (Phrase.ofTree source tree).expr

section Reports

variable {source} {tree part bad : Tree} {flaw : Flaw}

theorem reported_self (fault : tree.AtFault flaw) : Reported source tree tree flaw :=
  ⟨.refl, fault, expr_of_atFault fault ▸ .refl⟩

/-- What is reported for a part is reported for the whole. -/
theorem Reported.of_part (notWhole : ∀ flaw ∈ tree.flaw?, flaw.isWhole = false)
    (isPart : part ∈ tree.children) (reported : Reported source part bad flaw) :
    Reported source tree bad flaw := by
  obtain ⟨within, fault, shown⟩ := reported
  have wrong : bad.hasError = true := by rw [Tree.hasError_eq, fault.1]; rfl
  refine ⟨.head isPart within, fault, ?_⟩
  rw [expr_of_part notWhole isPart (Tree.hasError_of_within within wrong)]
  exact .head (List.mem_map_of_mem (mem_ofTrees isPart)) shown

/-- Every faulty tree has a fault that is reported. -/
theorem exists_reported (tree : Tree) (wrong : tree.hasError = true) :
    ∃ bad flaw, Reported source tree bad flaw := by
  induction tree using Tree.rises with
  | step tree ih =>
    rcases Tree.fault_cases wrong with ⟨flaw, fault⟩ | ⟨notWhole, part, isPart, wrong⟩
    · exact ⟨tree, flaw, reported_self fault⟩
    · obtain ⟨bad, flaw, reported⟩ := ih part isPart wrong
      exact ⟨bad, flaw, reported.of_part notWhole isPart⟩

/-- Where a phrase of a tree has a fault, one is reported in it or around it. -/
theorem exists_reported_near (within : part.Within tree) (wrong : part.hasError = true) :
    ∃ bad flaw, Reported source tree bad flaw ∧ (bad.Within part ∨ part.Within bad) := by
  induction within using Relation.ReflTransGen.head_induction_on with
  | refl =>
    obtain ⟨bad, flaw, reported⟩ := exists_reported part wrong
    exact ⟨bad, flaw, reported, .inl reported.1⟩
  | @head tree child isPart within ih =>
    by_cases whole : ∃ flaw ∈ tree.flaw?, flaw.isWhole = true
    · obtain ⟨flaw, own, isWhole⟩ := whole
      exact ⟨tree, flaw, reported_self ⟨own, .inl isWhole⟩, .inr (.head isPart within)⟩
    · obtain ⟨bad, flaw, reported, near⟩ := ih
      exact ⟨bad, flaw, reported.of_part (by simpa using whole) isPart, near⟩

/-- Only faults are reported. -/
theorem reported_of_within (tree : Tree)
    (inside : (Expr.unsupported kind line).Within (Phrase.ofTree source tree).expr) :
    ∃ bad flaw, Reported source tree bad flaw ∧ kind = flaw.label ∧
      line = lineAt source bad.start := by
  induction tree using Tree.rises with
  | step tree ih =>
    cases wrong : tree.hasError with
    | false => cases (sound_ofTree tree wrong).clean _ (Expr.mem_subterms_iff.mpr inside)
    | true =>
      rcases Tree.fault_cases wrong with ⟨flaw, fault⟩ | ⟨notWhole, part, isPart, wrong⟩
      · rw [expr_of_atFault fault] at inside
        rcases inside.cases_head with same | ⟨child, isChild, -⟩
        · cases same
          exact ⟨tree, flaw, reported_self fault, rfl, rfl⟩
        · cases isChild
      · rw [expr_of_part notWhole isPart wrong, ofTrees_eq_map] at inside
        rcases inside.cases_head with same | ⟨child, isChild, inside⟩
        · cases same
        · obtain ⟨_, isPhrase, rfl⟩ := List.mem_map.mp isChild
          obtain ⟨part, isPart, rfl⟩ := List.mem_map.mp isPhrase
          obtain ⟨bad, flaw, reported, same⟩ := ih part isPart inside
          exact ⟨bad, flaw, reported.of_part notWhole isPart, same⟩

end Reports

/-- The expression of a tree reports what is wrong in the tree. Where a phrase of the tree has a
fault, a phrase in it or around it is reported that is at fault, by the name of its kind and its
line. Nothing else is reported. -/
theorem faults_surface (tree : Tree) :
    (tree.hasError = true → ∃ bad flaw, Reported source tree bad flaw) ∧
    (∀ part : Tree, part.Within tree → part.hasError = true →
      ∃ bad flaw, Reported source tree bad flaw ∧ (bad.Within part ∨ part.Within bad)) ∧
    (tree.hasError = false → ∀ kind line,
      ¬(Expr.unsupported kind line).Within (Phrase.ofTree source tree).expr) ∧
    ∀ kind line, (Expr.unsupported kind line).Within (Phrase.ofTree source tree).expr →
      ∃ bad flaw, Reported source tree bad flaw ∧ kind = flaw.label ∧
        line = lineAt source bad.start := by
  refine ⟨exists_reported tree, fun part => exists_reported_near, fun right kind line inside => ?_,
      fun kind line =>
    reported_of_within tree⟩
  cases (sound_ofTree tree right).clean _ (Expr.mem_subterms_iff.mpr inside)

/-- A call without its closing parenthesis. -/
theorem broken_call_surfaces : let source := "class A \x7b void f() \x7b g(; \x7d \x7d".toList
    ∃ bad flaw, Reported source (.ofSource source) bad flaw :=
  (faults_surface _ _).1 (by decide +kernel)

/-- The same call in a tree that notes where the parenthesis is missing. -/
example :
    let arguments : Tree := .flawed ⟨"argument_list", false⟩ .argumentList (some .arguments) 1 2 []
    let call : Tree :=
      .node .methodInvocation none 0 2 [.node .identifier (some .name) 0 1 [], arguments]
    (Phrase.ofTree "g(".toList call).expr =
      .group [.identifier "g", .unsupported "argument_list" 1] := by
  rfl

end JavaSlice.Reading
