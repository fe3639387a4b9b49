import JavaSlice.Proofs.WrittenTypeNames
import JavaSlice.Proofs.Writing.Rereading

/-!
# Class names that are read

What is read off a declaration without faults mentions every class name that is written in it, apart
from the names in parts that are not read at all (`readParts`).

`Keeps` says for each way of reading a phrase that what is read mentions a class name. A phrase
keeps what a part that is read for it keeps (`keeps_part`, one lemma for each kind of expression and
declaration), and so by induction all that the reading gets to (`keeps_of_shows`).

Names in other parts are lost, among them the bounds of the type parameters of a method
(`bound_of_method_lost`).
-/

namespace JavaSlice.Syntax.Tree

/-- The phrase at the end of a path, which gives the place of the part to take at each step. -/
def at? : List Nat → Tree → Option Tree
  | [], tree => some tree
  | place :: path, tree => tree.children[place]?.bind (at? path)

/-- The parts of a sound tree are sound. -/
theorem hasError_of_mem {whole part : Tree} (sound : whole.hasError = false)
    (isPart : part ∈ whole.children) : part.hasError = false := by
  rw [hasError_eq, Bool.or_eq_false_iff] at sound
  exact Bool.eq_false_iff.mpr (List.any_eq_false.mp sound.2 part isPart)

end JavaSlice.Syntax.Tree

namespace JavaSlice.Reading

open List Option Source Syntax Syntax.Tree

variable {source : List Char} {name : String} {tree whole part : Tree} {mode use : Mode}

/-! ## Phrases of trees without faults -/

mutual

theorem faulty_ofTree : ∀ tree : Tree, (Phrase.ofTree source tree).faulty = tree.hasError
  | .node _ _ _ _ parts | .flawed _ _ _ _ _ parts => by
    rw [hasError_eq, children, ← any_faulty_ofTrees parts]
    rfl

theorem any_faulty_ofTrees :
    ∀ trees : List Tree, (Phrase.ofTrees source trees).any (·.faulty) = trees.any hasError 
  | [] => rfl
  | tree :: trees => by
    rw [Phrase.ofTrees, any_cons, faulty_ofTree tree, any_faulty_ofTrees trees, any_cons]

end

theorem type?_ofTree (tree : Tree) : (Phrase.ofTree source tree).type? =
    typeOf? source tree.kind tree.start tree.stop (Phrase.ofTrees source tree.children) := by
  cases tree <;> rfl

theorem mark?_ofTree (tree : Tree) :
    (Phrase.ofTree source tree).mark? = markOf? source tree.kind
      (Phrase.ofTrees source tree.children) := by
  cases tree <;> rfl

theorem expr_eq (tree : Tree) : (Phrase.ofTree source tree).expr =
    faultyExprOf source tree.flaw? tree.kind tree.start tree.stop (Phrase.ofTree source tree).type?
      (Phrase.ofTree source tree).mark? (Phrase.ofTrees source tree.children) := by
  cases tree <;> rfl

/-- A sound tree stands for the expression of its kind. -/
theorem expr_ofTree (sound : tree.hasError = false) : (Phrase.ofTree source tree).expr =
    exprOf source tree.kind tree.start tree.stop (Phrase.ofTree source tree).type?
      (Phrase.ofTree source tree).mark? (Phrase.ofTrees source tree.children) := by
  rw [hasError_eq, Bool.or_eq_false_iff, Option.isSome_eq_false_iff, isNone_iff_eq_none,
    ← @any_faulty_ofTrees source] at sound
  rw [expr_eq, sound.1, faultyExprOf, sound.2]
  rfl

/-! ## The parts that are read -/

section Parts

variable {role : Role} {kind : Kind} {part? : Option Tree} {test : Tree → Bool}

theorem mem_map_use {parts : List Tree} :
    (use, part) ∈ parts.map (mode, ·) ↔ use = mode ∧ part ∈ parts := by
  rw [List.mem_map]
  constructor
  · rintro ⟨part, isPart, same⟩
    cases same
    exact ⟨rfl, isPart⟩
  · rintro ⟨rfl, isPart⟩
    exact ⟨part, isPart, rfl⟩

theorem mem_one : (use, part) ∈ one part? mode ↔ use = mode ∧ part? = some part := by
  rw [one, mem_map_use, mem_toList]

theorem mem_inRole :
    (use, part) ∈ inRole whole role mode ↔
      use = mode ∧ Tree.inRole? role whole.children = some part :=
  mem_one

theorem mem_ofKind :
    (use, part) ∈ ofKind whole kind mode ↔
      use = mode ∧ Tree.ofKind? kind whole.children = some part :=
  mem_one

theorem mem_every :
    (use, part) ∈ every whole test mode ↔ use = mode ∧ part ∈ whole.children ∧
      test part = true := by
  rw [every, mem_map_use, mem_filter]

theorem mem_declarators : (use, part) ∈ declarators whole ↔
    use = .declarator ∧ part ∈ whole.children ∧ part.role = some .declarator := by
  rw [declarators, mem_every, beq_iff_eq]

/-- All of some parts are parts of a phrase. -/
def Inside (whole : Tree) (parts : List (Mode × Tree)) : Prop :=
  ∀ use part, (use, part) ∈ parts → part ∈ whole.children

section Inside

variable {parts others : List (Mode × Tree)} {condition : Prop} [Decidable condition]

@[simp]
theorem inside_nil : Inside whole [] :=
  fun _ _ listed => nomatch listed

@[simp]
theorem inside_append : Inside whole (parts ++ others) ↔
    Inside whole parts ∧ Inside whole others := by
  simp only [Inside, mem_append, or_imp, forall_and]

@[simp]
theorem inside_ite : Inside whole (if condition then parts else others) ↔
    (condition → Inside whole parts) ∧ (¬condition → Inside whole others) := by
  split <;> simp_all

@[simp]
theorem inside_one :
    Inside whole (one part? mode) ↔ ∀ part, part? = some part → part ∈ whole.children :=
  ⟨fun inside part found => inside mode part (mem_one.mpr ⟨rfl, found⟩),
    fun inside _ part listed => inside part (mem_one.mp listed).2⟩

@[simp]
theorem inside_inRole : Inside whole (inRole whole role mode) :=
  inside_one.mpr fun _ found => mem_of_find?_eq_some found

@[simp]
theorem inside_ofKind : Inside whole (ofKind whole kind mode) :=
  inside_one.mpr fun _ found => mem_of_find?_eq_some found

@[simp]
theorem inside_every : Inside whole (every whole test mode) :=
  fun _ _ listed => (mem_every.mp listed).2.1

theorem mem_children_of_typeParts (typed : part ∈ typeParts whole) : part ∈ whole.children :=
  (mem_filter.mp typed).1

@[simp]
theorem inside_partsOfType : Inside whole (partsOfType source whole) := by
  have last (part : Tree) (isLast : (typeParts whole).getLast? = some part) :
      part ∈ whole.children :=
    mem_children_of_typeParts (mem_of_getLast? isLast)
  unfold partsOfType
  split <;> simp +contextual [last]

@[simp]
theorem inside_partsOfMark : Inside whole (partsOfMark whole) := by
  unfold partsOfMark
  split <;> simp

@[simp]
theorem inside_partsOfCode : Inside whole (partsOfCode source whole) := by
  have first (part : Tree) (isFirst : whole.children.head? = some part) : part ∈ whole.children :=
    mem_of_head? isFirst
  have formals (part : Tree) (found : Tree.inRole? .parameters whole.children = some part) :
      part ∈ whole.children :=
    mem_of_find?_eq_some found
  unfold partsOfCode
  split <;> simp +contextual [first, formals, declarators]

/-- What is read of a phrase are parts of it. -/
theorem inside_readParts : Inside whole (readParts source whole mode) := by
  have first (part : Tree) (isFirst : (typeParts whole).head? = some part) :
      part ∈ whole.children :=
    mem_children_of_typeParts (mem_of_head? isFirst)
  unfold readParts
  split <;> simp +contextual [first, declarators]

end Inside

end Parts

/-! ## What is read off a phrase -/

/-- What is read off a phrase mentions a class name. -/
def Keeps (source : List Char) (name : String) (tree : Tree) : Mode → Prop
  | .code => (Phrase.ofTree source tree).expr.Mentions name
  | .type => ∃ type, (Phrase.ofTree source tree).type? = some type ∧ type.Mentions name
  | .mark => ∃ mark, (Phrase.ofTree source tree).mark? = some mark ∧ mark.Mentions name
  | .value => (annotationArgument (Phrase.ofTree source tree)).Mentions name
  | .parameter => ∃ param, param? source (Phrase.ofTree source tree) = some param ∧
    param.Mentions name
  | .declarator => ∃ value, (variableOf source (Phrase.ofTrees source tree.children)).init =
    some value ∧
      value.Mentions name
  | .member => ∀ member, member? source (Phrase.ofTree source tree) = some member →
    member.Mentions name
  | .entry => ∃ expr ∈ anonymousMember source (Phrase.ofTree source tree), expr.Mentions name
  | .each use => ∃ part ∈ tree.children, Keeps source name part use
  | .types => ∃ type ∈ typesAmong source (Phrase.ofTrees source tree.children), type.Mentions name
  | .nothing => False

section Lookup

variable {role : Role} {kind : Kind} {parts : List Tree}

theorem mem_ofTrees (isPart : part ∈ parts) :
    Phrase.ofTree source part ∈ Phrase.ofTrees source parts := by
  rw [ofTrees_eq_map]
  exact List.mem_map_of_mem isPart

theorem head?_ofTrees (isFirst : parts.head? = some part) :
    (Phrase.ofTrees source parts).head? = some (Phrase.ofTree source part) := by
  rw [ofTrees_eq_map, head?_map, isFirst, map_some]

theorem partsInRole_ofTrees (found : Tree.inRole? role parts = some part) :
    partsInRole role (Phrase.ofTrees source parts) = Phrase.ofTrees source part.children := by
  rw [partsInRole, inRole?_ofTrees, found, map_some, map_some, getD_some,
    parts_ofTree]

theorem partsOfKind_ofTrees (found : Tree.ofKind? kind parts = some part) :
    partsOfKind kind (Phrase.ofTrees source parts) = Phrase.ofTrees source part.children := by
  rw [partsOfKind, ofKind?_ofTrees, found, map_some, map_some, getD_some,
    parts_ofTree]

theorem typeAt_mentions (kept : Keeps source name part .type) :
    (typeAt source (Phrase.ofTree source part)).Mentions name := by
  obtain ⟨type, found, mentioned⟩ := kept
  rwa [typeAt, found]

theorem declaredType?_ofTrees (found : Tree.inRole? .type parts = some part) :
    declaredType? source (Phrase.ofTrees source parts) =
      some (typeAt source (Phrase.ofTree source part)) := by
  rw [declaredType?, inRole?_ofTrees, found]
  rfl

theorem declaredType_mentions (found : Tree.inRole? .type parts = some part)
    (kept : Keeps source name part .type) :
    (declaredType source (Phrase.ofTrees source parts)).Mentions name := by
  rw [declaredType, declaredType?_ofTrees found]
  exact typeAt_mentions kept

theorem typesAmong_ofTrees : typesAmong source (Phrase.ofTrees source whole.children) =
    (typeParts whole).map fun part => typeAt source (Phrase.ofTree source part) := by
  rw [typesAmong, filter_ofTrees, ofTrees_eq_map, List.map_map]
  rfl

theorem exprInRole_mentions (found : Tree.inRole? role parts = some part)
    (kept : Keeps source name part .code) :
    (exprInRole role (Phrase.ofTrees source parts)).Mentions name := by
  rw [exprInRole, inRole?_ofTrees, found]
  exact kept

theorem exprsOf_mention (kept : Keeps source name whole (.each .code)) :
    ∃ expr ∈ exprsOf (Phrase.ofTrees source whole.children), expr.Mentions name := by
  obtain ⟨part, isPart, kept⟩ := kept
  exact ⟨_, List.mem_map_of_mem (mem_ofTrees isPart), kept⟩

theorem exprsInRole_mention (found : Tree.inRole? role parts = some part)
    (kept : Keeps source name part (.each .code)) :
    ∃ expr ∈ exprsOf (partsInRole role (Phrase.ofTrees source parts)), expr.Mentions name := by
  rw [partsInRole_ofTrees found]
  exact exprsOf_mention kept

theorem modifiersOf_mention (found : Tree.ofKind? .modifiers parts = some part)
    (kept : Keeps source name part (.each .mark)) :
    ∃ mark ∈ modifiersOf (Phrase.ofTrees source parts), mark.Mentions name := by
  obtain ⟨part, isPart, mark, read, mentioned⟩ := kept
  rw [modifiersOf, partsOfKind_ofTrees found]
  exact ⟨mark, mem_filterMap.mpr ⟨_, mem_ofTrees isPart, read⟩, mentioned⟩

theorem paramsOf_mention (kept : Keeps source name whole (.each .parameter)) :
    ∃ param ∈ paramsOf source (Phrase.ofTrees source whole.children), param.Mentions name := by
  obtain ⟨part, isPart, param, read, mentioned⟩ := kept
  exact ⟨param, mem_filterMap.mpr ⟨_, mem_ofTrees isPart, read⟩, mentioned⟩

theorem mem_allInRole (isPart : part ∈ parts) (hit : part.role = some role) :
    Phrase.ofTree source part ∈ allInRole role (Phrase.ofTrees source parts) := by
  rw [allInRole, mem_filter, role_ofTree, hit]
  exact ⟨mem_ofTrees isPart, beq_self_eq_true _⟩

theorem initializersOf_mention (isPart : part ∈ parts) (hit : part.role = some .declarator)
    (kept : Keeps source name part .declarator) :
    ∃ value ∈ initializersOf (Phrase.ofTrees source parts), value.Mentions name := by
  obtain ⟨value, isValue, mentioned⟩ := kept
  rw [← parts_ofTree] at isValue
  exact ⟨value, mem_filterMap.mpr ⟨_, mem_allInRole isPart hit, isValue⟩, mentioned⟩

end Lookup

/-! ## Types and annotations -/

/-- A type without annotations in front has none. -/
theorem eq_nil_of_type? (plain : tree.kind ≠ .annotatedType)
    (same : (Phrase.ofTree source tree).type? = some (.named other arguments marks)) :
    marks = [] := by
  rw [type?_ofTree] at same
  cases kind : tree.kind with
  | annotatedType => exact absurd kind plain
  | typeIdentifier | scopedTypeIdentifier | genericType =>
    simp only [kind, typeOf?, TypeRef.simple, some.injEq] at same
    grind
  | arrayType =>
    simp only [kind, typeOf?, some.injEq] at same
    cases found : inRole? .element (Phrase.ofTrees source tree.children) <;> rw [found] at same <;>
      cases same
  | _ =>
    rw [kind] at same
    cases same

/-- Annotations added to a type hide none of its names. -/
theorem mentions_annotate
    (bare : ∀ other arguments marks, type = .named other arguments marks → marks = [])
    (mentioned : type.Mentions name) (marks : List Annotation) :
    (annotate marks type).Mentions name := by
  cases type with
  | named other arguments old =>
    obtain rfl := bare _ _ _ rfl
    cases mentioned with
    | own among => exact .own among
    | argument isArgument within => exact .argument isArgument within
    | mark isMark => cases isMark
  | _ => exact mentioned

theorem named_of_carriesMarks (carries : carriesMarks source tree = true) :
    ∃ other arguments marks, typeAt source (Phrase.ofTree source tree) =
      .named other arguments marks := by
  rw [typeAt, type?_ofTree]
  unfold carriesMarks at carries
  split at carries <;> simp_all [typeOf?, TypeRef.simple, textOf]

/-- A type with annotations in front keeps the names of both. -/
theorem keeps_annotatedType (annotated : whole.kind = .annotatedType)
    (listed : (use, part) ∈ partsOfType source whole) (kept : Keeps source name part use) :
    Keeps source name whole .type := by
  rw [Keeps, type?_ofTree]
  simp only [partsOfType, annotated, mem_append, mem_one] at listed
  simp only [annotated, typeOf?, typesAmong_ofTrees, getLast?_map]
  cases last : (typeParts whole).getLast? with
  | none => simp [last] at listed
  | some type =>
    refine ⟨_, rfl, ?_⟩
    rcases listed with ⟨rfl, isLast⟩ | isMark
    · obtain ⟨rfl, plain⟩ : type = part ∧ part.kind ≠ .annotatedType := by
        simpa [last, filter_eq_some_iff] using isLast
      obtain ⟨read, found, mentioned⟩ := kept
      -- the annotations in front replace those of the type, and it has none
      rw [map_some, getD_some, typeAt, found]
      exact mentions_annotate (fun _ _ _ same =>
        eq_nil_of_type? plain (found.trans (congrArg some same))) mentioned _
    · split at isMark
      next carries =>
        obtain ⟨rfl, isPart, -⟩ := mem_every.mp isMark
        obtain ⟨mark, found, value, isValue, mentioned⟩ := kept
        obtain ⟨other, arguments, old, named⟩ :=
          named_of_carriesMarks (by simpa [last] using carries)
        rw [map_some, getD_some, named]
        exact .mark (mem_filterMap.mpr ⟨_, mem_ofTrees isPart, found⟩) isValue mentioned
      next => cases isMark

/-- A type keeps the names of its parts. -/
theorem keeps_type (listed : (use, part) ∈ partsOfType source whole)
    (kept : Keeps source name part use) : Keeps source name whole .type := by
  rw [Keeps, type?_ofTree]
  cases kind : whole.kind with
  | genericType =>
    simp only [partsOfType, kind, mem_ofKind] at listed
    obtain ⟨rfl, found⟩ := listed
    obtain ⟨argument, isPart, kept⟩ := kept
    refine ⟨_, rfl, .argument ?_ (typeAt_mentions kept)⟩
    rw [partsOfKind_ofTrees found]
    exact List.mem_map_of_mem (mem_ofTrees isPart)
  | arrayType =>
    simp only [partsOfType, kind, mem_inRole] at listed
    obtain ⟨rfl, found⟩ := listed
    simp only [typeOf?, inRole?_ofTrees, found]
    exact ⟨_, rfl, .element (typeAt_mentions kept)⟩
  | wildcard =>
    simp only [partsOfType, kind, mem_one] at listed
    obtain ⟨rfl, isLast⟩ := listed
    simp only [typeOf?, typesAmong_ofTrees, getLast?_map, isLast]
    exact ⟨_, rfl, .bound (typeAt_mentions kept)⟩
  | annotatedType => simpa only [Keeps, type?_ofTree, kind]
    using keeps_annotatedType kind listed kept
  | _ => simp [partsOfType, kind] at listed

theorem eq_of_plainName? (plain : plainName? source tree = some name) :
    Grammar.isPlainTypeName tree = true ∧ name = Text.dropBlanks (textOf source tree) := by
  rw [plainName?, ite_none_right_eq_some, some.injEq] at plain
  exact ⟨plain.1, plain.2.symm⟩

theorem genericName_of_head? (isFirst : parts.head? = some part)
    (plain : plainName? source part = some name) :
    genericName source (Phrase.ofTrees source parts) = name := by
  obtain ⟨rest, rfl⟩ := head?_eq_some_iff.mp isFirst
  obtain ⟨isPlain, rfl⟩ := eq_of_plainName? plain
  rw [genericName, Phrase.ofTrees, find?_cons_of_pos, map_some, getD_some,
    text_ofTree]
  · rfl
  · rw [kind_ofTree]
    exact (Bool.and_eq_true_iff.mp isPlain).1

/-- The name of a type is among its class names. -/
theorem keeps_own (own : ownName? source whole = some name) : Keeps source name whole .type := by
  rw [Keeps, type?_ofTree]
  cases kind : whole.kind with
  | typeIdentifier =>
    simp only [ownName?, kind, ite_none_left_eq_some, some.injEq] at own
    obtain ⟨other, rfl⟩ := own
    exact ⟨.simple (textOf source whole), congrArg some (if_neg other), .own mem_cons_self⟩
  | scopedTypeIdentifier =>
    simp only [ownName?, kind] at own
    obtain ⟨-, rfl⟩ := eq_of_plainName? own
    exact ⟨_, rfl, .own mem_cons_self⟩
  | genericType =>
    simp only [ownName?, kind] at own
    obtain ⟨first, isFirst, plain⟩ := bind_eq_some_iff.mp own
    refine ⟨_, rfl, .own ?_⟩
    rw [genericName_of_head? isFirst plain]
    exact mem_cons_self
  | _ => simp [ownName?, kind] at own

theorem isType_of_ownName? (own : ownName? source whole = some name) :
    isType whole.kind = true := by
  unfold ownName? at own
  split at own <;> simp_all [isType]

/-- An annotation keeps the names in its arguments. -/
theorem keeps_mark (listed : (use, part) ∈ partsOfMark whole) (kept : Keeps source name part use) :
    Keeps source name whole .mark := by
  have isMark : (whole.kind == .annotationMark || whole.kind == .annotationCall) = true ∧
      (Tree.inRole? .name whole.children).isSome = true ∧
        (use, part) ∈ inRole whole .arguments (.each .value) := by
    unfold partsOfMark at listed
    split at listed <;> simp_all
  obtain ⟨marks, named, listed⟩ := isMark
  obtain ⟨word, isName⟩ := isSome_iff_exists.mp named
  obtain ⟨rfl, found⟩ := mem_inRole.mp listed
  obtain ⟨value, isPart, mentioned⟩ := kept
  rw [Keeps, mark?_ofTree, markOf?, marks, name?, inRole?_ofTrees, isName,
    partsInRole_ofTrees found]
  exact ⟨_, rfl, _, List.mem_map_of_mem (mem_ofTrees isPart), mentioned⟩

/-! ## Expressions -/

/-- The expression that a phrase of a kind stands for mentions what is read off a part of the
phrase. -/
def Reads (source : List Char) (name : String) (kind : Kind) : Prop :=
  ∀ ⦃whole part : Tree⦄ ⦃use : Mode⦄ ⦃start stop : Nat⦄ ⦃type? : Option TypeRef⦄
    ⦃mark? : Option Annotation⦄,
    whole.kind = kind → (use, part) ∈ partsOfCode source whole → Keeps source name part use →
      (exprOf source kind start stop type? mark? (Phrase.ofTrees source whole.children)).Mentions
        name

theorem reads_methodInvocation : Reads source name .methodInvocation := by
  intro whole part use start stop type? mark? kind listed kept
  simp only [partsOfCode, kind, mem_append, mem_inRole] at listed
  rcases listed with ⟨rfl, found⟩ | ⟨rfl, found⟩
  · simp only [exprOf, inRole?_ofTrees, found]
    exact .part (mem_append_left _ mem_cons_self) kept
  · obtain ⟨argument, isArgument, mentioned⟩ := exprsInRole_mention found kept
    exact .part (mem_append_right _ isArgument) mentioned

theorem reads_explicitConstructorInvocation : Reads source name .explicitConstructorInvocation := by
  intro whole part use start stop type? mark? kind listed kept
  simp only [partsOfCode, kind, mem_inRole] at listed
  obtain ⟨rfl, found⟩ := listed
  obtain ⟨argument, isArgument, mentioned⟩ := exprsInRole_mention found kept
  exact .part (mem_append_right _ isArgument) mentioned

theorem reads_objectCreation : Reads source name .objectCreation := by
  intro whole part use start stop type? mark? kind listed kept
  simp only [partsOfCode, kind, mem_append, mem_inRole, mem_ofKind] at listed
  rcases listed with (⟨rfl, found⟩ | ⟨rfl, found⟩) | ⟨rfl, found⟩
  · simp only [exprOf, declaredType?_ofTrees found]
    exact .type mem_cons_self (typeAt_mentions kept)
  · obtain ⟨argument, isArgument, mentioned⟩ := exprsInRole_mention found kept
    exact .part (mem_append_left _ isArgument) mentioned
  · obtain ⟨entry, isPart, expr, isExpr, mentioned⟩ := kept
    simp only [exprOf, ofKind?_ofTrees, found, map_some, parts_ofTree]
    refine .part (mem_append_right _ mem_cons_self) (.part ?_ mentioned)
    exact mem_flatMap.mpr ⟨_, mem_ofTrees isPart, isExpr⟩

theorem reads_methodReference : Reads source name .methodReference := by
  intro whole part use start stop type? mark? kind listed kept
  simp only [partsOfCode, kind, mem_one] at listed
  obtain ⟨rfl, isFirst⟩ := listed
  simp only [exprOf, head?_ofTrees isFirst]
  exact .part mem_cons_self kept

theorem reads_classLiteral : Reads source name .classLiteral := by
  intro whole part use start stop type? mark? kind listed kept
  simp only [partsOfCode, kind, mem_one] at listed
  obtain ⟨rfl, isFirst⟩ := listed
  simp only [exprOf, head?_ofTrees isFirst]
  exact .type mem_cons_self (typeAt_mentions kept)

theorem reads_binary : Reads source name .binary := by
  intro whole part use start stop type? mark? kind listed kept
  simp only [partsOfCode, kind, mem_append, mem_inRole] at listed
  rcases listed with ⟨rfl, found⟩ | ⟨rfl, found⟩
  · exact .part mem_cons_self (exprInRole_mentions found kept)
  · exact .part (mem_cons_of_mem _ mem_cons_self) (exprInRole_mentions found kept)

theorem reads_cast : Reads source name .cast := by
  intro whole part use start stop type? mark? kind listed kept
  simp only [partsOfCode, kind, mem_append, mem_inRole, mem_every, beq_iff_eq] at listed
  rcases listed with ⟨rfl, isPart, hit⟩ | ⟨rfl, found⟩
  · refine .part (mem_append_left _ (List.mem_map_of_mem (mem_allInRole isPart hit))) ?_
    exact .type mem_cons_self (typeAt_mentions kept)
  · exact .part (mem_append_right _ mem_cons_self) (exprInRole_mentions found kept)

theorem reads_instanceofTest : Reads source name .instanceofTest := by
  intro whole part use start stop type? mark? kind listed kept
  simp only [partsOfCode, kind, mem_append, mem_inRole] at listed
  rcases listed with (⟨rfl, found⟩ | ⟨rfl, found⟩) | ⟨rfl, found⟩
  · exact .part mem_cons_self (exprInRole_mentions found kept)
  · simp only [exprOf, instanceofParts, inRole?_ofTrees, found]
    cases name? source (Phrase.ofTrees source whole.children) <;>
      exact .part (mem_append_left _ (mem_cons_of_mem _ mem_cons_self))
        (.type mem_cons_self (typeAt_mentions kept))
  · simp only [exprOf, instanceofParts, inRole?_ofTrees, found]
    exact .part (mem_append_right _ mem_cons_self) kept

theorem mentions_of_param (read : ∃ param ∈ params, param.Mentions name) :
    (Expr.lambda params body).Mentions name := by
  obtain ⟨param, isParam, mentioned⟩ := read
  rcases mentioned with inType | ⟨mark, isMark, value, isValue, mentioned⟩
  · exact .type (List.mem_map_of_mem isParam) inType
  · exact .mark (mem_flatMap.mpr ⟨param, isParam, isMark⟩) isValue mentioned

theorem reads_lambda : Reads source name .lambda := by
  intro whole part use start stop type? mark? kind listed kept
  simp only [partsOfCode, kind, mem_append, mem_one, mem_inRole, filter_eq_some_iff]
    at listed
  rcases listed with ⟨rfl, found, formals⟩ | ⟨rfl, found⟩
  · rw [bne, Bool.not_eq_true'] at formals
    simp only [exprOf, lambdaParams, inRole?_ofTrees, found, map_some, kind_ofTree, formals,
      parts_ofTree]
    exact mentions_of_param (paramsOf_mention kept)
  · exact .part mem_cons_self (exprInRole_mentions found kept)

theorem reads_localVariableDeclaration : Reads source name .localVariableDeclaration := by
  intro whole part use start stop type? mark? kind listed kept
  simp only [partsOfCode, kind, mem_append, mem_inRole, mem_declarators] at listed
  rcases listed with ⟨rfl, found⟩ | ⟨rfl, isPart, hit⟩
  · exact .type mem_cons_self (declaredType_mentions found kept)
  · obtain ⟨value, isValue, mentioned⟩ := kept
    rw [← parts_ofTree] at isValue
    exact .part (mem_filterMap.mpr ⟨_, List.mem_map_of_mem (mem_allInRole isPart hit), isValue⟩)
      mentioned

theorem reads_enhancedFor : Reads source name .enhancedFor := by
  intro whole part use start stop type? mark? kind listed kept
  simp only [partsOfCode, kind, mem_append, mem_inRole] at listed
  rcases listed with (⟨rfl, found⟩ | ⟨rfl, found⟩) | ⟨rfl, found⟩
  · exact .part mem_cons_self (.type mem_cons_self (declaredType_mentions found kept))
  · exact .part (mem_cons_of_mem _ mem_cons_self) (exprInRole_mentions found kept)
  · refine .part (mem_cons_of_mem _ (mem_cons_of_mem _ mem_cons_self)) ?_
    exact exprInRole_mentions found kept

theorem caughtParts_mention (listed : type ∈ typesAmong source (partsOfKind .catchType phrases))
    (mentioned : type.Mentions name) : ∃ expr ∈ caughtParts source phrases, expr.Mentions name := by
  rw [caughtParts]
  cases types : typesAmong source (partsOfKind .catchType phrases) with
  | nil => rw [types] at listed; cases listed
  | cons first rest =>
    rw [types] at listed
    rcases mem_cons.mp listed with rfl | isOther
    · exact ⟨_, mem_cons_self, .type mem_cons_self mentioned⟩
    · exact ⟨_, mem_cons_of_mem _ (List.mem_map_of_mem isOther), .type mem_cons_self mentioned⟩

theorem reads_catchFormalParameter : Reads source name .catchFormalParameter := by
  intro whole part use start stop type? mark? kind listed kept
  simp only [partsOfCode, kind, mem_ofKind] at listed
  obtain ⟨rfl, found⟩ := listed
  obtain ⟨type, isType, mentioned⟩ := kept
  rw [← partsOfKind_ofTrees found] at isType
  obtain ⟨expr, isExpr, mentioned⟩ := caughtParts_mention isType mentioned
  exact .part isExpr mentioned

theorem reads_resource : Reads source name .resource := by
  intro whole part use start stop type? mark? kind listed kept
  simp only [partsOfCode, kind] at listed
  cases declared : Tree.inRole? .type whole.children with
  | some type =>
    simp only [declared, isSome_some, if_true, mem_append, mem_inRole] at listed
    simp only [exprOf, declaredType?_ofTrees declared]
    rcases listed with ⟨rfl, same⟩ | ⟨rfl, found⟩
    · obtain rfl := some.inj same
      exact .type mem_cons_self (typeAt_mentions kept)
    · simp only [declareOne, variableOf, inRole?_ofTrees, found]
      exact .part mem_cons_self kept
  | none =>
    rw [declared, if_neg (by simp), mem_every] at listed
    obtain ⟨rfl, isPart, -⟩ := listed
    simp only [exprOf, declaredType?, inRole?_ofTrees, declared]
    obtain ⟨expr, isExpr, mentioned⟩ := exprsOf_mention ⟨part, isPart, kept⟩
    exact .part isExpr mentioned

/-- A type that stands as an expression keeps its names. -/
theorem keeps_code_of_type (sound : whole.hasError = false) (typed : isType whole.kind = true)
    (kept : Keeps source name whole .type) : Keeps source name whole .code := by
  obtain ⟨type, found, mentioned⟩ := kept
  rw [Keeps, expr_ofTree sound, found]
  cases kind : whole.kind with
  | typeIdentifier | scopedTypeIdentifier | genericType | arrayType | primitiveType | voidType |
      annotatedType =>
    exact .type mem_cons_self mentioned
  | _ => rw [kind] at typed; cases typed

/-- The expression that a phrase stands for mentions what is read off a part of the phrase. -/
theorem keeps_code (sound : whole.hasError = false)
    (listed : (use, part) ∈ partsOfCode source whole) (kept : Keeps source name part use) :
    Keeps source name whole .code := by
  have ofType (typed : isType whole.kind = true)
      (same : partsOfCode source whole = partsOfType source whole) :
      Keeps source name whole .code :=
    keeps_code_of_type sound typed (keeps_type (same ▸ listed) kept)
  have ofKind {kind : Kind} (same : whole.kind = kind) (reads : Reads source name kind) :
      Keeps source name whole .code := by
    rw [Keeps, expr_ofTree sound, same]
    exact reads same listed kept
  have ofMark (same : partsOfCode source whole = partsOfMark whole) :
      Keeps source name whole .mark :=
    keeps_mark (same ▸ listed) kept
  cases kind : whole.kind with
  | typeIdentifier | scopedTypeIdentifier | genericType | arrayType | primitiveType | voidType |
      annotatedType =>
    exact ofType (by rw [kind]; rfl) (by rw [partsOfCode, kind])
  | annotationMark | annotationCall =>
    obtain ⟨mark, found, value, isValue, mentioned⟩ := ofMark (by rw [partsOfCode, kind])
    rw [Keeps, expr_ofTree sound, kind, found]
    exact .part (mem_cons_of_mem _ isValue) mentioned
  | literal | identifier | thisWord | superWord => simp [partsOfCode, kind] at listed
  | fieldAccess | unary =>
    simp only [partsOfCode, kind, mem_inRole] at listed
    obtain ⟨rfl, found⟩ := listed
    rw [Keeps, expr_ofTree sound, kind]
    exact .part mem_cons_self (exprInRole_mentions found kept)
  | methodInvocation => exact ofKind kind reads_methodInvocation
  | explicitConstructorInvocation => exact ofKind kind reads_explicitConstructorInvocation
  | objectCreation => exact ofKind kind reads_objectCreation
  | methodReference => exact ofKind kind reads_methodReference
  | classLiteral => exact ofKind kind reads_classLiteral
  | binary => exact ofKind kind reads_binary
  | cast => exact ofKind kind reads_cast
  | instanceofTest => exact ofKind kind reads_instanceofTest
  | lambda => exact ofKind kind reads_lambda
  | localVariableDeclaration => exact ofKind kind reads_localVariableDeclaration
  | enhancedFor => exact ofKind kind reads_enhancedFor
  | catchFormalParameter => exact ofKind kind reads_catchFormalParameter
  | resource => exact ofKind kind reads_resource
  | _ =>
    -- every other phrase groups its parts
    simp only [partsOfCode, kind, mem_every] at listed
    obtain ⟨rfl, isPart, -⟩ := listed
    obtain ⟨expr, isExpr, mentioned⟩ := exprsOf_mention ⟨part, isPart, kept⟩
    rw [Keeps, expr_ofTree sound, kind]
    exact .part isExpr mentioned

/-! ## Declarations -/

/-- An initial value keeps the names in it. -/
theorem keeps_value (sound : whole.hasError = false)
    (listed : (use, part) ∈ readParts source whole .value) (kept : Keeps source name part use) :
    Keeps source name whole .value := by
  rw [Keeps, annotationArgument, kind_ofTree, parts_ofTree, inRole?_ofTrees]
  cases kind : whole.kind with
  | elementValuePair =>
    simp only [readParts, kind, mem_inRole] at listed
    obtain ⟨rfl, found⟩ := listed
    rw [found]
    exact kept
  | _ => exact keeps_code sound (by simpa only [readParts, kind] using listed) kept

/-- A parameter keeps the names in its type and annotations. -/
theorem keeps_parameter (listed : (use, part) ∈ readParts source whole .parameter)
    (kept : Keeps source name part use) : Keeps source name whole .parameter := by
  rw [Keeps, param?, kind_ofTree, parts_ofTree]
  cases kind : whole.kind with
  | formalParameter =>
    simp only [readParts, kind, mem_append, mem_inRole, mem_ofKind] at listed
    refine ⟨_, rfl, ?_⟩
    rcases listed with ⟨rfl, found⟩ | ⟨rfl, found⟩
    · exact .inr (modifiersOf_mention found kept)
    · exact .inl (declaredType_mentions found kept)
  | spreadParameter =>
    simp only [readParts, kind, mem_append, mem_one, mem_ofKind] at listed
    refine ⟨_, rfl, ?_⟩
    rcases listed with ⟨rfl, found⟩ | ⟨rfl, isFirst⟩
    · exact .inr (modifiersOf_mention found kept)
    · refine .inl (.element ?_)
      rw [typesAmong_ofTrees, head?_map, isFirst]
      exact typeAt_mentions kept
  | _ => simp [readParts, kind] at listed

/-- A field keeps the names in its annotations, type and values. -/
theorem fieldOf_mentions
    (listed : (use, part) ∈ ofKind whole .modifiers (.each .mark) ++ inRole whole .type .type ++
      declarators whole)
    (kept : Keeps source name part use) :
    (fieldOf source (Phrase.ofTree source whole)).Mentions name := by
  simp only [mem_append, mem_inRole, mem_ofKind, mem_declarators] at listed
  rw [Field.Mentions, fieldOf, parts_ofTree]
  rcases listed with (⟨rfl, found⟩ | ⟨rfl, found⟩) | ⟨rfl, isPart, hit⟩
  · exact .inr (.inl (modifiersOf_mention found kept))
  · exact .inl (declaredType_mentions found kept)
  · exact .inr (.inr (initializersOf_mention isPart hit kept))

/-- A method keeps the names in its header and body. -/
theorem methodOf?_mentions
    (listed : (use, part) ∈ ofKind whole .modifiers (.each .mark) ++
      (if whole.kind == .constructorDeclaration then [] else inRole whole .type .type) ++
        inRole whole .parameters (.each .parameter) ++ ofKind whole .throwsClause .types ++
          inRole whole .body (.each .code))
    (kept : Keeps source name part use)
    (read : methodOf? source (Phrase.ofTree source whole) = some method) :
    method.Mentions name := by
  obtain ⟨text, -, rfl⟩ := map_eq_some_iff.mp read
  simp only [mem_append, mem_inRole, mem_ofKind] at listed
  simp only [Method.Mentions, parts_ofTree, kind_ofTree]
  rcases listed with (((⟨rfl, found⟩ | inType) | ⟨rfl, found⟩) | ⟨rfl, found⟩) | ⟨rfl, found⟩
  · exact .inr (.inl (modifiersOf_mention found kept))
  · split at inType
    next => cases inType
    next isMethod =>
      obtain ⟨rfl, found⟩ := mem_inRole.mp inType
      rw [if_neg isMethod, declaredType?_ofTrees found]
      exact .inl ⟨_, mem_cons_self, typeAt_mentions kept⟩
  · rw [partsInRole_ofTrees found]
    exact .inr (.inr (.inl (paramsOf_mention kept)))
  · obtain ⟨type, isType, mentioned⟩ := kept
    rw [← partsOfKind_ofTrees found] at isType
    exact .inl ⟨type, mem_append_right _ isType, mentioned⟩
  · exact .inr (.inr (.inr (exprsInRole_mention found kept)))

/-- A member keeps the names in what is read of it. -/
theorem keeps_member (listed : (use, part) ∈ readParts source whole .member)
    (kept : Keeps source name part use) : Keeps source name whole .member := by
  intro member read
  rw [member?, kind_ofTree] at read
  cases kind : whole.kind with
  | fieldDeclaration | constantDeclaration =>
    rw [kind] at read
    obtain rfl := some.inj read
    exact fieldOf_mentions (by simpa only [readParts, kind] using listed) kept
  | methodDeclaration | annotationTypeElement | constructorDeclaration =>
    rw [kind] at read
    obtain ⟨method, found, rfl⟩ := map_eq_some_iff.mp read
    exact methodOf?_mentions (by simpa only [readParts, kind] using listed) kept found
  | _ => simp [readParts, kind] at listed

theorem keeps_entry (sound : whole.hasError = false)
    (listed : (use, part) ∈ readParts source whole .entry) (kept : Keeps source name part use) :
    Keeps source name whole .entry := by
  rw [Keeps, anonymousMember, kind_ofTree, parts_ofTree]
  cases kind : whole.kind with
  | methodDeclaration =>
    simp only [readParts, kind] at listed
    split at listed
    next named =>
      simp only [name?, inRole?_ofTrees, isSome_map, named, if_true]
      refine ⟨_, mem_cons_self, ?_⟩
      rcases mem_append.mp listed with isFormals | inBody
      · obtain ⟨rfl, found⟩ := mem_inRole.mp isFormals
        rw [partsInRole_ofTrees found]
        exact mentions_of_param (paramsOf_mention kept)
      · obtain ⟨rfl, found⟩ := mem_inRole.mp inBody
        obtain ⟨expr, isExpr, mentioned⟩ := exprsInRole_mention found kept
        exact .part mem_cons_self (.part isExpr mentioned)
    next => cases listed
  | fieldDeclaration =>
    simp only [readParts, kind, mem_append, mem_inRole, mem_declarators] at listed
    rcases listed with ⟨rfl, found⟩ | ⟨rfl, isPart, hit⟩
    · exact ⟨_, mem_cons_self, .type mem_cons_self (declaredType_mentions found kept)⟩
    · obtain ⟨value, isValue, mentioned⟩ := initializersOf_mention isPart hit kept
      exact ⟨value, mem_cons_of_mem _ isValue, mentioned⟩
  | _ =>
    exact ⟨_, mem_cons_self, keeps_code sound (by simpa only [readParts, kind] using listed) kept⟩

/-! ## Whole phrases -/

/-- What is read off a part of a phrase is read off the phrase. -/
theorem keeps_part (sound : whole.hasError = false)
    (listed : (use, part) ∈ readParts source whole mode) (kept : Keeps source name part use) :
    Keeps source name whole mode := by
  cases mode with
  | code => exact keeps_code sound listed kept
  | type => exact keeps_type listed kept
  | mark => exact keeps_mark listed kept
  | value => exact keeps_value sound listed kept
  | parameter => exact keeps_parameter listed kept
  | member => exact keeps_member listed kept
  | entry => exact keeps_entry sound listed kept
  | nothing => cases listed
  | each use =>
    obtain ⟨rfl, isPart, -⟩ := mem_every.mp listed
    exact ⟨part, isPart, kept⟩
  | types =>
    obtain ⟨rfl, isPart, typed⟩ := mem_every.mp listed
    rw [Keeps, typesAmong_ofTrees]
    exact ⟨_, List.mem_map_of_mem (mem_filter.mpr ⟨isPart, typed⟩), typeAt_mentions kept⟩
  | declarator =>
    obtain ⟨rfl, found⟩ := mem_inRole.mp listed
    rw [Keeps, variableOf, inRole?_ofTrees, found]
    exact ⟨_, rfl, kept⟩

/-- Every class name that the reading of a phrase gets to is read. -/
theorem keeps_of_shows (shows : Shows source name mode tree) (sound : tree.hasError = false) :
    Keeps source name tree mode := by
  induction shows with
  | own asType own =>
    rcases asType with rfl | rfl
    · exact keeps_code_of_type sound (isType_of_ownName? own) (keeps_own own)
    · exact keeps_own own
  | part listed written ih =>
    exact keeps_part sound listed (ih (hasError_of_mem sound (inside_readParts _ _ listed)))

/-! ## Members -/

/-- Every class name that is written in a field, a method or a constructor without faults is among
those of the member that is read, apart from the names in parts that are not read. -/
theorem member_keeps_class_names (source : List Char) {tree : Tree}
    (declares : Grammar.declaresMember tree = true) (sound : tree.hasError = false) :
    ∃ member, member? source (Phrase.ofTree source tree) = some member ∧
      ∀ name, Shows source name .member tree → member.Mentions name := by
  obtain ⟨member, read⟩ := isSome_iff_exists.mp ((isSome_member? source tree).trans declares)
  exact ⟨member, read, fun name shows => keeps_of_shows shows sound member read⟩

/-- A method with class names in many places. -/
def crowdedMethod : List Char :=
  ("class Main \x7b Out<Given> run(In i) throws Bad " ++
    "\x7b for (Elem e : i) \x7b f((Cast) e, new Made() \x7b void g(Par p) \x7b \x7d \x7d); " ++
    "\x7d \x7d \x7d").toList

/-- All class names of a method with a loop, a cast and an anonymous class are kept. -/
theorem crowdedMethod_read :
    ∃ tree member, Tree.at? [0, 1, 0] (Tree.ofSource crowdedMethod) = some tree ∧
      Grammar.declaresMember tree = true ∧ tree.hasError = false ∧
      member? crowdedMethod (Phrase.ofTree crowdedMethod tree) = some member ∧
      ∀ name ∈ ["Out", "Given", "In", "Bad", "Elem", "Cast", "Made", "Par"],
        Shows crowdedMethod name .member tree ∧ member.Mentions name := by
  have first : (Tree.at? [0, 1, 0] (Tree.ofSource crowdedMethod)).any (fun tree =>
      Grammar.declaresMember tree && !tree.hasError &&
        writtenNames crowdedMethod (fun mode whole => readParts crowdedMethod whole mode) 20 .member
          tree == ["Out", "Given", "In", "Bad", "Elem", "Cast", "Made", "Par"]) = true := by
    decide +kernel
  obtain ⟨tree, found, holds⟩ := (Option.any_eq_true _ _).mp first
  simp only [Bool.and_eq_true, Bool.not_eq_eq_eq_not, Bool.not_true, beq_iff_eq] at holds
  obtain ⟨⟨declares, sound⟩, names⟩ := holds
  obtain ⟨member, read, mentioned⟩ := member_keeps_class_names crowdedMethod declares sound
  refine ⟨tree, member, found, declares, sound, read, fun name listed => ?_⟩
  have shows : Shows crowdedMethod name .member tree := writes_of_mem _ _ (names ▸ listed)
  exact ⟨shows, mentioned name shows⟩

/-- Whether a method has no parameters, exceptions, annotations or code and returns nothing. -/
def isBare : Member → Bool
  | .method ⟨_, [], _, some .void, [], [], [], _, _⟩ => true
  | _ => false

/-- A bare member mentions no name. -/
theorem not_mentions_of_isBare (bare : isBare member = true) : ¬member.Mentions name := by
  unfold isBare at bare
  split at bare
  · rintro (⟨type, isType, mentioned⟩ | ⟨_, impossible, -⟩ | ⟨_, impossible, -⟩ | ⟨_,
      impossible, -⟩)
    · obtain rfl := mem_singleton.mp isType
      cases mentioned with
      | own among => cases among
    all_goals cases impossible
  · cases bare

/-- A method with a type parameter that has a bound. -/
def boundedMethod : List Char :=
  "class Main \x7b <T extends Item> void run() \x7b \x7d \x7d".toList

/-- The bound of a type parameter of a method is written in the method and is lost. -/
theorem bound_of_method_lost :
    ∃ tree member, Tree.at? [0, 1, 0] (Tree.ofSource boundedMethod) = some tree ∧
      Grammar.declaresMember tree = true ∧ tree.hasError = false ∧
      Writes boundedMethod everywhere "Item" .member tree ∧
      member? boundedMethod (Phrase.ofTree boundedMethod tree) = some member ∧
        ¬member.Mentions "Item" := by
  have first : (Tree.at? [0, 1, 0] (Tree.ofSource boundedMethod)).any (fun tree =>
      Grammar.declaresMember tree && !tree.hasError &&
        (writtenNames boundedMethod everywhere 20 .member tree).contains "Item" &&
        (member? boundedMethod (Phrase.ofTree boundedMethod tree)).any isBare) = true := by
    decide +kernel
  obtain ⟨tree, found, holds⟩ := (Option.any_eq_true _ _).mp first
  simp only [Bool.and_eq_true, Bool.not_eq_eq_eq_not, Bool.not_true, contains_iff_mem,
    Option.any_eq_true] at holds
  obtain ⟨⟨⟨declares, sound⟩, written⟩, member, read, bare⟩ := holds
  exact ⟨tree, member, found, declares, sound, writes_of_mem _ _ written, read,
    not_mentions_of_isBare bare⟩

end JavaSlice.Reading
