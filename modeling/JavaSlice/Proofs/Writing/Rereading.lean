import Mathlib.Data.List.DropRight
import JavaSlice.Proofs.Writing.WrittenFiles
import JavaSlice.Reading.Decl

/-!
# What is read off the phrases of a file

A file that was cut out of a source and written again has the same phrases as before at other
places. The module says what is read off them: the text of each member and constant, the header of
the type, the package and the imports. It holds for the phrases of the source as well as for those
of the file that is written.
-/

/-- The source text of a member. -/
def JavaSlice.Source.Member.text : Source.Member → String
  | .field decl | .method decl | .constructor decl => decl.text

namespace JavaSlice.Reading

open List Option Source Syntax Syntax.Grammar

variable {tree : Tree} {trees parts : List Tree} {name : Token} {outer : Option String}
  {decl : TypeDecl}

/-! ## Phrases of trees -/

section Phrases

variable (source : List Char)
variable {member : Member}

theorem ofTrees_eq_map (trees : List Tree) :
    Phrase.ofTrees source trees = trees.map (Phrase.ofTree source) := by
  induction trees with
  | nil => rfl
  | cons tree trees ih => rw [Phrase.ofTrees, ih, map_cons]

theorem ofTrees_append (trees others : List Tree) :
    Phrase.ofTrees source (trees ++ others) = Phrase.ofTrees source trees ++
      Phrase.ofTrees source others := by
  simp only [ofTrees_eq_map, map_append]

theorem exists_ofTree (tree : Tree) : ∃ faulty type? mark? expr, Phrase.ofTree source tree =
    .mk tree.kind tree.role tree.start tree.stop faulty type? mark? expr
      (Phrase.ofTrees source tree.children) := by
  cases tree <;> exact ⟨_, _, _, _, rfl⟩

@[simp]
theorem kind_ofTree (tree : Tree) : (Phrase.ofTree source tree).kind = tree.kind := by
  cases tree <;> rfl

@[simp]
theorem role_ofTree (tree : Tree) : (Phrase.ofTree source tree).role = tree.role := by
  cases tree <;> rfl

@[simp]
theorem parts_ofTree (tree : Tree) :
    (Phrase.ofTree source tree).parts = Phrase.ofTrees source tree.children := by
  cases tree <;> rfl

@[simp]
theorem text_ofTree (tree : Tree) :
    (Phrase.ofTree source tree).text source = textBetween source tree.start tree.stop := by
  cases tree <;> rfl

theorem inRole?_ofTrees (role : Role) (trees : List Tree) :
    inRole? role (Phrase.ofTrees source trees) =
      (Tree.inRole? role trees).map (Phrase.ofTree source) := by
  rw [inRole?, ofTrees_eq_map, find?_map, Tree.inRole?]
  simp [Function.comp_def]

theorem ofKind?_ofTrees (kind : Kind) (trees : List Tree) :
    ofKind? kind (Phrase.ofTrees source trees) =
      (Tree.ofKind? kind trees).map (Phrase.ofTree source) := by
  rw [ofKind?, ofTrees_eq_map, find?_map, Tree.ofKind?]
  simp [Function.comp_def]

theorem filter_ofTrees (test : Kind → Bool) (trees : List Tree) :
    (Phrase.ofTrees source trees).filter (fun phrase => test phrase.kind) =
      Phrase.ofTrees source (trees.filter fun tree => test tree.kind) := by
  rw [ofTrees_eq_map, ofTrees_eq_map, List.filter_map]
  simp [Function.comp_def]

/-! ## Members -/

/-- A phrase declares a member of a type, or none. -/
theorem isSome_member? (tree : Tree) :
    (member? source (Phrase.ofTree source tree)).isSome = declaresMember tree := by
  have named : (methodOf? source (Phrase.ofTree source tree)).isSome =
      (Tree.inRole? .name tree.children).isSome := by
    simp [methodOf?, name?, inRole?_ofTrees]
  unfold member? declaresMember
  rw [kind_ofTree]
  split <;> simp_all

theorem member?_cases (read : member? source phrase = some member) :
    member = .field (fieldOf source phrase) ∨
      ∃ method, methodOf? source phrase = some method ∧
        (member = .method method ∨ member = .constructor method) := by
  unfold member? at read
  split at read <;> grind [map_eq_some_iff]

theorem text_of_member? (read : member? source (Phrase.ofTree source tree) = some member) :
    member.text = textBetween source tree.start tree.stop := by
  rcases member?_cases source read with rfl | ⟨method, found, rfl | rfl⟩
  · exact text_ofTree source tree
  all_goals
    obtain ⟨name, -, rfl⟩ := map_eq_some_iff.mp found
    exact text_ofTree source tree

end Phrases

/-! ## Types -/

/-- The kind of the types of a form. -/
def typeKindOf : TypeForm → TypeKind
  | .ofClass => .classType
  | .ofInterface => .interfaceType
  | .ofEnum => .enumType
  | .ofRecord => .recordType
  | .ofAnnotationType => .annotationType

theorem typeKind?_kind (form : TypeForm) : typeKind? form.kind = some (typeKindOf form) := by
  cases form <;> rfl

theorem typeKindOf_eq_enumType (form : TypeForm) :
    (typeKindOf form == .enumType) = decide (form = .ofEnum) := by
  cases form <;> rfl

/-- A phrase declares a type only if it is of the kind of a form. -/
theorem exists_form_of_typeKind? (found : typeKind? kind = some typeKind) : IsTypeKind kind := by
  unfold typeKind? at found
  split at found
  · exact ⟨.ofClass, rfl⟩
  · exact ⟨.ofInterface, rfl⟩
  · exact ⟨.ofEnum, rfl⟩
  · exact ⟨.ofRecord, rfl⟩
  · exact ⟨.ofAnnotationType, rfl⟩
  · cases found

/-- What is read off the phrase of a type. -/
structure IsTypeReading (source : List Char) (form : TypeForm) (start bodyStart : Nat)
    (name : Token) (children : List Tree) (decl : TypeDecl) : Prop where
  name : decl.name = textBetween source name.start name.stop
  kind : decl.kind = typeKindOf form
  header : decl.header = Text.trim (textBetween source start bodyStart)
  preamble : decl.preamble = preambleOf source (Phrase.ofTrees source (form.constantsIn children))
  members : decl.members = (Phrase.ofTrees source (form.declarationsIn children)).filterMap
    (member? source)
  nested : ∃ package outer,
    decl.nested = typeDecls source package outer
      (Phrase.ofTrees source (form.declarationsIn children))

section Types

variable (source : List Char)
variable {package : Option String} {texts : List (List Char)}

theorem constants_eq (form : TypeForm) (children : List Tree) :
    (if typeKindOf form == .enumType then constantsIn (Phrase.ofTrees source children) else []) =
      Phrase.ofTrees source (form.constantsIn children) := by
  rw [typeKindOf_eq_enumType, TypeForm.constantsIn]
  by_cases isEnum : form = .ofEnum
  · rw [if_pos (decide_eq_true isEnum), if_pos isEnum]
    exact filter_ofTrees source (· == .enumConstant) children
  · rw [if_neg (by simpa using isEnum), if_neg isEnum]
    rfl

theorem declarations_eq (form : TypeForm) (children : List Tree) :
    (if typeKindOf form == .enumType
      then partsOfKind .enumBodyDeclarations (Phrase.ofTrees source children)
      else Phrase.ofTrees source children) = Phrase.ofTrees source
        (form.declarationsIn children) := by
  rw [typeKindOf_eq_enumType, TypeForm.declarationsIn]
  by_cases isEnum : form = .ofEnum
  · rw [if_pos (decide_eq_true isEnum), if_pos isEnum, partsOfKind, ofKind?_ofTrees]
    cases Tree.ofKind? .enumBodyDeclarations children with
    | none => rfl
    | some tree => simp
  · rw [if_neg (by simpa using isEnum), if_neg isEnum]

theorem typesAfterConstants_eq (package : Option String) (outer : String) (children : List Tree) :
    typesAfterConstants source package outer (Phrase.ofTrees source children) =
      typeDecls source package (some outer)
        (Phrase.ofTrees source (TypeForm.ofEnum.declarationsIn children)) := by
  rw [TypeForm.declarationsIn, if_pos rfl, Tree.ofKind?]
  induction children with
  | nil => simp [Phrase.ofTrees, typesAfterConstants, typeDecls]
  | cons tree children ih =>
    obtain ⟨_, _, _, _, isPhrase⟩ := exists_ofTree source tree
    rw [Phrase.ofTrees, isPhrase, typesAfterConstants, find?_cons]
    cases same : tree.kind == .enumBodyDeclarations <;> simp [ih]

theorem typesInBody_eq (package : Option String) (outer : String) (isEnum : Bool) {body}
    (others : ∀ tree ∈ parts, tree.role ≠ some .body) (role : body.role = some .body) :
    typesInBody source package outer isEnum (Phrase.ofTrees source (parts ++ [body])) =
      if isEnum then typesAfterConstants source package outer (Phrase.ofTrees source body.children)
      else typeDecls source package (some outer) (Phrase.ofTrees source body.children) := by
  induction parts with
  | nil =>
    obtain ⟨_, _, _, _, isPhrase⟩ := exists_ofTree source body
    rw [nil_append, Phrase.ofTrees, isPhrase, typesInBody, if_pos (by simp [role])]
  | cons tree parts ih =>
    rw [forall_mem_cons] at others
    obtain ⟨_, _, _, _, isPhrase⟩ := exists_ofTree source tree
    rw [cons_append, Phrase.ofTrees, isPhrase, typesInBody, if_neg (by simpa using others.1),
      ih others.2]

/-- The type that is read off a phrase. -/
theorem exists_typeReading (form : TypeForm) (start stop bodyStart : Nat) (body : Kind)
    (children : List Tree) (named : Named name parts) (package outer : Option String) :
    ∃ decl, typeDecl? source package outer
        (Phrase.ofTree source (typeTree form start stop parts body bodyStart children)) =
          some decl ∧
      IsTypeReading source form start bodyStart name children decl := by
  obtain ⟨marks, clauses, rfl, bare, others⟩ := named.split
  let bodyTree : Tree := .node body (some .body) bodyStart stop children
  let nameTree : Tree := .node .identifier (some .name) name.start name.stop []
  have noBody : ∀ tree ∈ marks ++ nameTree :: clauses, tree.role ≠ some .body := by
    rw [forall_mem_append, forall_mem_cons]
    exact ⟨fun tree inside => by simp [bare tree inside], nofun, others⟩
  have foundName :
      name? source (Phrase.ofTrees source ((marks ++ nameTree :: clauses) ++ [bodyTree])) =
      some (textBetween source name.start name.stop) := by
    have found : Tree.inRole? .name ((marks ++ nameTree :: clauses) ++ [bodyTree]) =
        some nameTree := by
      rw [Tree.inRole?, append_assoc, find?_append,
        find?_eq_none.mpr fun tree inside => by simp [bare tree inside], none_or]
      rfl
    rw [name?, inRole?_ofTrees, found]
    rfl
  have foundBody :
      inRole? .body (Phrase.ofTrees source ((marks ++ nameTree :: clauses) ++ [bodyTree])) =
      some (Phrase.ofTree source bodyTree) := by
    have found : Tree.inRole? .body ((marks ++ nameTree :: clauses) ++ [bodyTree]) =
        some bodyTree := by
      rw [Tree.inRole?, find?_append,
        find?_eq_none.mpr fun tree inside => by simp [noBody tree inside], none_or]
      rfl
    rw [inRole?_ofTrees, found]
    rfl
  rw [typeTree, Phrase.ofTree, phraseOf, typeDecl?, typeKind?_kind, foundName, foundBody]
  refine ⟨_, rfl, rfl, rfl, rfl, ?_, ?_, package,
    some (qualifiedIn package outer (textBetween source name.start name.stop)), ?_⟩
  · rw [← constants_eq]
    rfl
  · rw [← declarations_eq]
    rfl
  · dsimp only
    rw [typesInBody_eq source package _ _ noBody rfl, typeKindOf_eq_enumType]
    by_cases isEnum : form = .ofEnum
    · subst isEnum
      rw [if_pos (by decide), typesAfterConstants_eq]
      rfl
    · rw [if_neg (by simpa using isEnum), TypeForm.declarationsIn, if_neg isEnum]
      rfl

/-! ### Members and constants that were written -/

variable {source}

/-- Types are read off phrases. -/
theorem exists_of_mem_typeDecls
    (listed : decl ∈ typeDecls source package outer (Phrase.ofTrees source trees)) :
    ∃ tree ∈ trees, typeDecl? source package outer (Phrase.ofTree source tree) = some decl := by
  induction trees with
  | nil =>
    rw [Phrase.ofTrees, typeDecls] at listed
    cases listed
  | cons tree trees ih =>
    rw [Phrase.ofTrees, typeDecls, mem_append, mem_toList] at listed
    rw [exists_mem_cons_iff]
    exact listed.imp_right ih

/-- A type of a file is read off one of its phrases. -/
theorem exists_of_mem_typesOfFile
    (listed : decl ∈ typesOfFile source package (Phrase.ofTrees source trees)) :
    ∃ tree ∈ trees, ∃ package', typeDecl? source package' none (Phrase.ofTree source tree) =
      some decl := by
  induction trees generalizing package with
  | nil =>
    rw [Phrase.ofTrees, typesOfFile] at listed
    cases listed
  | cons tree trees ih =>
    rw [Phrase.ofTrees, typesOfFile, mem_append] at listed
    rcases listed with here | later
    · exact ⟨tree, mem_cons_self, package, mem_toList.mp here⟩
    · obtain ⟨tree, inside, read⟩ := ih later
      exact ⟨tree, mem_cons_of_mem _ inside, read⟩

theorem typeDecl?_eq_none (other : typeKind? tree.kind = none) :
    typeDecl? source package outer (Phrase.ofTree source tree) = none := by
  obtain ⟨_, _, _, _, isPhrase⟩ := exists_ofTree source tree
  rw [isPhrase, typeDecl?, other]

theorem isTypeKind_of_typeDecl?
    (read : typeDecl? source package outer (Phrase.ofTree source tree) = some decl) :
    IsTypeKind tree.kind := by
  cases kind : typeKind? tree.kind with
  | none =>
    rw [typeDecl?_eq_none kind] at read
    cases read
  | some typeKind => exact exists_form_of_typeKind? kind

theorem typeKind?_of_declaresMember (declares : declaresMember tree) :
    typeKind? tree.kind = none := by
  unfold declaresMember at declares
  split at declares
  all_goals simp_all [typeKind?]

/-- The members that were written are read, and nothing else. -/
theorem members_of_copies (copies : Forall₂ (Copied source (declaresMember ·)) texts trees) :
    ((Phrase.ofTrees source trees).filterMap (member? source)).map Member.text =
      texts.map String.ofList ∧
      ∀ package outer, typeDecls source package outer (Phrase.ofTrees source trees) = [] := by
  induction copies with
  | nil => exact ⟨rfl, fun _ _ => by rw [Phrase.ofTrees, typeDecls]⟩
  | @cons x tree texts trees copied copies ih =>
    obtain ⟨member, read⟩ :=
      isSome_iff_exists.mp ((isSome_member? source tree).trans copied.good)
    constructor
    · rw [Phrase.ofTrees, filterMap_cons_some read, map_cons, map_cons, ih.1,
        text_of_member? source read, textBetween, copied.text]
    · intro package outer
      rw [Phrase.ofTrees, typeDecls, typeDecl?_eq_none (typeKind?_of_declaresMember copied.good),
        ih.2]
      rfl

/-- The constants that were written are read. -/
theorem constants_of_copies (copies : Forall₂ (Copied source good) texts trees) :
    (Phrase.ofTrees source trees).map (·.text source) = texts.map String.ofList := by
  induction copies with
  | nil => rfl
  | @cons x tree texts trees copied copies ih =>
    rw [Phrase.ofTrees, map_cons, map_cons, ih, text_ofTree, textBetween, copied.text]

/-! ### Members and constants of a source -/

theorem cut_of_found (found : FoundAt source x place) (start : tree.start = 0)
    (stop : tree.stop = x.length) : cut source (move place tree).start (move place tree).stop =
      x := by
  obtain ⟨z, split⟩ := found
  refine cut_of_drop split.symm ?_ ?_
  · rw [Tree.start_move, start, Nat.zero_add]
  · rw [Tree.stop_move, stop, Nat.add_comm]

/-- A member of a source can be written. -/
theorem isMemberText_of_isExcerpt (isExcerpt : IsExcerpt (member · kind) (· ≠ []) source tree)
    (declares : declaresMember tree) : IsMemberText kind (cut source tree.start tree.stop) := by
  obtain ⟨place, x, tokens, tree, found, rfl, excerpt⟩ := isExcerpt
  rw [cut_of_found found excerpt.start excerpt.stop]
  exact ⟨tokens, tree, excerpt, by rwa [declaresMember_move] at declares⟩

/-- A constant of a source can be written. -/
theorem isConstantText_of_isExcerpt
    (isExcerpt : IsExcerpt enumConstant Level.constant.Stops source tree)
    (kind : tree.kind = .enumConstant) : IsConstantText (cut source tree.start tree.stop) := by
  obtain ⟨place, x, tokens, tree, found, rfl, excerpt⟩ := isExcerpt
  rw [cut_of_found found excerpt.start excerpt.stop]
  exact ⟨tokens, tree, excerpt, by rwa [Tree.kind_move] at kind⟩

theorem kind_ne_block_of_declaresMember (declares : declaresMember tree) : tree.kind ≠ .block := by
  intro block
  rw [declaresMember, block] at declares
  cases declares

end Types

/-- The text of some constants of an enumeration, where those after the first are indented. -/
def preambleText (indent : Nat) (constants : List String) : Option String :=
  if constants.isEmpty then none
  else some (String.intercalate (",\n" ++ String.ofList (List.replicate indent ' '))
    constants ++ ";")

theorem exists_preambleText (source : List Char) (constants : List Phrase) :
    ∃ indent, preambleOf source constants = preambleText indent
      (constants.map (·.text source)) := by
  cases constants with
  | nil => exact ⟨0, rfl⟩
  | cons first constants => exact ⟨constantIndent source first.start, rfl⟩

/-! ## Types of a source -/

section Excerpts

variable {source : List Char} (type : TypeExcerpt source)

theorem named_move (named : Named name parts) (place : Nat) :
    Named (move place name) (move place parts) := by
  obtain ⟨marks, clauses, rfl, bare, others⟩ := named.split
  refine ⟨move place marks, move place clauses, by simp [Tree.move_node], ?_, ?_⟩
  · intro tree inside
    obtain ⟨tree, listed, rfl⟩ := List.mem_map.mp inside
    rw [Tree.role_move, bare tree listed]
  · intro tree inside
    obtain ⟨tree, listed, rfl⟩ := List.mem_map.mp inside
    rw [Tree.role_move]
    exact others tree listed

/-- The name in a header is read wherever the header stands. -/
theorem cut_of_name (inside : name ∈ type.tokens) (stands : type.header <+: whole.drop place) :
    cut whole (move place name).start (move place name).stop = name.text.toList := by
  obtain ⟨⟨behind, text⟩, stop⟩ := type.piece.spans.drop_start inside
  obtain ⟨after, split⟩ := stands
  have found : whole.drop (name.start + place) =
      name.text.toList ++ (behind ++ after.drop (name.start - type.header.length)) := by
    rw [Nat.add_comm, ← drop_drop, ← split, drop_append, ← text, append_assoc]
  refine cut_of_drop found rfl ?_
  rw [Token.stop_move, stop]
  omega

/-- A header that is written starts with the header up to its last token. -/
theorem header_isPrefix_head : type.header <+: type.head := by
  obtain ⟨g, z, after, -, begin⟩ := type.exists_gaps
  exact ⟨Text.trimEndChars g, (TypeExcerpt.trimChars_header after begin).symm⟩

theorem header_isPrefix_drop : type.header <+: source.drop type.place :=
  ⟨type.after, type.piece.drop_eq.symm⟩

/-- What is read off a type in a source, and what can be written of it. -/
structure IsSourceReading (name : Token) (indent : Nat) (constants : List (List Char))
    (decl : TypeDecl) : Prop where
  name : decl.name = name.text
  kind : decl.kind = typeKindOf type.form
  header : decl.header.toList = type.head
  preamble : decl.preamble = preambleText indent (constants.map String.ofList)
  plain : type.form ≠ .ofEnum → constants = []
  constants : ∀ x ∈ constants, IsConstantText x
  members : ∀ member ∈ decl.members, IsMemberText type.form.bodyKind member.text.toList

/-- The type that is read off a source. -/
theorem exists_sourceReading
    (read : typeDecl? source package outer (Phrase.ofTree source type.tree) = some decl) :
    ∃ name ∈ type.tokens, Named name type.parts ∧
      ∃ indent constants, IsSourceReading type name indent constants decl := by
  obtain ⟨name, inside, named⟩ := type.heading.named
  obtain ⟨_, found, reading⟩ :=
    exists_typeReading source type.form type.place type.stop type.bodyStart type.body
    type.children (named_move named type.place) package outer
  obtain rfl := some.inj (read.symm.trans found)
  obtain ⟨indent, preamble⟩ :=
    exists_preambleText source (Phrase.ofTrees source (type.form.constantsIn type.children))
  refine ⟨name, inside, named, indent,
    (type.form.constantsIn type.children).map fun tree => cut source tree.start tree.stop,
    ?_, reading.kind, ?_, ?_, ?_, ?_, ?_⟩
  · rw [reading.name, textBetween, cut_of_name type inside (header_isPrefix_drop type),
      String.ofList_toList]
  · rw [reading.header, Text.trim, textBetween, String.toList_ofList, String.toList_ofList]
    rfl
  · rw [reading.preamble, preamble, ofTrees_eq_map, List.map_map, List.map_map]
    congr 1
    exact map_congr_left fun tree _ => text_ofTree source tree
  · intro other
    rw [TypeForm.constantsIn, if_neg other]
    rfl
  · intro x listed
    obtain ⟨tree, inside, rfl⟩ := List.mem_map.mp listed
    refine isConstantText_of_isExcerpt (type.constants tree inside) ?_
    rw [TypeForm.constantsIn] at inside
    split at inside
    · simpa using (mem_filter.mp inside).2
    · cases inside
  · intro member listed
    rw [reading.members, ofTrees_eq_map, mem_filterMap] at listed
    obtain ⟨_, listed, found⟩ := listed
    obtain ⟨tree, inside, rfl⟩ := List.mem_map.mp listed
    have declares : declaresMember tree = true := by rw [← isSome_member? source, found]; rfl
    rw [text_of_member? source found, textBetween, String.toList_ofList]
    exact isMemberText_of_isExcerpt
      (type.members tree inside (kind_ne_block_of_declaresMember declares)) declares

end Excerpts

/-! ## Types of a file that was written -/

section Written

variable {source : List Char} {package : Option QualifiedName} {imports : List NamedImport}
  {type : TypeExcerpt source} {constants texts : List (List Char)} {whole : List Char}
  (file : WrittenFile package imports type constants texts whole)

theorem trimEndChars_trimEndChars (cs : List Char) :
    Text.trimEndChars (Text.trimEndChars cs) = Text.trimEndChars cs := by
  rw [Text.trimEndChars, Text.trimEndChars, reverse_reverse, dropWhile_idempotent]

/-- The blank between a header and its brace is trimmed. -/
theorem trimChars_head (type : TypeExcerpt source) :
    Text.trimChars (type.head ++ [' ']) = type.head := by
  obtain ⟨c, first, calm, -⟩ := type.head?_head
  have starts : ∀ d, (type.head ++ [' ']).head? = some d → Text.isBlank d = false := by
    intro d same
    rw [head?_append, first] at same
    exact some.inj same ▸ calm
  rw [Text.trimChars, Text.dropWhile_of_head? starts, trimEndChars_append_of_nil (by decide),
    TypeExcerpt.head, Text.trimChars, trimEndChars_trimEndChars]

/-- What is read off the type of a file that was written. -/
structure IsWrittenReading (type : TypeExcerpt source) (name : Token)
    (constants texts : List (List Char)) (decl : TypeDecl) : Prop where
  name : decl.name = name.text
  kind : decl.kind = typeKindOf type.form
  header : decl.header.toList = type.head
  preamble : ∃ indent, decl.preamble = preambleText indent (constants.map String.ofList)
  members : decl.members.map Member.text = texts.map String.ofList
  nested : decl.nested = []

/-- The type that is read off a file that was written. -/
theorem exists_writtenReading (inside : name ∈ type.tokens) (named : Named name type.parts)
    (package' outer : Option String) :
    ∃ decl, typeDecl? whole package' outer (Phrase.ofTree whole file.typePhrase) = some decl ∧
      IsWrittenReading type name constants texts decl := by
  obtain ⟨decl, found, reading⟩ := exists_typeReading whole type.form file.place file.stop
    (file.place + type.head.length + 1) file.body file.children (named_move named file.place)
      package' outer
  obtain ⟨rest, header⟩ := file.header
  obtain ⟨members, nested⟩ := members_of_copies file.parts.members
  refine ⟨decl, found, ?_, reading.kind, ?_, ?_, ?_, ?_⟩
  · have stands : type.header <+: whole.drop file.place :=
      header ▸ (header_isPrefix_head type).trans (prefix_append _ _)
    rw [reading.name, textBetween, cut_of_name type inside stands, String.ofList_toList]
  · have cut_eq : cut whole file.place (file.place + type.head.length + 1) = type.head ++
        [' '] := by
      refine cut_of_drop (x := type.head ++ [' ']) (z := rest) (by rw [header]; simp) rfl ?_
      simp [Nat.add_assoc]
    rw [reading.header, Text.trim, textBetween, String.toList_ofList, String.toList_ofList, cut_eq,
      trimChars_head]
  · rw [reading.preamble, ← constants_of_copies file.parts.constants]
    exact exists_preambleText _ _
  · rw [reading.members, members]
  · obtain ⟨package', outer, same⟩ := reading.nested
    rw [same, nested]

/-! ## Files -/

theorem packageAfter_of_others {package}
    (others : ∀ tree ∈ trees, tree.kind ≠ .packageDeclaration) :
    packageAfter source package (Phrase.ofTrees source trees) = package := by
  induction trees with
  | nil => rfl
  | cons tree trees ih =>
    rw [forall_mem_cons] at others
    rw [Phrase.ofTrees, packageAfter, foldl_cons, kind_ofTree, if_neg (by simpa using others.1)]
    exact ih others.2

theorem kind_typePhrase : file.typePhrase.kind = type.form.kind := rfl

theorem kind_lines : ∀ tree ∈ file.lines, tree.kind = .importDeclaration := by
  intro tree inside
  obtain ⟨item, -, isImport⟩ := exists_related file.importPhrases inside
  exact isImport.kind

theorem kind_packages : ∀ tree ∈ file.packages, tree.kind = .packageDeclaration := by
  intro tree inside
  obtain ⟨name, -, start, stop, part, rfl, -⟩ := exists_related file.packagePhrases inside
  rfl

/-- The name of a package is read off the part after its annotations. -/
theorem packageName?_eq {start stop marks part}
    (others : ∀ mark ∈ marks, mark.kind = .annotationMark ∨ mark.kind = .annotationCall)
    (kind : part.kind = .identifier ∨ part.kind = .scopedIdentifier) :
    packageName? source
      (Phrase.ofTree source (.node .packageDeclaration none start stop (marks ++ [part]))) =
      some (String.ofList ((cut source part.start part.stop).filter (!Text.isBlank ·))) := by
  have test : (part.kind == .scopedIdentifier || part.kind == .identifier) = true := by
    rcases kind with kind | kind <;> rw [kind] <;> rfl
  have found : (Phrase.ofTrees source (marks ++ [part])).find?
      (fun part => part.kind == .scopedIdentifier || part.kind == .identifier) =
        some (Phrase.ofTree source part) := by
    have none : (Phrase.ofTrees source marks).find?
        (fun part => part.kind == .scopedIdentifier || part.kind == .identifier) = none := by
      rw [ofTrees_eq_map, find?_eq_none]
      intro phrase inside
      obtain ⟨mark, listed, rfl⟩ := List.mem_map.mp inside
      rw [kind_ofTree]
      rcases others mark listed with other | other <;> rw [other] <;> decide
    rw [ofTrees_append, find?_append, none, none_or, Phrase.ofTrees, Phrase.ofTrees,
      find?_cons, kind_ofTree, test]
  rw [packageName?, parts_ofTree, Tree.children, found, map_some, text_ofTree,
    Text.dropBlanks, textBetween, String.toList_ofList]

/-- The package that is read off a file that was written. -/
theorem packageAfter_phrases : packageAfter whole none (Phrase.ofTrees whole file.phrases) =
    package.map fun name => String.ofList name.text := by
  have others : ∀ tree ∈ file.lines ++ [file.typePhrase], tree.kind ≠ .packageDeclaration := by
    rw [forall_mem_append, forall_mem_singleton, kind_typePhrase]
    exact ⟨fun tree inside => by simp [kind_lines file tree inside], by cases type.form <;> decide⟩
  have packages := file.packagePhrases
  rw [WrittenFile.phrases]
  cases package with
  | none =>
    rw [forall₂_nil_left_iff.mp packages]
    exact packageAfter_of_others others
  | some name =>
    obtain ⟨_, rest, ⟨start, stop, part, rfl, kind, -, text⟩, none, split⟩ :=
      forall₂_cons_left_iff.mp packages
    have read := @packageName?_eq whole start stop [] part (forall_mem_nil _) kind
    rw [nil_append, text] at read
    rw [split, forall₂_nil_left_iff.mp none, singleton_append, Phrase.ofTrees, packageAfter,
      foldl_cons, kind_ofTree, if_pos (by rfl), read]
    exact packageAfter_of_others others

theorem importsOfFile_phrases :
    importsOfFile whole (Phrase.ofTrees whole file.phrases) = imports.map (·.line) := by
  have lines : file.phrases.filter (fun tree => tree.kind == .importDeclaration) = file.lines := by
    have before : file.packages.filter (fun tree => tree.kind == .importDeclaration) = [] :=
      filter_eq_nil_iff.mpr fun tree inside => by rw [kind_packages file tree inside]; decide
    have inner : file.lines.filter (fun tree => tree.kind == .importDeclaration) = file.lines :=
      filter_eq_self.mpr fun tree inside => by rw [kind_lines file tree inside]; rfl
    have after : [file.typePhrase].filter (fun tree => tree.kind == .importDeclaration) = [] := by
      refine filter_eq_nil_iff.mpr (forall_mem_singleton.mpr ?_)
      rw [kind_typePhrase]
      cases type.form <;> decide
    rw [WrittenFile.phrases, filter_append, filter_append, before, inner, after, nil_append,
      append_nil]
  have read : ∀ {imports : List NamedImport} {lines : List Tree},
      Forall₂ (fun item => IsImportTree whole item.line) imports lines →
      (Phrase.ofTrees whole lines).filterMap (fun phrase => Import.ofString? (phrase.text whole)) =
        imports.map (·.line) := by
    intro imports lines pairs
    induction pairs with
    | nil => rfl
    | @cons item tree imports lines isImport pairs ih =>
      have found : Import.ofString? ((Phrase.ofTree whole tree).text whole) = some item.line := by
        rw [text_ofTree, Import.ofString?, textBetween, String.toList_ofList, isImport.read]
      simp only [Phrase.ofTrees, filterMap_cons, found, ih, map_cons]
  have filtered : (Phrase.ofTrees whole file.phrases).filter (·.kind == .importDeclaration) =
      Phrase.ofTrees whole file.lines :=
    (filter_ofTrees whole (· == .importDeclaration) file.phrases).trans (congrArg _ lines)
  rw [importsOfFile, filtered]
  exact read file.importPhrases

/-- Phrases that declare no type are passed over. -/
theorem typesOfFile_append {package} (others : ∀ tree ∈ trees, typeKind? tree.kind = none)
    (phrases : List Phrase) :
    typesOfFile source package (Phrase.ofTrees source trees ++ phrases) =
      typesOfFile source (packageAfter source package (Phrase.ofTrees source trees)) phrases := by
  induction trees generalizing package with
  | nil => rfl
  | cons tree trees ih =>
    rw [forall_mem_cons] at others
    rw [Phrase.ofTrees, cons_append, typesOfFile, typeDecl?_eq_none others.1, ih others.2]
    rfl

/-- The only type that is read off a file that was written. -/
theorem exists_typesOfFile (inside : name ∈ type.tokens) (named : Named name type.parts) :
    ∃ decl, typesOfFile whole none (Phrase.ofTrees whole file.phrases) = [decl] ∧
      IsWrittenReading type name constants texts decl := by
  have others : ∀ tree ∈ file.packages ++ file.lines, typeKind? tree.kind = none := by
    rw [forall_mem_append]
    exact ⟨fun tree inside => by rw [kind_packages file tree inside]; rfl,
      fun tree inside => by rw [kind_lines file tree inside]; rfl⟩
  obtain ⟨decl, read, reading⟩ := exists_writtenReading file inside named
    (packageAfter whole none (Phrase.ofTrees whole (file.packages ++ file.lines))) none
  refine ⟨decl, ?_, reading⟩
  rw [WrittenFile.phrases, ← append_assoc, ofTrees_append, typesOfFile_append others,
    Phrase.ofTrees, Phrase.ofTrees, typesOfFile, read, typesOfFile]
  rfl

end Written

end JavaSlice.Reading
