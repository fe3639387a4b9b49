import JavaSlice.Proofs.FileTypes
import JavaSlice.Proofs.Writing.Rereading

/-!
# Names of declarations

Types, fields and methods are named by words of their file, whether the file is read without errors
or not. Parsers that are run on what is left of a file keep to it (`Gives`), so that the parts which
name a declaration cover words of the file (`NamesWords`). A word is an identifier: the names that
are read off the phrases hold none of the signs that stand between names (`TypeDecl.IsSpelled`).
-/

namespace JavaSlice.Syntax

open List

/-- Some tokens are what is left of a file. -/
structure Left (file tokens : List Token) : Prop where
  subset : tokens ⊆ file
  finish : ∃ token ∈ tokens, token.kind = .finish

/-- What is left of a file stays so when tokens are taken. -/
theorem Left.after (left : Left file (taken ++ tokens))
    (proper : ∀ token ∈ taken, token.kind ≠ .finish) : Left file tokens := by
  obtain ⟨token, inside, finish⟩ := left.finish
  exact ⟨fun token inside => left.subset (mem_append_right _ inside),
    token, (mem_append.mp inside).resolve_left fun taken => proper token taken finish, finish⟩

theorem Agrees.left {α : Type} [Movable α] {level : Level} {touched : Bool} {zone : Zone}
    {p : Parser α} {file tokens : List Token}
    (agrees : Agrees level 0 tokens.length .fresh ⟨touched, zone⟩ p p) (left : Left file tokens)
    {last : Nat} {value : α} {cursor : Cursor} (reads : p ⟨tokens, last⟩ = some (value, cursor)) :
    Left file cursor.tokens := by
  obtain ⟨taken, rfl, -, proper, -⟩ := agrees.exists_taken (Nat.le_refl _) left.finish reads
  exact left.after proper

/-- A phrase covers a word of a file. -/
def CoversWord (file : List Token) (tree : Tree) : Prop :=
  ∃ token ∈ file, token.kind = .word ∧ tree.start = token.start ∧ tree.stop = token.stop

/-- The parts of a declaration that name it cover words of a file, and so do the parts that name its
variables. -/
def NamesWords (file : List Token) (parts : List Tree) : Prop :=
  ∀ part ∈ parts, (part.role = some .name → CoversWord file part) ∧
    (part.role = some .declarator → ∀ inner ∈ part.children, inner.role = some .name →
      CoversWord file inner)

theorem NamesWords.append (first : NamesWords file parts)
    (second : NamesWords file others) : NamesWords file (parts ++ others) :=
  forall_mem_append.mpr ⟨first, second⟩

namespace Grammar

open Syntax.Parser

/-! ## Runs on what is left of a file -/

/-- On what is left of a file a parser gives a good value and leaves something of the file. -/
def Gives {α : Type} (file : List Token) (good : α → Prop) (p : Parser α) : Prop :=
  ∀ ⦃tokens last value cursor⦄, Left file tokens → p ⟨tokens, last⟩ = some (value, cursor) →
    good value ∧ Left file cursor.tokens

namespace Gives

variable {α β : Type} {file : List Token} {good : α → Prop} {p q : Parser α}

/-- A parser whose results are good wherever it starts gives good results in a file. -/
theorem of_agrees [Movable α] (agrees : ∀ size, Agrees level 0 size .fresh ⟨touched, zone⟩ p p)
    (always : ∀ cursor value cursor', p cursor = some (value, cursor') → good value) :
    Gives file good p :=
  fun _ _ _ _ left reads => ⟨always _ _ _ reads, (agrees _).left left reads⟩

theorem pure (fits : good value) : Gives file good (pure value) := by
  intro tokens last value' cursor left reads
  obtain ⟨rfl, rfl⟩ := pure_eq_some.mp reads
  exact ⟨fits, left⟩

theorem bind {good' : β → Prop} {f : α → Parser β} (first : Gives file good p)
    (second : ∀ value, good value → Gives file good' (f value)) : Gives file good' (p >>= f) := by
  intro tokens last value cursor left reads
  obtain ⟨value, middle, begun, further⟩ := bind_eq_some.mp reads
  obtain ⟨fits, left'⟩ := first left begun
  exact second value fits left' further

theorem orElse (first : Gives file good p) (second : Gives file good q) :
    Gives file good (p <|> q) := by
  intro tokens last value cursor left reads
  rcases orElse_eq_some.mp reads with reads | ⟨-, reads⟩
  · exact first left reads
  · exact second left reads

theorem mono (gives : Gives file good p) (weaker : ∀ value, good value → good' value) :
    Gives file good' p :=
  fun _ _ _ _ left reads => (gives left reads).imp_left (weaker _)

theorem many {good : Tree → Prop} {p : Phrases}
    (step : Gives file (fun trees => ∀ tree ∈ trees, good tree) p) :
    Gives file (fun trees => ∀ tree ∈ trees, good tree) (many p) := by
  intro tokens last trees cursor left reads
  exact (@many_induction _ _ p trees (fun cursor => Left file cursor.tokens) good (fun _ => True)
    (fun _ _ _ left reads _ => (step left reads).symm) left reads fun _ _ => trivial).symm

theorem satisfy (test : Token → Bool) :
    Gives file (fun token => token ∈ file ∧ test token) (satisfy test) := by
  intro tokens last token cursor left reads
  obtain ⟨rest, rfl, proper, passes, rfl⟩ := satisfy_eq_some.mp reads
  exact ⟨⟨left.subset mem_cons_self, passes⟩,
    @Left.after file [token] rest left (by simpa using proper)⟩

theorem node {good p kind} (gives : Gives file good p) :
    Gives file (fun trees => ∀ tree ∈ trees, good tree.children) (node kind p) := by
  intro tokens last trees cursor left reads
  obtain ⟨_, _, children, -, parts, rfl⟩ := node_eq_some.mp reads
  exact (gives left parts).imp_left forall_mem_singleton.mpr

theorem peek : Gives file (fun _ => True) peek := by
  intro tokens last token cursor left reads
  obtain ⟨rfl, -⟩ := peek_eq_some.mp reads
  exact ⟨trivial, left⟩

theorem place : Gives file (fun _ => True) place :=
  .bind .peek fun _ _ => .pure trivial

theorem symbol (text : String) : Gives file (fun _ => True) (symbol text) :=
  .bind (.satisfy _) fun _ _ => .pure trivial

theorem trySymbol (text : String) : Gives file (fun _ => True) (trySymbol text) :=
  .orElse (.bind (.symbol text) fun _ _ => .pure trivial) (.pure trivial)

theorem word (text : String) : Gives file (fun _ => True) (word text) :=
  .bind (.satisfy _) fun _ _ => .pure trivial

end Gives

section Names

variable {file : List Token} {depth : Nat} {level : Level} {touched : Bool} {zone : Zone}
variable {kind : Kind} {p : Phrases}

/-- A leaf that is a word covers a word of the file. -/
theorem gives_leaf (words : ∀ token, test token → token.kind = .word) :
    Gives file (fun trees => ∀ tree ∈ trees, CoversWord file tree) (leaf kind test) :=
  .bind (.satisfy test) fun token ⟨inside, passes⟩ =>
    .pure (forall_mem_singleton.mpr ⟨token, inside, words token passes, rfl, rfl⟩)

/-- A word in the role of a name is well spelled. -/
theorem gives_name (words : Gives file (fun trees => ∀ tree ∈ trees, CoversWord file tree) p) :
    Gives file (NamesWords file) (inRole .name p) :=
  .bind words fun trees covers => .pure fun part inside => by
    obtain ⟨tree, listed, rfl⟩ := mem_map.mp inside
    have covers := covers tree listed
    cases tree <;> exact ⟨fun _ => covers, nofun⟩

theorem kind_of_isName (name : isName token) : token.kind = .word := by
  simp only [isName, Bool.and_eq_true, beq_iff_eq] at name
  exact name.1

theorem gives_declaredName : Gives file (NamesWords file) declaredName :=
  gives_name (gives_leaf fun _ => kind_of_isName)

/-- A node has no role, so it names nothing. -/
theorem gives_node
    (agrees : ∀ size, Agrees level 0 size .fresh ⟨touched, zone⟩ (node kind p) (node kind p)) :
    Gives file (NamesWords file) (node kind p) :=
  .of_agrees agrees (Yields.node fun _ _ _ => ⟨nofun, nofun⟩)

/-- A phrase in another role names nothing. -/
theorem gives_role (other : role ≠ .name ∧ role ≠ .declarator)
    (agrees : ∀ size, Agrees level 0 size .fresh ⟨touched, zone⟩ p p) :
    Gives file (NamesWords file) (inRole role p) :=
  .of_agrees (fun size => .inRole (agrees size)) (Yields.inRole fun tree => by
    cases tree <;>
      exact ⟨fun same => (other.1 (Option.some.inj same)).elim,
        fun same => (other.2 (Option.some.inj same)).elim⟩)

theorem gives_maybe (gives : Gives file (NamesWords file) p) :
    Gives file (NamesWords file) (maybe p) :=
  gives.orElse (.pure nofun)

theorem gives_modifiers : Gives file (NamesWords file) (modifiers (close grammar depth)) :=
  .of_agrees (fun _ => agrees_modifiers (knows_self depth))
    (Yields.maybe (.node fun _ _ _ => ⟨nofun, nofun⟩))

theorem gives_annotations : Gives file (NamesWords file) (annotations (close grammar depth)) :=
  .of_agrees (fun _ => agrees_annotations (knows_self depth)) fun _ _ _ reads part inside => by
    rw [(yields_annotations _ _ _ reads part inside).1]
    exact ⟨nofun, nofun⟩

theorem gives_type : Gives file (NamesWords file)
    (inRole .type (plainType (close grammar depth))) :=
  gives_role (by decide) fun _ => agrees_plainType (knows_self depth)

theorem gives_formals :
    Gives file (NamesWords file) (inRole .parameters (formalParameters (close grammar depth))) :=
  gives_role (by decide) fun _ => agrees_formalParameters (knows_self depth)

theorem gives_block : Gives file (NamesWords file) (inRole .body (close grammar depth .block)) :=
  gives_role (by decide) fun _ => (knows_self depth).block
    (show Level.block.stopsAtBrace = false from rfl)

theorem gives_brackets : Gives file (NamesWords file) (maybe (dimensions (close grammar depth))) :=
  gives_maybe (gives_node fun _ => agrees_dimensions (knows_self depth))

theorem gives_exceptions :
    Gives file (NamesWords file) (maybe (throwsClause (close grammar depth))) :=
  gives_maybe (gives_node fun _ => agrees_throwsClause (knows_self depth))

/-! ## Members -/

/-- A phrase declares no type, and words of a file name what it declares. -/
def IsMember (file : List Token) (tree : Tree) : Prop :=
  Reading.typeKind? tree.kind = none ∧ NamesWords file tree.children

/-- A member whose names are words of the file. -/
theorem gives_nodeFrom (other : Reading.typeKind? kind = none) (names : NamesWords file children) :
    Gives file (IsMember file) (nodeFrom kind start children) := by
  intro tokens last tree cursor left reads
  obtain ⟨rfl, rfl⟩ := nodeFrom_eq_some.mp reads
  exact ⟨⟨other, names⟩, left⟩

section Rests

variable (start : Nat) {marks : List Tree} (marked : NamesWords file marks)
include marked

theorem gives_methodRest :
    Gives file (IsMember file) (methodRest (close grammar depth) start marks) :=
  .bind (gives_maybe (.bind (gives_node fun _ => agrees_typeParameters (knows_self depth))
        fun _ first =>
      .bind gives_annotations fun _ second => .pure (first.append second))) fun _ parameters =>
    .bind gives_type fun _ type => .bind gives_declaredName fun _ name =>
      .bind gives_formals fun _ formals =>
    .bind gives_brackets fun _ brackets => .bind gives_exceptions fun _ exceptions =>
    .bind (.orElse gives_block (.bind (.symbol _) fun _ _ => .pure nofun)) fun _ body =>
    gives_nodeFrom rfl
      (((((((marked.append parameters).append type).append name).append formals).append
      brackets).append exceptions).append body)

theorem gives_constructorRest :
    Gives file (IsMember file) (constructorRest (close grammar depth) start marks) :=
  .bind (gives_maybe (gives_node fun _ => agrees_typeParameters (knows_self depth)))
      fun _ parameters =>
    .bind gives_declaredName fun _ name => .bind gives_formals fun _ formals =>
    .bind gives_exceptions fun _ exceptions =>
    .bind (gives_role (by decide) fun _ => agrees_constructorBody (knows_self depth)
      (show Level.block.stopsAtBrace = false from rfl)) fun _ body =>
    gives_nodeFrom rfl ((((marked.append parameters).append name).append formals).append exceptions
      |>.append body)

theorem gives_compactConstructorRest :
    Gives file (IsMember file) (compactConstructorRest (close grammar depth) start marks) :=
  .bind gives_declaredName fun _ name => .bind gives_block fun _ body =>
    gives_nodeFrom rfl ((marked.append name).append body)

theorem gives_annotationElementRest :
    Gives file (IsMember file) (annotationElementRest (close grammar depth) start marks) :=
  .bind gives_type fun _ type => .bind gives_declaredName fun _ name => .bind (.symbol _) fun _ _ =>
    .bind (.symbol _) fun _ _ => .bind gives_brackets fun _ brackets =>
    .bind (gives_maybe (.bind (.word _) fun _ _ =>
      gives_role (by decide) fun _ => agrees_elementValueOrArray (knows_self depth))) fun _ value =>
    .bind (.symbol _) fun _ _ =>
    gives_nodeFrom rfl ((((marked.append type).append name).append brackets).append value)

end Rests

theorem gives_variables : Gives file (NamesWords file)
    (variableDeclarators (close grammar depth)) := by
  have name : Gives file (NamesWords file) (variableId (close grammar depth)) :=
    .bind (gives_name (.orElse (gives_leaf fun _ => by simp +contextual [Token.isWord])
      (gives_leaf fun _ => kind_of_isName))) fun _ name => .bind gives_brackets fun _ brackets =>
      .pure (name.append brackets)
  have value : Gives file (NamesWords file)
      (inRole .value (variableInitializer (close grammar depth))) :=
    gives_role (by decide) fun _ => agrees_variableInitializer (knows_self depth)
  have parts : Gives file (fun trees => ∀ tree ∈ trees, NamesWords file tree.children)
      (variableDeclarator (close grammar depth)) :=
    .node <| .bind name fun _ name => .bind (.trySymbol _) fun equals _ => by
      split
      · exact .bind value fun _ value => .pure (name.append value)
      · exact .pure name
  have one : Gives file (NamesWords file)
      (inRole .declarator (variableDeclarator (close grammar depth))) :=
    .bind parts fun trees names => .pure fun part inside => by
      obtain ⟨tree, listed, rfl⟩ := mem_map.mp inside
      have names := names tree listed
      cases tree <;>
        exact ⟨(fun named => by cases named), fun _ inner inside => (names inner inside).1⟩
  exact .bind one fun _ first => .bind (.many (.bind (.symbol _) fun _ _ => one)) fun _ rest =>
    .pure (first.append rest)

theorem gives_fieldRest (other : Reading.typeKind? kind = none) (start : Nat)
    (marked : NamesWords file marks) :
    Gives file (IsMember file) (fieldRest (close grammar depth) kind start marks) :=
  .bind gives_type fun _ type => .bind gives_variables fun _ declared =>
      .bind (.symbol _) fun _ _ =>
    gives_nodeFrom other ((marked.append type).append declared)

/-- The names of a member are words of the file. -/
theorem gives_plainMember (kind : BodyKind) :
    Gives file (fun trees => ∀ tree ∈ trees, IsMember file tree)
      (plainMember (close grammar depth) kind) := by
  have rest : ∀ start {marks}, NamesWords file marks →
      Gives file (IsMember file) (memberRest (close grammar depth) kind start marks) := by
    intro start marks marked
    cases kind with
    | ofClass =>
      exact .orElse (gives_constructorRest start marked) <|
        .orElse (gives_compactConstructorRest start marked) <|
        .orElse (gives_methodRest start marked) (gives_fieldRest rfl start marked)
    | ofInterface =>
      exact .orElse (gives_methodRest start marked) (gives_fieldRest rfl start marked)
    | ofAnnotationType =>
      exact .orElse (gives_annotationElementRest start marked) (gives_fieldRest rfl start marked)
  exact .bind .place fun start _ => .bind gives_modifiers fun _ marked =>
      .bind (rest start marked) fun _ fits =>
    .pure (forall_mem_singleton.mpr fits)

end Names

end Grammar

end JavaSlice.Syntax

namespace JavaSlice

open List Syntax Grammar Parser Reading Source

/-! ## Spelling -/

/-- A name without the signs that stand between names. -/
def IsPlainName (name : String) : Prop :=
  ∀ mark ∈ ['.', '#', '<'], mark ∉ name.toList

/-- The names of a member are plain. -/
def Source.Member.IsSpelled : Member → Prop
  | .field decl => ∀ name ∈ decl.names, IsPlainName name
  | .method decl | .constructor decl => IsPlainName decl.name

/-- The names in a type are plain, and the simple name of the type is the last segment of its
name. -/
structure Source.TypeDecl.IsSpelled (decl : TypeDecl) : Prop where
  name : IsPlainName decl.name
  qualified : ∃ package, decl.qualifiedName = Dotted.within package decl.name
  members : ∀ member ∈ decl.members, member.IsSpelled

/-- What a phrase declares is spelled with plain names. -/
structure WellSpelled (source : List Char) (tree : Tree) : Prop where
  member : ∀ member, member? source (Phrase.ofTree source tree) = some member → member.IsSpelled
  types : ∀ package outer decl, typeDecl? source package outer (Phrase.ofTree source tree) =
    some decl → ∀ type ∈ decl.withNested, type.IsSpelled

section Spelling

variable {source : List Char} {tree : Tree}

/-- A word of a file is an identifier. -/
theorem isIdentifier_of_mem_scanAt (place : Nat) (text : List Char)
    (rest : text = source.drop place) (inside : token ∈ Token.scanAt place text)
    (word : token.kind = .word) : IsIdentifier (cut source token.start token.stop) := by
  induction place, text using Token.scan_induction with
  | nil place =>
    obtain rfl := mem_singleton.mp inside
    cases word
  | gap gap _ ih =>
    rw [Token.scanAt_of_gap gap] at inside
    exact ih (by rw [rest, drop_drop]) inside
  | @token place text kind n nonempty gap classified _ length ih =>
    rw [Token.scanAt_of_token nonempty gap classified, mem_cons] at inside
    rcases inside with rfl | inside
    · obtain rfl : kind = .word := word
      rw [cut, Nat.add_sub_cancel_left, ← rest]
      rw [← take_append_drop n text] at classified
      exact Token.isIdentifier_of_classify (classified.trans (by rw [length]))
    · exact ih (by rw [rest, drop_drop]) inside

theorem Syntax.CoversWord.isPlainName (covers : CoversWord (Token.scan source) tree) :
    IsPlainName (textBetween source tree.start tree.stop) := by
  obtain ⟨token, inside, word, start, stop⟩ := covers
  have identifier : IsIdentifier (cut source token.start token.stop) := by
    unfold Token.scan at inside
    split at inside
    · exact isIdentifier_of_mem_scanAt 1 _ drop_one.symm inside word
    · exact isIdentifier_of_mem_scanAt 0 _ rfl inside word
  intro mark listed inside
  rw [textBetween, String.toList_ofList, start, stop] at inside
  have part := identifier.isIdentifierPart mark inside
  revert part
  simp only [mem_cons, not_mem_nil, or_false] at listed
  rcases listed with rfl | rfl | rfl <;> decide

/-- The name of a declaration is plain if its token is a word. -/
theorem isPlainName_of_name?
    (words : ∀ part ∈ parts, part.role = some .name → CoversWord (Token.scan source) part)
    (named : name? source (Phrase.ofTrees source parts) = some name) : IsPlainName name := by
  rw [name?, inRole?_ofTrees, Option.map_map, Option.map_eq_some_iff] at named
  obtain ⟨part, found, rfl⟩ := named
  have role : part.role = some .name := by simpa using find?_some found
  rw [Function.comp, text_ofTree]
  exact (words part (mem_of_find?_eq_some found) role).isPlainName

/-- A member is well spelled. -/
theorem WellSpelled.of_isMember (isMember : IsMember (Token.scan source) tree) :
    WellSpelled source tree where
  types package outer decl read := by
    rw [typeDecl?_eq_none isMember.1] at read
    cases read
  member member read := by
    rcases member?_cases source read with rfl | ⟨method, found, rfl | rfl⟩
    · intro name declared
      rw [fieldOf, parts_ofTree, ofTrees_eq_map] at declared
      obtain ⟨part, listed, named⟩ := mem_filterMap.mp declared
      obtain ⟨listed, role⟩ := mem_filter.mp listed
      obtain ⟨part, inside, rfl⟩ := mem_map.mp listed
      rw [parts_ofTree] at named
      exact isPlainName_of_name? ((isMember.2 part inside).2 (by simpa using role)) named
    all_goals
      obtain ⟨name, named, rfl⟩ := Option.map_eq_some_iff.mp found
      rw [parts_ofTree] at named
      exact isPlainName_of_name? (fun part inside => (isMember.2 part inside).1) named

theorem WellSpelled.of_other (noMember : declaresMember tree = false)
    (noType : typeKind? tree.kind = none) :
    WellSpelled source tree where
  member member read := by
    have none := isSome_member? source tree
    rw [noMember, read] at none
    cases none
  types package outer decl read := by
    rw [typeDecl?_eq_none noType] at read
    cases read

/-! ## Types -/

/-- A type is well spelled if its name is a word and its members are well spelled. -/
theorem WellSpelled.of_type {form start stop bodyStart body parts children name}
    (named : Named name parts) (inside : name ∈ Token.scan source) (word : name.kind = .word)
    (members : ∀ tree ∈ form.declarationsIn children, WellSpelled source tree) :
    WellSpelled source (typeTree form start stop parts body bodyStart children) where
  member member read := by
    have none := isSome_member? source (typeTree form start stop parts body bodyStart children)
    rw [read] at none
    cases form <;> cases none
  types package outer decl read := by
    obtain ⟨decl', found, reading⟩ :=
      exists_typeReading source form start stop bodyStart body children named package outer
    obtain rfl := Option.some.inj (found.symm.trans read)
    have plain : IsPlainName decl'.name := by
      rw [reading.name]
      exact @CoversWord.isPlainName source (.node .identifier none name.start name.stop [])
        ⟨name, inside, word, rfl, rfl⟩
    intro type listed
    rw [TypeDecl.withNested_eq, mem_append, TypeDecl.mem_withNestedOfAll, mem_singleton] at listed
    rcases listed with ⟨top, isTop, below⟩ | rfl
    · obtain ⟨_, _, nested⟩ := reading.nested
      rw [nested] at isTop
      obtain ⟨tree, inside, read⟩ := exists_of_mem_typeDecls isTop
      exact (members tree inside).types _ _ top read type below
    · refine ⟨plain, ?_, fun member listed => ?_⟩
      · rw [(nested_of_typeDecl? source package read).2.1]
        cases outer with
        | some outer => exact ⟨some outer, rfl⟩
        | none => exact ⟨package, rfl⟩
      · rw [reading.members, ofTrees_eq_map] at listed
        obtain ⟨_, isPhrase, read⟩ := mem_filterMap.mp listed
        obtain ⟨tree, inside, rfl⟩ := mem_map.mp isPhrase
        exact (members tree inside).member member read

/-- What each of some phrases declares is spelled with plain names. -/
def AllSpelled (source : List Char) (trees : List Tree) : Prop :=
  ∀ tree ∈ trees, WellSpelled source tree

/-- The members of a body are well spelled if its types are. -/
theorem gives_members (kind : BodyKind)
    (types : Gives (Token.scan source) (AllSpelled source) (close grammar depth .typeDeclaration)) :
    Gives (Token.scan source) (AllSpelled source)
      (many (member (close grammar depth) kind <|> badPiece true)) := by
  have other : ∀ {kind : Kind} {p : Phrases}, (∀ start stop children,
      declaresMember (.node kind none start stop children) = false) → typeKind? kind = none →
      Yields (WellSpelled source) (node kind p) :=
    fun noMember noType => .node fun start stop children =>
      .of_other (noMember start stop children) noType
  refine .many (.orElse (.bind .peek fun token _ => ?_)
    (.of_agrees (fun _ => agrees_badPiece) (other (fun _ _ _ => rfl) rfl)))
  split
  · exact .bind (.symbol _) fun _ _ => .pure nofun
  split
  · refine .of_agrees (fun _ => (knows_self depth).block
      (show Level.block.stopsAtBrace = false from rfl)) fun _ _ _ reads tree inside => ?_
    have kind := kind_of_block reads tree inside
    exact .of_other (by rw [declaresMember, kind]) (by rw [kind]; rfl)
  · refine .orElse (.of_agrees (fun _ => .bind .guardThat fun _ =>
      agrees_staticInitializer .block (knows_self depth))
      (Yields.then_ fun _ => other (fun _ _ _ => rfl) rfl)) (.orElse types ?_)
    exact (gives_plainMember kind).mono fun _ fits tree inside => .of_isMember (fits tree inside)

/-- The members of a body declare types and members with plain names. -/
theorem gives_formBody (form : TypeForm)
    (types : ∀ depth' ≤ depth, Gives (Token.scan source) (AllSpelled source)
      (close grammar depth' .typeDeclaration)) :
    Gives (Token.scan source) (fun trees => ∀ tree ∈ trees,
      AllSpelled source (form.declarationsIn tree.children)) (form.body (close grammar depth)) := by
  have bodies : ∀ kind, Gives (Token.scan source)
      (fun trees => ∀ tree ∈ trees, AllSpelled source tree.children)
      (close grammar depth (.body kind)) := by
    intro kind
    cases depth with
    | zero => exact fun _ _ _ _ _ reads => nomatch reads
    | succ depth =>
      exact .node <| .bind (.symbol _) fun _ _ =>
          .bind (gives_members kind (types depth (by omega))) fun _ spelled =>
        .bind (.symbol _) fun _ _ => .pure spelled
  have declared : Gives (Token.scan source) (fun trees => ∀ tree ∈ trees,
      AllSpelled source tree.children)
      (maybe (enumBodyDeclarations (member (close grammar depth) .ofClass))) :=
    .orElse (.node <| .bind (.symbol _) fun _ _ =>
      gives_members .ofClass (types depth (Nat.le_refl _))) (.pure nofun)
  cases form with
  | ofEnum =>
    refine @Gives.node _ (fun children => AllSpelled source
      (TypeForm.ofEnum.declarationsIn children)) _ _ <|
      .bind (.symbol _) fun _ _ =>
        .bind (.of_agrees (fun _ => agrees_enumConstants (knows_self depth)) kind_of_constants)
      fun constants kinds => .bind (.trySymbol _) fun _ _ =>
        .bind declared fun declarations spelled =>
      .bind (.symbol _) fun _ _ => .pure fun tree inside => ?_
    cases found : Tree.ofKind? .enumBodyDeclarations (constants ++ declarations) with
    | none => simp [TypeForm.declarationsIn, found] at inside
    | some part =>
      have kind : part.kind = .enumBodyDeclarations := by simpa using find?_some found
      rcases mem_append.mp (mem_of_find?_eq_some found) with constant | declaration
      · cases (kinds part constant).symm.trans kind
      · exact spelled part declaration tree (by simpa [TypeForm.declarationsIn, found] using inside)
  | ofClass | ofInterface | ofRecord | ofAnnotationType => exact bodies _

theorem exists_of_body {depth : Nat} {cursor cursor' : Cursor} {trees : List Tree} {form : TypeForm}
    (reads : form.body (close grammar depth) cursor = some (trees, cursor')) :
    ∃ kind start children, trees = [.node kind none start cursor'.last children] := by
  have bodies : ∀ {kind p}, node kind p cursor = some (trees, cursor') →
      ∃ kind start children, trees = [.node kind none start cursor'.last children] := by
    intro kind p reads
    obtain ⟨_, _, children, -, -, rfl⟩ := node_eq_some.mp reads
    exact ⟨kind, _, children, rfl⟩
  cases form with
  | ofEnum => exact bodies reads
  | ofClass | ofInterface | ofRecord | ofAnnotationType =>
    cases depth with
    | zero => cases reads
    | succ depth => exact bodies reads

/-- Type declarations are well spelled, however deep they nest. -/
theorem gives_typeDeclaration (depth : Nat) :
    Gives (Token.scan source) (AllSpelled source) (close grammar depth .typeDeclaration) := by
  induction depth using Nat.strongRecOn with
  | ind depth ih =>
  intro tokens last trees cursor left reads
  refine ⟨?_, ((knows_self depth).typeDeclaration mem_cons_self).left left reads⟩
  cases depth with
  | zero => cases reads
  | succ depth =>
    obtain ⟨form, reads⟩ := exists_form reads
    obtain ⟨start, _, placed, further⟩ := bind_eq_some.mp reads
    obtain ⟨rfl, -⟩ := place_eq_some.mp placed
    obtain ⟨parts, ⟨tokens', last'⟩, front, further⟩ := bind_eq_some.mp further
    obtain ⟨body, final, inBody, further⟩ := bind_eq_some.mp further
    obtain ⟨tree, stamped, rfl⟩ := bind_pure_eq_some.mp further
    obtain ⟨rfl, rfl⟩ := nodeFrom_eq_some.mp stamped
    obtain ⟨bodies, bodyRead, rfl⟩ := inRole_eq_some.mp inBody
    obtain ⟨before, name, after, rfl, isName, named⟩ :=
      exists_name (knows_self depth) left.finish front
    have spelled := (gives_formBody form (fun depth' le => ih depth' (by omega))
      ((agrees_front form (knows_self depth)).left left front) bodyRead).1
    obtain ⟨kind, start, children, rfl⟩ := exists_of_body bodyRead
    exact forall_mem_singleton.mpr (.of_type named (left.subset (by simp)) (kind_of_isName isName)
      (forall_mem_singleton.mp spelled))

/-! ## Files -/

/-- All types of a file are well spelled. -/
theorem gives_program (depth : Nat) :
    Gives (Token.scan source)
      (fun trees => ∀ tree ∈ trees, IsTypeKind tree.kind → WellSpelled source tree)
      (program (close grammar depth)) := by
  have other : ∀ {kind : Kind} {p : Phrases}, ¬IsTypeKind kind →
      Yields (fun tree => IsTypeKind tree.kind → WellSpelled source tree) (node kind p) :=
    fun other => .node fun _ _ _ type => (other type).elim
  have types : ∀ depth, Gives (Token.scan source)
      (fun trees => ∀ tree ∈ trees, IsTypeKind tree.kind → WellSpelled source tree)
      (close grammar depth .typeDeclaration) :=
    fun depth => (gives_typeDeclaration depth).mono fun _ spelled tree inside _ =>
      spelled tree inside
  refine .many
    (.orElse (.orElse (.of_agrees (fun _ => agrees_packageDeclaration (knows_self depth))
      (other (by decide))) <|
    .orElse (.of_agrees (fun _ => agrees_importDeclaration) (other (by decide))) <|
      .orElse (types depth) <|
    .orElse (.of_agrees (fun _ => agrees_moduleDeclaration (knows_self depth)) (other (by decide)))
      <|
    .orElse (.of_agrees (fun _ => agrees_looseMethod (knows_self depth))
        fun _ _ _ reads tree inside type =>
      (yields_looseMethod _ _ _ reads tree inside (.inl type)).elim) ?_) <|
    .orElse (.of_agrees (fun _ => agrees_badPiece) (other (by decide))) <|
        .bind (.satisfy _) fun _ _ =>
      .pure (forall_mem_singleton.mpr fun type => absurd type (show ¬IsTypeKind .error by decide)))
  intro tokens last trees cursor left reads
  refine ⟨?_, (knows_self depth).statement.left left reads⟩
  cases depth with
  | zero => cases reads
  | succ depth =>
    rcases statement_cases (fun _ _ _ => kind_of_block) reads with typed | others
    · exact (types depth left typed).1
    · exact fun tree inside type => (others tree inside (.inl type)).elim

/-- The types of a file are spelled with plain names. -/
theorem isSpelled_of_mem_declaredTypes
    (declared : type ∈ (CompilationUnit.ofSource path text).declaredTypes) : type.IsSpelled := by
  obtain ⟨top, isTop, below⟩ := TypeDecl.mem_withNestedOfAll.mp declared
  rw [CompilationUnit.ofSource, CompilationUnit.ofTree, parts_ofTree] at isTop
  obtain ⟨tree, inside, package, read⟩ := exists_of_mem_typesOfFile isTop
  rw [Tree.ofSource, Tree.children] at inside
  cases phrases : program (close grammar (nesting (Token.scan text.toList)))
    ⟨Token.scan text.toList, 0⟩ with
  | none => simp [phrases] at inside
  | some result =>
    rw [phrases] at inside
    have left : Left (Token.scan text.toList) (Token.scan text.toList) := by
      refine ⟨fun _ => id, ?_⟩
      unfold Token.scan
      split <;> exact Token.exists_finish_scanAt _ _
    exact ((gives_program _ left phrases).1 tree inside (isTypeKind_of_typeDecl? read)).types _ _
      top read type below

end Spelling

/-- A file with a tree in which all names that are declared are plain. -/
structure ParsedFile where
  path : String
  source : List Char
  tree : Tree
  spelled : ∀ type ∈ (CompilationUnit.ofTree path source tree).declaredTypes, type.IsSpelled

namespace ParsedFile

/-- A file with the tree that its text has. -/
def ofSource (file : String × String) : ParsedFile :=
  ⟨file.1, file.2.toList, .ofSource file.2.toList, fun _ => isSpelled_of_mem_declaredTypes⟩

/-- What is read off the tree. -/
def unit (file : ParsedFile) : CompilationUnit :=
  .ofTree file.path file.source file.tree

/-- The index of some files. -/
def index (files : List ParsedFile) : Index :=
  .ofUnits (files.map unit)

/-- Texts are indexed by way of their trees. -/
theorem index_ofSources (files : List (String × String)) :
    index (files.map ofSource) = .ofSources files := by
  rw [index, map_map]
  rfl

variable {files : List ParsedFile} {type : IndexedType}

/-- The types of the index are nested as source files nest types, and spelled with plain names. -/
theorem of_mem_declarations (declared : type ∈ Index.declarations (index files).units) :
    type.unit.isNested ∧ ∀ other ∈ type.unit.declaredTypes, other.IsSpelled := by
  obtain ⟨listed, -⟩ := Index.mem_declarations_iff.mp declared
  obtain ⟨file, -, isUnit⟩ := mem_map.mp listed
  rw [← isUnit]
  exact ⟨CompilationUnit.isNested_ofTree .., file.spelled⟩

end ParsedFile

end JavaSlice
