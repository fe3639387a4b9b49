import Mathlib.Data.List.Forall2
import JavaSlice.Proofs.Writing.HeaderTexts

/-!
# Types as they are written

A type is written as its header, a brace, its constants and members one after the other, and a
brace. If header, constants and members are excerpts of a source, the text is read as a declaration
of the same form, and each of its parts covers the text that was written for it.
-/

namespace JavaSlice.Syntax

open List Syntax.Parser Grammar Token

/-! ## Where phrases stop -/

/-- Nothing is read at a token at which every phrase of a level stops. -/
theorem Agrees.fails_at_stop {α : Type} [Movable α] {level : Level} {next : Depth} {p : Parser α}
    (agrees : Agrees level 0 1 .fresh ⟨true, .within next⟩ p p) {token : Token}
    (stops : level.step .zero token.mark = none) (after : List Token) (last : Nat) :
    p ⟨token :: after, last⟩ = none := by
  have run : level.run .zero [token] = none := by rw [Level.run_cons, stops, Option.bind_none]
  have outcome := @agrees [token] after after last last Iff.rfl
    ⟨Nat.le_refl _, nofun, fun depth same => .inl (Zone.within.inj same ▸ run)⟩ nofun
  rw [singleton_append] at outcome
  generalize p ⟨token :: after, last⟩ = result,
    p ⟨move 0 [token] ++ after, last⟩ = result' at outcome
  cases outcome with
  | fails => rfl
  | reads value taken rest split leads takes proper =>
    obtain ⟨first, taken, rfl⟩ := exists_cons_of_ne_nil ((takes rfl).resolve_left nofun)
    obtain ⟨rfl, none⟩ := cons.inj split
    obtain ⟨rfl, rfl⟩ := append_eq_nil_iff.mp none.symm
    rcases leads with path | ⟨_, _, finish, -⟩
    · rw [run] at path
      cases path
    · cases finish

namespace Grammar

section Texts

variable {depth last indent : Nat} {kind : BodyKind} {front back whole : List Char}
  {texts constants : List (List Char)}
variable {token : Token} {x : List Char} {tree : Tree} {good : Tree → Prop} {α : Type}
variable {trees : List Tree}

/-- A text is ahead in a file, and there is room for the nesting of its phrases. -/
structure Ahead (whole : List Char) (depth : Nat) (front text : List Char) : Prop where
  split : whole = front ++ text
  deep : 16 * (scanAt front.length text).length + 3 ≤ depth

/-- What is ahead after some tokens. -/
theorem Ahead.drop {text front' rest taken} (ahead : Ahead whole depth front text)
    (same : front ++ text = front' ++ rest)
    (scanned : scanAt front.length text = taken ++ scanAt front'.length rest) :
    Ahead whole depth front' rest where
  split := ahead.split.trans same
  deep := by
    have deep := ahead.deep
    rw [scanned, length_append] at deep
    omega

theorem member_closeBrace (brace : token.isSymbol "\x7d") (after : List Token) :
    (member (close grammar depth) kind <|> badPiece true) ⟨token :: after, last⟩ = none := by
  have known := @knows_self 0 1 depth
  refine Agrees.fails_at_stop (.orElse (agrees_memberInBlock known) agrees_badPiece) ?_ after last
  rw [mark_of_isSymbol brace]
  rfl

/-! ## Members -/

/-- Whether a phrase in a body declares a field, a method or a constructor. -/
def declaresMember (tree : Tree) : Bool :=
  match tree.kind with
  | .fieldDeclaration | .constantDeclaration => true
  | .methodDeclaration | .annotationTypeElement | .constructorDeclaration =>
    (Tree.inRole? .name tree.children).isSome
  | _ => false

theorem isSome_inRole?_move (role : Role) (shift : Nat) (trees : List Tree) :
    (Tree.inRole? role (move shift trees)).isSome = (Tree.inRole? role trees).isSome := by
  induction trees with
  | nil => rfl
  | cons tree trees ih =>
    simp only [Tree.inRole?, move_cons, find?_cons, Tree.role_move] at ih ⊢
    split
    · rfl
    · exact ih

theorem declaresMember_move (shift : Nat) (tree : Tree) :
    declaresMember (move shift tree) = declaresMember tree := by
  simp only [declaresMember, Tree.kind_move, Tree.children_move, isSome_inRole?_move]

/-- A text can be written as a member. -/
def IsMemberText (kind : BodyKind) (x : List Char) : Prop :=
  ∃ tokens tree, Excerpt (member · kind) (· ≠ []) x tokens tree ∧ declaresMember tree = true

/-- A text can be written as a constant of an enumeration. -/
def IsConstantText (x : List Char) : Prop :=
  ∃ tokens tree, Excerpt enumConstant Level.constant.Stops x tokens tree ∧ tree.kind = .enumConstant

/-- A phrase covers a text that was written. -/
structure Copied (whole : List Char) (good : Tree → Prop) (x : List Char) (tree : Tree) : Prop where
  text : Reading.cut whole tree.start tree.stop = x
  sound : tree.hasError = false
  good : good tree

theorem Excerpt.copied (excerpt : Excerpt parser before x tokens tree)
    (split : whole = front ++ (x ++ back)) (passes : good (move front.length tree)) :
    Copied whole good x (move front.length tree) where
  text := by
    have found : whole.drop front.length = x ++ back := by rw [split, drop_left]
    refine cut_of_drop found ?_ ?_
    · rw [Tree.start_move, excerpt.start, Nat.zero_add]
    · rw [Tree.stop_move, excerpt.stop, Nat.add_comm]
  sound := by rw [Tree.hasError_move, excerpt.sound]
  good := passes

/-- The line of a member: four blanks, its text and a line break. -/
def blockText (x : List Char) : List Char :=
  List.replicate 4 ' ' ++ (x ++ ['\n'])

/-- The empty line before some items, if there are any. -/
def blockGap {α : Type} (items : List α) : List Char :=
  if items.isEmpty then [] else ['\n']

/-- The lines of the members of a body, with an empty line between them. -/
def blocksText : List (List Char) → List Char
  | [] => []
  | x :: texts => blockText x ++ (blockGap texts ++ blocksText texts)

theorem scanAt_blockGap (items : List α) (place : Nat) (rest : List Char) :
    scanAt place (blockGap items ++ rest) = scanAt (place + (blockGap items).length) rest := by
  rw [blockGap]
  split
  · rfl
  · exact scanAt_blank rfl _ _

/-- Members that are written one after the other are read one after the other. -/
theorem exists_memberSteps (ahead : Ahead whole depth front (blocksText texts ++ '\x7d' :: back))
    (members : ∀ x ∈ texts, IsMemberText kind x) :
    ∃ trees last', Steps (member (close grammar depth) kind <|> badPiece true)
        ⟨scanAt front.length (blocksText texts ++ '\x7d' :: back), last⟩ trees
        ⟨scanAt (front ++ blocksText texts).length ('\x7d' :: back), last'⟩ ∧
      Forall₂ (Copied whole (declaresMember ·)) texts trees := by
  induction texts generalizing front last with
  | nil =>
    refine ⟨[], last, ?_, .nil⟩
    rw [blocksText, append_nil, nil_append]
    refine .stop ?_
    rw [scanAt_mark (by decide)]
    exact member_closeBrace rfl _
  | cons x texts ih =>
    obtain ⟨tokens, tree, excerpt, declares⟩ := members x mem_cons_self
    let front' := front ++ (blockText x ++ blockGap texts)
    let rest := blocksText texts ++ '\x7d' :: back
    have text : blocksText (x :: texts) ++ '\x7d' :: back =
        List.replicate 4 ' ' ++ (x ++ '\n' :: (blockGap texts ++ rest)) := by
      simp [blocksText, blockText, rest]
    have indented : (front ++ List.replicate 4 ' ').length = front.length + 4 := by simp
    have spans := excerpt.spans ('\n' :: (blockGap texts ++ rest)) ⟨'\n', _, rfl, rfl, nofun⟩
    have scanned : scanAt front.length (blocksText (x :: texts) ++ '\x7d' :: back) =
        move (front ++ List.replicate 4 ' ').length tokens ++ scanAt front'.length rest := by
      rw [text, scanAt_spaces, spans.scanAt_eq, scanAt_blank rfl, scanAt_blockGap, indented]
      congr 2
      simp [front', blockText]
      omega
    have more := length_pos_iff.mpr spans.tokens_ne_nil
    obtain ⟨trees, last', steps, copies⟩ := @ih (lastStop last (move _ tokens)) front'
      (ahead.drop (by rw [text]; simp [front', blockText, rest]) scanned)
      fun x listed => members x (mem_cons_of_mem _ listed)
    have deep := ahead.deep
    rw [scanned, length_append, length_move] at deep
    refine ⟨[move (front ++ List.replicate 4 ' ').length tree] ++ trees, last', ?_, .cons ?_ copies⟩
    · rw [scanned]
      have reads := excerpt.reads (front ++ List.replicate 4 ' ').length depth
        (scanAt front'.length rest) last (by omega) (scanAt_ne_nil _ _)
      have place : (front ++ blocksText (x :: texts)).length =
          (front' ++ blocksText texts).length := by
        simp [front', blocksText]
      rw [place]
      refine .step (orElse_of_some reads) ?_ steps
      simp only [length_append, length_move]
      omega
    · have split : whole = (front ++ List.replicate 4 ' ') ++
          (x ++ '\n' :: (blockGap texts ++ rest)) := by
        rw [ahead.split, text, append_assoc]
      exact excerpt.copied split (by rw [declaresMember_move, declares])

/-- The text of a body from its opening brace on. -/
def bodyText (blocks : List (List Char)) (back : List Char) : List Char :=
  '\x7b' :: '\n' :: (blocksText blocks ++ '\x7d' :: back)

theorem scanAt_bodyText (front : List Char) (blocks : List (List Char)) (back : List Char) :
    scanAt front.length (bodyText blocks back) =
      [⟨.symbol, "\x7b", front.length, front.length + 1⟩] ++
      scanAt (front ++ ['\x7b', '\n']).length (blocksText blocks ++ '\x7d' :: back) := by
  rw [bodyText, scanAt_mark (by decide), scanAt_blank rfl]
  simp

/-- The body of a class, an interface, a record or a type of annotation as it is written. -/
theorem exists_body_written (ahead : Ahead whole depth front (bodyText texts back))
    (members : ∀ x ∈ texts, IsMemberText kind x) :
    ∃ stop children, body (close grammar depth) kind
      ⟨scanAt front.length (bodyText texts back), last⟩ =
        some ([.node (BodyKind.node kind) none front.length stop children],
          ⟨scanAt stop back, stop⟩) ∧
      Forall₂ (Copied whole (declaresMember ·)) texts children := by
  have scanned := scanAt_bodyText front texts back
  obtain ⟨trees, last', steps, copies⟩ :=
    exists_memberSteps (ahead.drop (by simp [bodyText]) scanned) members
  rw [scanAt_mark (by decide)] at steps
  refine ⟨(front ++ ['\x7b', '\n'] ++ blocksText texts).length + 1, trees, ?_, copies⟩
  rw [scanned]
  refine node_eq_some.mpr ⟨_, _, trees, rfl, ?_, rfl⟩
  rw [singleton_append, bind_of_some (symbol_of_said rfl), bind_of_some steps.many,
    bind_of_some (symbol_of_said rfl)]
  rfl

/-! ## Enumerations -/

/-- The constants of an enumeration after the first one. -/
def laterConstants (indent : Nat) (constants : List (List Char)) : List Char :=
  constants.flatMap fun x => ',' :: '\n' :: (List.replicate indent ' ' ++ x)

/-- What stands after a constant of an enumeration that is written. -/
theorem afterConstant_laterConstants (indent : Nat) (constants : List (List Char))
    (back : List Char) :
    Shape.Separates [] (laterConstants indent constants ++ ';' :: back) ∧
      ∀ place, AfterConstant (scanAt place (laterConstants indent constants ++ ';' :: back)) := by
  have mark : ∀ {c : Char} {text : String} (_ : c ∈ [';', ',', '\x7b', '\x7d'])
      (_ : text = String.ofList [c])
      (_ : text ∈ [",", ";", "\x7d"]) (place : Nat) (rest : List Char),
        AfterConstant (scanAt place (c :: rest)) := by
    intro c text listed same among place rest
    rw [scanAt_mark listed]
    exact ⟨_, _, text, rfl, by simp [isSymbol, same], among⟩
  cases constants with
  | nil =>
    exact ⟨⟨';', back, rfl, rfl, by decide⟩, fun place => mark (by decide) rfl (by decide) place _⟩
  | cons x constants =>
    exact ⟨⟨',', _, rfl, rfl, by decide⟩, fun place => mark (by decide) rfl (by decide) place _⟩

/-- A constant that is written is read. -/
theorem exists_constant (constant : IsConstantText x) (ahead : Ahead whole depth front (x ++ back))
    (separates : Shape.Separates [] back) (after : ∀ place, AfterConstant (scanAt place back)) :
    ∃ tree tokens, enumConstant (close grammar depth) ⟨scanAt front.length (x ++ back), last⟩ =
        some ([tree], ⟨scanAt (front ++ x).length back, (front ++ x).length⟩) ∧
      Copied whole (·.kind = .enumConstant) x tree ∧
      scanAt front.length (x ++ back) = tokens ++ scanAt (front ++ x).length back := by
  obtain ⟨tokens, tree, excerpt, kind⟩ := constant
  have spans := excerpt.spans back separates
  have scanned := spans.scanAt_eq front.length
  have deep := ahead.deep
  rw [scanned, length_append, length_move] at deep
  refine ⟨move front.length tree, move front.length tokens, ?_,
    excerpt.copied ahead.split (by rw [Tree.kind_move, kind]), by rw [scanned, length_append]⟩
  have reads := excerpt.reads front.length depth (scanAt (front ++ x).length back) last (by omega)
    (after _).stops
  rw [scanned, ← length_append]
  rw [lastStop_of_spans spans, ← length_append] at reads
  exact reads

/-- Constants that are written one after the other are read one after the other. -/
theorem exists_constantSteps
    (ahead : Ahead whole depth front (laterConstants indent constants ++ ';' :: back))
    (all : ∀ x ∈ constants, IsConstantText x) :
    ∃ trees last', Steps (do symbol ","; enumConstant (close grammar depth))
        ⟨scanAt front.length (laterConstants indent constants ++ ';' :: back), last⟩ trees
        ⟨scanAt (front ++ laterConstants indent constants).length (';' :: back), last'⟩ ∧
      Forall₂ (Copied whole (·.kind = .enumConstant)) constants trees := by
  induction constants generalizing front last with
  | nil =>
    refine ⟨[], last, ?_, .nil⟩
    rw [laterConstants, flatMap_nil, nil_append, append_nil]
    refine .stop ?_
    rw [scanAt_mark (by decide)]
    exact bind_of_none (symbol_of_ne (by simp [said]))
  | cons x constants ih =>
    let rest := laterConstants indent constants ++ ';' :: back
    let front' := front ++ ',' :: '\n' :: List.replicate indent ' '
    have text : laterConstants indent (x :: constants) ++ ';' :: back =
        ',' :: '\n' :: (List.replicate indent ' ' ++ (x ++ rest)) := by
      simp [laterConstants, rest]
    have scanned : scanAt front.length (laterConstants indent (x :: constants) ++ ';' :: back) =
        [⟨.symbol, ",", front.length, front.length + 1⟩] ++ scanAt front'.length (x ++ rest) := by
      rw [text, scanAt_mark (by decide), scanAt_blank rfl, scanAt_spaces, singleton_append]
      congr 2
      simp [front']
      omega
    have ahead' : Ahead whole depth front' (x ++ rest) :=
      ahead.drop (by rw [text]; simp [front']) scanned
    obtain ⟨separates, after⟩ := afterConstant_laterConstants indent constants back
    obtain ⟨tree, tokens, reads, copied, further⟩ :=
      exists_constant (all x mem_cons_self) ahead' separates after
    obtain ⟨trees, last', steps, copies⟩ := @ih (front' ++ x).length (front' ++ x)
      (ahead'.drop (append_assoc ..).symm further) fun x listed => all x (mem_cons_of_mem _ listed)
    refine ⟨[tree] ++ trees, last', ?_, .cons copied copies⟩
    have place : (front ++ laterConstants indent (x :: constants)).length =
        (front' ++ x ++ laterConstants indent constants).length := by
      simp [front', laterConstants]
    rw [scanned, place, singleton_append]
    refine .step ?_ ?_ steps
    · rw [bind_of_some (symbol_of_said rfl), reads]
    · rw [length_cons, further]
      exact Nat.lt_succ_of_le (suffix_append tokens _).length_le

/-- The text of the members of an enumeration from the semicolon before them on. -/
def declarationsText (texts : List (List Char)) (back : List Char) : List Char :=
  ';' :: '\n' :: (blockGap texts ++ (blocksText texts ++ '\x7d' :: back))

/-- The members of an enumeration as they are written after its constants. -/
theorem exists_declarations (ahead : Ahead whole depth front (declarationsText texts back))
    (members : ∀ x ∈ texts, IsMemberText .ofClass x) :
    ∃ stop place last' children, enumBodyDeclarations (member (close grammar depth) .ofClass)
        ⟨scanAt front.length (declarationsText texts back), last⟩ =
        some ([.node .enumBodyDeclarations none front.length stop children],
          ⟨scanAt place ('\x7d' :: back), last'⟩) ∧
      Forall₂ (Copied whole (declaresMember ·)) texts children := by
  let front' := front ++ ';' :: '\n' :: blockGap texts
  have scanned : scanAt front.length (declarationsText texts back) =
      [⟨.symbol, ";", front.length, front.length + 1⟩] ++
        scanAt front'.length (blocksText texts ++ '\x7d' :: back) := by
    rw [declarationsText, scanAt_mark (by decide), scanAt_blank rfl, scanAt_blockGap,
      singleton_append]
    congr 2
    simp [front']
    omega
  obtain ⟨trees, last', steps, copies⟩ :=
    exists_memberSteps (ahead.drop (by simp [front', declarationsText]) scanned) members
  refine ⟨last', (front' ++ blocksText texts).length, last', trees, ?_, copies⟩
  rw [scanned]
  refine node_eq_some.mpr ⟨_, _, trees, rfl, ?_, rfl⟩
  rw [singleton_append, bind_of_some (symbol_of_said rfl), steps.many]

/-- The constants of an enumeration as they are written. -/
def constantsText (indent : Nat) : List (List Char) → List Char
  | [] => []
  | x :: constants => x ++ laterConstants indent constants

/-- No constant starts with a semicolon or a closing brace. -/
theorem commas_stop (text : String) (symbol : token.isSymbol text)
    (listed : text ∈ [";", "\x7d"]) (after : List Token) :
    commas (enumConstant (close grammar depth)) ⟨token :: after, last⟩ =
      some ([], ⟨token :: after, last⟩) := by
  have known := @knows_self 0 1 depth
  have none : enumConstant (close grammar depth) ⟨token :: after, last⟩ = none := by
    refine (agrees_enumConstant known).fails_at_stop ?_ after last
    rw [mark_of_isSymbol symbol]
    simp only [mem_cons, not_mem_nil, or_false] at listed
    rcases listed with rfl | rfl <;> rfl
  exact maybe_of_none (bind_of_none none)

/-- The constants of an enumeration that are written are read. -/
theorem exists_commas
    (ahead : Ahead whole depth front (constantsText indent constants ++ ';' :: back))
    (all : ∀ x ∈ constants, IsConstantText x) :
    ∃ trees last', commas (enumConstant (close grammar depth))
        ⟨scanAt front.length (constantsText indent constants ++ ';' :: back), last⟩ =
        some (trees, ⟨scanAt (front ++ constantsText indent constants).length (';' :: back), last'⟩)
          ∧
      Forall₂ (Copied whole (·.kind = .enumConstant)) constants trees ∧
      Ahead whole depth (front ++ constantsText indent constants) (';' :: back) := by
  cases constants with
  | nil =>
    rw [constantsText, nil_append, append_nil] at *
    refine ⟨[], last, ?_, .nil, ahead⟩
    rw [scanAt_mark (by decide)]
    exact commas_stop ";" rfl (by decide) _
  | cons x constants =>
    rw [constantsText, append_assoc] at ahead ⊢
    obtain ⟨separates, after⟩ := afterConstant_laterConstants indent constants back
    rw [forall_mem_cons] at all
    obtain ⟨tree, tokens, reads, copied, scanned⟩ := exists_constant all.1 ahead separates after
    have ahead' := ahead.drop (append_assoc ..).symm scanned
    obtain ⟨trees, last', steps, copies⟩ := exists_constantSteps ahead' all.2
    have rest := steps.length_le
    rw [append_assoc] at rest steps
    refine ⟨[tree] ++ trees, last', maybe_of_some ?_, .cons copied copies, ?_, ?_⟩
    · rw [sepBy1, bind_of_some reads, bind_of_some steps.many]
      rfl
    · rw [ahead.split]
      simp
    · have deep := ahead'.deep
      dsimp only at rest
      omega

/-- The blocks in the body of an enumeration. Where there are members but no constants, a semicolon
stands before the members. -/
def enumBlocks (indent : Nat) (constants texts : List (List Char)) : List (List Char) :=
  if constants.isEmpty && texts.isEmpty then []
    else (constantsText indent constants ++ [';']) :: texts

/-- What the parts of a body are, where constants and members of a form were written. -/
structure BodyParts (whole : List Char) (form : TypeForm) (constants texts : List (List Char))
    (children : List Tree) : Prop where
  constants : Forall₂ (Copied whole (·.kind = .enumConstant)) constants
    (form.constantsIn children)
  members : Forall₂ (Copied whole (declaresMember · = true)) texts
    (form.declarationsIn children)
  sound : ∀ tree ∈ children, tree.hasError = false

theorem exists_related {β : Type} {related : α → β → Prop} {items : List α} {others : List β}
    (pairs : Forall₂ related items others) {other : β} (inside : other ∈ others) :
    ∃ item ∈ items, related item other := by
  induction pairs with
  | nil => cases inside
  | @cons item first items others pair pairs ih =>
    rcases mem_cons.mp inside with rfl | inside
    · exact ⟨item, mem_cons_self, pair⟩
    · obtain ⟨item, listed, pair⟩ := ih inside
      exact ⟨item, mem_cons_of_mem _ listed, pair⟩

theorem Copied.sound_of_mem (copies : Forall₂ (Copied whole good) texts trees)
    (inside : tree ∈ trees) : tree.hasError = false ∧ good tree := by
  obtain ⟨x, -, copied⟩ := exists_related copies inside
  exact ⟨copied.sound, copied.good⟩

/-- The parts of the body of an enumeration. -/
theorem BodyParts.ofEnum {whole constants texts members}
    (first : Forall₂ (Copied whole (·.kind = .enumConstant)) constants trees)
    (second : Forall₂ (Copied whole (declaresMember ·)) texts members) (start stop : Nat) :
    BodyParts whole .ofEnum constants texts
      (trees ++ [.node .enumBodyDeclarations none start stop members]) where
  constants := by
    have all : trees.filter (·.kind == .enumConstant) = trees := by
      refine filter_eq_self.mpr fun tree inside => ?_
      rw [(Copied.sound_of_mem first inside).2]
      rfl
    rw [TypeForm.constantsIn, if_pos rfl, filter_append, all]
    simpa [Tree.kind] using first
  members := by
    have found : Tree.ofKind? .enumBodyDeclarations
        (trees ++ [.node .enumBodyDeclarations none start stop members]) =
        some (.node .enumBodyDeclarations none start stop members) := by
      refine find?_append.trans ?_
      rw [find?_eq_none.mpr fun tree inside => by simp [(Copied.sound_of_mem first inside).2],
        Option.none_or]
      rfl
    rw [TypeForm.declarationsIn, if_pos rfl, found]
    exact second
  sound := by
    intro tree inside
    rcases mem_append.mp inside with inside | inside
    · exact (Copied.sound_of_mem first inside).1
    · obtain rfl := mem_singleton.mp inside
      exact Tree.hasError_node_iff.mpr ⟨by decide,
        fun tree inside => (Copied.sound_of_mem second inside).1⟩

/-- The body of an enumeration as it is written. -/
theorem exists_enumBody_written
    (ahead : Ahead whole depth front (bodyText (enumBlocks indent constants texts) back))
    (all : ∀ x ∈ constants, IsConstantText x) (members : ∀ x ∈ texts, IsMemberText .ofClass x) :
    ∃ stop children, enumBody (close grammar depth) (member (close grammar depth) .ofClass)
          ⟨scanAt front.length (bodyText (enumBlocks indent constants texts) back), last⟩ =
        some ([.node .enumBody none front.length stop children], ⟨scanAt stop back, stop⟩) ∧
      BodyParts whole .ofEnum constants texts children := by
  by_cases empty : (constants.isEmpty && texts.isEmpty) = true
  · rw [bodyText, enumBlocks, if_pos empty, blocksText, nil_append, scanAt_mark (by decide),
      scanAt_blank rfl, scanAt_mark (by decide)]
    rw [Bool.and_eq_true, List.isEmpty_iff, List.isEmpty_iff] at empty
    obtain ⟨rfl, rfl⟩ := empty
    refine ⟨front.length + 1 + 1 + 1, [], ?_, .nil, .nil, nofun⟩
    refine node_eq_some.mpr ⟨_, _, [], rfl, ?_, rfl⟩
    rw [bind_of_some (symbol_of_said rfl), bind_of_some (commas_stop "\x7d" rfl (by decide) _),
      bind_of_some (trySymbol_of_ne (by simp [said]))]
    have none : enumBodyDeclarations (member (close grammar depth) .ofClass)
        ⟨⟨.symbol, String.ofList ['\x7d'], front.length + 1 + 1, front.length + 1 + 1 + 1⟩ ::
          scanAt (front.length + 1 + 1 + 1) back, front.length + 1⟩ = none := by
      cases read : enumBodyDeclarations (member (close grammar depth) .ofClass) _ with
      | none => rfl
      | some result =>
        obtain ⟨_, _, _, -, parts, -⟩ := node_eq_some.mp read
        rw [bind_of_none (symbol_of_ne (by simp [said]))] at parts
        cases parts
    rw [bind_of_some (maybe_of_none none), bind_of_some (symbol_of_said rfl)]
    rfl
  · let front' := front ++ '\x7b' :: '\n' :: List.replicate 4 ' '
    let rest := '\n' :: (blockGap texts ++ (blocksText texts ++ '\x7d' :: back))
    have text : bodyText (enumBlocks indent constants texts) back =
        '\x7b' :: '\n' :: (List.replicate 4 ' ' ++
          (constantsText indent constants ++ ';' :: rest)) := by
      rw [bodyText, enumBlocks, if_neg empty]
      simp [blocksText, blockText, rest]
    have scanned : scanAt front.length (bodyText (enumBlocks indent constants texts) back) =
        [⟨.symbol, "\x7b", front.length, front.length + 1⟩] ++
          scanAt front'.length (constantsText indent constants ++ ';' :: rest) := by
      rw [text, scanAt_mark (by decide), scanAt_blank rfl, scanAt_spaces, singleton_append]
      congr 2
      simp [front']
    obtain ⟨trees, last', listed, copies, ahead'⟩ :=
      exists_commas (ahead.drop (by rw [text]; simp [front']) scanned) all
    obtain ⟨stop, place, last'', children, declared, members⟩ := exists_declarations ahead' members
    change enumBodyDeclarations _ ⟨scanAt _ (';' :: rest), _⟩ = _ at declared
    have noComma : trySymbol ","
        ⟨scanAt (front' ++ constantsText indent constants).length (';' :: rest), last'⟩ =
        some (false, ⟨scanAt (front' ++ constantsText indent constants).length (';' :: rest),
          last'⟩) := by
      rw [scanAt_mark (by decide)]
      exact trySymbol_of_ne (by simp [said])
    refine ⟨place + 1, _, ?_, .ofEnum copies members
      (front' ++ constantsText indent constants).length stop⟩
    rw [scanned]
    refine node_eq_some.mpr ⟨_, _, _, rfl, ?_, rfl⟩
    rw [singleton_append, bind_of_some (symbol_of_said rfl), bind_of_some listed,
      bind_of_some noComma,
      bind_of_some (maybe_of_some declared), scanAt_mark (by decide),
        bind_of_some (symbol_of_said rfl)]
    rfl

/-! ## Bodies of all forms -/

/-- The blocks in the body of a type. -/
def TypeForm.blocks (form : TypeForm) (indent : Nat) (constants texts : List (List Char)) :
    List (List Char) :=
  if form = .ofEnum then enumBlocks indent constants texts else texts

/-- The texts from which the body of a type of a form can be written. -/
structure IsBodyText (form : TypeForm) (constants texts : List (List Char)) : Prop where
  plain : form ≠ .ofEnum → constants = []
  constants : ∀ x ∈ constants, IsConstantText x
  members : ∀ x ∈ texts, IsMemberText form.bodyKind x

/-- The body of a type as it is written. -/
theorem exists_formBody
    (ahead : Ahead whole depth front (bodyText (form.blocks indent constants texts) back))
    (good : IsBodyText form constants texts) :
    ∃ kind stop children, form.body (close grammar (depth + 1))
          ⟨scanAt front.length (bodyText (form.blocks indent constants texts) back), last⟩ =
        some ([.node kind none front.length stop children], ⟨scanAt stop back, stop⟩) ∧
      kind ≠ .error ∧ BodyParts whole form constants texts children := by
  by_cases isEnum : form = .ofEnum
  · subst isEnum
    obtain ⟨stop, children, reads, parts⟩ := exists_enumBody_written
      ⟨ahead.split, Nat.le_succ_of_le ahead.deep⟩ good.constants good.members
    exact ⟨.enumBody, stop, children, reads, nofun, parts⟩
  · rw [TypeForm.blocks, if_neg isEnum] at ahead ⊢
    obtain ⟨stop, children, reads, copies⟩ := exists_body_written ahead good.members
    refine ⟨BodyKind.node form.bodyKind, stop, children, ?_, ?_, ?_, ?_, ?_⟩
    · cases form with
      | ofEnum => exact (isEnum rfl).elim
      | _ => exact reads
    · cases form <;> nofun
    · rw [good.plain isEnum, TypeForm.constantsIn, if_neg isEnum]
      exact .nil
    · rwa [TypeForm.declarationsIn, if_neg isEnum]
    · exact fun tree inside => (Copied.sound_of_mem copies inside).1

end Texts

end Grammar

end JavaSlice.Syntax
