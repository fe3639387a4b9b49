import JavaSlice.Proofs.Writing.WrittenTypes

/-!
# Files as they are written

A file is written as the line of its package, a line for each import, and a type. It is read as
these phrases again, and each of them covers the text that was written for it
(`exists_writtenFile`).
-/

namespace JavaSlice.Syntax

open List Syntax.Parser Grammar Source Token

/-! ## Types -/

namespace Grammar

/-- The phrase of a type, given its parts before the body and the parts of the body. -/
def typeTree (form : TypeForm) (start stop : Nat) (parts : List Tree) (body : Kind)
    (bodyStart : Nat) (children : List Tree) : Tree :=
  .node form.kind none start stop (parts ++ [.node body (some .body) bodyStart stop children])

/-- The text of a type. -/
def typeText (form : TypeForm) (head : List Char) (indent : Nat)
    (constants texts : List (List Char)) : List Char :=
  head ++ ' ' :: bodyText (form.blocks indent constants texts) ['\n']

/-- A text is that of a type which can stand at the top of a file. -/
structure TypeExcerpt.Writes {source : List Char} (type : TypeExcerpt source) (indent : Nat)
    (constants texts : List (List Char)) (text : List Char) : Prop where
  opens : opensAfter type.head = true
  notPackage : Rejects packageDeclaration AtBrace type.tokens
  notImport : Rejects (fun _ => importDeclaration) AtBrace type.tokens
  good : IsBodyText type.form constants texts
  text : text = typeText type.form type.head indent constants texts

section Types

variable {source : List Char} {type : TypeExcerpt source} {depth last : Nat}
  {front whole : List Char} {indent : Nat} {constants texts : List (List Char)} {text : List Char}

/-- The tokens of a type are those of its header and of its body. -/
theorem TypeExcerpt.Writes.scanned (writes : type.Writes indent constants texts text)
    (front : List Char) :
    scanAt front.length text = move front.length type.tokens ++
      scanAt (front ++ (type.head ++ [' '])).length
        (bodyText (type.form.blocks indent constants texts) ['\n']) ∧
      AtBrace (scanAt (front ++ (type.head ++ [' '])).length
        (bodyText (type.form.blocks indent constants texts) ['\n'])) := by
  refine ⟨?_, _, _, scanAt_mark (by decide) _ _, rfl⟩
  rw [writes.text, typeText, bodyText, type.scanAt_head writes.opens]
  simp [Nat.add_assoc]

/-- A type that is written is read. -/
theorem exists_typeTree (writes : type.Writes indent constants texts text)
    (ahead : Ahead whole depth front text) :
    ∃ body stop children, typeDeclaration (close grammar (depth + 1))
      ⟨scanAt front.length text, last⟩ =
        some ([typeTree type.form front.length stop (move front.length type.parts) body
          (front.length + type.head.length + 1) children], ⟨scanAt stop ['\n'], stop⟩) ∧
      body ≠ .error ∧ BodyParts whole type.form constants texts children := by
  let front' := front ++ (type.head ++ [' '])
  obtain ⟨scanned, brace⟩ := writes.scanned front
  obtain ⟨body, stop, children, reads, proper, parts⟩ := @exists_formBody depth
    (lastStop last (move front.length type.tokens)) indent front' ['\n'] whole texts constants
      type.form
    (ahead.drop (by rw [writes.text, typeText]; simp [front']) scanned) writes.good
  have deep := ahead.deep
  rw [scanned, length_append, length_move] at deep
  generalize scanAt _ (bodyText _ _) = after at scanned brace reads deep
  have headed : type.form.front (close grammar (depth + 1)) _ = _ :=
    type.heading.reads front.length (depth + 1) _ last (by omega) brace
  have placed : place ⟨move front.length type.tokens ++ after, last⟩ =
      some (front.length, ⟨move front.length type.tokens ++ after, last⟩) := by
    have start := type.piece.start
    obtain ⟨first, others, tokens⟩ := exists_cons_of_ne_nil type.piece.spans.tokens_ne_nil
    rw [tokens] at start ⊢
    refine place_eq_some.mpr ⟨rfl, _, _, rfl, ?_⟩
    have zero : first.start = 0 := Option.some.inj start
    rw [start_move, zero, Nat.zero_add]
  refine ⟨body, stop, children, @typeDeclaration_of_form _ type.form _ _ ?_ fun form other => ?_,
    proper, parts⟩
  · have place_eq : front'.length = front.length + type.head.length + 1 := by
      simp [front', Nat.add_assoc]
    have bodied : inRole .body (type.form.body (close grammar (depth + 1)))
        ⟨after, lastStop last (move front.length type.tokens)⟩ =
        some ([.node body (some .body) front'.length stop children], ⟨scanAt stop ['\n'], stop⟩) :=
      inRole_eq_some.mpr ⟨_, reads, rfl⟩
    rw [scanned, TypeForm.declaration, bind_of_some placed, bind_of_some headed,
      bind_of_some bodied, bind_of_some (nodeFrom_eq_some.mpr ⟨rfl, rfl⟩), place_eq]
    rfl
  · rw [scanned]
    exact type.heading.others form other front.length (depth + 1) _ last (by omega) brace

/-- A step of reading a file. -/
def fileStep (rules : Rules) : Phrases :=
  topLevel rules <|> badPiece true <|> strayBrace

/-- At the end of a file there is no step. -/
theorem fileStep_finish (finish : token.kind = .finish) :
    fileStep (close grammar depth) ⟨[token], last⟩ = none := by
  have known := @knows_self 0 1 depth
  have noPhrase : topLevel (close grammar depth) ⟨[token], last⟩ = none := by
    rw [topLevel, orElse_of_none ((agrees_packageDeclaration known).fails_at_finish finish last),
      orElse_of_none ((@agrees_importDeclaration 0 1).fails_at_finish finish last),
      orElse_of_none ((known.typeDeclaration mem_cons_self).fails_at_finish finish last),
      orElse_of_none ((agrees_moduleDeclaration known).fails_at_finish finish last),
      orElse_of_none ((agrees_looseMethod known).fails_at_finish finish last)]
    exact known.statement.fails_at_finish finish last
  rw [fileStep, orElse_of_none noPhrase,
    orElse_of_none ((@agrees_badPiece 0 1).fails_at_finish finish last)]
  cases read : strayBrace ⟨[token], last⟩ with
  | none => rfl
  | some result =>
    obtain ⟨_, _, same, proper, -⟩ := leaf_eq_some.mp read
    obtain ⟨rfl, -⟩ := cons.inj same
    exact (proper finish).elim

/-- A type at the top of a file that is written is read. -/
theorem exists_typeStep (writes : type.Writes indent constants texts text)
    (ahead : Ahead whole depth front text) :
    ∃ body stop children cursor, Steps (fileStep (close grammar (depth + 2)))
      ⟨scanAt front.length text, last⟩
        [typeTree type.form front.length stop (move front.length type.parts) body
          (front.length + type.head.length + 1) children] cursor ∧
      body ≠ .error ∧ BodyParts whole type.form constants texts children := by
  obtain ⟨body, stop, children, reads, proper, parts⟩ :=
    @exists_typeTree _ type depth last front whole indent constants texts text writes ahead
  obtain ⟨scanned, brace⟩ := writes.scanned front
  have deep := ahead.deep
  generalize scanAt _ (bodyText _ _) = after at scanned brace
  have finish : scanAt stop ['\n'] = [⟨.finish, "", stop + 1, stop + 1⟩] := by
    rw [scanAt_blank rfl, scanAt_nil]
  rw [finish] at reads
  rw [scanned] at deep reads ⊢
  rw [length_append, length_move] at deep
  have more := length_pos_iff.mpr type.piece.spans.tokens_ne_nil
  have most : 0 < after.length := by
    obtain ⟨token, rest, rfl, -⟩ := brace
    simp
  have step : topLevel (close grammar (depth + 2)) ⟨move front.length type.tokens ++ after, last⟩ =
      some _ :=
    (orElse_of_none (writes.notPackage front.length (depth + 2) after last (by omega) brace)).trans
      <|
      (orElse_of_none (writes.notImport front.length (depth + 2) after last (by omega) brace)).trans
        (orElse_of_some reads)
  refine ⟨body, stop, children, _, .step (orElse_of_some step) ?_ (.stop (fileStep_finish rfl)),
    proper, parts⟩
  simp only [length_append, length_move, length_singleton]
  omega

end Types

/-! ## Lines -/

/-- A name made of segments with dots between them. -/
structure QualifiedName where
  first : String
  rest : List String
  segments : ∀ text ∈ first :: rest, IsSegment text

namespace QualifiedName

variable (name : QualifiedName)

/-- The text of a name. -/
def text : List Char :=
  dottedText name.first name.rest

theorem names : ∀ text ∈ name.first :: name.rest, text ∉ reservedWords :=
  fun text listed => (name.segments text listed).2

/-- The text of the declaration of a package. -/
def packageText : List Char :=
  "package ".toList ++ (name.text ++ [';'])

theorem packageText_eq : name.packageText = "package ".toList ++ (name.text ++ [';']) := rfl

theorem slash_of_packageText : '/' ∉ name.packageText := by
  intro inside
  rcases mem_append.mp inside with inside | inside
  · exact absurd inside (by decide)
  rcases mem_append.mp inside with inside | inside
  · rcases mem_dottedText name.segments inside with part | same
    · exact absurd part (by decide)
    · exact absurd same (by decide)
  · exact absurd inside (by decide)

end QualifiedName

/-- An import of a name. -/
structure NamedImport where
  isStatic : Bool
  isWildcard : Bool
  name : QualifiedName

/-- The import as it is read and written. -/
def NamedImport.line (item : NamedImport) : Import :=
  ⟨String.ofList item.name.text, item.isStatic, item.isWildcard⟩

/-- A phrase declares a package. -/
def IsPackageTree (whole : List Char) (name : QualifiedName) (tree : Tree) : Prop :=
  ∃ start stop part, tree = .node .packageDeclaration none start stop [part] ∧
    (part.kind = .identifier ∨ part.kind = .scopedIdentifier) ∧ part.hasError = false ∧
    (Reading.cut whole part.start part.stop).filter (!Text.isBlank ·) = name.text

/-- A phrase is an import. -/
structure IsImportTree (whole : List Char) (line : Import) (tree : Tree) : Prop where
  kind : tree.kind = .importDeclaration
  sound : tree.hasError = false
  read : Import.ofChars? (Reading.cut whole tree.start tree.stop) = some line

section Lines

variable {depth last : Nat} {front rest whole : List Char}

/-- The declaration of a package that is written is read. -/
theorem exists_packageStep (split : whole = front ++ (name.packageText ++ rest)) :
    ∃ tree last', fileStep (close grammar depth)
      ⟨scanAt front.length (name.packageText ++ rest), last⟩ =
        some ([tree], ⟨scanAt (front ++ name.packageText).length rest, last'⟩) ∧
          IsPackageTree whole name tree ∧
      (scanAt (front ++ name.packageText).length rest).length <
        (scanAt front.length (name.packageText ++ rest)).length := by
  obtain ⟨tokens, spans, spelled⟩ := @spells_package rest _ _ name.segments
  obtain ⟨keyword, named, semicolon, part, same, said, phrase, reads⟩ :=
    @exists_packageDeclaration depth
    (move front.length tokens) (scanAt (front ++ name.packageText).length rest) name.first
      name.rest last
    (by rw [map_said_move, spelled]) name.names
  have scanned : scanAt front.length (name.packageText ++ rest) =
      move front.length tokens ++ scanAt (front ++ name.packageText).length rest := by
    rw [length_append]
    exact spans.scanAt_eq _
  refine ⟨.node .packageDeclaration none keyword.start semicolon.stop [part], semicolon.stop, ?_,
    ⟨_, _, part, rfl, phrase.kind, phrase.sound, ?_⟩, ?_⟩
  · rw [scanned]
    exact orElse_of_some (orElse_of_some reads)
  · -- The tokens of the name span a piece of the line.
    obtain ⟨keyword', _, rfl, -, rest_eq⟩ := map_eq_cons_iff.mp same
    obtain ⟨named', semicolon', rfl, rfl, semicolon_eq⟩ := map_eq_append_iff.mp rest_eq
    have nonempty : named' ≠ [] := by
      rintro rfl
      cases said
    have more : semicolon' ≠ [] := by
      rintro rfl
      cases semicolon_eq
    obtain ⟨x₁, y, x₂, named, line_eq, inner, zero, rfl⟩ := spans.exists_middle nonempty more
    change name.packageText = _ at line_eq
    have found : whole.drop (x₁.length + front.length) = y ++ (x₂ ++ rest) := by
      have whole_eq : whole = (front ++ x₁) ++ (y ++ (x₂ ++ rest)) := by simp [split, line_eq]
      rw [whole_eq, Nat.add_comm, ← length_append, drop_left]
    have moved : move front.length (move x₁.length named) = move (x₁.length + front.length) named :=
      move_move _ _ _
    change NamePhrase (move front.length (move x₁.length named)) part at phrase
    change (move front.length (move x₁.length named)).map Token.said = _ at said
    rw [moved] at phrase
    rw [moved, map_said_move] at said
    have cut := cut_of_spans found inner zero phrase.start phrase.stop
    have noComment : '/' ∉ y := fun inside => name.slash_of_packageText (by simp [line_eq, inside])
    have plain : ∀ token ∈ named, token.IsPlain := by
      intro token inside
      exact isPlain_of_nameLine (said ▸ mem_map_of_mem inside)
    rw [cut, inner.filter_blanks noComment plain, flatMap_text_of_said said, flatMap_nameLine]
    rfl
  · rw [length_append]
    exact spans.length_lt _

/-- An import that is written is read. -/
theorem exists_importStep {item : NamedImport}
    (split : whole = front ++ (item.line.render.toList ++ rest)) :
    ∃ tree last', fileStep (close grammar depth)
      ⟨scanAt front.length (item.line.render.toList ++ rest), last⟩ =
        some ([tree], ⟨scanAt (front ++ item.line.render.toList).length rest, last'⟩) ∧
      IsImportTree whole item.line tree ∧
      (scanAt (front ++ item.line.render.toList).length rest).length <
        (scanAt front.length (item.line.render.toList ++ rest)).length := by
  obtain ⟨tokens, spans, spelled⟩ :=
    @spells_import rest _ _ item.isStatic item.isWildcard item.name.segments
  have moved : (move front.length tokens).map Token.said =
      importLine item.isStatic item.isWildcard item.name.first item.name.rest := by
        rw [map_said_move, spelled]
  obtain ⟨tree, reads, kind, start, stop, sound⟩ :=
    @exists_importDeclaration _ (move front.length tokens)
    (scanAt (front ++ item.line.render.toList).length rest) _ _ last _ moved item.name.names
  have scanned : scanAt front.length (item.line.render.toList ++ rest) =
      move front.length tokens ++ scanAt (front ++ item.line.render.toList).length rest := by
    rw [length_append]
    exact spans.scanAt_eq _
  refine ⟨tree, lastStop last (move front.length tokens), ?_, ⟨kind, sound, ?_⟩, ?_⟩
  · rw [scanned]
    refine orElse_of_some ?_
    rw [topLevel, orElse_of_none (packageDeclaration_import moved)]
    exact orElse_of_some reads
  · obtain ⟨g, x, bare, text, inner, rfl, zero⟩ := spans.exists_start
    have line_eq : item.line.render.toList = g ++ x := text
    have found : whole.drop (g.length + front.length) = x ++ rest := by
      have whole_eq : whole = (front ++ g) ++ (x ++ rest) := by simp [split, line_eq]
      rw [whole_eq, Nat.add_comm, ← length_append, drop_left]
    rw [move_move] at start stop
    rw [cut_of_spans found inner zero start stop]
    have noComment : '/' ∉ x := fun inside =>
      slash_of_render item.isStatic item.isWildcard item.name.segments
        (text ▸ mem_append_right g inside)
    exact ofChars?_of_spans inner zero noComment (by rw [← spelled, map_said_move]) item.name.names
  · rw [length_append]
    exact spans.length_lt _

/-- The lines of some imports. -/
def linesText (imports : List NamedImport) : List Char :=
  imports.flatMap fun item => item.line.render.toList ++ ['\n']

/-- Imports that are written one after the other are read one after the other. -/
theorem exists_importSteps {imports : List NamedImport} {good : List Tree → Prop}
    (split : whole = front ++ (linesText imports ++ rest))
    (more : ∀ last, (scanAt (front ++ linesText imports).length rest).length ≤
      (scanAt front.length (linesText imports ++ rest)).length →
        ∃ trees cursor, Steps (fileStep (close grammar depth))
          ⟨scanAt (front ++ linesText imports).length rest, last⟩ trees cursor ∧ good trees) :
    ∃ lines trees cursor, Steps (fileStep (close grammar depth))
        ⟨scanAt front.length (linesText imports ++ rest), last⟩ (lines ++ trees) cursor ∧
      Forall₂ (fun item => IsImportTree whole item.line) imports lines ∧ good trees := by
  induction imports generalizing front last with
  | nil =>
    rw [linesText, flatMap_nil, append_nil] at more
    obtain ⟨trees, cursor, steps, passes⟩ := more last (Nat.le_refl _)
    exact ⟨[], trees, cursor, steps, .nil, passes⟩
  | cons item imports ih =>
    let line := item.line.render.toList
    have text : linesText (item :: imports) ++ rest = line ++ '\n' ::
        (linesText imports ++ rest) := by
      simp [linesText, line]
    have front_eq : front ++ linesText (item :: imports) = (front ++ line ++ ['\n']) ++
        linesText imports := by
      simp [linesText, line]
    obtain ⟨tree, last', reads, isImport, shorter⟩ := @exists_importStep depth last front
      ('\n' :: (linesText imports ++ rest)) whole item (by rw [split, text])
    have skipped : scanAt (front ++ line).length ('\n' :: (linesText imports ++ rest)) =
        scanAt (front ++ line ++ ['\n']).length (linesText imports ++ rest) := by
      rw [scanAt_blank rfl, @length_append _ (front ++ line)]
      rfl
    rw [text] at split more ⊢
    rw [skipped] at reads shorter
    rw [front_eq] at more
    obtain ⟨lines, trees, cursor, steps, copies, passes⟩ := @ih last' (front ++ line ++ ['\n'])
      (by rw [split]; simp) fun last shorter' =>
        more last (Nat.le_trans shorter' (Nat.le_of_lt shorter))
    refine ⟨[tree] ++ lines, trees, cursor, ?_, .cons isImport copies, passes⟩
    rw [append_assoc]
    exact .step reads shorter steps

end Lines

/-! ## Files -/

/-- The lines of the declaration of a package, if there is one. -/
def packageLines (package : Option QualifiedName) : List Char :=
  match package with
  | some name => name.packageText ++ ['\n', '\n']
  | none => []

/-- The lines of the imports of a file. -/
def importLines (imports : List NamedImport) : List Char :=
  linesText imports ++ blockGap imports

/-- The phrases of a file that was written from the declaration of a package, imports and a type. -/
structure WrittenFile (package : Option QualifiedName) (imports : List NamedImport)
    {source : List Char}
    (type : TypeExcerpt source) (constants texts : List (List Char)) (whole : List Char) where
  packages : List Tree
  lines : List Tree
  (place stop : Nat)
  body : Kind
  children : List Tree
  packagePhrases : Forall₂ (IsPackageTree whole) package.toList packages
  importPhrases : Forall₂ (fun item => IsImportTree whole item.line) imports lines
  proper : body ≠ .error
  parts : BodyParts whole type.form constants texts children
  header : ∃ rest, whole.drop place = type.head ++ ' ' :: rest

section Files

variable {source : List Char} {package : Option QualifiedName} {imports : List NamedImport}
  {type : TypeExcerpt source} {constants texts : List (List Char)} {text whole : List Char}

namespace WrittenFile

variable (file : WrittenFile package imports type constants texts whole)

/-- The phrase of the type. -/
def typePhrase : Tree :=
  typeTree type.form file.place file.stop (move file.place type.parts) file.body
    (file.place + type.head.length + 1) file.children

/-- All phrases of a file. -/
def phrases : List Tree :=
  file.packages ++ (file.lines ++ [file.typePhrase])

theorem hasError_typePhrase : file.typePhrase.hasError = false := by
  refine Tree.hasError_node_iff.mpr ⟨by cases type.form <;> nofun, ?_⟩
  rw [forall_mem_append]
  constructor
  · intro tree inside
    obtain ⟨tree, listed, rfl⟩ := mem_map.mp inside
    rw [Tree.hasError_move, type.sound tree listed]
  · intro tree inside
    obtain rfl := mem_singleton.mp inside
    exact Tree.hasError_node_iff.mpr ⟨file.proper, file.parts.sound⟩

theorem hasError_phrases : ∀ tree ∈ file.phrases, tree.hasError = false := by
  simp only [phrases, forall_mem_append, forall_mem_singleton]
  refine ⟨fun tree inside => ?_, fun tree inside => ?_, file.hasError_typePhrase⟩
  · obtain ⟨name, -, start, stop, part, rfl, -, sound, -⟩ :=
      exists_related file.packagePhrases inside
    exact Tree.hasError_node_iff.mpr ⟨nofun, forall_mem_singleton.mpr sound⟩
  · obtain ⟨item, -, isImport⟩ := exists_related file.importPhrases inside
    exact isImport.sound

end WrittenFile

variable {depth last indent : Nat}

/-- The imports and the type of a file that is written are read phrase by phrase. -/
theorem exists_importsAndType (writes : type.Writes indent constants texts text)
    (ahead : Ahead whole depth front (importLines imports ++ text)) :
    ∃ (file : WrittenFile none imports type constants texts whole) (cursor : Cursor),
      Steps (fileStep (close grammar (depth + 2)))
        ⟨scanAt front.length (importLines imports ++ text), last⟩ file.phrases cursor := by
  rw [importLines, append_assoc] at ahead ⊢
  let front' := front ++ linesText imports ++ blockGap imports
  have skipped : scanAt (front ++ linesText imports).length (blockGap imports ++ text) =
      scanAt front'.length text := by
    rw [scanAt_blockGap, ← length_append]
  have split : whole = front' ++ text := by simp [ahead.split, front']
  obtain ⟨lines, trees, cursor, steps, isImport, stop, body, children, rfl, proper, parts⟩ :=
    @exists_importSteps (depth + 2) last front _ whole imports (fun trees => ∃ stop body children,
      trees = [typeTree type.form front'.length stop
      (move front'.length type.parts) body (front'.length + type.head.length + 1) children] ∧
        body ≠ .error ∧
      BodyParts whole type.form constants texts children) ahead.split fun last shorter => by
        have deep := ahead.deep
        rw [skipped] at shorter ⊢
        obtain ⟨body, stop, children, cursor, steps, proper, parts⟩ :=
          @exists_typeStep _ type depth last front' whole
          indent constants texts text writes ⟨split, by omega⟩
        exact ⟨_, cursor, steps, stop, body, children, rfl, proper, parts⟩
  refine ⟨⟨[], lines, front'.length, stop, body, children, .nil, isImport, proper, parts, ?_⟩,
    cursor, steps⟩
  exact ⟨_, by rw [split, drop_left, writes.text]; rfl⟩

section

variable (writes : type.Writes indent constants texts text)
  (split : whole = packageLines package ++ (importLines imports ++ text))
include writes split

/-- A file that is written is read phrase by phrase. -/
theorem exists_fileSteps (deep : 16 * (scanAt 0 whole).length + 3 ≤ depth) :
    ∃ (file : WrittenFile package imports type constants texts whole) (cursor : Cursor),
      Steps (fileStep (close grammar (depth + 2))) ⟨scanAt 0 whole, last⟩ file.phrases cursor := by
  cases package with
  | none =>
    rw [packageLines, nil_append] at split
    obtain ⟨file, cursor, steps⟩ :=
      @exists_importsAndType _ imports type constants texts text whole depth last indent []
      writes ⟨split, by rw [← split]; exact deep⟩
    rw [← split] at steps
    exact ⟨file, cursor, steps⟩
  | some name =>
    let rest := importLines imports ++ text
    have whole_eq : whole = name.packageText ++ '\n' :: '\n' :: rest := by
      simp [split, packageLines, rest]
    obtain ⟨tree, last', reads, isPackage, shorter⟩ :=
      @exists_packageStep (depth + 2) last [] ('\n' :: '\n' :: rest) whole name whole_eq
    have skipped : scanAt ([] ++ name.packageText).length ('\n' :: '\n' :: rest) =
        scanAt (packageLines (some name)).length rest := by
      rw [scanAt_blank rfl, scanAt_blank rfl, packageLines, nil_append, length_append]
      rfl
    rw [skipped, ← whole_eq, length_nil] at reads shorter
    obtain ⟨file, cursor, steps⟩ :=
      @exists_importsAndType _ imports type constants texts text whole depth last' indent
      (packageLines (some name)) writes ⟨split,
        by change 16 * (scanAt _ rest).length + 3 ≤ depth; omega⟩
    have none : file.packages = [] := forall₂_nil_left_iff.mp file.packagePhrases
    refine ⟨{ file with packages := [tree], packagePhrases := .cons isPackage .nil }, cursor, ?_⟩
    have phrases : file.phrases = file.lines ++ [file.typePhrase] := by
      rw [WrittenFile.phrases, none, nil_append]
    rw [phrases] at steps
    exact .step reads shorter steps

/-- A file does not start with a mark of the order of bytes. -/
theorem head?_file : ∃ c, whole.head? = some c ∧ c ≠ '\ufeff' := by
  rw [split]
  cases package with
  | some name => exact ⟨'p', rfl, by decide⟩
  | none =>
    cases imports with
    | nil =>
      obtain ⟨c, first, -, other⟩ := type.head?_head
      refine ⟨c, ?_, other⟩
      rw [writes.text, typeText]
      simp [packageLines, importLines, linesText, blockGap, first]
    | cons item imports =>
      refine ⟨'i', ?_, by decide⟩
      have first : item.line.render.toList.head? = some 'i' := by
        rw [Import.render, String.toList_append, String.toList_append]
        split <;> rfl
      simp [packageLines, importLines, linesText, first]

end

/-- A file that is written is read without errors. -/
theorem exists_writtenFile (opens : opensAfter type.head)
    (notPackage : Rejects packageDeclaration AtBrace type.tokens)
    (notImport : Rejects (fun _ => importDeclaration) AtBrace type.tokens)
    (split : whole = packageLines package ++
      (importLines imports ++ typeText type.form type.head indent constants texts))
    (good : IsBodyText type.form constants texts) :
    ∃ file : WrittenFile package imports type constants texts whole,
      Tree.ofSource whole = .node .program none 0 whole.length file.phrases := by
  have writes : type.Writes indent constants texts _ := ⟨opens, notPackage, notImport, good, rfl⟩
  obtain ⟨c, first, other⟩ := head?_file writes split
  have scanned := scan_of_head? first other
  obtain ⟨file, cursor, steps⟩ := @exists_fileSteps _ package imports type constants texts _ whole
    (16 * (scan whole).length + 14) 0 indent writes split (by rw [scanned]; omega)
  refine ⟨file, ?_⟩
  have reads : program (close grammar (nesting (scan whole))) ⟨scan whole, 0⟩ =
      some (file.phrases, cursor) := by
    rw [← scanned] at steps
    exact steps.many
  rw [Tree.ofSource, reads]
  rfl

end Files

end Grammar

end JavaSlice.Syntax
