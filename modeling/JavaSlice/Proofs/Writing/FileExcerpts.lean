import JavaSlice.Proofs.Writing.LineTexts
import JavaSlice.Proofs.Writing.TypeExcerpts
import JavaSlice.Reading.Phrase

/-!
# Phrases of a file

A file that is read without errors is a sequence of phrases. A phrase that declares a type is cut
into header, constants and members; where the type is written again, its header is read neither as
the package of the file nor as an import. The phrases that name the package and the imports are
lines, and it is known what their tokens say (`filePhrase_of_mem`).
-/

namespace JavaSlice.Syntax.Grammar

open List Syntax.Parser

/-- A kind of phrase that declares a type. -/
def IsTypeKind (kind : Kind) : Prop :=
  ∃ form : TypeForm, kind = form.kind

instance : DecidablePred IsTypeKind := fun kind =>
  let forms : List TypeForm := [.ofClass, .ofInterface, .ofEnum, .ofRecord, .ofAnnotationType]
  decidable_of_iff (kind ∈ forms.map TypeForm.kind) <| by
    constructor
    · intro listed
      obtain ⟨form, -, rfl⟩ := mem_map.mp listed
      exact ⟨form, rfl⟩
    · rintro ⟨form, rfl⟩
      cases form <;> decide

/-- A kind of phrase that declares a type, the package or an import. -/
def IsFileKind (kind : Kind) : Prop :=
  IsTypeKind kind ∨ kind = .packageDeclaration ∨ kind = .importDeclaration

instance : DecidablePred IsFileKind := fun kind =>
  inferInstanceAs (Decidable (IsTypeKind kind ∨ kind = .packageDeclaration ∨
    kind = .importDeclaration))

section Files

variable {source : List Char} {tokens : List Token} {depth last : Nat} {rules : Rules}
variable {cursor : Cursor} {trees : List Tree} {taken : List Token} {tree : Tree}

theorem yields_node (other : ¬IsFileKind kind) (p : Phrases) :
    Yields (fun tree => ¬IsFileKind tree.kind) (node kind p) :=
  .node fun _ _ _ => other

/-- A statement is a type declaration or declares nothing of a file. -/
theorem statement_cases (blocks : Yields (fun tree => tree.kind = .block) (rules .block))
    (reads : statement rules cursor = some (trees, cursor')) :
    rules .typeDeclaration cursor = some (trees, cursor') ∨ ∀ tree ∈ trees,
      ¬IsFileKind tree.kind := by
  have plain : plainStatement rules cursor = some (trees, cursor') →
      rules .typeDeclaration cursor = some (trees, cursor') ∨ ∀ tree ∈ trees,
        ¬IsFileKind tree.kind := by
    intro reads
    refine (orElse_eq_some.mp reads).imp_right fun ⟨_, reads⟩ => ?_
    exact Yields.orElse (yields_node (by decide) _)
      (.orElse (yields_node (by decide) _) (yields_node (by decide) _)) _ _ _ reads
  obtain ⟨token, middle, peeked, further⟩ := bind_eq_some.mp reads
  obtain ⟨rfl, -⟩ := peek_eq_some.mp peeked
  split at further
  next =>
    obtain ⟨_, -, rfl⟩ := bind_pure_eq_some.mp further
    exact .inr nofun
  split at further
  next =>
    refine .inr fun tree inside => ?_
    rw [blocks _ _ _ further tree inside]
    decide
  split at further
  next =>
    revert further
    fun_cases wordStatement rules token.text with
    | case4 | case5 =>
      exact fun reads =>
        .inr (Yields.orElse (yields_node (by decide) _) (yields_node (by decide) _) _ _ _ reads)
    | case12 | case13 =>
      intro reads
      rcases orElse_eq_some.mp reads with reads | ⟨-, reads⟩
      · exact .inr (yields_node (by decide) _ _ _ _ reads)
      · exact plain reads
    | case14 => exact plain
    | _ => exact fun reads => .inr (yields_node (by decide) _ _ _ _ reads)
  next => exact plain further

/-- What a phrase of a file that declares a type is: a type in the source whose header is read as
nothing else. -/
def IsFileType (source : List Char) (tree : Tree) : Prop :=
  ∃ type : TypeExcerpt source, tree = type.tree ∧ Rejects packageDeclaration AtBrace type.tokens ∧
    Rejects (fun _ => importDeclaration) AtBrace type.tokens

/-- A type declaration at the top of a file. -/
theorem isFileType_of_typeDeclaration (remain : Token.Remain source tokens)
    (deep : 16 * tokens.length + 5 ≤ depth)
    (noPackage : packageDeclaration (close grammar depth) ⟨tokens, last⟩ = none)
    (noImport : importDeclaration ⟨tokens, last⟩ = none)
    (reads : close grammar depth .typeDeclaration ⟨tokens, last⟩ = some (trees, cursor))
    (sound : ∀ tree ∈ trees, tree.hasError = false) : ∀ tree ∈ trees, IsFileType source tree := by
  obtain ⟨depth, rfl⟩ := Nat.exists_eq_succ_of_ne_zero (show depth ≠ 0 by omega)
  obtain ⟨form, reads⟩ := exists_form reads
  obtain ⟨type, rfl, rfl⟩ := exists_typeExcerpt remain (by omega) reads sound
  have deep' : 16 * (move type.place type.tokens ++ type.rest).length + 3 ≤ depth + 1 := by omega
  intro tree inside
  obtain rfl := mem_singleton.mp inside
  exact ⟨type, rfl,
    rejects_of_fails (fun known => agrees_packageDeclaration known) (·.follows type.heading.path)
      type.brace deep' noPackage,
    rejects_of_fails (fun _ => agrees_importDeclaration) (·.follows type.heading.path) type.brace
      deep' noImport⟩

theorem yields_looseMethod : Yields (fun tree => ¬IsFileKind tree.kind) (looseMethod rules) := by
  rintro cursor trees cursor' reads tree inside
  obtain ⟨start, _, -, further⟩ := bind_eq_some.mp reads
  obtain ⟨marks, _, -, further⟩ := bind_eq_some.mp further
  obtain ⟨method, rest, rfl⟩ := bind_pure_eq_some.mp further
  obtain rfl := mem_singleton.mp inside
  simp only [methodRest, bind_eq_some] at rest
  obtain ⟨_, _, -, _, _, -, _, _, -, _, _, -, _, _, -, _, _, -, _, _, -, stamped⟩ := rest
  obtain ⟨rfl, -⟩ := nodeFrom_eq_some.mp stamped
  exact (show ¬IsFileKind .methodDeclaration by decide)

/-- How deep the rules may nest makes no difference to whether a type is declared. -/
theorem typeDeclaration_fails (remain : Token.Remain source tokens)
    (deep : 16 * tokens.length + 3 ≤ depth) (deep' : 16 * tokens.length + 3 ≤ depth')
    (fails : close grammar depth .typeDeclaration ⟨tokens, last⟩ = none) :
    close grammar depth' .typeDeclaration ⟨tokens, last⟩ = none := by
  obtain ⟨token, mem, finish⟩ := remain.exists_finish
  have known := @knows_close 0 tokens.length depth depth' deep deep'
  have agrees := known.typeDeclaration (show Level.value ∈ _ from mem_cons_self)
  have outcome := @agrees tokens [] [] last last Iff.rfl
    ⟨Nat.le_refl _, nofun, fun depth _ => .inl (Level.value.run_of_finish mem finish depth)⟩ nofun
  rw [append_nil, fails] at outcome
  have same := outcome.none_of
  rwa [append_nil, Token.move_zero] at same

/-- A phrase names the package of a file, after some annotations. -/
def IsPackagePhrase (source : List Char) (tree : Tree) : Prop :=
  ∃ (start stop : Nat) (marks : List Tree) (name : Tree) (z : List Char) (named : List Token)
    (first : String)
    (rest : List String), tree = .node .packageDeclaration none start stop (marks ++ [name]) ∧
    (∀ mark ∈ marks, mark.kind = .annotationMark ∨ mark.kind = .annotationCall) ∧
    (name.kind = .identifier ∨ name.kind = .scopedIdentifier) ∧
    Token.Spans z (Reading.cut source name.start name.stop) named ∧
      named.map Token.said = nameLine first rest ∧
    ∀ text ∈ first :: rest, text ∉ reservedWords

/-- A phrase is an import. -/
def IsImportPhrase (source : List Char) (tree : Tree) : Prop :=
  ∃ (z : List Char) (tokens : List Token) (isStatic isWildcard : Bool) (first : String)
    (rest : List String), Token.Spans z (Reading.cut source tree.start tree.stop) tokens ∧
    tokens.head?.map (·.start) = some 0 ∧ tokens.map Token.said =
      importLine isStatic isWildcard first rest ∧
    ∀ text ∈ first :: rest, text ∉ reservedWords

theorem cut_of_drop {place x z} (found : source.drop place = x ++ z) {start stop}
    (start_eq : start = place) (stop_eq : stop = place + x.length) :
    Reading.cut source start stop = x := by
  rw [Reading.cut, start_eq, stop_eq, found, Nat.add_sub_cancel_left, take_left]

/-- A phrase that covers some tokens covers the text that they span. -/
theorem cut_of_spans {place x z} (found : source.drop place = x ++ z)
    (spans : Token.Spans z x taken) (zero : taken.head?.map (·.start) = some 0)
    (start : (move place taken).head?.map (·.start) = some tree.start)
    (stop : tree.stop = lastStop 0 (move place taken)) :
    Reading.cut source tree.start tree.stop = x := by
  have start_eq : tree.start = place := by
    obtain ⟨first, others, rfl⟩ := exists_cons_of_ne_nil spans.tokens_ne_nil
    simp only [move_cons, head?_cons, Option.map_some, Option.some.injEq, Token.start_move]
      at start zero
    omega
  exact cut_of_drop found start_eq (stop.trans (lastStop_of_spans spans place))

theorem exists_spans_cut (remain : Token.Remain source (taken ++ rest))
    (nonempty : taken ≠ []) (proper : ∀ token ∈ taken, token.kind ≠ .finish)
    (start : taken.head?.map (·.start) = some tree.start) (stop : tree.stop = lastStop 0 taken) :
    ∃ z tokens', Token.Spans z (Reading.cut source tree.start tree.stop) tokens' ∧
      tokens'.head?.map (·.start) = some 0 ∧ tokens'.map Token.said = taken.map Token.said := by
  obtain ⟨place, x, z, tokens', piece, rfl, -, -⟩ := remain.exists_piece nonempty proper
  have cut := cut_of_spans piece.drop_eq piece.spans piece.start start stop
  exact ⟨z, tokens', cut.symm ▸ piece.spans, piece.start, (Token.map_said_move _ _).symm⟩

/-- Lines hold no end of a file. -/
theorem proper_of_line (spelled : taken.map Token.said = line)
    (plain : ∀ kind text, (kind, text) ∈ line → kind = .word ∨ kind = .symbol) :
    ∀ token ∈ taken, token.kind ≠ .finish := by
  intro token inside finish
  have := plain token.kind token.text (spelled ▸ mem_map_of_mem inside)
  simp [finish] at this

theorem yields_annotations :
    Yields (fun tree => tree.role = none ∧
      (tree.kind = .annotationMark ∨ tree.kind = .annotationCall))
      (annotations (close grammar depth)) := by
  refine .many ?_
  cases depth with
  | zero => exact fun _ _ _ reads => nomatch reads
  | succ depth =>
    refine .then_ fun start => .then_ fun _ => .then_ fun name => .then_ fun paren => ?_
    have stamped :
        ∀ {kind : Kind} (_ : kind = .annotationMark ∨ kind = .annotationCall)
          (children : List Tree),
        Yields (fun tree => tree.role = none ∧
          (tree.kind = .annotationMark ∨ tree.kind = .annotationCall))
          (do pure [← nodeFrom kind start children]) := by
      intro kind listed children cursor trees cursor' reads tree inside
      obtain ⟨tree', _, stamped, result⟩ := bind_eq_some.mp reads
      obtain ⟨rfl, -⟩ := nodeFrom_eq_some.mp stamped
      obtain ⟨rfl, -⟩ := pure_eq_some.mp result
      obtain rfl := mem_singleton.mp inside
      exact ⟨rfl, listed⟩
    split
    · exact .then_ fun _ => stamped (.inr rfl) _
    · exact stamped (.inl rfl) _

/-- What has been read as the declaration of the package. -/
theorem isPackagePhrase_of_reads (remain : Token.Remain source tokens)
    (reads : packageDeclaration (close grammar depth) ⟨tokens, last⟩ = some (trees, cursor)) :
    ∀ tree ∈ trees, IsPackagePhrase source tree := by
  have known := @knows_self 0 tokens.length depth
  obtain ⟨token, others, children, -, parts, rfl⟩ := node_eq_some.mp reads
  obtain ⟨marks, ⟨_, _⟩, marked, afterMarks⟩ := bind_eq_some.mp parts
  obtain ⟨remain, -⟩ := (agrees_annotations known).remain remain marked
  obtain ⟨_, _, keywordRead, afterKeyword⟩ := bind_eq_some.mp afterMarks
  obtain ⟨keyword, _, rfl, keywordWord, rfl⟩ := word_eq_some.mp keywordRead
  have remain := remain.tail (proper_of_said (Token.isWord_iff.mp keywordWord) nofun)
  obtain ⟨_, ⟨_, _⟩, nameRead, afterName⟩ := bind_eq_some.mp afterKeyword
  obtain ⟨named, first, rest, name, rfl, said, names, -, rfl, kind, start, stop⟩ :=
    said_of_qualifiedName nameRead
  obtain ⟨_, -, rfl⟩ := bind_pure_eq_some.mp afterName
  have nonempty : named ≠ [] := by
    rintro rfl
    cases said
  obtain ⟨z, tokens', spans, -, same⟩ := exists_spans_cut remain nonempty
    (proper_of_line said fun _ _ => isPlain_of_nameLine) start stop
  intro tree inside
  obtain rfl := mem_singleton.mp inside
  exact ⟨_, _, marks, name, z, tokens', first, rest, rfl,
    fun mark listed => (yields_annotations _ _ _ marked mark listed).2,
    kind, spans, same.trans said, names⟩

/-- What has been read as an import. -/
theorem isImportPhrase_of_reads (remain : Token.Remain source tokens)
    (reads : importDeclaration ⟨tokens, last⟩ = some (trees, cursor)) :
    ∀ tree ∈ trees, IsImportPhrase source tree := by
  obtain ⟨taken, isStatic, isWildcard, first, rest, tree, rfl, said, names, rfl, -, start, stop⟩ :=
    said_of_importDeclaration reads
  have nonempty : taken ≠ [] := by
    rintro rfl
    cases said
  obtain ⟨z, tokens', spans, zero, same⟩ := exists_spans_cut remain nonempty
    (proper_of_line said fun _ _ => isPlain_of_importLine) start stop
  intro tree inside
  obtain rfl := mem_singleton.mp inside
  exact ⟨z, tokens', isStatic, isWildcard, first, rest, spans, zero, same.trans said, names⟩

/-- What is known about a phrase of a file that is read without errors. -/
structure FilePhrase (source : List Char) (tree : Tree) : Prop where
  package : tree.kind = .packageDeclaration → IsPackagePhrase source tree
  line : tree.kind = .importDeclaration → IsImportPhrase source tree
  type : IsTypeKind tree.kind → IsFileType source tree

theorem FilePhrase.of_other (other : ¬IsFileKind tree.kind) : FilePhrase source tree where
  package kind := (other (.inr (.inl kind))).elim
  line kind := (other (.inr (.inr kind))).elim
  type kind := (other (.inl kind)).elim

/-- The phrases at the top of a file. -/
theorem topLevel_phrases (remain : Token.Remain source tokens)
    (deep : 16 * tokens.length + 5 ≤ depth)
    (reads : topLevel (close grammar depth) ⟨tokens, last⟩ = some (trees, cursor))
    (sound : ∀ tree ∈ trees, tree.hasError = false) :
    (Token.Remain source cursor.tokens ∧ cursor.tokens.length ≤ tokens.length) ∧
      ∀ tree ∈ trees, FilePhrase source tree := by
  have known := @knows_self 0 tokens.length depth
  have others : ∀ {p : Phrases}, Yields (fun tree => ¬IsFileKind tree.kind) p →
      p ⟨tokens, last⟩ = some (trees, cursor) → ∀ tree ∈ trees, FilePhrase source tree :=
    fun yields reads tree inside => .of_other (yields _ _ _ reads tree inside)
  rcases orElse_eq_some.mp reads with reads | ⟨noPackage, reads⟩
  · refine ⟨(agrees_packageDeclaration known).remain remain reads, fun tree inside => ?_⟩
    have kind : Yields (fun tree => tree.kind = .packageDeclaration)
        (packageDeclaration (close grammar depth)) :=
      .node fun _ _ _ => rfl
    have kind := kind _ _ _ reads tree inside
    exact ⟨fun _ => isPackagePhrase_of_reads remain reads tree inside, by simp [kind],
      fun type => absurd type (by rw [kind]; decide)⟩
  rcases orElse_eq_some.mp reads with reads | ⟨noImport, reads⟩
  · refine ⟨agrees_importDeclaration.remain remain reads, fun tree inside => ?_⟩
    have kind : Yields (fun tree => tree.kind = .importDeclaration) importDeclaration :=
      .node fun _ _ _ => rfl
    have kind := kind _ _ _ reads tree inside
    exact ⟨by simp [kind], fun _ => isImportPhrase_of_reads remain reads tree inside,
      fun type => absurd type (by rw [kind]; decide)⟩
  rcases orElse_eq_some.mp reads with reads | ⟨noType, reads⟩
  · refine ⟨(known.typeDeclaration mem_cons_self).remain remain reads, fun tree inside => ?_⟩
    obtain ⟨type, rfl, notPackage, notImport⟩ :=
      isFileType_of_typeDeclaration remain deep noPackage noImport reads sound tree inside
    have other : ∀ form : TypeForm, form.kind ≠ .packageDeclaration ∧
        form.kind ≠ .importDeclaration := by
      rintro ⟨⟩ <;> decide
    exact ⟨fun kind => ((other _).1 kind).elim, fun kind => ((other _).2 kind).elim,
      fun _ => ⟨type, rfl, notPackage, notImport⟩⟩
  rcases orElse_eq_some.mp reads with reads | ⟨-, reads⟩
  · exact ⟨(agrees_moduleDeclaration known).remain remain reads,
      others (yields_node (by decide) _) reads⟩
  rcases orElse_eq_some.mp reads with reads | ⟨-, reads⟩
  · exact ⟨(agrees_looseMethod known).remain remain reads, others yields_looseMethod reads⟩
  · refine ⟨known.statement.remain remain reads, fun tree inside => .of_other ?_⟩
    obtain ⟨depth, rfl⟩ := Nat.exists_eq_succ_of_ne_zero (show depth ≠ 0 by omega)
    have fails := typeDeclaration_fails remain (show 16 * tokens.length + 3 ≤ depth + 1 by omega)
      (show _ ≤ depth by omega) noType
    exact (statement_cases (fun _ _ _ => kind_of_block) reads).resolve_left (by simp [fails])
      tree inside

/-- A phrase of a file that is read without errors. -/
theorem filePhrase_of_mem (lexical : Token.isLexical source)
    (sound : (Tree.ofSource source).hasError = false)
    (inside : tree ∈ (Tree.ofSource source).children) : FilePhrase source tree := by
  have remain := Token.remain_scan lexical
  cases read : program (close grammar (nesting (Token.scan source))) ⟨Token.scan source, 0⟩ with
  | none => simp [Tree.ofSource, read, Tree.children] at inside
  | some result =>
    obtain ⟨trees, cursor⟩ := result
    simp only [Tree.ofSource, read, Tree.children, Option.map_some, Option.getD_some]
      at inside sound
    refine (many_induction (fun cursor => Token.Remain source cursor.tokens ∧
      cursor.tokens.length ≤ (Token.scan source).length) (FilePhrase source) ?_
        ⟨remain, Nat.le_refl _⟩ read
      (Tree.hasError_node_iff.mp sound).2).2 tree inside
    rintro ⟨tokens, last⟩ trees cursor' ⟨remain, shorter⟩ step sound
    dsimp only at shorter
    rcases orElse_eq_some.mp step with step | ⟨-, step⟩
    · obtain ⟨⟨remain', shorter'⟩, phrases⟩ :=
        topLevel_phrases remain (by dsimp only [nesting]; omega) step sound
      exact ⟨⟨remain', Nat.le_trans shorter' shorter⟩, phrases⟩
    rcases orElse_eq_some.mp step with step | ⟨-, step⟩
    · obtain ⟨token, rest, children, -, -, rfl⟩ := node_eq_some.mp step
      cases sound _ mem_cons_self
    · obtain ⟨token, rest, -, -, -, rfl, -⟩ := leaf_eq_some.mp step
      cases sound _ mem_cons_self

end Files

end JavaSlice.Syntax.Grammar
