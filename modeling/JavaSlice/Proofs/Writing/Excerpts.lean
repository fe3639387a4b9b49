import JavaSlice.Proofs.Syntax.Relexing
import JavaSlice.Proofs.Syntax.Runs

/-!
# Excerpts of a source

A member of a type, a constant of an enumeration and the header of a declaration can be cut out of a
file: read in another file, each is the same phrase again. An `Excerpt` is such a text with its
tokens and its phrase, whose places are counted from the start of the text.
-/

namespace JavaSlice.Syntax

/-! ## Pieces that parsers take -/

section Sources

variable {level : Level} {zone : Zone} {source : List Char} {tokens : List Token} {last : Nat}
variable {cursor : Cursor}

theorem lastStop_of_spans (spans : Token.Spans z x tokens) (place : Nat) :
    lastStop last (move place tokens) = place + x.length := by
  obtain ⟨front, final, rfl, -, stop⟩ := spans.exists_last
  rw [move_append, lastStop_append, move_cons, move_nil]
  change final.stop + place = _
  rw [stop, Nat.add_comm]

/-- The piece of a source that a parser reads. -/
theorem Agrees.exists_piece {p : Phrases}
    (agrees : Agrees level 0 tokens.length .fresh ⟨true, zone⟩ p p)
    (remain : Token.Remain source tokens) {trees : List Tree}
    (reads : p ⟨tokens, last⟩ = some (trees, cursor)) :
    ∃ place x z tokens', Token.Piece source place x z tokens' ∧
      tokens = move place tokens' ++ cursor.tokens ∧
      Token.Remain source cursor.tokens ∧
        cursor = ⟨Token.scanAt (place + x.length) z, place + x.length⟩ ∧
      Zone.Leads level (.within .zero) zone (move place tokens') cursor.tokens := by
  obtain ⟨taken, rfl, nonempty, proper, stop, leads⟩ :=
    agrees.exists_taken (Nat.le_refl _) remain.exists_finish reads
  obtain ⟨place, x, z, tokens', piece, rfl, remain', scanned⟩ :=
    remain.exists_piece (nonempty rfl) proper
  refine ⟨place, x, z, tokens', piece, rfl, remain', ?_, leads⟩
  rw [lastStop_of_spans piece.spans] at stop
  cases cursor
  simp_all

/-- What remains of a source after a parser. -/
theorem Agrees.remain {α : Type} [Movable α] {p : Parser α} {touched : Bool}
    (agrees : Agrees level 0 tokens.length .fresh ⟨touched, zone⟩ p p)
    (remain : Token.Remain source tokens) {value : α}
    (reads : p ⟨tokens, last⟩ = some (value, cursor)) :
    Token.Remain source cursor.tokens ∧ cursor.tokens.length ≤ tokens.length := by
  obtain ⟨taken, rfl, -, proper, -⟩ :=
    agrees.exists_taken (Nat.le_refl _) remain.exists_finish reads
  rw [List.length_append]
  refine ⟨?_, by omega⟩
  by_cases empty : taken = []
  · rwa [empty, List.nil_append] at remain
  · obtain ⟨_, _, _, _, -, -, remain', -⟩ := remain.exists_piece empty proper
    exact remain'

end Sources

end JavaSlice.Syntax

namespace JavaSlice.Syntax.Grammar

open List Syntax.Parser

variable {z : List Char}
variable {x : List Char} {place : Nat}

/-! ## Phrases and the tokens they cover -/

/-- A parser gives one phrase, which covers the tokens that the parser takes. -/
def Covers (p : Phrases) : Prop :=
  ∀ ⦃cursor trees cursor'⦄, p cursor = some (trees, cursor') →
    ∃ tree, trees = [tree] ∧ cursor.tokens.head?.map (·.start) = some tree.start ∧
      tree.stop = cursor'.last

/-- A parser gives a phrase that starts at a place and ends with the last token that the parser
takes. -/
def Stamps (start : Nat) (p : Parser Tree) : Prop :=
  ∀ ⦃cursor tree cursor'⦄, p cursor = some (tree, cursor') →
    tree.start = start ∧ tree.stop = cursor'.last

section Coverage

variable {α : Type} {start : Nat} {rules : Rules}
variable {p : Phrases}

theorem Stamps.nodeFrom (kind : Kind) (children : List Tree) :
    Stamps start (nodeFrom kind start children) := by
  rintro cursor tree cursor' reads
  obtain ⟨rfl, rfl⟩ := nodeFrom_eq_some.mp reads
  exact ⟨rfl, rfl⟩

theorem Stamps.bind {p : Parser α} {f : α → Parser Tree}
    (stamps : ∀ value, Stamps start (f value)) : Stamps start (p >>= f) := by
  rintro cursor tree cursor' reads
  obtain ⟨value, middle, -, reads⟩ := bind_eq_some.mp reads
  exact stamps value reads

theorem Stamps.orElse {p q} (first : Stamps start p) (second : Stamps start q) :
    Stamps start (p <|> q) := by
  rintro cursor tree cursor' reads
  rcases orElse_eq_some.mp reads with reads | ⟨-, reads⟩
  · exact first reads
  · exact second reads

theorem Stamps.failure : Stamps start failure :=
  fun _ _ _ reads => nomatch reads

theorem Covers.node (kind : Kind) (p : Phrases) : Covers (node kind p) := by
  rintro cursor trees cursor' reads
  obtain ⟨token, rest, children, tokens, -, rfl⟩ := node_eq_some.mp reads
  exact ⟨_, rfl, by rw [tokens]; rfl, rfl⟩

theorem Covers.orElse (first : Covers p) (second : Covers q) : Covers (p <|> q) := by
  rintro cursor trees cursor' reads
  rcases orElse_eq_some.mp reads with reads | ⟨-, reads⟩
  · exact first reads
  · exact second reads

theorem Covers.guardThat (condition : Bool) (covers : Covers p) :
    Covers (do guardThat condition; p) := by
  rintro cursor trees cursor' reads
  obtain ⟨_, middle, passed, further⟩ := bind_eq_some.mp reads
  cases condition with
  | true =>
    obtain rfl := (pure_eq_some.mp passed).2
    exact covers further
  | false => cases passed

theorem Covers.afterModifiers (stamps : ∀ start marks, Stamps start (rest start marks)) :
    Covers (afterModifiers rules rest) := by
  rintro cursor trees cursor' reads
  obtain ⟨start, middle, placed, reads⟩ := bind_eq_some.mp reads
  obtain ⟨rfl, token, others, tokens, rfl⟩ := place_eq_some.mp placed
  obtain ⟨marks, middle, -, reads⟩ := bind_eq_some.mp reads
  obtain ⟨tree, last, rfl⟩ := bind_pure_eq_some.mp reads
  obtain ⟨start, stop⟩ := stamps _ _ last
  exact ⟨tree, rfl, by rw [tokens, start]; rfl, stop⟩

theorem stamps_fieldRest (kind : Kind) (marks : List Tree) :
    Stamps start (fieldRest rules kind start marks) :=
  .bind fun _ => .bind fun _ => .bind fun _ => .nodeFrom _ _

theorem stamps_methodRest (marks : List Tree) : Stamps start (methodRest rules start marks) :=
  .bind fun _ => .bind fun _ => .bind fun _ => .bind fun _ => .bind fun _ => .bind fun _ =>
    .bind fun _ => .nodeFrom _ _

theorem stamps_constructorRest (marks : List Tree) :
    Stamps start (constructorRest rules start marks) :=
  .bind fun _ => .bind fun _ => .bind fun _ => .bind fun _ => .bind fun _ => .nodeFrom _ _

theorem stamps_annotationElementRest (marks : List Tree) :
    Stamps start (annotationElementRest rules start marks) := by
  rw [annotationElementRest_eq]
  exact .bind fun _ => .bind fun _ => .nodeFrom _ _

theorem stamps_bracedRest (kind : BodyKind) (marks : List Tree) :
    Stamps start (bracedRest rules kind start marks) :=
  match kind with
  | .ofClass => (stamps_constructorRest marks).orElse <|
      .orElse (.bind fun _ => .bind fun _ => .nodeFrom _ _) (stamps_methodRest marks)
  | .ofInterface => stamps_methodRest marks
  | .ofAnnotationType => .failure

theorem stamps_openRest (kind : BodyKind) (marks : List Tree) :
    Stamps start (openRest rules kind start marks) :=
  match kind with
  | .ofClass | .ofInterface => stamps_fieldRest _ marks
  | .ofAnnotationType => (stamps_annotationElementRest marks).orElse (stamps_fieldRest _ marks)

theorem stamps_typeDeclarationRest (marks : List Tree) :
    Stamps start (typeDeclarationRest rules (member rules .ofClass) start marks) := by
  have each : ∀ form : TypeForm, Stamps start (form.rest rules start marks) :=
    fun form => .bind fun _ => .bind fun _ => .nodeFrom _ _
  rw [typeDeclarationRest_eq]
  exact (each _).orElse <| (each _).orElse <| (each _).orElse <| (each _).orElse (each _)

theorem covers_typeDeclaration : Covers (typeDeclaration rules) :=
  .afterModifiers fun _ => stamps_typeDeclarationRest

theorem covers_bracedMember (kind : BodyKind) (types : Covers (rules .typeDeclaration)) :
    Covers (bracedMember rules kind) :=
  (Covers.guardThat _ (.node _ _)).orElse <| types.orElse <|
    .afterModifiers fun _ => stamps_bracedRest kind

theorem covers_openMember (kind : BodyKind) : Covers (openMember rules kind) :=
  .afterModifiers fun _ => stamps_openRest kind

end Coverage

/-! ## Excerpts -/

/-- A text that a parser reads as one phrase wherever it stands, if the tokens after it are of a
kind. The places of the tokens and of the phrase are counted from the start of the text. -/
structure Excerpt (parser : Rules → Phrases) (before : List Token → Prop) (x : List Char)
    (tokens : List Token) (tree : Tree) : Prop where
  spans : ∀ y, Shape.Separates [] y → Token.Spans y x tokens
  reads : Reads parser before tokens [tree]
  start : tree.start = 0
  stop : tree.stop = x.length
  sound : tree.hasError = false

/-- A text is found at a place of a source. -/
def FoundAt (source x : List Char) (place : Nat) : Prop :=
  x <+: source.drop place

/-- A phrase of a source is the phrase of an excerpt. -/
def IsExcerpt (parser : Rules → Phrases) (before : List Token → Prop)
    (source : List Char) (tree : Tree) : Prop :=
  ∃ place x tokens tree', FoundAt source x place ∧ tree = move place tree' ∧
    Excerpt parser before x tokens tree'

theorem separates_of_nil (separates : Shape.Separates [] y) : Shape.Separates z y := by
  obtain ⟨c, rest, rfl, calm, slash⟩ := separates
  exact ⟨c, rest, rfl, calm, fun same => nomatch slash same⟩

/-- A piece of a source whose phrase is read everywhere is an excerpt. -/
theorem Excerpt.of_piece (piece : Token.Piece source place x z tokens) (settled : Shape.Settled x z)
    (reads : Reads parser before tokens [tree])
    (start : (move place tokens ++ rest).head?.map (·.start) = some (move place tree).start)
    (stop : (move place tree).stop = place + x.length)
    (sound : (move place tree).hasError = false) :
    Excerpt parser before x tokens tree where
  spans y separates := piece.spans.relex piece.clean settled (separates_of_nil separates)
  reads := reads
  start := by
    have zero := piece.start
    obtain ⟨first, tokens, rfl⟩ := exists_cons_of_ne_nil piece.spans.tokens_ne_nil
    simp only [move_cons, cons_append, head?_cons, Option.map_some, Option.some.injEq,
      Token.start_move, Tree.start_move] at start zero
    omega
  stop := by
    rw [Tree.stop_move] at stop
    omega
  sound := by rwa [Tree.hasError_move] at sound

/-- The semicolon or brace that ends a piece is not part of a number. -/
theorem settled_of_ended (spans : Token.Spans z x tokens)
    (ended : Ended (move place tokens)) : Shape.Settled x z := by
  obtain ⟨front, last, rfl, same, -⟩ := spans.exists_last
  obtain ⟨front', last', tokens, mark⟩ := ended
  rw [move_append, move_cons, move_nil] at tokens
  obtain rfl := singleton_inj.mp (append_inj_right' tokens rfl)
  rw [Token.mark_move] at mark
  have text : last.text = ";" ∨ last.text = "\x7d" := by
    rcases mark with mark | mark
    · have symbol := @Token.isSymbol_of_mark last ";" (by decide) mark
      simp only [Token.isSymbol, Bool.and_eq_true, beq_iff_eq] at symbol
      exact .inl symbol.2
    · have symbol := @Token.isSymbol_of_mark last "\x7d" (by decide) mark
      simp only [Token.isSymbol, Bool.and_eq_true, beq_iff_eq] at symbol
      exact .inr symbol.2
  rcases text with text | text
  · exact .inr ⟨';', by rw [← same, text]; rfl, rfl⟩
  · exact .inr ⟨'\x7d', by rw [← same, text]; rfl, rfl⟩

/-! ## Members -/

section Members

variable {shift size depth last : Nat} {rules rules' : Rules} {source : List Char}
  {tokens : List Token} {kind : BodyKind}

variable {trees : List Tree} {cursor : Cursor}
variable {token : Token} {tree : Tree}

section

variable (known : Knows shift size 3 rules rules')
include known

theorem agrees_memberInBlock :
    Agrees .block shift size .fresh .amid (member rules kind) (member rules' kind) :=
  agrees_member .block (known.typeDeclaration mem_cons_self).lift known kind

theorem agrees_memberInValue :
    Agrees .value shift size .fresh ⟨true, .lost⟩ (member rules kind) (member rules' kind) :=
  agrees_member .value (.lose (known.typeDeclaration mem_cons_self)) known kind

theorem agrees_bracedMemberAlone :
    Agrees .member shift size .fresh ⟨true, .shut⟩ (bracedMember rules kind)
      (bracedMember rules' kind) :=
  agrees_bracedMember .member (known.typeDeclaration (by simp)) known kind

theorem agrees_openMemberAlone :
    Agrees .value shift size .fresh ⟨true, .shut⟩ (openMember rules kind)
      (openMember rules' kind) :=
  have semicolon : Agrees .value shift size .amid ⟨true, .shut⟩ (symbol ";") (symbol ";") :=
    .symbol_shut nofun rfl (.inl rfl)
  agrees_openMember rfl semicolon known kind

end

/-- A member that starts neither with a semicolon nor with a brace. -/
theorem member_of_plain (plain : token.isSymbol ";" = false)
    (noBlock : (token.isSymbol "\x7b" && kind == .ofClass) = false) :
    member rules kind ⟨token :: rest, last⟩ =
      (bracedMember rules kind <|> openMember rules kind) ⟨token :: rest, last⟩ := by
  have peeked : peek ⟨token :: rest, last⟩ = some (token, ⟨token :: rest, last⟩) := rfl
  rw [member_eq, bind_of_some peeked]
  simp only [plain, noBlock, Bool.false_eq_true, if_false]

/-- A member gives nothing, a block, or what stands between the two. -/
theorem member_cases (reads : member rules kind ⟨tokens, last⟩ = some (trees, cursor)) :
    trees = [] ∨ rules .block ⟨tokens, last⟩ = some (trees, cursor) ∨
      ∃ token rest, tokens = token :: rest ∧ token.isSymbol ";" = false ∧
        (token.isSymbol "\x7b" && kind == .ofClass) = false ∧
        (bracedMember rules kind <|> openMember rules kind) ⟨tokens, last⟩ =
          some (trees, cursor) := by
  rw [member_eq] at reads
  obtain ⟨token, middle, peeked, reads⟩ := bind_eq_some.mp reads
  obtain ⟨rfl, rest, rfl⟩ := peek_eq_some.mp peeked
  split at reads
  next =>
    obtain ⟨_, middle, -, result⟩ := bind_eq_some.mp reads
    exact .inl (pure_eq_some.mp result).1
  next plain =>
    split at reads
    next => exact .inr (.inl reads)
    next noBlock =>
      exact .inr (.inr ⟨token, rest, rfl, by simpa using plain, by simpa using noBlock, reads⟩)

theorem move_singleton (same : [tree] = move place trees) :
    ∃ tree', trees = [tree'] ∧ tree = move place tree' := by
  match trees with
  | [] => cases same
  | [tree'] => exact ⟨tree', rfl, singleton_inj.mp same⟩
  | _ :: _ :: _ => simp at same

/-- What a member is read as does not depend on where it stands. -/
theorem reads_member (plain : token.isSymbol ";" = false)
    (noBlock : (token.isSymbol "\x7b" && kind == .ofClass) = false)
    (reads : Reads (bracedMember · kind) before (token :: tokens) trees) :
    Reads (member · kind) before (token :: tokens) trees := by
  intro place depth' after last' deep' follows
  have here : bracedMember (close grammar depth') kind _ = _ :=
    reads place depth' after last' deep' follows
  change member (close grammar depth') kind _ = _
  rw [move_cons, cons_append] at here ⊢
  have plain' : (move place token).isSymbol ";" = false := plain
  rw [member_of_plain plain' noBlock]
  exact orElse_of_some here

theorem kind_of_block (reads : close grammar depth .block cursor = some (trees, cursor')) :
    ∀ tree ∈ trees, tree.kind = .block := by
  cases depth with
  | zero => cases reads
  | succ depth =>
    obtain ⟨token, rest, children, -, -, rfl⟩ := node_eq_some.mp reads
    exact forall_mem_singleton.mpr rfl

theorem covers_closed (positive : 0 < depth) : Covers (close grammar depth .typeDeclaration) := by
  obtain ⟨depth, rfl⟩ := Nat.exists_eq_succ_of_ne_zero (Nat.pos_iff_ne_zero.mp positive)
  exact covers_typeDeclaration

/-- The piece of a source that a parser of members reads. -/
theorem exists_shut_piece
    (agrees : Agrees level 0 tokens.length .fresh ⟨true, .shut⟩ p p) (covers : Covers p)
    (remain : Token.Remain source tokens) (reads : p ⟨tokens, last⟩ = some (trees, cursor)) :
    ∃ place x z tokens' tree, Token.Piece source place x z tokens' ∧
      tokens = move place tokens' ++ cursor.tokens ∧
      cursor = ⟨Token.scanAt (place + x.length) z, place + x.length⟩ ∧ trees = [tree] ∧
      level.run .zero tokens' = none ∧ Shape.Settled x z ∧
      tokens.head?.map (·.start) = some tree.start ∧ tree.stop = place + x.length := by
  obtain ⟨place, x, z, tokens', piece, rfl, -, rfl, shuts, ended⟩ :=
    agrees.exists_piece remain reads
  obtain ⟨tree, rfl, start, stop⟩ := covers reads
  rw [Level.run_move] at shuts
  exact ⟨place, x, z, tokens', tree, piece, rfl, rfl, rfl, shuts,
    settled_of_ended piece.spans ended, start, stop⟩

/-- A member of a source is an excerpt. -/
theorem exists_member_excerpt (remain : Token.Remain source tokens)
    (deep : 16 * tokens.length + 3 ≤ depth)
    (reads : member (close grammar depth) kind ⟨tokens, last⟩ = some (trees, cursor))
    (mem : tree ∈ trees) (noBlock : tree.kind ≠ .block) (sound : tree.hasError = false) :
    IsExcerpt (member · kind) (· ≠ []) source tree := by
  have known := @knows_self 0 tokens.length depth
  rcases member_cases reads with rfl | block | ⟨token, rest, tokens_eq, plain, notBlock,
    alternatives⟩
  · cases mem
  · exact (noBlock (kind_of_block block tree mem)).elim
  rcases orElse_eq_some.mp alternatives with braced | ⟨-, opened⟩
  · obtain ⟨place, x, z, tokens', tree, piece, rfl, rfl, rfl, shuts, settled, start, stop⟩ :=
      exists_shut_piece (agrees_bracedMemberAlone known)
        (covers_bracedMember kind (covers_closed (by omega))) remain braced
    obtain ⟨trees, same, further⟩ := exists_reads (fun known => agrees_bracedMemberAlone known)
      (⟨·, .inl shuts⟩) (Token.scanAt_ne_nil _ _) deep braced
    obtain ⟨tree', rfl, rfl⟩ := move_singleton same
    obtain rfl := mem_singleton.mp mem
    refine ⟨place, x, tokens', tree', ⟨z, piece.drop_eq.symm⟩, rfl,
      .of_piece piece settled ?_ start stop sound⟩
    obtain ⟨first, tokens', rfl⟩ := exists_cons_of_ne_nil piece.spans.tokens_ne_nil
    obtain ⟨rfl, -⟩ := List.cons.inj tokens_eq
    rw [Token.isSymbol_move] at plain notBlock
    exact reads_member plain notBlock further
  · -- A field is no other member, and whether it is one shows up to its semicolon.
    obtain ⟨place, x, z, tokens', tree, piece, rfl, rfl, rfl, shuts, settled, start, stop⟩ :=
      exists_shut_piece (agrees_openMemberAlone known) (covers_openMember kind) remain opened
    obtain ⟨trees, same, further⟩ := exists_reads (fun known => agrees_memberInValue known)
      (⟨·, .inl shuts⟩) (Token.scanAt_ne_nil _ _) deep reads
    obtain ⟨tree', rfl, rfl⟩ := move_singleton same
    obtain rfl := mem_singleton.mp mem
    exact ⟨place, x, tokens', tree', ⟨z, piece.drop_eq.symm⟩, rfl,
      .of_piece piece settled further start stop sound⟩

end Members

/-! ## Constants -/

section Constants

variable {depth last : Nat} {source : List Char} {tokens : List Token}

/-- Some tokens start with one of the symbols that stand after a constant of an enumeration. -/
def AfterConstant (tokens : List Token) : Prop :=
  ∃ token rest text, tokens = token :: rest ∧ token.isSymbol text = true ∧ text ∈ [",", ";", "\x7d"]

theorem AfterConstant.stops (after : AfterConstant tokens) : Level.constant.Stops tokens := by
  obtain ⟨token, rest, text, rfl, symbol, listed⟩ := after
  refine ⟨token, rest, rfl, ?_, nofun⟩
  rw [Token.mark_of_isSymbol symbol]
  simp only [mem_cons, not_mem_nil, or_false] at listed
  rcases listed with rfl | rfl | rfl <;> rfl

theorem AfterConstant.halts (after : AfterConstant (Token.scanAt place z)) : Shape.Halts z := by
  obtain ⟨token, rest, text, scanned, symbol, listed⟩ := after
  refine Token.halts_of_scanAt scanned fun c first => ?_
  simp only [Token.isSymbol, Bool.and_eq_true, beq_iff_eq] at symbol
  rw [symbol.2] at first
  simp only [mem_cons, not_mem_nil, or_false] at listed
  rcases listed with rfl | rfl | rfl <;> cases first <;> rfl

theorem isSymbol_proper {token : Token} {text : String} (symbol : token.isSymbol text = true) :
    token.kind ≠ .finish := by
  intro finish
  simp [Token.isSymbol, finish] at symbol

theorem AfterConstant.not_atFinish (after : AfterConstant tokens) : ¬AtFinish tokens := by
  obtain ⟨token, rest, text, rfl, symbol, -⟩ := after
  rintro ⟨first, others, same, finish⟩
  obtain ⟨rfl, -⟩ := List.cons.inj same
  exact isSymbol_proper symbol finish

/-- A constant of an enumeration in a source is an excerpt. -/
theorem constant_excerpts (remain : Token.Remain source tokens)
    (deep : 16 * tokens.length + 3 ≤ depth)
    (reads : enumConstant (close grammar depth) ⟨tokens, last⟩ = some (trees, cursor))
    (after : AfterConstant cursor.tokens) (sound : ∀ tree ∈ trees, tree.hasError = false) :
    ∀ tree ∈ trees, IsExcerpt enumConstant Level.constant.Stops source tree := by
  have known := @knows_self 0 tokens.length depth
  obtain ⟨place, x, z, tokens', piece, rfl, -, rfl, leads⟩ :=
    (agrees_enumConstant known).exists_piece remain reads
  have path : Level.constant.run .zero tokens' = some .zero := by
    rw [← Level.run_move _ _ place]
    exact leads.resolve_right after.not_atFinish
  have follows : ∀ {after}, Level.constant.Stops after → Level.constant.Follows tokens' after :=
    fun stops => ⟨fun empty => by obtain ⟨_, _, same, -⟩ := stops; simp [empty] at same,
      .inr ⟨rfl, path, stops⟩⟩
  obtain ⟨trees, rfl, further⟩ :=
    exists_reads (fun known => agrees_enumConstant known) follows after.stops deep reads
  obtain ⟨tree, same, start, stop⟩ := Covers.node _ _ reads
  obtain ⟨tree, rfl, rfl⟩ := move_singleton same.symm
  rw [same, forall_mem_singleton] at sound ⊢
  exact ⟨place, x, tokens', tree, ⟨z, piece.drop_eq.symm⟩, rfl,
    .of_piece piece (.inl after.halts) further start stop sound⟩

end Constants

end JavaSlice.Syntax.Grammar
