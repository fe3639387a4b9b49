import JavaSlice.Proofs.Writing.Excerpts

/-!
# Excerpts of type declarations

A type declaration is cut into its header and its body, and the body into constants and members.
-/

namespace JavaSlice.Syntax.Grammar

open List Syntax.Parser

/-! ## What parsers give -/

/-- Every phrase that a parser gives passes a test. -/
def Yields (good : Tree → Prop) (p : Phrases) : Prop :=
  ∀ cursor trees cursor', p cursor = some (trees, cursor') → ∀ tree ∈ trees, good tree

namespace Yields

variable {α : Type} {good : Tree → Prop} {p q : Phrases}

theorem pure (all : ∀ tree ∈ trees, good tree) : Yields good (pure trees) := by
  rintro cursor trees' cursor' reads
  obtain ⟨rfl, -⟩ := pure_eq_some.mp reads
  exact all

theorem then_ {p : Parser α} {f : α → Phrases} (yields : ∀ value, Yields good (f value)) :
    Yields good (p >>= f) := by
  rintro cursor trees cursor' reads
  obtain ⟨value, middle, -, further⟩ := bind_eq_some.mp reads
  exact yields value _ _ _ further

theorem bind (first : Yields good p)
    (second : ∀ trees, (∀ tree ∈ trees, good tree) → Yields good (f trees)) :
    Yields good (p >>= f) := by
  rintro cursor trees cursor' reads
  obtain ⟨value, middle, begun, further⟩ := bind_eq_some.mp reads
  exact second value (first _ _ _ begun) _ _ _ further

theorem orElse (first : Yields good p) (second : Yields good q) : Yields good (p <|> q) := by
  rintro cursor trees cursor' reads
  rcases orElse_eq_some.mp reads with reads | ⟨-, reads⟩
  · exact first _ _ _ reads
  · exact second _ _ _ reads

theorem maybe (yields : Yields good p) : Yields good (maybe p) :=
  yields.orElse (.pure nofun)

theorem many (yields : Yields good p) : Yields good (many p) := by
  have several : ∀ bound, Yields good (repeatBounded p bound) := by
    intro bound
    induction bound with
    | nil => exact .pure nofun
    | cons token bound ih =>
      exact .orElse (.bind yields fun _ first => .bind ih fun _ rest =>
        .pure (by simpa [or_imp, forall_and] using ⟨first, rest⟩)) (.pure nofun)
  exact fun cursor => several cursor.tokens cursor

theorem node (all : ∀ start stop children, good (.node kind none start stop children)) :
    Yields good (node kind p) := by
  rintro cursor trees cursor' reads tree mem
  obtain ⟨token, rest, children, -, -, rfl⟩ := node_eq_some.mp reads
  obtain rfl := mem_singleton.mp mem
  exact all _ _ _

theorem inRole (all : ∀ tree : Tree, good (tree.withRole role)) : Yields good (inRole role p) := by
  rintro cursor trees cursor' reads tree mem
  obtain ⟨trees', -, rfl⟩ := inRole_eq_some.mp reads
  obtain ⟨tree', -, rfl⟩ := mem_map.mp mem
  exact all tree'

end Yields

/-! ## Headers -/

namespace TypeForm

variable {form : TypeForm}
variable {token : Token}

/-- The modifiers and the header of a declaration. -/
def front (rules : Rules) (form : TypeForm) : Phrases := do
  let marks ← modifiers rules
  let parts ← form.header rules
  pure (marks ++ parts)

/-- A declaration of a form. -/
def declaration (rules : Rules) (form : TypeForm) : Phrases := do
  let start ← place
  let front ← form.front rules
  let body ← Parser.inRole .body (form.body rules)
  pure [← nodeFrom form.kind start (front ++ body)]

/-- Whether a token is the keyword of a form. -/
def opens : TypeForm → Token → Bool
  | ofClass, token => token.isWord "class"
  | ofInterface, token => token.isWord "interface"
  | ofEnum, token => token.isWord "enum"
  | ofRecord, token => token.isWord "record"
  | ofAnnotationType, token => token.isSymbol "@interface"

theorem opens_unique (opens : form.opens token) (opens' : form'.opens token) : form = form' := by
  cases form <;> cases form' <;> simp_all [TypeForm.opens, Token.isWord, Token.isSymbol]

theorem opens_proper (opens : form.opens token) : token.kind ≠ .finish := by
  intro finish
  cases form <;> simp [TypeForm.opens, Token.isWord, Token.isSymbol, finish] at opens

theorem keyword_eq_some :
    form.keyword cursor = some (value, cursor') ↔
      ∃ token rest, cursor.tokens = token :: rest ∧ form.opens token ∧
        cursor' = ⟨rest, token.stop⟩ := by
  cases form with
  | ofAnnotationType => exact symbol_eq_some
  | _ => exact word_eq_some

end TypeForm

section Headers

variable {rules : Rules} {form form' : TypeForm}
variable {cursor : Cursor} {tokens : List Token} {parts : List Tree}
variable {result : List Tree × Cursor} {last place : Nat}

theorem afterModifiers_rest (form : TypeForm) :
    afterModifiers rules (form.rest rules) = form.declaration rules := by
  simp [afterModifiers, TypeForm.rest, TypeForm.declaration, TypeForm.front]

theorem typeDeclaration_eq_orElse :
    typeDeclaration rules = (TypeForm.ofClass.declaration rules <|>
      TypeForm.ofInterface.declaration rules <|>
      TypeForm.ofEnum.declaration rules <|> TypeForm.ofRecord.declaration rules <|>
      TypeForm.ofAnnotationType.declaration rules) := by
  have rest : typeDeclarationRest rules (member rules .ofClass) = fun start marks =>
      (TypeForm.ofClass.rest rules start marks <|> TypeForm.ofInterface.rest rules start marks <|>
        TypeForm.ofEnum.rest rules start marks <|> TypeForm.ofRecord.rest rules start marks <|>
        TypeForm.ofAnnotationType.rest rules start marks) := by
    funext start marks
    rw [typeDeclarationRest_eq]
  simp only [typeDeclaration_eq, rest, afterModifiers_orElse, ← afterModifiers_rest]

/-- A header starts with the keyword of its form, and no other form reads it. -/
theorem front_unique (reads : form.front rules cursor = some result)
    (reads' : form'.front rules cursor = some result') : form = form' := by
  obtain ⟨marks, middle, begun, further⟩ := bind_eq_some.mp reads
  obtain ⟨marks', middle', begun', further'⟩ := bind_eq_some.mp reads'
  obtain ⟨rfl, rfl⟩ := Prod.mk.inj (Option.some.inj (begun.symm.trans begun'))
  obtain ⟨parts, after, header, -⟩ := bind_eq_some.mp further
  obtain ⟨parts', after', header', -⟩ := bind_eq_some.mp further'
  obtain ⟨_, _, keyword, -⟩ := bind_eq_some.mp header
  obtain ⟨_, _, keyword', -⟩ := bind_eq_some.mp header'
  obtain ⟨token, rest, tokens, opens, -⟩ := TypeForm.keyword_eq_some.mp keyword
  obtain ⟨token', rest', tokens', opens', -⟩ := TypeForm.keyword_eq_some.mp keyword'
  obtain ⟨rfl, -⟩ := cons.inj (tokens.symm.trans tokens')
  exact TypeForm.opens_unique opens opens'

/-- A declaration of a form is a type declaration, if the headers of the other forms are not
there. -/
theorem typeDeclaration_of_form (reads : form.declaration rules cursor = some result)
    (others : ∀ form', form' ≠ form → form'.front rules cursor = none) :
    typeDeclaration rules cursor = some result := by
  have fails : ∀ form', form' ≠ form → form'.declaration rules cursor = none := by
    intro form' other
    cases found : form'.declaration rules cursor with
    | none => rfl
    | some result' =>
      obtain ⟨start, middle, placed, further⟩ := bind_eq_some.mp found
      obtain ⟨rfl, -⟩ := place_eq_some.mp placed
      obtain ⟨front, after, header, -⟩ := bind_eq_some.mp further
      rw [others form' other] at header
      cases header
  rw [typeDeclaration_eq_orElse]
  cases form <;> simp [orElse_eq_some, fails, reads]

/-- A type declaration has one of the forms. -/
theorem exists_form (reads : typeDeclaration rules cursor = some result) :
    ∃ form : TypeForm, form.declaration rules cursor = some result := by
  rw [typeDeclaration_eq_orElse] at reads
  simp only [orElse_eq_some] at reads
  rcases reads with reads | ⟨-, reads | ⟨-, reads | ⟨-, reads | ⟨-, reads⟩⟩⟩⟩ <;> exact ⟨_, reads⟩

theorem yields_clauses (rules : Rules) (form : TypeForm) :
    Yields (fun tree => tree.role ≠ some .body) (form.clauses rules) := by
  have plain : ∀ {kind : Kind} {p : Phrases},
      Yields (fun tree => tree.role ≠ some .body) (maybe (node kind p)) := by
    intro kind p
    exact .maybe (.node fun _ _ _ => nofun)
  cases form with
  | ofClass =>
    exact .bind plain fun _ first => .bind plain fun _ second => .bind plain fun _ third =>
      .bind plain fun _ fourth =>
        .pure (by simpa [or_imp, forall_and] using ⟨first, second, third, fourth⟩)
  | ofInterface =>
    exact .bind plain fun _ first => .bind plain fun _ second => .bind plain fun _ third =>
      .pure (by simpa [or_imp, forall_and] using ⟨first, second, third⟩)
  | ofEnum => exact plain
  | ofRecord =>
    exact .bind plain fun _ first => .bind (.inRole fun tree => by cases tree <;> nofun)
        fun _ second =>
      .bind plain fun _ third => .pure (by simpa [or_imp, forall_and] using ⟨first, second, third⟩)
  | ofAnnotationType => exact .pure nofun

theorem agrees_front (form : TypeForm) : Steady .head 3 (form.front ·) := fun known =>
  .bind (agrees_modifiers known).lift fun _ => .map (agrees_header known form) (by simp)

/-- The parts of a header: modifiers, the name and what stands after it. -/
structure Named (name : Token) (parts : List Tree) : Prop where
  split : ∃ marks clauses : List Tree,
    parts = marks ++ .node .identifier (some .name) name.start name.stop [] :: clauses ∧
    (∀ tree ∈ marks, tree.role = none) ∧ ∀ tree ∈ clauses, tree.role ≠ some .body

theorem exists_name (known : Knows 0 tokens.length 3 rules rules)
    (finish : ∃ token ∈ tokens, token.kind = .finish)
    (reads : form.front rules ⟨tokens, last⟩ = some (parts, cursor)) :
    ∃ before name after, tokens = before ++ name :: after ++ cursor.tokens ∧ isName name ∧
      Named name parts := by
  obtain ⟨marks, ⟨middle, last'⟩, begun, further⟩ := bind_eq_some.mp reads
  obtain ⟨taken, rfl, -, proper, -⟩ :=
    (agrees_modifiers known).exists_taken (Nat.le_refl _) finish begun
  have roles : ∀ tree ∈ marks, tree.role = none :=
    Yields.maybe (.node fun _ _ _ => rfl) _ _ _ begun
  obtain ⟨parts, header, rfl⟩ := bind_pure_eq_some.mp further
  obtain ⟨_, _, keyword, further⟩ := bind_eq_some.mp header
  obtain ⟨opener, rest, rfl, opens, rfl⟩ := TypeForm.keyword_eq_some.mp keyword
  obtain ⟨named, _, declared, further⟩ := bind_eq_some.mp further
  obtain ⟨named, leaf, rfl⟩ := inRole_eq_some.mp declared
  obtain ⟨name, rest, rfl, nameProper, isName, rfl, rfl⟩ := leaf_eq_some.mp leaf
  obtain ⟨clauses, more, rfl⟩ := bind_pure_eq_some.mp further
  have finish' : ∃ token ∈ rest, token.kind = .finish := by
    obtain ⟨token, mem, kind⟩ := finish
    simp only [mem_append, mem_cons] at mem
    rcases mem with inside | rfl | rfl | inside
    · exact (proper token inside kind).elim
    · exact (TypeForm.opens_proper opens kind).elim
    · exact (nameProper kind).elim
    · exact ⟨token, inside, kind⟩
  obtain ⟨taken', rfl, -⟩ := (agrees_clauses (known.mono (by simp; omega)) form).exists_taken
    (Nat.le_refl _) finish' more
  refine ⟨taken ++ [opener], name, taken', by simp, isName, marks, clauses, rfl, roles, ?_⟩
  exact yields_clauses rules form _ _ _ more

/-- Some tokens start with the brace that opens a body. -/
def AtBrace (tokens : List Token) : Prop :=
  ∃ token rest, tokens = token :: rest ∧ token.isSymbol "\x7b" = true

theorem AtBrace.stops (brace : AtBrace tokens) : Level.head.Stops tokens := by
  obtain ⟨token, rest, rfl, symbol⟩ := brace
  have mark := Token.mark_of_isSymbol symbol
  exact ⟨token, rest, rfl, by rw [mark]; rfl, fun _ => mark⟩

theorem AtBrace.not_atFinish (brace : AtBrace tokens) : ¬AtFinish tokens := by
  obtain ⟨token, rest, rfl, symbol⟩ := brace
  rintro ⟨first, others, same, finish⟩
  obtain ⟨rfl, -⟩ := cons.inj same
  exact isSymbol_proper symbol finish

theorem AtBrace.halts (brace : AtBrace (Token.scanAt place z)) : Shape.Halts z := by
  obtain ⟨token, rest, scanned, symbol⟩ := brace
  refine Token.halts_of_scanAt scanned fun c first => ?_
  simp only [Token.isSymbol, Bool.and_eq_true, beq_iff_eq] at symbol
  rw [symbol.2] at first
  cases first
  rfl

theorem AtBrace.follows (brace : AtBrace tokens)
    (path : Level.head.run .zero window = some .zero) : Level.head.Follows window tokens := by
  refine ⟨?_, .inr ⟨rfl, path, brace.stops⟩⟩
  obtain ⟨token, rest, rfl, -⟩ := brace
  exact cons_ne_nil _ _

/-- Tokens that are read as the header of a type wherever a body comes after them. -/
structure Heading (form : TypeForm) (tokens : List Token) (parts : List Tree) : Prop where
  path : Level.head.run .zero tokens = some .zero
  reads : Reads (form.front ·) AtBrace tokens parts
  others : ∀ form' : TypeForm, form' ≠ form → Rejects (form'.front ·) AtBrace tokens
  named : ∃ name ∈ tokens, Named name parts

/-- The parts of a moved header. -/
theorem Named.of_move (named : Named (move place name) (move place parts)) : Named name parts := by
  obtain ⟨marks, clauses, split, roles, roles'⟩ := named.split
  obtain ⟨marks, rest, rfl, rfl, same⟩ := map_eq_append_iff.mp split
  obtain ⟨⟨kind, role, start, stop, children⟩ | _, clauses, rfl, identifier, rfl⟩ :=
    map_eq_cons_iff.mp same
  swap
  · cases identifier
  rw [Tree.move_node] at identifier
  simp only [Tree.node.injEq, Token.start_move, Token.stop_move, Nat.add_right_cancel_iff,
    move_eq_nil_iff] at identifier
  obtain ⟨rfl, rfl, rfl, rfl, rfl⟩ := identifier
  refine ⟨marks, clauses, rfl, fun tree mem => ?_, fun tree mem => ?_⟩
  · rw [← roles _ (mem_map_of_mem mem), Tree.role_move]
  · have := roles' _ (mem_map_of_mem mem)
    rwa [Tree.role_move] at this

/-- The header of a type in a source. -/
theorem exists_heading (remain : Token.Remain source tokens) (deep : 16 * tokens.length + 3 ≤ depth)
    (reads : form.front (close grammar depth) ⟨tokens, last⟩ = some (parts, cursor))
    (brace : AtBrace cursor.tokens) :
    ∃ place x z tokens' parts', Token.Piece source place x z tokens' ∧
      tokens = move place tokens' ++ cursor.tokens ∧
      Token.Remain source cursor.tokens ∧
        cursor = ⟨Token.scanAt (place + x.length) z, place + x.length⟩ ∧
      parts = move place parts' ∧ Heading form tokens' parts' := by
  have known := @knows_self 0 tokens.length depth
  obtain ⟨before, name, after, tokens_eq, -, named⟩ := exists_name known remain.exists_finish reads
  obtain ⟨place, x, z, tokens', piece, rfl, remain', rfl, leads⟩ :=
    (agrees_front form known).exists_piece remain reads
  have path : Level.head.run .zero tokens' = some .zero := by
    rw [← Level.run_move _ _ place]
    exact leads.resolve_right brace.not_atFinish
  obtain ⟨parts, rfl, further⟩ :=
    exists_reads (fun known => agrees_front form known) (·.follows path) brace deep reads
  refine ⟨place, x, z, tokens', parts, piece, rfl, remain', rfl, rfl, path, further, ?_, ?_⟩
  · intro form' other
    have fails : form'.front (close grammar depth)
        ⟨move place tokens' ++ Token.scanAt (place + x.length) z, last⟩ = none := by
      cases found : form'.front (close grammar depth)
          ⟨move place tokens' ++ Token.scanAt (place + x.length) z, last⟩ with
      | none => rfl
      | some result => exact (other (front_unique found reads)).elim
    exact rejects_of_fails (fun known => agrees_front form' known) (·.follows path) brace deep fails
  · have window : before ++ name :: after = move place tokens' :=
      (append_cancel_right tokens_eq).symm
    have inside : name ∈ move place tokens' := by simp [← window]
    obtain ⟨name, mem, rfl⟩ := mem_map.mp inside
    exact ⟨name, mem, named.of_move⟩

end Headers

/-! ## Bodies -/

section Bodies

variable {source : List Char} {tokens : List Token} {depth last : Nat} {kind : BodyKind}
variable {trees : List Tree} {cursor : Cursor}

section

variable (remain : Token.Remain source tokens) (deep : 16 * tokens.length + 3 ≤ depth)
include remain deep

/-- The members of a body in a source are excerpts. -/
theorem members_excerpts
    (reads : many (member (close grammar depth) kind <|> badPiece true) ⟨tokens, last⟩ =
      some (trees, cursor))
    (sound : ∀ tree ∈ trees, tree.hasError = false) :
    ∀ tree ∈ trees, tree.kind ≠ .block → IsExcerpt (member · kind) (· ≠ []) source tree := by
  refine (many_induction (fun cursor => Token.Remain source cursor.tokens ∧
    cursor.tokens.length ≤ tokens.length) _ ?_ ⟨remain, Nat.le_refl _⟩ reads sound).2
  rintro ⟨tokens', last'⟩ trees cursor' ⟨remain, shorter⟩ step sound
  have deep' : 16 * tokens'.length + 3 ≤ depth := by
    dsimp only at shorter
    omega
  rcases orElse_eq_some.mp step with step | ⟨-, bad⟩
  · have known := @knows_self 0 tokens'.length depth
    obtain ⟨remain', shorter'⟩ := (agrees_memberInBlock known).remain remain step
    exact ⟨⟨remain', Nat.le_trans shorter' shorter⟩, fun tree mem noBlock =>
      exists_member_excerpt remain deep' step mem noBlock (sound tree mem)⟩
  · obtain ⟨token, rest, children, -, -, rfl⟩ := node_eq_some.mp bad
    cases sound _ mem_cons_self

/-- The constants after the first one; a symbol that ends a constant stands before each of them. -/
theorem laterConstants_excerpts
    (reads : repeatBounded (do symbol ","; enumConstant (close grammar depth)) bound
      ⟨tokens, last⟩ = some (trees, cursor))
    (after : AfterConstant cursor.tokens) (sound : ∀ tree ∈ trees, tree.hasError = false) :
    AfterConstant tokens ∧ ∀ tree ∈ trees,
      IsExcerpt enumConstant Level.constant.Stops source tree := by
  induction bound generalizing tokens last trees with
  | nil =>
    obtain ⟨rfl, rfl⟩ := pure_eq_some.mp reads
    exact ⟨after, nofun⟩
  | cons token bound ih =>
    rw [repeatBounded, orElse_eq_some] at reads
    rcases reads with reads | ⟨-, stopped⟩
    · obtain ⟨first, ⟨tokens', last'⟩, one, further⟩ := bind_eq_some.mp reads
      obtain ⟨rest, more, rfl⟩ := bind_pure_eq_some.mp further
      obtain ⟨_, _, separator, constant⟩ := bind_eq_some.mp one
      obtain ⟨comma, others, rfl, symbol, rfl⟩ := symbol_eq_some.mp separator
      have remain' := remain.tail (isSymbol_proper symbol)
      have deep' : 16 * others.length + 3 ≤ depth := by
        rw [length_cons] at deep
        omega
      have known := @knows_self 0 others.length depth
      obtain ⟨soundFirst, soundRest⟩ := forall_mem_append.mp sound
      obtain ⟨remain'', shorter⟩ := (agrees_enumConstant known).remain remain' constant
      obtain ⟨after', restGood⟩ := ih remain'' (by dsimp only at shorter ⊢; omega) more soundRest
      have good := constant_excerpts remain' deep' constant after' soundFirst
      exact ⟨⟨comma, others, ",", rfl, symbol, by simp⟩, forall_mem_append.mpr ⟨good, restGood⟩⟩
    · obtain ⟨rfl, rfl⟩ := pure_eq_some.mp stopped
      exact ⟨after, nofun⟩

/-- The constants of an enumeration in a source are excerpts. -/
theorem constants_excerpts
    (reads : commas (enumConstant (close grammar depth)) ⟨tokens, last⟩ = some (trees, cursor))
    (after : AfterConstant cursor.tokens) (sound : ∀ tree ∈ trees, tree.hasError = false) :
    ∀ tree ∈ trees, IsExcerpt enumConstant Level.constant.Stops source tree := by
  rcases orElse_eq_some.mp reads with reads | ⟨-, stopped⟩
  · obtain ⟨first, ⟨tokens', last'⟩, constant, further⟩ := bind_eq_some.mp reads
    obtain ⟨rest, more, rfl⟩ := bind_pure_eq_some.mp further
    have known := @knows_self 0 tokens.length depth
    obtain ⟨soundFirst, soundRest⟩ := forall_mem_append.mp sound
    obtain ⟨remain', shorter⟩ := (agrees_enumConstant known).remain remain constant
    obtain ⟨after', restGood⟩ :=
      laterConstants_excerpts remain' (by dsimp only at shorter ⊢; omega) more after soundRest
    exact forall_mem_append.mpr ⟨constant_excerpts remain deep constant after' soundFirst, restGood⟩
  · obtain ⟨rfl, -⟩ := pure_eq_some.mp stopped
    exact nofun

end

end Bodies

namespace TypeForm

/-- The kind of members that a form has. -/
def bodyKind : TypeForm → BodyKind
  | ofClass | ofEnum | ofRecord => .ofClass
  | ofInterface => .ofInterface
  | ofAnnotationType => .ofAnnotationType

/-- The members among the parts of a body. -/
def declarationsIn (form : TypeForm) (children : List Tree) : List Tree :=
  if form = ofEnum then ((Tree.ofKind? .enumBodyDeclarations children).map (·.children)).getD []
    else children

/-- The constants among the parts of a body. -/
def constantsIn (form : TypeForm) (children : List Tree) : List Tree :=
  if form = ofEnum then children.filter (·.kind == .enumConstant) else []

end TypeForm

section Bodies

variable {source : List Char} {tokens : List Token} {depth last : Nat}
variable {trees : List Tree} {cursor : Cursor}

/-- The body of a class, an interface, a record or a type of annotation in a source. -/
theorem exists_plainBody (remain : Token.Remain source tokens)
    (deep : 16 * tokens.length + 3 ≤ depth)
    (reads : body (close grammar depth) kind ⟨tokens, last⟩ = some (trees, cursor))
    (sound : ∀ tree ∈ trees, tree.hasError = false) :
    AtBrace tokens ∧ ∃ start children,
      trees = [.node (BodyKind.node kind) none start cursor.last children] ∧
      tokens.head?.map (·.start) = some start ∧
      ∀ tree ∈ children, tree.kind ≠ .block → IsExcerpt (member · kind) (· ≠ []) source tree := by
  obtain ⟨token, rest, children, tokens_eq, parts, rfl⟩ := node_eq_some.mp reads
  obtain ⟨_, _, opened, further⟩ := bind_eq_some.mp parts
  obtain ⟨brace, rest, rfl, symbol, rfl⟩ := symbol_eq_some.mp opened
  obtain ⟨members, middle, repeated, further⟩ := bind_eq_some.mp further
  obtain ⟨_, -, rfl⟩ := bind_pure_eq_some.mp further
  obtain ⟨rfl, -⟩ := cons.inj tokens_eq
  refine ⟨⟨brace, rest, rfl, symbol⟩, brace.start, children, rfl, rfl, ?_⟩
  refine members_excerpts (remain.tail (isSymbol_proper symbol)) ?_ repeated ?_
  · rw [length_cons] at deep
    omega
  · exact (Tree.hasError_node_iff.mp (sound _ mem_cons_self)).2

theorem kind_of_constants :
    Yields (fun tree => tree.kind = .enumConstant) (commas (enumConstant rules)) := by
  have one : Yields (fun tree => tree.kind = .enumConstant) (enumConstant rules) :=
    .node fun _ _ _ => rfl
  have later : Yields (fun tree => tree.kind = .enumConstant)
      (many (do symbol ","; enumConstant rules)) :=
    .many (.then_ fun _ => one)
  exact .maybe (.bind one fun _ first => .bind later fun _ rest =>
    .pure (by simpa [or_imp, forall_and] using ⟨first, rest⟩))

/-- What stands after the constants of an enumeration. -/
theorem afterConstant_of_rest {rules kind comma declarations middle middle' after value}
    (commaRead : trySymbol "," cursor = some (comma, middle))
    (declared : maybe (enumBodyDeclarations (member rules kind)) middle =
      some (declarations, middle'))
    (closed : symbol "\x7d" middle' = some (value, after)) : AfterConstant cursor.tokens := by
  rcases orElse_eq_some.mp commaRead with read | ⟨-, missing⟩
  · obtain ⟨_, _, read, -⟩ := bind_eq_some.mp read
    obtain ⟨token, rest, tokens, symbol, -⟩ := symbol_eq_some.mp read
    exact ⟨token, rest, ",", tokens, symbol, by simp⟩
  obtain ⟨-, rfl⟩ := pure_eq_some.mp missing
  rcases orElse_eq_some.mp declared with read | ⟨-, missing⟩
  · obtain ⟨_, _, _, -, parts, -⟩ := node_eq_some.mp read
    obtain ⟨_, _, read, -⟩ := bind_eq_some.mp parts
    obtain ⟨token, rest, tokens, symbol, -⟩ := symbol_eq_some.mp read
    exact ⟨token, rest, ";", tokens, symbol, by simp⟩
  obtain ⟨-, rfl⟩ := pure_eq_some.mp missing
  obtain ⟨token, rest, tokens, symbol, -⟩ := symbol_eq_some.mp closed
  exact ⟨token, rest, "\x7d", tokens, symbol, by simp⟩

/-- The body of an enumeration in a source. -/
theorem exists_enumBody (remain : Token.Remain source tokens)
    (deep : 16 * tokens.length + 3 ≤ depth)
    (reads : enumBody (close grammar depth) (member (close grammar depth) .ofClass) ⟨tokens, last⟩ =
      some (trees, cursor))
    (sound : ∀ tree ∈ trees, tree.hasError = false) :
    AtBrace tokens ∧ ∃ start children, trees = [.node .enumBody none start cursor.last children] ∧
      tokens.head?.map (·.start) = some start ∧
      (∀ tree ∈ TypeForm.ofEnum.declarationsIn children, tree.kind ≠ .block →
        IsExcerpt (member · .ofClass) (· ≠ []) source tree) ∧
      ∀ tree ∈ TypeForm.ofEnum.constantsIn children,
        IsExcerpt enumConstant Level.constant.Stops source tree := by
  obtain ⟨token, rest, children, tokens_eq, parts, rfl⟩ := node_eq_some.mp reads
  obtain ⟨_, _, opened, further⟩ := bind_eq_some.mp parts
  obtain ⟨brace, rest, rfl, symbol, rfl⟩ := symbol_eq_some.mp opened
  obtain ⟨constants, middle, listed, further⟩ := bind_eq_some.mp further
  obtain ⟨comma, _, commaRead, further⟩ := bind_eq_some.mp further
  obtain ⟨declarations, _, declared, further⟩ := bind_eq_some.mp further
  obtain ⟨_, closed, rfl⟩ := bind_pure_eq_some.mp further
  obtain ⟨rfl, -⟩ := cons.inj tokens_eq
  have sound' := (Tree.hasError_node_iff.mp (sound _ mem_cons_self)).2
  have kinds := kind_of_constants _ _ _ listed
  have remain' := remain.tail (isSymbol_proper symbol)
  have deep' : 16 * rest.length + 3 ≤ depth := by
    rw [length_cons] at deep
    omega
  have known := @knows_self 0 rest.length depth
  refine ⟨⟨brace, rest, rfl, symbol⟩, brace.start, constants ++ declarations, rfl, rfl, ?_, ?_⟩
  · -- The members stand in a part of their own, after the constants.
    have skipped : Tree.ofKind? .enumBodyDeclarations (constants ++ declarations) =
        Tree.ofKind? .enumBodyDeclarations declarations := by
      refine find?_append.trans ?_
      rw [find?_eq_none.mpr fun tree inside => by simp [kinds tree inside], Option.none_or]
      rfl
    rw [TypeForm.declarationsIn, if_pos rfl, skipped]
    rcases orElse_eq_some.mp declared with read | ⟨-, missing⟩
    · obtain ⟨token, others, members, -, inner, rfl⟩ := node_eq_some.mp read
      obtain ⟨_, _, separator, repeated⟩ := bind_eq_some.mp inner
      obtain ⟨semicolon, others, ahead, semicolonSymbol, rfl⟩ := symbol_eq_some.mp separator
      obtain ⟨remain₁, shorter₁⟩ := (agrees_enumConstants known).remain remain' listed
      have triedComma : Agrees .block 0 middle.tokens.length .fresh .fresh (trySymbol ",")
          (trySymbol ",") :=
        .trySymbol rfl
      obtain ⟨remain₂, shorter₂⟩ := triedComma.remain remain₁ commaRead
      rw [ahead] at remain₂ shorter₂
      rw [length_cons] at shorter₂
      refine members_excerpts (remain₂.tail (isSymbol_proper semicolonSymbol))
        (by omega) repeated ?_
      exact (Tree.hasError_node_iff.mp (sound' _ (mem_append_right _ mem_cons_self))).2
    · obtain ⟨rfl, -⟩ := pure_eq_some.mp missing
      exact nofun
  · have only : TypeForm.ofEnum.constantsIn (constants ++ declarations) ⊆ constants := by
      intro tree inside
      rw [TypeForm.constantsIn, if_pos rfl, mem_filter, mem_append] at inside
      rcases inside with ⟨inside | inside, kind⟩
      · exact inside
      · have yields : Yields (fun tree => tree.kind = .enumBodyDeclarations)
            (maybe (enumBodyDeclarations (member (close grammar depth) .ofClass))) :=
              .maybe (.node fun _ _ _ => rfl)
        simp [yields _ _ _ declared tree inside] at kind
    intro tree inside
    exact constants_excerpts remain' deep' listed (afterConstant_of_rest commaRead declared closed)
      (fun tree inside => sound' tree (mem_append_left _ inside)) tree (only inside)

/-- The body of a type in a source. -/
theorem exists_body (form : TypeForm) (remain : Token.Remain source tokens)
    (deep : 16 * tokens.length + 4 ≤ depth)
    (reads : form.body (close grammar depth) ⟨tokens, last⟩ = some (trees, cursor))
    (sound : ∀ tree ∈ trees, tree.hasError = false) :
    AtBrace tokens ∧ ∃ kind start children, trees = [.node kind none start cursor.last children] ∧
      tokens.head?.map (·.start) = some start ∧
      (∀ tree ∈ form.declarationsIn children, tree.kind ≠ .block →
        IsExcerpt (member · form.bodyKind) (· ≠ []) source tree) ∧
      ∀ tree ∈ form.constantsIn children,
        IsExcerpt enumConstant Level.constant.Stops source tree := by
  obtain ⟨depth, rfl⟩ := Nat.exists_eq_succ_of_ne_zero (show depth ≠ 0 by omega)
  cases form with
  | ofEnum =>
    obtain ⟨brace, start, children, rfl, place, members, constants⟩ :=
      exists_enumBody remain (by omega) reads sound
    exact ⟨brace, _, start, children, rfl, place, members, constants⟩
  | ofClass | ofRecord | ofInterface | ofAnnotationType =>
    obtain ⟨brace, start, children, rfl, place, members⟩ :=
      exists_plainBody remain (by omega) reads sound
    exact ⟨brace, _, start, children, rfl, place, members, nofun⟩

/-- A type in a source: a header that stands before a brace, and a body made of excerpts. -/
structure TypeExcerpt (source : List Char) where
  form : TypeForm
  place : Nat
  /-- The header up to the end of its last token, and what comes after it. -/
  (header after : List Char)
  tokens : List Token
  /-- The parts of the header, as if it stood at the start of the source. -/
  parts : List Tree
  body : Kind
  (bodyStart stop : Nat)
  children : List Tree
  piece : Token.Piece source place header after tokens
  heading : Heading form tokens parts
  brace : AtBrace (Token.scanAt (place + header.length) after)
  bodyPlace : (Token.scanAt (place + header.length) after).head?.map (·.start) = some bodyStart
  sound : ∀ tree ∈ parts, tree.hasError = false
  members : ∀ tree ∈ form.declarationsIn children, tree.kind ≠ .block →
    IsExcerpt (member · form.bodyKind) (· ≠ []) source tree
  constants : ∀ tree ∈ form.constantsIn children,
    IsExcerpt enumConstant Level.constant.Stops source tree

/-- The phrase of a type in a source. -/
def TypeExcerpt.tree (type : TypeExcerpt source) : Tree :=
  .node type.form.kind none type.place type.stop
    (move type.place type.parts ++
      [.node type.body (some .body) type.bodyStart type.stop type.children])

/-- The tokens that come after the header of a type. -/
def TypeExcerpt.rest (type : TypeExcerpt source) : List Token :=
  Token.scanAt (type.place + type.header.length) type.after

/-- Every type declaration of a source is cut in this way. -/
theorem exists_typeExcerpt {form : TypeForm} (remain : Token.Remain source tokens)
    (deep : 16 * tokens.length + 4 ≤ depth)
    (reads : form.declaration (close grammar depth) ⟨tokens, last⟩ = some (trees, cursor))
    (sound : ∀ tree ∈ trees, tree.hasError = false) :
    ∃ type : TypeExcerpt source, trees = [type.tree] ∧
      tokens = move type.place type.tokens ++ type.rest := by
  obtain ⟨start, _, placed, further⟩ := bind_eq_some.mp reads
  obtain ⟨rfl, token, rest, tokens_eq, rfl⟩ := place_eq_some.mp placed
  obtain ⟨parts, ⟨tokens', last'⟩, front, further⟩ := bind_eq_some.mp further
  obtain ⟨body, _, inBody, further⟩ := bind_eq_some.mp further
  obtain ⟨tree, stamped, rfl⟩ := bind_pure_eq_some.mp further
  obtain ⟨rfl, rfl⟩ := nodeFrom_eq_some.mp stamped
  obtain ⟨bodies, bodyRead, rfl⟩ := inRole_eq_some.mp inBody
  have sound' := (Tree.hasError_node_iff.mp (sound _ mem_cons_self)).2
  have known := @knows_self 0 tokens.length depth
  obtain ⟨remain', shorter⟩ := (agrees_front form known).remain remain front
  have soundBodies : ∀ tree ∈ bodies, tree.hasError = false := by
    intro tree inside
    have := sound' _ (mem_append_right _ (mem_map_of_mem inside))
    cases tree <;> exact this
  dsimp only at remain' shorter
  obtain ⟨brace, kind, start, children, rfl, bodyPlace, members, constants⟩ :=
    exists_body form remain' (by omega) bodyRead soundBodies
  obtain ⟨place, x, z, window, parts, piece, rfl, -, cursor_eq, rfl, heading⟩ :=
    exists_heading remain (by omega) front brace
  obtain ⟨rfl, rfl⟩ := Cursor.mk.inj cursor_eq
  have start_eq : token.start = place := by
    have zero := piece.start
    obtain ⟨first, window, rfl⟩ := exists_cons_of_ne_nil piece.spans.tokens_ne_nil
    obtain ⟨rfl, -⟩ := cons.inj tokens_eq
    simp only [head?_cons, Option.map_some, Option.some.injEq] at zero
    simp [zero]
  have soundParts : ∀ tree ∈ parts, tree.hasError = false := by
    intro tree inside
    rw [← Tree.hasError_move tree]
    exact sound' _ (mem_append_left _ (mem_map_of_mem inside))
  refine ⟨⟨form, place, x, z, window, parts, kind, start, cursor.last, children, piece, heading,
    brace, bodyPlace, soundParts, members, constants⟩, ?_, rfl⟩
  rw [TypeExcerpt.tree, start_eq]
  rfl

end Bodies

end JavaSlice.Syntax.Grammar
