import JavaSlice.Proofs.Syntax.StatementPhrases

/-!
# Declarations on windows

The parsers of declarations agree on windows (`Agrees`). A declaration is a header and what ends it,
a body or a semicolon. The header is read at its own level, so that the same header may be followed
by another body; a body is read at every level at which it may stand.

At the end of the module the rules are tied together: `knows_close` says that two sets of rules that
are nested deep enough for a window agree on it.
-/

namespace JavaSlice.Syntax.Grammar

open Syntax.Parser

variable {shift size rank : Nat} {rules rules' : Rules}

/-! ## Headers -/

theorem agrees_typeList : Steady .head (rank + 2) typeList := fun known =>
  .node (.sepBy1 rfl known.type)

theorem agrees_superclass : Steady .head rank superclass := fun known =>
  .node <| .bind (.word rfl) fun _ => known.later fun known => known.type

theorem agrees_typeClause (kind : Kind) (text : String) :
    Steady .head rank (fun rules => typeClause rules kind text) := fun known =>
  .node <| .bind (.word rfl) fun _ => known.call agrees_typeList

theorem agrees_throwsClause : Steady .head rank throwsClause := fun known =>
  .node <| .bind (.word rfl) fun _ => .later fun _ lt => .sepBy1 rfl (known.below lt).type

/-- The kinds of type declaration. -/
inductive TypeForm where
  | ofClass
  | ofInterface
  | ofEnum
  | ofRecord
  | ofAnnotationType
deriving DecidableEq, Repr

namespace TypeForm

/-- The kind of a declaration of a form. -/
def kind : TypeForm → Kind
  | ofClass => .classDeclaration
  | ofInterface => .interfaceDeclaration
  | ofEnum => .enumDeclaration
  | ofRecord => .recordDeclaration
  | ofAnnotationType => .annotationTypeDeclaration

/-- The keyword of a form. -/
def keyword : TypeForm → Parser Unit
  | ofClass => word "class"
  | ofInterface => word "interface"
  | ofEnum => word "enum"
  | ofRecord => word "record"
  | ofAnnotationType => symbol "@interface"

/-- What stands between the name of a type and its body. -/
def clauses (rules : Rules) : TypeForm → Phrases
  | ofClass => do
    let parameters ← maybe (typeParameters rules)
    let parent ← maybe (superclass rules)
    let interfaces ← maybe (superInterfaces rules)
    let permitted ← maybe (typeClause rules .permits "permits")
    pure (parameters ++ parent ++ interfaces ++ permitted)
  | ofInterface => do
    let parameters ← maybe (typeParameters rules)
    let parents ← maybe (typeClause rules .extendsInterfaces "extends")
    let permitted ← maybe (typeClause rules .permits "permits")
    pure (parameters ++ parents ++ permitted)
  | ofEnum => maybe (superInterfaces rules)
  | ofRecord => do
    let parameters ← maybe (typeParameters rules)
    let components ← inRole .parameters (formalParameters rules)
    let interfaces ← maybe (superInterfaces rules)
    pure (parameters ++ components ++ interfaces)
  | ofAnnotationType => pure []

/-- The header of a declaration, after its modifiers. -/
def header (rules : Rules) (form : TypeForm) : Phrases := do
  form.keyword
  let name ← declaredName
  let clauses ← form.clauses rules
  pure (name ++ clauses)

/-- The body of a declaration. -/
def body (rules : Rules) : TypeForm → Phrases
  | ofClass | ofRecord => rules (.body .ofClass)
  | ofInterface => rules (.body .ofInterface)
  | ofEnum => enumBody rules (member rules .ofClass)
  | ofAnnotationType => rules (.body .ofAnnotationType)

/-- A declaration of a form, after its modifiers. -/
def rest (rules : Rules) (form : TypeForm) (start : Nat) (marks : List Tree) : Parser Tree := do
  let parts ← form.header rules
  let body ← inRole .body (form.body rules)
  nodeFrom form.kind start (marks ++ parts ++ body)

end TypeForm

theorem typeDeclarationRest_eq (start : Nat) (marks : List Tree) :
    typeDeclarationRest rules (member rules .ofClass) start marks =
      (TypeForm.ofClass.rest rules start marks <|> TypeForm.ofInterface.rest rules start marks <|>
        TypeForm.ofEnum.rest rules start marks <|> TypeForm.ofRecord.rest rules start marks <|>
        TypeForm.ofAnnotationType.rest rules start marks) := by
  have ofClass : classRest rules start marks = TypeForm.ofClass.rest rules start marks := by
    simp [classRest, TypeForm.rest, TypeForm.header, TypeForm.keyword, TypeForm.clauses,
      TypeForm.body, TypeForm.kind]
  have ofInterface : interfaceRest rules start marks =
      TypeForm.ofInterface.rest rules start marks := by
    simp [interfaceRest, TypeForm.rest, TypeForm.header, TypeForm.keyword, TypeForm.clauses,
      TypeForm.body, TypeForm.kind]
  have ofEnum : enumRest rules (member rules .ofClass) start marks =
      TypeForm.ofEnum.rest rules start marks := by
    simp [enumRest, TypeForm.rest, TypeForm.header, TypeForm.keyword, TypeForm.clauses,
      TypeForm.body, TypeForm.kind]
  have ofRecord : recordRest rules start marks = TypeForm.ofRecord.rest rules start marks := by
    simp [recordRest, TypeForm.rest, TypeForm.header, TypeForm.keyword, TypeForm.clauses,
      TypeForm.body, TypeForm.kind]
  have ofAnnotationType : annotationTypeRest rules start marks =
      TypeForm.ofAnnotationType.rest rules start marks := by
    simp [annotationTypeRest, TypeForm.rest, TypeForm.header, TypeForm.keyword, TypeForm.clauses,
      TypeForm.body, TypeForm.kind]
  rw [typeDeclarationRest, ofClass, ofInterface, ofEnum, ofRecord, ofAnnotationType]

theorem agrees_keyword (form : TypeForm) :
    Agrees .head shift size .fresh .amid form.keyword form.keyword := by
  cases form with
  | ofAnnotationType => exact .symbol rfl
  | _ => exact .word rfl

theorem agrees_clauses (known : Knows shift size 3 rules rules') (form : TypeForm) :
    Agrees .head shift size .fresh .fresh (form.clauses rules) (form.clauses rules') := by
  have parameters := Agrees.maybe (agrees_typeParameters known)
  cases form with
  | ofClass =>
    exact .bind parameters fun _ => .bind (.maybe (agrees_superclass known)) fun _ =>
      .bind (.maybe (agrees_typeClause _ _ known)) fun _ =>
        .map (.maybe (agrees_typeClause _ _ known)) (by simp)
  | ofInterface =>
    exact .bind parameters fun _ => .bind (.maybe (agrees_typeClause _ _ known)) fun _ =>
      .map (.maybe (agrees_typeClause _ _ known)) (by simp)
  | ofEnum => exact .maybe (agrees_typeClause _ _ known)
  | ofRecord =>
    exact .bind parameters fun _ => .bind (.inRole (agrees_formalParameters known).forget.lift)
        fun _ =>
      .map (.maybe (agrees_typeClause _ _ known)) (by simp)
  | ofAnnotationType => exact .pure rfl

theorem agrees_header (known : Knows shift size rank rules rules') (form : TypeForm) :
    Agrees .head shift size .fresh .amid (form.header rules) (form.header rules') :=
  .bind (agrees_keyword form) fun _ => .bind (agrees_declaredName rfl) fun _ =>
    .map (known.later fun known => agrees_clauses known form) (by simp)

/-! ## Members -/

/-- How members end at a level: after a semicolon, or after the braces of a body. -/
structure Closing (level : Level) (shift : Nat) (zone : Zone) : Prop where
  bodies : level.stopsAtBrace = false
  ends : level.ends = false
  braces : ∀ {α : Type} [Movable α] {size : Nat} {start : Stage} {p p' : Parser α},
    Agrees level shift size start ⟨true, level.closed⟩ p p' →
      Agrees level shift size start ⟨true, zone⟩ p p'
  semicolon : ∀ (size : Nat) (taken : Bool),
    Agrees level shift size ⟨taken, .within .zero⟩ ⟨true, zone⟩ (symbol ";") (symbol ";")

theorem Closing.block : Closing .block shift (.within .zero) :=
  ⟨rfl, rfl, id, fun _ _ => .symbol rfl⟩

theorem Closing.member : Closing .member shift .shut :=
  ⟨rfl, rfl, id, fun _ _ => .symbol_shut nofun rfl (.inl rfl)⟩

theorem Closing.value : Closing .value shift .lost :=
  ⟨rfl, rfl, .lose, fun _ _ => .lose (.symbol_shut nofun rfl (.inl rfl))⟩

section Members

variable {level : Level} {zone : Zone} (start : Nat) (marks : List Tree)

theorem agrees_methodRest [Within .head level .zero] (closing : Closing level shift zone)
    (known : Knows shift size 3 rules rules') :
    Agrees level shift size .fresh ⟨true, zone⟩ (methodRest rules start marks)
      (methodRest rules' (start + shift) (move shift marks)) :=
  .bind (.liftFrom .head <| .maybe <| .bind (agrees_typeParameters known) fun _ =>
      .map (known.later agrees_annotations) (by simp)) fun _ =>
    .bind (.liftFrom .head (.inRole (agrees_plainType known))) fun _ =>
    .bind (.liftFrom .head (agrees_declaredName rfl)) fun _ =>
    .bind (.liftFrom .head (.inRole (known.call agrees_formalParameters))) fun _ =>
    .bind (.liftFrom .head (.maybe (known.call agrees_dimensions))) fun _ =>
    .bind (.liftFrom .head (.maybe (known.call agrees_throwsClause))) fun _ =>
    .bind
      (.orElse (.inRole (.later fun _ lt => closing.braces ((known.below lt).block closing.bodies)))
      (.map (closing.semicolon _ _) (by simp))) fun _ => .nodeFrom rfl (by simp)

theorem agrees_explicitConstructorInvocation : Steady .block 3 explicitConstructorInvocation := by
  intro shift size rules rules' known
  have bases : ∀ paren : Bool, Agrees .value shift size .fresh .amid
      (if paren = true then parenthesized rules else primaryBase rules)
      (if paren = true then parenthesized rules' else primaryBase rules') := fun _ =>
    .ite (fun _ => (agrees_parenthesized known).lift) fun _ => agrees_primaryBase known
  refine .node <| .bind (.orElse
      (.bind (.maybe (agrees_typeArguments known).lift) fun _ =>
        .bind (.inRole (.orElse (.leafWord rfl) (.leafWord rfl))) fun _ =>
          .bind (.atSymbol nofun) fun _ =>
        .map .guardThat (by simp))
      (.bind (.atSymbol nofun) fun paren => .bind (agrees_primaryFrom known (bases paren)).lift
          fun _ =>
        .bind (.symbol rfl) fun _ => .bind (.maybe (known.call agrees_typeArguments)) fun _ =>
        .map (.inRole (.leafWord rfl)) (by simp))) fun _ =>
    .bind (known.call agrees_arguments) fun _ => .map (.symbol rfl) (by simp)

theorem agrees_constructorBody (known : Knows shift size rank rules rules')
    (bodies : level.stopsAtBrace = false) :
    Agrees level shift size .fresh ⟨true, level.closed⟩ (constructorBody rules)
      (constructorBody rules') :=
  have : Within .block level ⟨0, 1⟩ := .inBraces bodies
  .node <| .bind (.openBrace bodies) fun _ =>
    .bind (.maybe (known.call agrees_explicitConstructorInvocation)) fun _ =>
    .bind (known.later agrees_statements) fun _ => .map (.closeBrace bodies) (by simp)

section

variable [Within .head level .zero] (closing : Closing level shift zone)
  (known : Knows shift size 3 rules rules')
include closing known

theorem agrees_constructorRest :
    Agrees level shift size .fresh ⟨true, zone⟩ (constructorRest rules start marks)
      (constructorRest rules' (start + shift) (move shift marks)) :=
  .bind (.liftFrom .head (.maybe (agrees_typeParameters known))) fun _ =>
    .bind (.liftFrom .head (agrees_declaredName rfl)) fun _ =>
    .bind (.liftFrom .head (.inRole (known.call agrees_formalParameters))) fun _ =>
    .bind (.liftFrom .head (.maybe (known.call agrees_throwsClause))) fun _ =>
    .bind (.inRole (.later fun _ lt => closing.braces
      (agrees_constructorBody (known.below lt) closing.bodies))) fun _ => .nodeFrom rfl (by simp)

theorem agrees_compactConstructorRest :
    Agrees level shift size .fresh ⟨true, zone⟩ (compactConstructorRest rules start marks)
      (compactConstructorRest rules' (start + shift) (move shift marks)) :=
  .bind (.liftFrom .head (agrees_declaredName rfl)) fun _ =>
    .bind (.inRole (.later fun _ lt => closing.braces ((known.below lt).block closing.bodies)))
      fun _ => .nodeFrom rfl (by simp)

end

theorem agrees_fieldRest [Within .value level .zero]
    (semicolon : Agrees level shift size .amid ⟨true, zone⟩ (symbol ";") (symbol ";"))
    (known : Knows shift size 3 rules rules') :
    Agrees level shift size .fresh ⟨true, zone⟩ (fieldRest rules kind start marks)
      (fieldRest rules' kind (start + shift) (move shift marks)) :=
  .bind (.inRole (.liftFrom .value (agrees_plainType known).lift)) fun _ =>
    .bind (known.call agrees_variableDeclarators) fun _ => .bind semicolon fun _ =>
      .nodeFrom rfl (by simp)

/-- An element of a type of annotation up to the semicolon, after its modifiers. -/
def elementHeader (rules : Rules) : Phrases := do
  let type ← inRole .type (plainType rules)
  let name ← declaredName
  symbol "("
  symbol ")"
  let brackets ← maybe (dimensions rules)
  let value ← maybe do
    word "default"
    inRole .value (elementValueOrArray rules)
  pure (type ++ name ++ brackets ++ value)

theorem annotationElementRest_eq :
    annotationElementRest rules start marks = (do
      let parts ← elementHeader rules
      symbol ";"
      nodeFrom .annotationTypeElement start (marks ++ parts)) := by
  simp [annotationElementRest, elementHeader]

theorem agrees_elementHeader : Steady .value 3 elementHeader := fun known =>
  .bind (.inRole (agrees_plainType known).lift) fun _ => .bind (agrees_declaredName rfl) fun _ =>
    .bind (.openParen nofun) fun _ => .bind (.closeParen nofun) fun _ =>
    .bind (.maybe (known.call agrees_dimensions)) fun _ =>
    .map (.maybe (.bind (.word rfl) fun _ => .inRole (known.call agrees_elementValueOrArray)))
      (by simp)

theorem agrees_annotationElementRest [Within .value level .zero]
    (semicolon : Agrees level shift size .amid ⟨true, zone⟩ (symbol ";") (symbol ";"))
    (known : Knows shift size 3 rules rules') :
    Agrees level shift size .fresh ⟨true, zone⟩ (annotationElementRest rules start marks)
      (annotationElementRest rules' (start + shift) (move shift marks)) := by
  rw [annotationElementRest_eq, annotationElementRest_eq]
  exact .bind (agrees_elementHeader known).lift fun _ => .bind semicolon fun _ =>
    .nodeFrom rfl (by simp)

theorem agrees_staticInitializer [Within .head level .zero] (closing : Closing level shift zone)
    (known : Knows shift size 3 rules rules') :
    Agrees level shift size .fresh ⟨true, zone⟩ (staticInitializer rules)
      (staticInitializer rules') :=
  .node <| .bind (.liftFrom .head (.word rfl)) fun _ => .later fun _ lt =>
    closing.braces ((known.below lt).block closing.bodies)

end Members

/-! ## Bodies -/

/-- What stands after the modifiers of a declaration, with the modifiers. -/
def afterModifiers (rules : Rules) (rest : Nat → List Tree → Parser Tree) : Phrases := do
  let start ← place
  let marks ← modifiers rules
  pure [← rest start marks]

/-- A member that ends with braces, or a method without a body, after its modifiers. -/
def bracedRest (rules : Rules) : BodyKind → Nat → List Tree → Parser Tree
  | .ofClass, start, marks =>
    constructorRest rules start marks <|> compactConstructorRest rules start marks <|>
      methodRest rules start marks
  | .ofInterface, start, marks => methodRest rules start marks
  | .ofAnnotationType, _, _ => failure

/-- Any other member, after its modifiers. -/
def openRest (rules : Rules) : BodyKind → Nat → List Tree → Parser Tree
  | .ofClass, start, marks => fieldRest rules .fieldDeclaration start marks
  | .ofInterface, start, marks => fieldRest rules .constantDeclaration start marks
  | .ofAnnotationType, start, marks =>
    annotationElementRest rules start marks <|> fieldRest rules .constantDeclaration start marks

/-- A member that starts neither with a semicolon nor with a brace and ends with braces, or a method
without a body. -/
def bracedMember (rules : Rules) (kind : BodyKind) : Phrases :=
  (do guardThat (kind == .ofClass); staticInitializer rules) <|> rules .typeDeclaration <|>
    afterModifiers rules (bracedRest rules kind)

/-- A field, a constant or an element of a type of annotation. -/
def openMember (rules : Rules) (kind : BodyKind) : Phrases :=
  afterModifiers rules (openRest rules kind)

section Alternatives

variable {α β : Type} (p q r : Parser α)

theorem orElse_assoc : (p <|> q <|> r) = ((p <|> q) <|> r) := by
  funext cursor
  simp only [HOrElse.hOrElse, OrElse.orElse, Alternative.orElse, StateT.orElse]
  cases p cursor <;> rfl

theorem bind_orElse (f g : α → Parser β) :
    (p >>= fun value => f value <|> g value) = ((p >>= f) <|> (p >>= g)) := by
  funext cursor
  simp only [HOrElse.hOrElse, OrElse.orElse, Alternative.orElse, StateT.orElse, Bind.bind,
    StateT.bind]
  cases p cursor <;> rfl

theorem orElse_bind_pure (f : α → β) :
    ((p <|> q) >>= fun value => pure (f value)) =
      ((p >>= fun value => pure (f value)) <|> (q >>= fun value => pure (f value))) := by
  funext cursor
  simp only [HOrElse.hOrElse, OrElse.orElse, Alternative.orElse, StateT.orElse, Bind.bind,
    StateT.bind]
  cases p cursor <;> rfl

end Alternatives

theorem afterModifiers_orElse (first second : Nat → List Tree → Parser Tree) :
    afterModifiers rules (fun start marks => first start marks <|> second start marks) =
      (afterModifiers rules first <|> afterModifiers rules second) := by
  simp only [afterModifiers, orElse_bind_pure, bind_orElse]

theorem memberRest_eq (kind : BodyKind) :
    memberRest rules kind = fun start marks =>
      bracedRest rules kind start marks <|> openRest rules kind start marks := by
  funext start marks
  cases kind with
  | ofClass => simp only [memberRest, bracedRest, openRest, orElse_assoc]
  | ofInterface | ofAnnotationType => rfl

/-- The alternatives for a member, by what ends it. -/
theorem member_eq (kind : BodyKind) :
    member rules kind = (do
      let token ← peek
      if token.isSymbol ";" then
        symbol ";"
        pure []
      else if token.isSymbol "\x7b" && kind == .ofClass then rules .block
      else bracedMember rules kind <|> openMember rules kind) := by
  have plain : plainMember rules kind =
      (afterModifiers rules (bracedRest rules kind) <|> openMember rules kind) := by
    rw [openMember, ← afterModifiers_orElse, ← memberRest_eq]
    rfl
  simp only [member, plain, bracedMember, orElse_assoc]

section Alternatives

variable {level : Level} {zone : Zone}

theorem agrees_afterModifiers [Within .modifier level .zero] (ends : level.ends = false)
    (known : Knows shift size (rank + 1) rules rules')
    (rests : ∀ start marks, Agrees level shift size .fresh ⟨true, zone⟩ (rest start marks)
      (rest' (start + shift) (move shift marks))) :
    Agrees level shift size .fresh ⟨true, zone⟩ (afterModifiers rules rest)
      (afterModifiers rules' rest') :=
  .bind (.place ends) fun start => .bind (agrees_modifiers known).lift fun marks =>
    .map (rests start marks) (by simp)

theorem agrees_bracedRest [Within .head level .zero] (closing : Closing level shift zone)
    (known : Knows shift size 3 rules rules') (kind : BodyKind) (start : Nat) (marks : List Tree) :
    Agrees level shift size .fresh ⟨true, zone⟩ (bracedRest rules kind start marks)
      (bracedRest rules' kind (start + shift) (move shift marks)) :=
  match kind with
  | .ofClass => .orElse (agrees_constructorRest start marks closing known) <|
      .orElse (agrees_compactConstructorRest start marks closing known)
        (agrees_methodRest start marks closing known)
  | .ofInterface => agrees_methodRest start marks closing known
  | .ofAnnotationType => .failure

theorem agrees_openMember [Within .modifier level .zero] [Within .value level .zero]
    (ends : level.ends = false)
    (semicolon : Agrees level shift size .amid ⟨true, zone⟩ (symbol ";") (symbol ";"))
    (known : Knows shift size 3 rules rules') (kind : BodyKind) :
    Agrees level shift size .fresh ⟨true, zone⟩ (openMember rules kind) (openMember rules' kind) :=
  agrees_afterModifiers ends known fun start marks =>
    match kind with
    | .ofClass | .ofInterface => agrees_fieldRest start marks semicolon known
    | .ofAnnotationType => .orElse (agrees_annotationElementRest start marks semicolon known)
        (agrees_fieldRest start marks semicolon known)

section

variable [Within .head level .zero] [Within .modifier level .zero]
  (closing : Closing level shift zone)
  (nested : Agrees level shift size .fresh ⟨true, zone⟩ (rules .typeDeclaration)
    (rules' .typeDeclaration))
  (known : Knows shift size 3 rules rules') (kind : BodyKind)
include closing nested known kind

theorem agrees_bracedMember :
    Agrees level shift size .fresh ⟨true, zone⟩ (bracedMember rules kind)
      (bracedMember rules' kind) :=
  .orElse (.bind .guardThat fun _ => agrees_staticInitializer closing known) <| .orElse nested <|
    agrees_afterModifiers closing.ends known (agrees_bracedRest closing known kind)

/-- Members agree on windows. -/
theorem agrees_member [Within .value level .zero] :
    Agrees level shift size .fresh ⟨true, zone⟩ (member rules kind) (member rules' kind) := by
  rw [member_eq, member_eq]
  exact .bind (.peek closing.ends) fun _ => .ite
    (fun _ => .map (closing.semicolon _ _) (by simp)) fun _ => .ite
    (fun _ => closing.braces (known.block closing.bodies)) fun _ =>
      .orElse (agrees_bracedMember closing nested known kind)
        (agrees_openMember closing.ends (closing.semicolon _ _) known kind)

end

end Alternatives

/-! ### Type declarations -/

theorem agrees_enumConstant : Steady .constant (rank + 1) enumConstant := fun known =>
  .node <| .bind (agrees_modifiers known).lift fun _ => .bind (agrees_declaredName rfl) fun _ =>
    .bind (.maybe (known.call agrees_arguments)) fun _ =>
    .map (.maybe (.inRole (.later fun _ lt => (known.below lt).body rfl))) (by simp)

/-- The members of a body. -/
theorem agrees_members (known : Knows shift size 3 rules rules') (kind : BodyKind) :
    Agrees .block shift size .fresh .fresh (many (member rules kind <|> badPiece true))
      (many (member rules' kind <|> badPiece true)) :=
  .many (.orElse (agrees_member .block (known.typeDeclaration List.mem_cons_self).lift known kind)
    agrees_badPiece)

theorem agrees_enumBodyDeclarations (known : Knows shift size rank rules rules') :
    Agrees .block shift size .fresh .amid (enumBodyDeclarations (member rules .ofClass))
      (enumBodyDeclarations (member rules' .ofClass)) :=
  .node <| .bind (.symbol rfl) fun _ => known.later fun known => agrees_members known .ofClass

theorem agrees_enumConstants (known : Knows shift size (rank + 1) rules rules') :
    Agrees .block shift size .fresh .fresh (commas (enumConstant rules))
      (commas (enumConstant rules')) :=
  .commas rfl (agrees_enumConstant known).lift

section Bodies

variable {level : Level}

theorem agrees_enumBody (known : Knows shift size rank rules rules')
    (bodies : level.stopsAtBrace = false) :
    Agrees level shift size .fresh ⟨true, level.closed⟩ (enumBody rules (member rules .ofClass))
      (enumBody rules' (member rules' .ofClass)) :=
  have : Within .block level ⟨0, 1⟩ := .inBraces bodies
  have comma : Agrees .block shift size .amid .amid (trySymbol ",") (trySymbol ",") :=
    .trySymbol rfl
  .node <| .bind (.openBrace bodies) fun _ => .bind (known.later agrees_enumConstants) fun _ =>
    .bind comma.lift fun _ => .bind (.maybe (known.later agrees_enumBodyDeclarations)) fun _ =>
    .map (.closeBrace bodies) (by simp)

/-- Bodies agree on windows. -/
theorem agrees_body (known : Knows shift size rank rules rules') (kind : BodyKind)
    (bodies : level.stopsAtBrace = false) :
    Agrees level shift size .fresh ⟨true, level.closed⟩ (body rules kind) (body rules' kind) :=
  have : Within .block level ⟨0, 1⟩ := .inBraces bodies
  .node <| .bind (.openBrace bodies) fun _ =>
      .bind (known.later fun known => agrees_members known kind) fun _ =>
    .map (.closeBrace bodies) (by simp)

theorem agrees_formBody (known : Knows shift size (rank + 1) rules rules') (form : TypeForm)
    (bodies : level.stopsAtBrace = false) :
    Agrees level shift size .fresh ⟨true, level.closed⟩ (form.body rules) (form.body rules') := by
  cases form with
  | ofClass | ofRecord | ofInterface | ofAnnotationType => exact known.body bodies
  | ofEnum => exact agrees_enumBody known bodies

theorem agrees_formRest [Within .head level .zero] (known : Knows shift size rank rules rules')
    (form : TypeForm) (bodies : level.stopsAtBrace = false) (start : Nat) (marks : List Tree) :
    Agrees level shift size .fresh ⟨true, level.closed⟩ (form.rest rules start marks)
      (form.rest rules' (start + shift) (move shift marks)) :=
  .bind (agrees_header known form).lift fun _ =>
    .bind (.inRole (.later fun _ lt => agrees_formBody (known.below lt) form bodies)) fun _ =>
    .nodeFrom rfl (by simp)

theorem typeDeclaration_eq :
    typeDeclaration rules = afterModifiers rules
      (typeDeclarationRest rules (member rules .ofClass)) := rfl

/-- Type declarations agree on windows. -/
theorem agrees_typeDeclaration (known : Knows shift size (rank + 1) rules rules')
    (listed : level ∈ [Level.value, Level.member]) :
    Agrees level shift size .fresh ⟨true, level.closed⟩ (typeDeclaration rules)
      (typeDeclaration rules') := by
  have rests : ∀ [Within .head level .zero] (bodies : level.stopsAtBrace = false) start marks,
      Agrees level shift size .fresh ⟨true, level.closed⟩
        (typeDeclarationRest rules (member rules .ofClass) start marks)
        (typeDeclarationRest rules' (member rules' .ofClass) (start + shift)
          (move shift marks)) := by
    intro _ bodies start marks
    rw [typeDeclarationRest_eq, typeDeclarationRest_eq]
    exact .orElse (agrees_formRest known _ bodies start marks) <|
      .orElse (agrees_formRest known _ bodies start marks) <|
      .orElse (agrees_formRest known _ bodies start marks) <|
        .orElse (agrees_formRest known _ bodies start marks)
        (agrees_formRest known _ bodies start marks)
  rw [typeDeclaration_eq, typeDeclaration_eq]
  simp only [List.mem_cons, List.not_mem_nil, or_false] at listed
  rcases listed with rfl | rfl
  · exact agrees_afterModifiers rfl known (rests rfl)
  · exact agrees_afterModifiers rfl known (rests rfl)

end Bodies

/-! ## The rules tied together -/

/-- The parser of a rule agrees where the rules that it uses do. -/
theorem agrees_grammar {rule : Rule} (known : Knows shift size rule.rank rules rules') :
    rule.Agrees shift size (grammar rules rule) (grammar rules' rule) := by
  cases rule with
  | expression lambdas level => exact agrees_expression known
  | type => exact agrees_anyType known
  | annotationRule => exact agrees_annotationRule known
  | statement => exact agrees_statement known
  | block => exact fun level bodies => agrees_block known bodies
  | body kind => exact fun level bodies => agrees_body known kind bodies
  | typeDeclaration => exact fun level listed => agrees_typeDeclaration known listed

theorem knows_self (depth : Nat) :
    Knows shift size 3 (close grammar depth) (close grammar depth) := by
  intro rule size' smaller
  clear smaller
  induction depth generalizing rule size' with
  | zero =>
    cases rule with
    | block | body _ | typeDeclaration => exact fun _ _ => .failure
    | _ => exact .failure
  | succ depth ih => exact agrees_grammar fun rule size' _ => ih rule size'

/-- Rules that are nested deep enough for a window agree on it. -/
theorem agrees_close (bound : Nat) {depth depth' : Nat} (deep : bound ≤ depth)
    (deep' : bound ≤ depth') {rule : Rule} (fits : 16 * size + rule.rank < bound) :
    rule.Agrees shift size (close grammar depth rule) (close grammar depth' rule) := by
  induction bound generalizing depth depth' size rule with
  | zero => exact absurd fits (Nat.not_lt_zero _)
  | succ bound ih =>
    cases depth with
    | zero => omega
    | succ depth =>
    cases depth' with
    | zero => omega
    | succ depth' =>
    refine agrees_grammar fun rule' size' smaller => ih (by omega) (by omega) ?_
    have small : rule'.rank ≤ 2 := by cases rule' <;> simp [Rule.rank]
    omega

/-- Rules that nest deep enough agree on windows. -/
theorem knows_close (deep : 16 * size + 3 ≤ depth) (deep' : 16 * size + 3 ≤ depth') :
    Knows shift size 3 (close grammar depth) (close grammar depth') := by
  intro rule size' smaller
  have small : rule.rank ≤ 2 := by cases rule <;> simp [Rule.rank]
  exact agrees_close (16 * size + 3) deep deep' (by omega)

end JavaSlice.Syntax.Grammar
