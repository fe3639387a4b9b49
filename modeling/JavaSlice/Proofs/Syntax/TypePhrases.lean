import JavaSlice.Proofs.Syntax.Window

/-!
# Types, modifiers and parameters on windows

The parsers of names, annotations, types, modifiers and parameters agree on windows (`Agrees`). An
annotation ends before a comma; a type may hold commas between angle brackets, and both end before a
brace.
-/

namespace JavaSlice.Syntax.Grammar

open Syntax.Parser

variable {shift size rank : Nat} {rules rules' : Rules}

/-! ## Names -/

section Names

variable {level : Level} {depth : Depth} {taken : Bool}

theorem mark_of_isName (name : isName token) : token.mark = .plain :=
  Token.mark_of_word (Bool.and_eq_true _ _ ▸ name).1

section

variable (passes : level.step depth .plain = some depth)
include passes

theorem agrees_nameLeaf :
    Agrees level shift size ⟨taken, .within depth⟩ ⟨true, .within depth⟩ (leaf kind isName)
      (leaf kind isName) :=
  .leaf (fun _ => rfl) fun _ name => mark_of_isName name ▸ passes

theorem agrees_identifier :
    Agrees level shift size ⟨taken, .within depth⟩ ⟨true, .within depth⟩ identifier identifier :=
  agrees_nameLeaf passes

theorem agrees_typeIdentifier :
    Agrees level shift size ⟨taken, .within depth⟩ ⟨true, .within depth⟩ typeIdentifier
      typeIdentifier :=
  agrees_nameLeaf passes

theorem agrees_declaredName :
    Agrees level shift size ⟨taken, .within depth⟩ ⟨true, .within depth⟩ declaredName
      declaredName :=
  .inRole (agrees_identifier passes)

theorem agrees_variableName :
    Agrees level shift size ⟨taken, .within depth⟩ ⟨true, .within depth⟩ variableName
      variableName :=
  .inRole (.orElse (.leafWord passes) (agrees_identifier passes))

end

end Names

theorem agrees_dottedName : Agrees .modifier shift size .fresh .amid dottedName dottedName :=
  .bind (.symbol rfl) fun _ => agrees_identifier rfl

theorem agrees_qualifiedName :
    Agrees .modifier shift size .fresh .amid qualifiedName qualifiedName :=
  .placed (agrees_identifier rfl) fun start first =>
    .bind agrees_dottedName.many.again fun rest => by
      simp only [isEmpty_move]
      exact .ite (fun _ => .pure rfl) fun _ => .map (.nodeFrom rfl (by simp)) (by simp)

/-! ## Annotations -/

theorem agrees_annotations (known : Knows shift size (rank + 1) rules rules') :
    Agrees .modifier shift size .fresh .fresh (annotations rules) (annotations rules') :=
  known.annotationRule.many

theorem agrees_elementValue (known : Knows shift size (rank + 2) rules rules')
    (arrays : Agrees .value shift size .fresh .amid array array') :
    Agrees .value shift size .fresh .amid (elementValue rules array) (elementValue rules' array') :=
  .bind (.peek rfl) fun _ => .ite (fun _ => arrays) fun _ =>
    .ite (fun _ => known.annotationRule.lift) fun _ => known.expression

theorem agrees_elementArray (known : Knows shift size rank rules rules')
    (bounded : size ≤ bound.length) (bounded' : size ≤ bound'.length) :
    Agrees .value shift size .fresh .amid (elementArray rules bound)
      (elementArray rules' bound') := by
  refine .of_bounds (fun _ => elementArray rules) (fun _ => elementArray rules')
    (fun _ _ _ => .zero rfl) (fun _ _ _ _ _ _ le arrays => ?_) () (Nat.le_refl _) bounded bounded'
  exact .node <| .bind (.openBrace rfl) fun _ => .bind (.later fun _ lt => .commas rfl
      (.lift (agrees_elementValue (known.below (by omega)) (arrays () _ lt)))) fun _ =>
    .bind (.trySymbol rfl) fun _ => .map (.closeBrace rfl) (by simp)

theorem agrees_elementValueOrArray : Steady .value (rank + 2) elementValueOrArray :=
  fun {_ _ rules _} known =>
  .bounded (f := fun bound => elementValue rules (elementArray rules bound))
      fun le bounded bounded' =>
    agrees_elementValue (known.mono le) (agrees_elementArray (known.mono le) bounded bounded')

theorem agrees_elementPair : Steady .value rank elementPair := fun known =>
  .node <| .bind (agrees_identifier rfl) fun _ => .bind (.symbol rfl) fun _ =>
    .map (.inRole (known.call agrees_elementValueOrArray)) (by simp)

theorem agrees_annotationArguments : Steady .modifier rank annotationArguments := fun known =>
  .node <| .bind (.openParen nofun) fun _ => .orElse
    (.bind (.later fun _ lt => .commas rfl (agrees_elementPair (known.below lt)).lift) fun _ =>
      .map (.closeParen nofun) (by simp))
    (.bind (known.call agrees_elementValueOrArray) fun _ => .map (.closeParen nofun) (by simp))

theorem agrees_annotationRule : Steady .modifier rank annotationRule := fun known =>
  .placed (.symbol rfl) fun _ _ => .bind (.inRole agrees_qualifiedName.again) fun _ =>
    .bind (.atSymbol nofun) fun _ => .ite
      (fun _ => .bind (.inRole (known.call agrees_annotationArguments)) fun _ =>
        .map (.nodeFrom rfl (by simp)) (by simp))
      fun _ => .map (.nodeFrom rfl rfl) (by simp)

/-! ## Types -/

theorem agrees_primitive : Agrees .head shift size .fresh .amid primitive primitive :=
  .orElse (.leaf (fun _ => rfl) fun _ listed =>
    Token.mark_of_word (Bool.and_eq_true _ _ ▸ listed).1 ▸ rfl) (.leafWord rfl)

theorem agrees_wildcard : Steady .head (rank + 1) wildcard := fun known =>
  .node <| .bind (agrees_annotations known).lift fun _ => .bind (.symbol rfl) fun _ =>
    .map (.maybe <| .orElse (.bind (.word rfl) fun _ => known.later Knows.type)
      (.bind (.leafWord rfl) fun _ => .map (known.later Knows.type) (by simp))) (by simp)

theorem agrees_typeArguments : Steady .head rank typeArguments := fun known =>
  .node <| .bind (.symbol rfl) fun _ =>
    .bind (.later fun _ lt => .commas rfl
      (.orElse (agrees_wildcard (known.below lt)) (known.below lt).type))
      fun _ => .map (.symbol rfl) (by simp)

theorem agrees_growNamed (known : Knows shift size rank rules rules') (start : Nat) (type : Tree) :
    Agrees .head shift size .fresh .amid (growNamed rules start type)
      (growNamed rules' (start + shift) (move shift type)) := by
  refine .bind (.atSymbol nofun) fun _ => .ite (fun _ => ?_) fun _ => ?_
  · rw [Tree.kind_move]
    exact .bind .guardThat fun _ => .bind (agrees_typeArguments known) fun _ =>
      .nodeFrom rfl (by simp)
  · exact .bind (.symbol rfl) fun _ => .bind (known.later agrees_annotations) fun _ =>
      .bind (agrees_typeIdentifier rfl) fun _ => .nodeFrom rfl (by simp)

theorem agrees_namedType : Steady .head rank namedType := fun known =>
  .placed (agrees_typeIdentifier rfl) fun start first =>
    match first with
    | [tree] => .map (.again (.grow (agrees_growNamed known start) tree)) (by simp)
    | [] | _ :: _ :: _ => .failure

theorem agrees_simpleType : Steady .head rank simpleType := fun known =>
  .orElse agrees_primitive (agrees_namedType known)

theorem agrees_emptyBrackets : Steady .head (rank + 1) emptyBrackets := fun known =>
  .bind (agrees_annotations known).lift fun _ => .bind (.symbol rfl) fun _ =>
    .map (.symbol rfl) (by simp)

theorem agrees_dimensions : Steady .head (rank + 1) dimensions := fun known =>
  .node (agrees_emptyBrackets known).many1

theorem agrees_plainType : Steady .head rank plainType := fun known =>
  .placed (agrees_simpleType known) fun _ _ => .orElse
    (.bind (known.call agrees_dimensions) fun _ => .map (.nodeFrom rfl (by simp)) (by simp))
    (.pure rfl)

/-- Types agree on windows. -/
theorem agrees_anyType : Steady .head (rank + 1) anyType := fun known =>
  .bind (.atSymbol nofun) fun _ => .ite
    (fun _ => .node <| .bind (.many1 known.annotationRule.lift) fun _ =>
      .map (known.call agrees_plainType) (by simp))
    fun _ => agrees_plainType known

/-! ## Type parameters and modifiers -/

theorem agrees_typeBound : Steady .head rank typeBound := fun known =>
  .node <| .bind (.word rfl) fun _ => .later fun _ lt => .sepBy1 rfl (known.below lt).type

theorem agrees_typeParameter : Steady .head (rank + 1) typeParameter := fun known =>
  .node <| .bind (agrees_annotations known).lift fun _ => .bind (agrees_typeIdentifier rfl) fun _ =>
    .map (.maybe (known.call agrees_typeBound)) (by simp)

theorem agrees_typeParameters : Steady .head rank typeParameters := fun known =>
  .node <| .bind (.symbol rfl) fun _ =>
    .bind (.later fun _ lt => .sepBy1 rfl (agrees_typeParameter (known.below lt))) fun _ =>
    .map (.symbol rfl) (by simp)

section Stops

variable {token : Token} (stop : Level.modifier.step .zero token.mark = none)
include stop

theorem isSymbol_of_stop (plain : Mark.ofSymbol text = .plain) : token.isSymbol text = false := by
  cases same : token.isSymbol text with
  | false => rfl
  | true =>
    rw [Token.mark_of_isSymbol same, plain] at stop
    cases stop

theorem word_of_stop : (token.kind == .word) = false := by
  cases word : token.kind == .word with
  | false => rfl
  | true =>
    rw [Token.mark_of_word word] at stop
    cases stop

theorem followsSealed_of_stop : followsSealed token = false := by
  rw [followsSealed, isSymbol_of_stop stop rfl, word_of_stop stop, Bool.false_and, Bool.or_self]

end Stops

theorem agrees_modifierWord :
    Agrees .modifier shift size .fresh .amid modifierWord modifierWord := by
  refine .nextWord rfl (fun token other => ?_) fun first => .ite (fun _ => .failure) fun _ =>
    .ite (fun _ => .pure rfl) fun _ => .ite (fun _ => ?_) fun _ => .ite (fun _ => ?_) fun _ =>
    .ite (fun _ => ?_) fun _ => .ite (fun _ => ?_) fun _ => .failure
  · rw [if_pos (by simpa using other)]
    exact ⟨rfl, rfl⟩
  · exact .peekTest (g := fun holds => guardThat holds >>= fun _ => pure []) (fun _ => rfl) true
      (fun _ token stop => by rw [isSymbol_of_stop stop rfl, isSymbol_of_stop stop rfl]; rfl)
          fun _ =>
        .bind .guardThat fun _ => .pure rfl
  · exact .bind (.atSymbol nofun) fun _ => .map .guardThat (by simp)
  · exact .peekTest (g := fun holds => guardThat holds >>= fun _ => pure []) (fun _ => rfl) false
      (fun _ token stop => followsSealed_of_stop stop) fun _ => .bind .guardThat fun _ => .pure rfl
  · exact .bind (.symbol rfl) fun _ => .map (.word rfl) (by simp)

/-- Modifiers agree on windows. -/
theorem agrees_modifiers (known : Knows shift size (rank + 1) rules rules') :
    Agrees .modifier shift size .fresh .fresh (modifiers rules) (modifiers rules') :=
  .maybe (.node (.many1 (.orElse known.annotationRule agrees_modifierWord)))

/-! ## Variables and parameters -/

theorem agrees_variableId : Steady .head rank variableId := fun known =>
  .bind (agrees_variableName rfl) fun _ => .map (.maybe (known.call agrees_dimensions)) (by simp)

theorem agrees_initializerArray (known : Knows shift size rank rules rules')
    (bounded : size ≤ bound.length) (bounded' : size ≤ bound'.length) :
    Agrees .value shift size .fresh .amid (initializerArray rules bound)
      (initializerArray rules' bound') := by
  refine .of_bounds (fun _ => initializerArray rules) (fun _ => initializerArray rules')
    (fun _ _ _ => .zero rfl) (fun _ _ _ _ _ _ le arrays => ?_) () (Nat.le_refl _) bounded bounded'
  exact .node <| .bind (.openBrace rfl) fun _ =>
    .bind (.later fun _ lt => .commas rfl (.bind (.atSymbol nofun) fun _ => .ite
      (fun _ => (arrays () _ lt).lift) fun _ => (known.below (by omega)).expression.lift)) fun _ =>
    .bind (.trySymbol rfl) fun _ => .map (.closeBrace rfl) (by simp)

theorem agrees_arrayInitializer : Steady .value rank arrayInitializer := fun known =>
  .bounded fun le => agrees_initializerArray (known.mono le)

theorem agrees_variableInitializer : Steady .value (rank + 2) variableInitializer := fun known =>
  .bind (.atSymbol nofun) fun _ => .ite (fun _ => agrees_arrayInitializer known) fun _ =>
    known.expression

theorem agrees_variableDeclarator : Steady .value rank variableDeclarator := fun known =>
  .node <| .bind (agrees_variableId known).lift fun _ => .bind (.trySymbol rfl) fun _ => .ite
    (fun _ => .map (.inRole (known.call agrees_variableInitializer)) (by simp))
    fun _ => .pure rfl

theorem agrees_variableDeclarators : Steady .value rank variableDeclarators := fun known =>
  .sepBy1 rfl (.inRole (agrees_variableDeclarator known))

theorem agrees_receiverParameter : Steady .value (rank + 1) receiverParameter := fun known =>
  .node <| .bind (agrees_annotations known).lift fun _ =>
      .bind (agrees_plainType known).lift fun _ =>
    .bind (.again (.many (.bind (agrees_identifier rfl) fun _ => .map (.symbol rfl) (by simp))))
      fun _ => .map (.leafWord rfl) (by simp)

theorem agrees_spreadParameter : Steady .value (rank + 1) spreadParameter := fun known =>
  .node <| .bind (agrees_modifiers known).lift fun _ => .bind (agrees_plainType known).lift fun _ =>
    .bind (.symbol rfl) fun _ => .bind (known.later agrees_annotations) fun _ =>
    .map (known.call agrees_variableDeclarator) (by simp)

theorem agrees_formalParameter : Steady .value (rank + 1) formalParameter := fun known =>
  .node <| .bind (agrees_modifiers known).lift fun _ =>
      .bind (.inRole (agrees_plainType known).lift) fun _ =>
    .bind (.orElse (known.call agrees_variableId) (.inRole (.leafWord rfl))) fun _ =>
    .bind (.atSymbol nofun) fun _ => .bind (.atSymbol nofun) fun _ => .map .guardThat (by simp)

theorem agrees_laterParameter : Steady .value (rank + 1) laterParameter := fun known =>
  .orElse (agrees_spreadParameter known) (agrees_formalParameter known)

theorem agrees_firstParameter : Steady .value (rank + 1) firstParameter := fun known =>
  .bind (.atSymbol nofun) fun _ => .ite
    (fun _ => .orElse (agrees_laterParameter known) (agrees_receiverParameter known))
    fun _ => .orElse (agrees_receiverParameter known) (agrees_laterParameter known)

theorem agrees_formalParameters : Steady .modifier rank formalParameters := fun known =>
  .node <| .bind (.openParen nofun) fun _ =>
    .bind (.maybe (.bind (known.call agrees_firstParameter) fun _ =>
      .map (.later fun _ lt => .many (.bind (.symbol rfl) fun _ =>
        (known.below lt).call agrees_laterParameter)) (by simp))) fun _ =>
    .map (.closeParen nofun) (by simp)

theorem agrees_inferredParameters :
    Agrees .modifier shift size .fresh .amid inferredParameters inferredParameters :=
  .node <| .bind (.openParen nofun) fun _ => .bind (.again (.sepBy1 rfl (agrees_identifier rfl)))
      fun _ =>
    .map (.closeParen nofun) (by simp)

end JavaSlice.Syntax.Grammar
