import JavaSlice.Proofs.Syntax.TypePhrases

/-!
# Expressions on windows

The parsers of expressions agree on windows (`Agrees`). An expression ends before a semicolon and
before a bracket that closes nothing; the bodies of lambdas, of switches and of new classes stand
between braces.
-/

namespace JavaSlice.Syntax.Grammar

open List Syntax.Parser

variable {shift size rank : Nat} {rules rules' : Rules}
variable {after rest after' : List Token} {text : String} {token : Token}

/-! ## Operators -/

theorem follows_move (before after : Token) (text : String) :
    operatorText.follows (move shift before) (move shift after) text =
      operatorText.follows before after text := by
  have same : (before.stop + shift == after.start + shift) = (before.stop == after.start) := by
    rw [Bool.eq_iff_iff]
    simp
  simp [operatorText.follows, same]

/-- A token that may stand in an operator. -/
def IsPlain (token : Token) : Prop :=
  token.mark = .plain ∧ token.kind ≠ .finish

theorem isPlain_of_follows {before after} (plain : Mark.ofSymbol text = .plain)
    (follows : operatorText.follows before after text) : IsPlain after := by
  simp only [operatorText.follows, Token.isSymbol, Bool.and_eq_true, beq_iff_eq] at follows
  obtain ⟨⟨symbol, same⟩, -⟩ := follows
  exact ⟨by rw [Token.mark, symbol, same, plain], by simp [symbol]⟩

theorem isPlain_snoc (plain : ∀ token ∈ taken, IsPlain token)
    (plain' : IsPlain last) : ∀ token ∈ taken ++ [last], IsPlain token := by
  simpa [or_imp, forall_and] using ⟨plain, plain'⟩

theorem run_of_isPlain (plain : ∀ token ∈ taken, IsPlain token) :
    Level.value.run .zero taken = some .zero := by
  induction taken with
  | nil => rfl
  | cons token taken ih =>
    rw [forall_mem_cons] at plain
    rw [Level.run_cons, plain.1.1]
    exact ih plain.2

/-- A window goes on after plain tokens. -/
theorem cons_of_isPlain (shows : Level.value.run .zero (taken ++ window) = none)
    (plain : ∀ token ∈ taken, IsPlain token) : ∃ token rest, window = token :: rest := by
  rw [Level.run_append, run_of_isPlain plain] at shows
  cases window with
  | nil => cases shows
  | cons token rest => exact ⟨token, rest, rfl⟩

theorem operatorText_of_ne (other : first.text ≠ ">") (rest : List Token) :
    operatorText (first :: rest) = if first.kind = .symbol then some (first.text, rest)
      else none := by
  match rest with
  | [] | [_] | [_, _] | _ :: _ :: _ :: _ =>
    by_cases symbol : first.kind = .symbol <;> simp [operatorText, symbol, other]

theorem operatorText_of_kind (other : first.kind ≠ .symbol) (rest : List Token) :
    operatorText (first :: rest) = none := by
  match rest with
  | [] | [_] | [_, _] | _ :: _ :: _ :: _ => simp [operatorText, other]

/-- The operator that the tokens of a window start with; what follows the window does not matter,
because the window goes on after every part of an operator. -/
structure OperatorAt (shift : Nat) (window after after' : List Token) (text : String)
    (taken rest : List Token) : Prop where
  split : window = taken ++ rest
  nonempty : taken ≠ []
  proper : ∀ token ∈ taken, token.kind ≠ .finish
  plain : Mark.ofSymbol text = .plain → Level.value.run .zero taken = some .zero
  here : operatorText (window ++ after) = some (text, rest ++ after)
  there : operatorText (move shift window ++ after') = some (text, move shift rest ++ after')

theorem OperatorAt.ofPlain (plain : ∀ token ∈ taken, IsPlain token) (nonempty : taken ≠ [])
    (here : operatorText (taken ++ rest ++ after) = some (text, rest ++ after))
    (there : operatorText (move shift (taken ++ rest) ++ after') =
      some (text, move shift rest ++ after')) :
    OperatorAt shift (taken ++ rest) after after' text taken rest :=
  ⟨rfl, nonempty, fun token mem => (plain token mem).2, fun _ => run_of_isPlain plain, here, there⟩

section Angles

variable {first second third : Token} (symbol : first.kind = .symbol) (angle : first.text = ">")
include symbol angle

theorem operatorText_single (no : operatorText.follows first second ">" = false)
    (no' : operatorText.follows first second "=" = false) (rest : List Token) :
    operatorText (first :: second :: rest) = some (">", second :: rest) := by
  match rest with
  | [] | [_] | _ :: _ :: _ => simp [operatorText, symbol, angle, no, no']

theorem operatorText_three : operatorText [first, second, third] = some (">", [second, third]) := by
  simp [operatorText, symbol, angle]

theorem operatorText_long {rest} (nonempty : rest ≠ []) :
    operatorText (first :: second :: third :: rest) =
      if operatorText.follows first second ">" then
        if operatorText.follows second third ">" then
          if operatorText.follows third (rest.head nonempty) "="
            then some (">>>=", rest.tail)
          else some (">>>", rest)
        else if operatorText.follows second third "=" then some (">>=", rest)
        else some (">>", third :: rest)
      else if operatorText.follows first second "=" then some (">=", third :: rest)
      else some (">", second :: third :: rest) := by
  cases rest with
  | nil => exact (nonempty rfl).elim
  | cons fourth rest =>
    simp only [operatorText, symbol, angle, bne_self_eq_false, Bool.false_eq_true, if_false]
    cases operatorText.follows first second ">" <;> cases operatorText.follows second third ">" <;>
      cases four : operatorText.follows third fourth "=" <;> simp [four]

end Angles

/-- The operators that start with a closing angle bracket. -/
theorem operatorText_angle (symbol : first.kind = .symbol) (angle : first.text = ">")
    (shows : Level.value.run .zero (first :: rest) = none) (ends : after = [] ↔ after' = []) :
    ∃ text taken left, OperatorAt shift (first :: rest) after after' text taken left := by
  have symbol' : (move shift first).kind = .symbol := symbol
  have angle' : (move shift first).text = ">" := angle
  have plain : ∀ token ∈ [first], IsPlain token := by
    simp [IsPlain, Token.mark, symbol, angle]
    rfl
  obtain ⟨second, rest, rfl⟩ := @cons_of_isPlain [first] _ shows plain
  -- A token that does not belong to the operator may be the last one of the window.
  by_cases single : operatorText.follows first second ">" = false ∧
    operatorText.follows first second "=" = false
  · exact ⟨">", [first], second :: rest, .ofPlain plain (cons_ne_nil _ _)
      (operatorText_single symbol angle single.1 single.2 _)
      (operatorText_single symbol' angle' ((follows_move ..).trans single.1)
        ((follows_move ..).trans single.2) _)⟩
  have plain₂ : ∀ token ∈ [first, second], IsPlain token := by
    refine isPlain_snoc plain ?_
    cases two : operatorText.follows first second ">" with
    | true => exact isPlain_of_follows rfl two
    | false => exact isPlain_of_follows rfl (by simpa [two] using single)
  obtain ⟨third, rest, rfl⟩ := @cons_of_isPlain [first, second] _ shows plain₂
  by_cases nothing : rest ++ after = []
  · obtain ⟨rfl, rfl⟩ := append_eq_nil_iff.mp nothing
    obtain rfl := ends.mp rfl
    exact ⟨">", [first], [second, third],
      .ofPlain plain (cons_ne_nil _ _) (operatorText_three symbol angle)
      (operatorText_three symbol' angle')⟩
  have nothing' : move shift rest ++ after' ≠ [] := by
    simpa [ends] using nothing
  have here := @operatorText_long first second third symbol angle _ nothing
  have there := @operatorText_long (move shift first) (move shift second) (move shift third)
    symbol' angle' _ nothing'
  simp only [follows_move] at there
  cases two : operatorText.follows first second ">" with
  | false =>
    have equal : operatorText.follows first second "=" = true := by simpa [two] using single
    simp only [two, equal, Bool.false_eq_true, if_false, if_true] at here there
    exact ⟨">=", [first, second], third :: rest, .ofPlain plain₂ (cons_ne_nil _ _) here there⟩
  | true =>
    simp only [two, if_true] at here there
    cases three : operatorText.follows second third ">" with
    | true =>
      have plain₃ := isPlain_snoc plain₂ (isPlain_of_follows rfl three)
      obtain ⟨fourth, rest, rfl⟩ := @cons_of_isPlain [first, second, third] _ shows plain₃
      simp only [three, if_true, cons_append, move_cons, head_cons, tail_cons,
        follows_move] at here there
      cases four : operatorText.follows third fourth "=" with
      | true =>
        simp only [four, if_true] at here there
        exact ⟨">>>=", [first, second, third, fourth], rest,
          .ofPlain (isPlain_snoc plain₃ (isPlain_of_follows rfl four)) (cons_ne_nil _ _) here there⟩
      | false =>
        simp only [four, Bool.false_eq_true, if_false] at here there
        exact ⟨">>>", [first, second, third], fourth :: rest,
          .ofPlain plain₃ (cons_ne_nil _ _) here there⟩
    | false =>
      simp only [three, Bool.false_eq_true, if_false] at here there
      cases equal : operatorText.follows second third "=" with
      | true =>
        simp only [equal, if_true] at here there
        exact ⟨">>=", [first, second, third], rest,
          .ofPlain (isPlain_snoc plain₂ (isPlain_of_follows rfl equal))
            (cons_ne_nil _ _) here there⟩
      | false =>
        simp only [equal, Bool.false_eq_true, if_false] at here there
        exact ⟨">>", [first, second], third :: rest, .ofPlain plain₂ (cons_ne_nil _ _) here there⟩

theorem operatorText_window
    (shows : Level.value.run .zero window = none) (ends : after = [] ↔ after' = []) :
    operatorText (window ++ after) = none ∧ operatorText (move shift window ++ after') = none ∨
      ∃ text taken rest, OperatorAt shift window after after' text taken rest := by
  obtain ⟨first, rest, rfl⟩ := @cons_of_isPlain [] _ shows nofun
  by_cases symbol : first.kind = .symbol
  case neg =>
    exact .inl ⟨operatorText_of_kind symbol _,
      operatorText_of_kind (show (move shift first).kind ≠ .symbol from symbol) _⟩
  have firstProper : first.kind ≠ .finish := by simp [symbol]
  by_cases angle : first.text = ">"
  case neg =>
    refine .inr ⟨first.text, [first], rest, rfl, nofun, by simpa using firstProper, ?_, ?_, ?_⟩
    · intro plain
      exact run_of_isPlain (by simp [IsPlain, Token.mark, symbol, plain])
    · rw [cons_append, operatorText_of_ne angle, if_pos symbol]
    · rw [move_cons, cons_append, operatorText_of_ne (by simpa using angle), Token.kind_move,
        if_pos symbol, Token.text_move]
  exact .inr (operatorText_angle symbol angle shows ends)

theorem lastStop_eq (last : Nat) (tokens : List Token) :
    (tokens.getLast?.map (·.stop)).getD last = lastStop last tokens := by
  induction tokens generalizing last with
  | nil => rfl
  | cons token tokens ih =>
    change _ = lastStop token.stop tokens
    rw [← ih token.stop]
    cases tokens with
    | nil => rfl
    | cons second tokens => simp [getLast?_cons]

theorem operator_of_none (nothing : operatorText tokens = none) (last : Nat) :
    operator ⟨tokens, last⟩ = none := by
  rw [operator, nothing]
  rfl

theorem operator_of_some (found : operatorText (taken ++ rest) = some (text, rest))
    (last : Nat) : operator ⟨taken ++ rest, last⟩ = some (text, ⟨rest, lastStop last taken⟩) := by
  simp [operator, found, lastStop_eq]

theorem run_of_fits (fits : Stage.Fits ⟨taken, .within .zero⟩ .value size window after after') :
    Level.value.run .zero window = none :=
  (fits.shows _ rfl).resolve_right fun other => by cases other.1

/-- Takes an operator that is made of plain tokens. -/
def plainOperator : Parser String := do
  let text ← operator
  if Mark.ofSymbol text = .plain then pure text else failure

section Operators

variable {α : Type} [Movable α] {stop : Stage} {taken : Bool}

theorem agrees_plainOperator :
    Agrees .value shift size ⟨taken, .within .zero⟩ .amid plainOperator plainOperator := by
  intro window after after' last last' ends fits _
  rcases @operatorText_window shift _ _ _ (run_of_fits fits) ends with
    ⟨here, there⟩ | ⟨text, taken, rest, found⟩
  · simp only [plainOperator, Bind.bind, StateT.bind, operator_of_none here, operator_of_none there,
      Option.bind_none]
    exact .fails
  · obtain ⟨rfl, nonempty, proper, plain, here, there⟩ := found
    rw [append_assoc] at here ⊢
    rw [move_append, append_assoc] at there ⊢
    simp only [plainOperator, Bind.bind, StateT.bind, operator_of_some here, operator_of_some there,
      Option.bind_some]
    by_cases isPlain : Mark.ofSymbol text = .plain
    · rw [if_pos isPlain]
      exact .reads text taken rest rfl (.inl (plain isPlain)) (fun _ => .inr nonempty) proper
    · rw [if_neg isPlain]
      exact .fails

/-- A parser that takes an operator and goes on only if it is made of plain tokens. -/
theorem agrees_operator {f f' : String → Parser α}
    (others : ∀ text, Mark.ofSymbol text ≠ .plain → f text = failure ∧ f' text = failure)
    (plain : ∀ text, Agrees .value shift size .amid stop (f text) (f' text)) :
    Agrees .value shift size ⟨taken, .within .zero⟩ stop (operator >>= f) (operator >>= f') := by
  have test : ∀ h : String → Parser α, (∀ text, Mark.ofSymbol text ≠ .plain → h text = failure) →
      operator >>= h = plainOperator >>= h := by
    intro h fails
    simp only [plainOperator, bind_assoc]
    congr 1
    funext text
    by_cases isPlain : Mark.ofSymbol text = .plain
    · simp [isPlain]
    · rw [fails text isPlain, if_neg isPlain]
      rfl
  rw [test f fun text other => (others text other).1,
    test f' fun text other => (others text other).2]
  exact .bind agrees_plainOperator plain

end Operators

theorem atAssignment_eq (tokens : List Token) (last : Nat) :
    atAssignment ⟨tokens, last⟩ =
      some ((operatorText tokens).any fun found => assignmentOperators.contains found.1,
        ⟨tokens, last⟩) := by
  simp only [atAssignment, Bind.bind, StateT.bind, MonadState.get, getThe, MonadStateOf.get,
    StateT.get, Pure.pure, Option.bind_some]
  cases operatorText tokens <;> rfl

theorem agrees_atAssignment :
    Agrees .value shift size ⟨taken, .within .zero⟩ ⟨taken, .within .zero⟩ atAssignment
      atAssignment := by
  intro window after after' last last' ends fits _
  rw [atAssignment_eq, atAssignment_eq]
  rcases @operatorText_window shift _ _ _ (run_of_fits fits) ends with
    ⟨here, there⟩ | ⟨text, taken, rest, found⟩
  · rw [here, there]
    exact .reads false [] window rfl (.refl _ _) .inl nofun
  · rw [found.here, found.there]
    exact .reads (assignmentOperators.contains text) [] window rfl (.refl _ _) .inl nofun

/-- The operator of an assignment is one of those that assign. -/
theorem operator_of_atAssignment {α : Type} (assignable : Bool) (p q : Parser α) :
    (atAssignment >>= fun yes => if (assignable && yes) then operator >>= fun _ => p
      else q) = atAssignment >>= fun yes => if (assignable && yes) then
        operator >>= fun text => if assignmentOperators.contains text then p else failure
          else q := by
  funext ⟨tokens, last⟩
  simp only [Bind.bind, StateT.bind, atAssignment_eq, Option.bind_some]
  split
  next holds =>
    cases found : operatorText tokens with
    | none => simp [found] at holds
    | some operator' =>
      have listed : assignmentOperators.contains operator'.1 = true := by simp_all
      simp only [StateT.bind, operator, found, Option.map_some, bind, Option.bind_some]
      rw [if_pos listed]
  next => rfl

theorem agrees_assignmentFrom (known : Knows shift size rank rules rules') (start : Nat)
    (target : Tree) :
    Agrees .value shift size .amid .amid (assignmentFrom rules lambdas start target)
      (assignmentFrom rules' lambdas (start + shift) (move shift target)) := by
  simp only [assignmentFrom, Tree.kind_move, operator_of_atAssignment]
  refine .bind agrees_atAssignment fun _ => .ite (fun _ => ?_) fun _ => .pure rfl
  refine agrees_operator (fun text other => ?_) fun text => .ite
    (fun _ => .bind (known.later fun known => known.expression) fun _ => .nodeFrom rfl (by simp))
      fun _ => .failure
  have listed : ∀ text ∈ assignmentOperators, Mark.ofSymbol text = .plain := by decide
  have absent : ¬assignmentOperators.contains text = true :=
    fun contained => other (listed text (contains_iff_mem.mp contained))
  rw [if_neg absent, if_neg absent]
  exact ⟨rfl, rfl⟩

/-! ## Parts of expressions -/

theorem agrees_fullExpression : Steady .value (rank + 2) fullExpression := fun known =>
  known.expression

theorem agrees_parenthesized : Steady .modifier rank parenthesized := fun known =>
  .node <| .bind (.openParen nofun) fun _ => .bind (known.call agrees_fullExpression) fun _ =>
    .map (.closeParen nofun) (by simp)

/-- Phrases between parentheses with commas between them. -/
theorem agrees_parenthesizedCommas {kind p p'}
    (parts : ∀ size' < size, Agrees .value shift size' .fresh .amid p p') :
    Agrees .modifier shift size .fresh .amid
      (node kind do symbol "("; let parts ← commas p; symbol ")"; pure parts)
      (node kind do symbol "("; let parts ← commas p'; symbol ")"; pure parts) :=
  .node <| .bind (.openParen nofun) fun _ =>
      .bind (.later fun _ lt => .commas rfl (parts _ lt).lift) fun _ =>
    .map (.closeParen nofun) (by simp)

theorem agrees_argumentList : Steady .modifier rank argumentList := fun known =>
  agrees_parenthesizedCommas fun _ lt => agrees_fullExpression (known.below lt)

theorem agrees_arguments : Steady .modifier rank arguments := fun known =>
  .inRole (agrees_argumentList known)

theorem agrees_dimensionsExpr : Steady .value (rank + 1) dimensionsExpr := fun known =>
  .node <| .bind (agrees_annotations known).lift fun _ => .bind (.symbol rfl) fun _ =>
    .bind (known.call agrees_fullExpression) fun _ => .map (.symbol rfl) (by simp)

/-! ## Creations -/

theorem agrees_objectParts : Steady .value 3 objectParts := fun known =>
  .bind (agrees_annotations known).lift fun _ => .bind (.maybe (agrees_typeArguments known).lift)
      fun _ =>
    .bind (agrees_annotations known).lift fun _ =>
      .bind (.inRole (agrees_simpleType known).lift) fun _ =>
    .bind (known.call agrees_arguments) fun _ =>
    .map (.maybe (.later fun _ lt => (known.below lt).body rfl)) (by simp)

theorem agrees_arrayParts : Steady .value 3 arrayParts := fun known =>
  .bind (agrees_annotations known).lift fun _ => .bind (agrees_simpleType known).lift fun _ =>
    .map (.orElse
      (.bind (.later fun _ lt => .many1 (agrees_dimensionsExpr (known.below lt))) fun _ =>
        .map (.maybe (known.call agrees_dimensions)) (by simp))
      (.bind (known.call agrees_dimensions) fun _ =>
        .map (known.call agrees_arrayInitializer) (by simp))) (by simp)

theorem agrees_creation : Steady .value rank creation := fun known =>
  .orElse (.node <| .bind (.word rfl) fun _ => known.call agrees_objectParts)
    (.node <| .bind (.word rfl) fun _ => known.call agrees_arrayParts)

/-! ## Types at the start of an operand -/

theorem isPlainTypeName_move (type : Tree) :
    isPlainTypeName (move shift type) = isPlainTypeName type := by
  simp [isPlainTypeName, Tree.holds_move]

theorem agrees_referencedMethod : Steady .value rank referencedMethod := fun known =>
  .bind (.symbol rfl) fun _ => .bind (.maybe (known.call agrees_typeArguments)) fun _ =>
    .bind (.tryWord rfl) fun _ => .ite (fun _ => .pure rfl) fun _ =>
      .map (agrees_identifier rfl) (by simp)

section TypeOperands

variable (start : Nat) (type : Tree)

theorem agrees_classOf : Agrees .value shift size .amid .amid (classOf start type)
    (classOf (start + shift) (move shift type)) :=
  .bind (.symbol rfl) fun _ => .bind (.word rfl) fun _ => .nodeFrom rfl rfl

theorem agrees_superReference (known : Knows shift size rank rules rules') :
    Agrees .value shift size .amid .amid (superReference rules start type)
      (superReference rules' (start + shift) (move shift type)) := by
  rw [superReference, superReference, isPlainTypeName_move]
  exact .bind .guardThat fun _ => .bind (.symbol rfl) fun _ => .bind (.leafWord rfl) fun _ =>
    .bind (.nodeFrom rfl rfl) fun _ => .bind (known.call agrees_referencedMethod) fun _ =>
      .nodeFrom rfl rfl

theorem agrees_typeReference (known : Knows shift size rank rules rules') :
    Agrees .value shift size .amid .amid (typeReference rules start type)
      (typeReference rules' (start + shift) (move shift type)) := by
  rw [typeReference, typeReference, isPlainTypeName_move]
  exact .bind .guardThat fun _ => .bind (known.call agrees_referencedMethod) fun _ =>
    .nodeFrom rfl rfl

end TypeOperands

theorem agrees_typeOperand : Steady .value (rank + 1) typeOperand := fun known =>
  .placed (agrees_anyType known).lift fun start types =>
    match types with
    | [type] =>
      .orElse (agrees_classOf start type) (.orElse (agrees_superReference start type known)
        (agrees_typeReference start type known))
    | [] | _ :: _ :: _ => .failure

/-! ## Primary expressions -/

theorem agrees_literal : Agrees .value shift size ⟨taken, .within .zero⟩ .amid literal literal := by
  refine .leaf (fun _ => rfl) fun token listed => ?_
  simp only [Bool.or_eq_true, beq_iff_eq, Token.isWord, Bool.and_eq_true] at listed
  rcases listed with ((((kind | kind) | kind) | ⟨kind, -⟩) | ⟨kind, -⟩) | ⟨kind, -⟩ <;>
    rw [Token.mark, kind] <;> rfl

theorem agrees_nameOrCall : Steady .value rank nameOrCall := fun known =>
  .placed (agrees_identifier rfl) fun _ _ => .bind (.atSymbol nofun) fun _ => .ite
    (fun _ => .bind (known.call agrees_arguments) fun _ => .map (.nodeFrom rfl (by simp)) (by simp))
    fun _ => .pure rfl

theorem agrees_superBase : Agrees .value shift size .fresh .amid superBase superBase :=
  .bind (.leafWord rfl) fun _ => .bind (.atSymbol nofun) fun _ => .bind (.atSymbol nofun) fun _ =>
    .map .guardThat (by simp)

theorem agrees_primaryBase : Steady .value (rank + 1) primaryBase := fun known =>
  .orElse agrees_literal <| .orElse (.leafWord rfl) <| .orElse agrees_superBase <|
    .orElse (agrees_creation known) <|
    .orElse (.map (agrees_typeOperand known) (by simp)) (agrees_nameOrCall known)

section Growing

variable (start : Nat) (tree : Tree)

section

variable (known : Knows shift size rank rules rules')
include known

theorem agrees_memberAfterDot (object : List Tree) :
    Agrees .value shift size .amid .amid (memberAfterDot rules start object)
      (memberAfterDot rules' (start + shift) (move shift object)) :=
  .bind (.maybe (known.call agrees_typeArguments)) fun _ => .bind (agrees_identifier rfl) fun _ =>
    .bind (.atSymbol nofun) fun _ => .ite
      (fun _ => .bind (known.call agrees_arguments) fun _ => .nodeFrom rfl (by simp))
      fun _ => by
        rw [isEmpty_move]
        exact .bind .guardThat fun _ => .nodeFrom rfl (by simp)

theorem agrees_growByDot :
    Agrees .value shift size .fresh .amid (growByDot rules start tree)
      (growByDot rules' (start + shift) (move shift tree)) :=
  .bind (.symbol rfl) fun _ => .bind (.peek rfl) fun _ => .ite
    (fun _ => .bind (.word rfl) fun _ => .bind (known.call agrees_objectParts) fun _ =>
      .nodeFrom rfl rfl)
    fun _ => .ite
    (fun _ => .bind (.inRole (.leafWord rfl)) fun _ => .nodeFrom rfl (by simp))
    fun _ => .ite
    (fun _ => .bind (.leafWord rfl) fun _ => .bind (.symbol rfl) fun _ => by
      simpa using agrees_memberAfterDot start known (tree.withRole .object :: _))
    fun _ => .ite
    (fun _ => .bind agrees_literal fun _ => .nodeFrom rfl rfl)
    fun _ => by simpa using agrees_memberAfterDot start known [tree.withRole .object]

theorem agrees_growPrimary :
    Agrees .value shift size .fresh .amid (growPrimary rules start tree)
      (growPrimary rules' (start + shift) (move shift tree)) :=
  .bind (.peek rfl) fun _ => .ite (fun _ => agrees_growByDot start tree known) fun _ => .ite
    (fun _ => .bind (.symbol rfl) fun _ => .bind (known.call agrees_fullExpression) fun _ =>
      .bind (.symbol rfl) fun _ => .nodeFrom rfl rfl)
    fun _ => .bind (agrees_referencedMethod known) fun _ => .nodeFrom rfl rfl

end

end Growing

theorem agrees_primaryFrom (known : Knows shift size rank rules rules')
    (bases : Agrees .value shift size .fresh .amid base base') :
    Agrees .value shift size .fresh .amid (primaryFrom rules base) (primaryFrom rules' base') :=
  .placed bases fun start trees =>
    match trees with
    | [tree] => .again (.grow (fun tree => agrees_growPrimary start tree known) tree)
    | [] | _ :: _ :: _ => .failure

/-! ## Lambdas and casts -/

theorem agrees_lambdaFrom (known : Knows shift size rank rules rules') (start : Nat)
    (parameters : List Tree) :
    Agrees .value shift size .amid .amid (lambdaFrom rules lambdas start parameters)
      (lambdaFrom rules' lambdas (start + shift) (move shift parameters)) :=
  .bind (.symbol rfl) fun _ => .bind (.inRole <| .bind (.atSymbol nofun) fun _ => .ite
    (fun _ => .later fun _ lt => (known.below lt).block rfl) fun _ => known.later fun known =>
      known.expression) fun _ =>
    .nodeFrom rfl (by simp)

theorem agrees_parenthesizedLambda (known : Knows shift size rank rules rules') :
    Agrees .value shift size .fresh .amid (parenthesizedLambda rules lambdas)
      (parenthesizedLambda rules' lambdas) :=
  .placed (.orElse agrees_inferredParameters.lift (agrees_formalParameters known).lift)
      fun start parameters =>
    agrees_lambdaFrom known start parameters

theorem mark_of_increment (increment : token.isSymbol "++" || token.isSymbol "--") :
    token.mark = .plain := by
  rcases Bool.or_eq_true _ _ ▸ increment with same | same <;> exact Token.mark_of_isSymbol same

theorem mark_of_sign (sign : token.kind == .symbol && ["+", "-", "!", "~"].contains token.text) :
    token.mark = .plain := by
  have listed : ∀ text ∈ ["+", "-", "!", "~"], Mark.ofSymbol text = .plain := by decide
  simp only [Bool.and_eq_true, beq_iff_eq, contains_iff_mem] at sign
  rw [Token.mark, sign.1]
  exact listed _ sign.2

theorem agrees_operandFollowsName :
    Agrees .value shift size .amid .amid operandFollowsName operandFollowsName := by
  refine .inspect rfl fun token => .ite (fun increment => ?_) fun _ => .of (.pure rfl)
  have plain := mark_of_increment increment
  intro rest after after' last last' ends fits lasts
  have shows := run_of_fits fits
  rw [Level.run_cons, plain] at shows
  cases rest with
  | nil => cases shows
  | cons second rest =>
    exact .reads (startsOperand second) [] (token :: second :: rest) rfl (.refl _ _) .inl nofun

/-! ## Switches -/

theorem agrees_recordComponent (known : Knows shift size (rank + 1) rules rules') :
    Agrees .value shift size .fresh .amid (recordPatternBounded.component rules)
      (recordPatternBounded.component rules') :=
  .node <| .orElse
    (.bind (.leafWord rfl) fun _ => .bind (.atSymbol nofun) fun _ =>
        .bind (.atSymbol nofun) fun _ =>
      .map .guardThat (by simp))
    (.bind (agrees_plainType known).lift fun _ => .map (agrees_identifier rfl) (by simp))

theorem all_genericType_move (types : List Tree) :
    (move shift types).all (·.kind == .genericType) = types.all (·.kind == .genericType) := by
  induction types with
  | nil => rfl
  | cons type types ih => simp [ih]

theorem agrees_recordPatternBounded (known : Knows shift size rank rules rules')
    (bounded : size ≤ bound.length) (bounded' : size ≤ bound'.length) :
    Agrees .value shift size .fresh .amid (recordPatternBounded rules bound)
      (recordPatternBounded rules' bound') := by
  refine .of_bounds (fun _ => recordPatternBounded rules) (fun _ => recordPatternBounded rules')
    (fun _ _ _ => .zero rfl) (fun _ _ _ bound bound' size le patterns => ?_) ()
      (Nat.le_refl _) bounded bounded'
  have body : ∀ size' < size, Agrees .modifier shift size' .fresh .amid _ _ := fun size' lt =>
    @agrees_parenthesizedCommas shift size' .recordPatternBody
      (recordPatternBounded rules bound <|> recordPatternBounded.component rules)
      (recordPatternBounded rules' bound' <|> recordPatternBounded.component rules') fun _ lt' =>
        .orElse (patterns () _ (by omega)) (agrees_recordComponent (known.below (by omega)))
  refine .node <| .bind (.orElse (.bind (agrees_namedType (known.mono le)).lift fun _ => ?_)
    (agrees_identifier rfl)) fun _ => .map (.later fun _ lt => (body _ lt).lift) (by simp)
  rw [all_genericType_move]
  exact .map .guardThat (by simp)

theorem agrees_recordPattern : Steady .value rank recordPattern := fun known =>
  .bounded fun le => agrees_recordPatternBounded (known.mono le)

theorem agrees_typePattern : Steady .value rank typePattern := fun known =>
  .node <| .bind (agrees_plainType known).lift fun _ =>
    .map (.leaf (fun _ => rfl) fun _ name => mark_of_isName (Bool.and_eq_true _ _ ▸ name).1 ▸ rfl)
      (by simp)

theorem agrees_labelPattern : Steady .value rank labelPattern := fun known =>
  .bind (.node (.orElse (agrees_typePattern known) (agrees_recordPattern known))) fun _ =>
    .bind (.peek rfl) fun _ => .map .guardThat (by simp)

theorem agrees_guardClause : Steady .value rank guardClause := fun known =>
  .node <| .bind (.word rfl) fun _ => known.later fun known => known.expression

theorem agrees_switchLabel : Steady .value rank switchLabel := fun known =>
  .node <| .tryWord_bind rfl (.pure rfl) <| .bind (.word rfl) fun _ =>
    .bind (.orElse (known.call agrees_labelPattern)
      (.later fun _ lt => .sepBy1 rfl (known.below lt).expression)) fun _ =>
    .map (.maybe (known.call agrees_guardClause)) (by simp)

theorem agrees_ruleBody : Steady .block 3 ruleBody := fun known =>
  .bind (.atSymbol nofun) fun _ => .bind (.atWord rfl) fun _ =>
      .ite (fun _ => known.statement) fun _ =>
    .node <| .bind (agrees_fullExpression known).lift fun _ => .map (.symbol rfl) (by simp)

theorem agrees_switchRule : Steady .block rank switchRule := fun known =>
  .node <| .bind (agrees_switchLabel known).lift fun _ => .bind (.symbol rfl) fun _ =>
    .map (known.call agrees_ruleBody) (by simp)

theorem agrees_switchGroup : Steady .block rank switchGroup := fun known =>
  .node <| .bind (agrees_switchLabel known).lift fun _ => .bind (.symbol rfl) fun _ =>
    .map (.later fun _ lt => .many (known.below lt).statement) (by simp)

theorem agrees_switchBlock : Steady .value rank switchBlock := fun known =>
  .node <| .bind (.openBrace rfl) fun _ =>
    .bind (.later fun _ lt => .many (.orElse (agrees_switchRule (known.below lt)).lift
      (agrees_switchGroup (known.below lt)).lift)) fun _ => .map (.closeBrace rfl) (by simp)

theorem agrees_switchExpression : Steady .value rank switchExpression := fun known =>
  .node <| .bind (.word rfl) fun _ => .bind (known.call agrees_parenthesized) fun _ =>
    .map (.inRole (known.call agrees_switchBlock)) (by simp)

/-! ## Operands -/

section Operands

variable {lambdas : Bool}

theorem agrees_primaryOperand :
    Steady .value (rank + 1) (fun rules => primaryOperand rules lambdas) := by
  intro shift size rules rules' known
  have bases : ∀ paren : Bool, Agrees .value shift size .fresh .amid
      (if paren = true then parenthesized rules else if lambdas = true then primaryBase rules
        else primaryBase rules <|> leaf .identifier (·.isWord "default"))
      (if paren = true then parenthesized rules' else if lambdas = true then primaryBase rules'
        else primaryBase rules' <|> leaf .identifier (·.isWord "default")) := fun _ =>
    .ite (fun _ => (agrees_parenthesized known).lift) fun _ =>
      .ite (fun _ => agrees_primaryBase known)
      fun _ => .orElse (agrees_primaryBase known) (.leafWord rfl)
  refine .bind (.place rfl) fun start => .bind (.atSymbol nofun) fun paren =>
    .bind (agrees_primaryFrom known (bases paren)) fun tree => ?_
  rw [Tree.kind_move]
  exact .bind (.atSymbol nofun) fun _ => .ite (fun _ => agrees_lambdaFrom known start [tree])
    fun _ => agrees_assignmentFrom known start tree

theorem agrees_castPrimary : Steady .value (rank + 1) (fun rules => castPrimary rules lambdas) :=
  fun known =>
  .map (.orElse (.bind .guardThat fun _ => agrees_parenthesizedLambda known)
    (agrees_primaryOperand known)) (by simp)

theorem any_isPlainTypeName_move (types : List Tree) :
    (move shift types).any isPlainTypeName = types.any isPlainTypeName := by
  induction types with
  | nil => rfl
  | cons type types ih => simp [ih, isPlainTypeName_move]

theorem agrees_castExpression : Steady .value rank (fun rules => castExpression rules lambdas) :=
  fun known => by
  refine .placed (.openParen nofun) fun start _ =>
    .bind (.later fun _ lt => .sepBy1 rfl (.inRole (known.below lt).type.lift)) fun types =>
    .bind (.closeParen nofun) fun _ => ?_
  rw [length_move, any_isPlainTypeName_move]
  refine .bind (.inRole (.ite (fun _ => known.call agrees_castPrimary) fun _ => .ite
    (fun _ => .bind agrees_operandFollowsName fun _ => .bind .guardThat fun _ =>
      known.later fun known => known.expression)
    fun _ => known.later fun known => known.expression)) fun _ => .nodeFrom rfl (by simp)

theorem agrees_operand : Steady .value (rank + 1) (fun rules => operand rules lambdas) :=
  fun known => by
  refine .bind (.place rfl) fun start => .inspect rfl fun token =>
    .ite (fun _ => .of ?_) fun _ => .ite
    (fun sign => .take (mark_of_sign sign) rfl ?_) fun _ => .ite
    (fun increment => .take (mark_of_increment increment) rfl ?_) fun _ => .ite (fun _ => .of ?_)
    fun _ => .of (agrees_primaryOperand known)
  · exact .orElse (.bind .guardThat fun _ => agrees_parenthesizedLambda known)
      (.orElse (agrees_castExpression known) (agrees_primaryOperand known))
  · exact .bind (.inRole (known.later fun known => known.expression)) fun _ => .nodeFrom rfl rfl
  · exact .bind (known.later fun known => known.expression) fun _ => .nodeFrom rfl rfl
  · exact .bind (agrees_switchExpression known) fun trees =>
      match trees with
      | [_] => .pure rfl
      | [] | _ :: _ :: _ => .failure

end Operands

/-! ## Expressions -/

section Expressions

variable {lambdas : Bool} (start : Nat) (left : Tree)

section

variable (known : Knows shift size rank rules rules')
include known

theorem agrees_growByInstanceof :
    Agrees .value shift size .fresh .amid (growByInstanceof rules start left)
      (growByInstanceof rules' (start + shift) (move shift left)) :=
  .bind (.word rfl) fun _ => .bind (.tryWord rfl) fun _ =>
    .bind (.orElse (.inRole (known.call agrees_recordPattern))
      (.bind (.inRole (known.later fun known => known.type)) fun _ =>
        .map (.maybe (agrees_declaredName rfl)) (by simp))) fun _ => .nodeFrom rfl (by simp)

theorem agrees_growByTernary :
    Agrees .value shift size .fresh .amid (growByTernary rules lambdas start left)
      (growByTernary rules' lambdas (start + shift) (move shift left)) :=
  .bind (.symbol rfl) fun _ => .bind (known.call agrees_fullExpression) fun _ =>
      .bind (.symbol rfl) fun _ =>
    .bind (known.later fun known => known.expression) fun _ => .nodeFrom rfl (by simp)

theorem agrees_growByBinary (level : Nat) :
    Agrees .value shift size .fresh .amid (growByBinary rules lambdas level start left)
      (growByBinary rules' lambdas level (start + shift) (move shift left)) := by
  refine agrees_operator (fun text other => ?_) fun text => ?_
  · have listed : ∀ entry ∈ binaryLevels, Mark.ofSymbol entry.1 = .plain := by decide
    have absent : binaryLevels.find? (·.1 == text) = none := by
      rw [find?_eq_none]
      intro entry mem same
      exact other (eq_of_beq same ▸ listed entry mem)
    rw [absent]
    exact ⟨rfl, rfl⟩
  · cases binaryLevels.find? (·.1 == text) with
    | none => exact .failure
    | some found =>
      exact .bind .guardThat fun _ => .bind (.inRole (known.later fun known => known.expression))
          fun _ =>
        .nodeFrom rfl (by simp)

theorem agrees_growExpression (level : Nat) :
    Agrees .value shift size .fresh .amid (growExpression rules lambdas level start left)
      (growExpression rules' lambdas level (start + shift) (move shift left)) := by
  refine .inspect rfl fun token => .ite (fun increment => ?_) fun _ => .ite
    (fun _ => .of (.bind .guardThat fun _ => agrees_growByInstanceof start left known))
      fun _ => .ite
    (fun _ => .of (.bind .guardThat fun _ => agrees_growByTernary start left known))
    fun _ => .of (agrees_growByBinary start left known level)
  cases decide (level ≤ unaryLevel) with
  | true => exact .take (mark_of_increment increment) rfl (.nodeFrom rfl rfl)
  | false => exact .of .failure

end

end Expressions

/-- Expressions agree on windows. -/
theorem agrees_expression (known : Knows shift size (rank + 1) rules rules') :
    Agrees .value shift size .fresh .amid (expression rules lambdas level)
      (expression rules' lambdas level) :=
  .placed (agrees_operand known) fun start first =>
    .map (.again (.grow (fun left => agrees_growExpression start left known level) first)) (by simp)

end JavaSlice.Syntax.Grammar
