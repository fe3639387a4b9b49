import Mathlib.Data.Option.Basic
import JavaSlice.Proofs.Syntax.ExpressionPhrases

/-!
# Statements on windows

The parsers of statements agree on windows (`Agrees`). The statements of a block end before the
brace that closes the block; a piece that is no statement is skipped up to there.
-/

namespace JavaSlice.Syntax.Grammar

open List Syntax.Parser

variable {shift size rank : Nat} {rules rules' : Rules}

/-! ## Variables and expressions -/

theorem agrees_localVariableDeclaration : Steady .block (rank + 1) localVariableDeclaration :=
  fun known =>
  .node <| .bind (agrees_modifiers known).lift fun _ =>
      .bind (.inRole (agrees_plainType known).lift) fun _ =>
    .bind (known.call agrees_variableDeclarators) fun _ => .map (.symbol rfl) (by simp)

theorem agrees_expressionStatement : Steady .block (rank + 2) expressionStatement := fun known =>
  .node <| .bind (agrees_fullExpression known).lift fun _ => .map (.symbol rfl) (by simp)

theorem agrees_labeledStatement : Steady .block rank labeledStatement := fun known =>
  .node <| .bind (agrees_identifier rfl) fun _ => .bind (.symbol rfl) fun _ =>
    .map (known.later fun known => known.statement) (by simp)

/-! ## Choices and loops -/

theorem agrees_ifStatement : Steady .block rank ifStatement := fun known =>
  .node <| .bind (.word rfl) fun _ => .bind (known.call agrees_parenthesized) fun _ =>
    .bind (known.later fun known => known.statement) fun _ => .bind (.tryWord rfl) fun _ => .ite
      (fun _ => .map (known.later fun known => known.statement) (by simp))
      fun _ => .pure (by simp)

theorem agrees_whileStatement : Steady .block rank whileStatement := fun known =>
  .node <| .bind (.word rfl) fun _ => .bind (known.call agrees_parenthesized) fun _ =>
    .map (known.later fun known => known.statement) (by simp)

theorem agrees_doStatement : Steady .block rank doStatement := fun known =>
  .node <| .bind (.word rfl) fun _ => .bind (known.later fun known => known.statement) fun _ =>
    .bind (.word rfl) fun _ => .bind (known.call agrees_parenthesized) fun _ =>
      .map (.symbol rfl) (by simp)

theorem agrees_loopBody : Steady .block 3 loopBody := fun known =>
  .bind (.atSymbol nofun) fun _ => .ite (fun _ => .node <| .map (.symbol rfl) (by simp))
    fun _ => known.statement

theorem agrees_enhancedFor : Steady .block rank enhancedFor := fun known =>
  .node <| .bind (.word rfl) fun _ => .bind (.symbol rfl) fun _ =>
      .bind (known.later agrees_modifiers) fun _ =>
    .bind (.inRole (known.call agrees_plainType)) fun _ =>
      .bind (known.call agrees_variableId) fun _ =>
    .bind (.symbol rfl) fun _ => .bind (.inRole (known.call agrees_fullExpression)) fun _ =>
    .bind (.symbol rfl) fun _ => .map (.inRole (known.call agrees_loopBody)) (by simp)

theorem agrees_forStatement : Steady .block rank forStatement := fun known =>
  .node <| .bind (.word rfl) fun _ => .bind (.symbol rfl) fun _ =>
    .bind (.orElse (known.call agrees_localVariableDeclaration)
      (.bind (.later fun _ lt => .commas rfl (agrees_fullExpression (known.below lt)).lift) fun _ =>
        .map (.symbol rfl) (by simp))) fun _ =>
    .bind (.maybe (known.call agrees_fullExpression)) fun _ => .bind (.symbol rfl) fun _ =>
    .bind (.later fun _ lt => .commas rfl (agrees_fullExpression (known.below lt)).lift) fun _ =>
    .bind (.symbol rfl) fun _ => .map (known.later fun known => known.statement) (by simp)

/-! ## Jumps -/

theorem agrees_jump {kind text} :
    Agrees .block shift size .fresh .amid (jump kind text) (jump kind text) :=
  .node <| .bind (.word rfl) fun _ => .bind (.maybe (agrees_identifier rfl)) fun _ =>
    .map (.symbol rfl) (by simp)

theorem agrees_keywordStatement (known : Knows shift size rank rules rules') {kind text} :
    Agrees .block shift size .fresh .amid (keywordStatement rules kind text)
      (keywordStatement rules' kind text) :=
  .node <| .bind (.word rfl) fun _ => .bind (known.call agrees_fullExpression) fun _ =>
    .map (.symbol rfl) (by simp)

theorem agrees_returnStatement : Steady .block rank returnStatement := fun known =>
  .node <| .bind (.word rfl) fun _ => .bind (.maybe (known.call agrees_fullExpression)) fun _ =>
    .map (.symbol rfl) (by simp)

theorem agrees_assertStatement : Steady .block rank assertStatement := fun known =>
  .node <| .bind (.word rfl) fun _ => .bind (known.call agrees_fullExpression) fun _ =>
    .bind (.orElse (.bind (.symbol rfl) fun _ => known.call agrees_fullExpression) (.pure rfl))
      fun _ =>
    .map (.symbol rfl) (by simp)

/-- A block after a token has been taken. -/
theorem agrees_laterBlock (known : Knows shift size rank rules rules') :
    Agrees .block shift size .amid .amid (rules .block) (rules' .block) :=
  .later fun _ lt => (known.below lt).block rfl

theorem agrees_synchronizedStatement : Steady .block rank synchronizedStatement := fun known =>
  .node <| .bind (.word rfl) fun _ => .bind (known.call agrees_parenthesized) fun _ =>
    .map (.inRole (agrees_laterBlock known)) (by simp)

/-! ## Exceptions and resources -/

theorem agrees_catchType : Steady .head rank catchType := fun known =>
  .node (.sepBy1 rfl (agrees_plainType known))

theorem agrees_catchFormalParameter : Steady .head (rank + 1) catchFormalParameter := fun known =>
  .node <| .bind (agrees_modifiers known).lift fun _ => .bind (agrees_catchType known) fun _ =>
    .map (known.call agrees_variableId) (by simp)

theorem agrees_catchClause : Steady .block rank catchClause := fun known =>
  .node <| .bind (.word rfl) fun _ => .bind (.symbol rfl) fun _ =>
    .bind (known.call agrees_catchFormalParameter) fun _ => .bind (.symbol rfl) fun _ =>
    .map (.inRole (agrees_laterBlock known)) (by simp)

theorem agrees_finallyClause : Steady .block rank finallyClause := fun known =>
  .node <| .bind (.word rfl) fun _ => agrees_laterBlock known

theorem agrees_catchClauses (known : Knows shift size rank rules rules') :
    Agrees .block shift size .amid .amid (many (catchClause rules)) (many (catchClause rules')) :=
  .later fun _ lt => .many (agrees_catchClause (known.below lt))

theorem agrees_tryStatement : Steady .block rank tryStatement := fun known =>
  .node <| .bind (.word rfl) fun _ => .bind (.inRole (agrees_laterBlock known)) fun _ =>
    .bind (agrees_catchClauses known) fun _ => .bind (.maybe (known.call agrees_finallyClause))
        fun _ => by
      rw [← move_append, isEmpty_move]
      exact .map .guardThat (by simp)

theorem agrees_declaredResource : Steady .value (rank + 1) declaredResource := fun known =>
  .bind (agrees_modifiers known).lift fun _ => .bind (.inRole (agrees_plainType known).lift)
      fun _ =>
    .bind (known.call agrees_variableId) fun _ => .bind (.symbol rfl) fun _ =>
    .map (.inRole (known.call agrees_fullExpression)) (by simp)

theorem agrees_namedResource : Steady .value (rank + 1) namedResource := fun known =>
  .bind (agrees_primaryFrom known (agrees_primaryBase known)) fun _ => by
    rw [Tree.kind_move]
    exact .map .guardThat (by simp)

theorem agrees_resourceSpecification : Steady .block rank resourceSpecification := fun known =>
  .node <| .bind (.symbol rfl) fun _ =>
    .bind (.later fun _ lt => .sepBy1 rfl
      (.lift (.node (.orElse (agrees_declaredResource (known.below lt))
      (agrees_namedResource (known.below lt)))))) fun _ =>
    .bind (.trySymbol rfl) fun _ => .map (.symbol rfl) (by simp)

theorem agrees_tryWithResources : Steady .block rank tryWithResources := fun known =>
  .node <| .bind (.word rfl) fun _ => .bind (known.call agrees_resourceSpecification) fun _ =>
    .bind (.inRole (agrees_laterBlock known)) fun _ => .bind (agrees_catchClauses known) fun _ =>
    .map (.maybe (known.call agrees_finallyClause)) (by simp)

/-! ## Statements -/

theorem agrees_plainStatement : Steady .block (rank + 2) plainStatement := fun known =>
  .orElse (known.typeDeclaration mem_cons_self).lift <|
    .orElse (agrees_localVariableDeclaration known) <|
    .orElse (agrees_labeledStatement known) (agrees_expressionStatement known)

theorem agrees_wordStatement (known : Knows shift size (rank + 2) rules rules') (text : String) :
    Agrees .block shift size .fresh .amid (wordStatement rules text)
      (wordStatement rules' text) := by
  unfold wordStatement
  split
  · exact agrees_ifStatement known
  · exact agrees_whileStatement known
  · exact agrees_doStatement known
  · exact .orElse (agrees_enhancedFor known) (agrees_forStatement known)
  · exact .orElse (agrees_tryWithResources known) (agrees_tryStatement known)
  · exact agrees_jump
  · exact agrees_jump
  · exact agrees_returnStatement known
  · exact agrees_keywordStatement known
  · exact agrees_assertStatement known
  · exact (agrees_switchExpression known).lift
  · exact .orElse (agrees_synchronizedStatement known) (agrees_plainStatement known)
  · exact .orElse (agrees_keywordStatement known) (agrees_plainStatement known)
  · exact agrees_plainStatement known

/-- Statements agree on windows. -/
theorem agrees_statement : Steady .block (rank + 2) statement := fun known =>
  .bind (.peek rfl) fun _ => .ite (fun _ => .map (.symbol rfl) (by simp)) fun _ =>
    .ite (fun _ => known.block rfl) fun _ => .ite (fun _ => agrees_wordStatement known _)
      fun _ => agrees_plainStatement known

/-! ## Skipping -/

variable {amongMembers : Bool}

/-- How two runs skip a piece that cannot be read, where some braces are open: both give up, or both
stop after the same tokens. If nothing is skipped, then the token in front halts both. -/
inductive Skips (amongMembers : Bool) (shift depth : Nat) (window after after' : List Token)
    (last last' : Nat) : Option Cursor → Option Cursor → Prop where
  | fails : Skips amongMembers shift depth window after after' last last' none none
  | stops (taken rest : List Token) (split : window = taken ++ rest)
      (leads : Zone.Leads .block (.within ⟨0, depth⟩) (.within .zero) taken rest)
      (moves : taken = [] → ∃ token rest', rest = token :: rest' ∧ halts amongMembers token = true)
      (proper : ∀ token ∈ taken, token.kind ≠ .finish) :
      Skips amongMembers shift depth window after after' last last'
        (some ⟨rest ++ after, lastStop last taken⟩)
        (some ⟨move shift rest ++ after', lastStop last' (move shift taken)⟩)

namespace Skips

variable {depth next : Nat} {token : Token} {window after after' : List Token}
  {last last' : Nat} {result result' : Option Cursor}

/-- One token more is skipped. -/
theorem cons
    (skips : Level.block.run ⟨0, next⟩ window = none →
      Skips amongMembers shift next window after after' token.stop (token.stop + shift) result
        result')
    (shows : Level.block.run ⟨0, depth⟩ (token :: window) = none) (proper : token.kind ≠ .finish)
    (passes : Level.block.step ⟨0, depth⟩ token.mark = some ⟨0, next⟩) :
    Skips amongMembers shift depth (token :: window) after after' last last' result result' := by
  rw [Level.run_cons, passes] at shows
  cases skips shows with
  | fails => exact .fails
  | stops taken rest split leads moves proper' =>
    subst split
    refine .stops (token :: taken) rest rfl ?_ nofun (forall_mem_cons.mpr ⟨proper, proper'⟩)
    rcases leads with path | finish
    · exact .inl (by rw [Level.run_cons, passes, Option.bind_some, path])
    · exact .inr finish

/-- The token in front is the last one that is skipped. -/
theorem one (passes : Level.block.step ⟨0, depth⟩ token.mark = some .zero)
    (proper : token.kind ≠ .finish) :
    Skips amongMembers shift depth (token :: window) after after' last last'
      (some ⟨window ++ after, token.stop⟩)
      (some ⟨move shift window ++ after', token.stop + shift⟩) :=
  .stops [token] window rfl (.inl (by rw [Level.run_cons, passes]; rfl)) nofun
    (by simpa using proper)

/-- The token in front halts both runs. -/
theorem halt (halted : halts amongMembers token)
    (leads : Zone.Leads .block (.within ⟨0, depth⟩) (.within .zero) [] (token :: window)) :
    Skips amongMembers shift depth (token :: window) after after' last last'
      (some ⟨token :: window ++ after, last⟩)
      (some ⟨move shift (token :: window) ++ after', last'⟩) :=
  .stops [] (token :: window) rfl leads (fun _ => ⟨token, window, rfl, halted⟩) nofun

end Skips

/-- A token that is neither a brace nor the end of the file opens and closes nothing. -/
theorem step_block_of_other {token : Token} (opens : ¬token.isSymbol "\x7b")
    (closes : ¬token.isSymbol "\x7d") (proper : token.kind ≠ .finish) (depth : Depth) :
    Level.block.step depth token.mark = some depth := by
  cases mark : token.mark with
  | openBrace => exact (opens (Token.isSymbol_of_mark (by decide) mark)).elim
  | closeBrace => exact (closes (Token.isSymbol_of_mark (by decide) mark)).elim
  | finish => exact (proper (Token.kind_of_mark mark)).elim
  | _ => rfl

theorem skips_skip {window after after' depth last last'}
    (shows : Level.block.run ⟨0, depth⟩ window = none) :
    Skips amongMembers shift depth window after after' last last'
      (skip amongMembers depth last (window ++ after))
      (skip amongMembers depth last' (move shift window ++ after')) := by
  induction window generalizing depth last last' with
  | nil => cases shows
  | cons token window ih =>
    simp only [move_cons, cons_append, skip, Token.kind_move, Token.isSymbol_move]
    by_cases finish : (token.kind == .finish) = true
    · simp only [finish, if_true]
      split
      next inBody =>
        exact .halt (by simp [halts, finish, inBody]) (.inr ⟨token, window, rfl, eq_of_beq finish⟩)
      next => exact .fails
    have proper : token.kind ≠ .finish := by simpa using finish
    simp only [finish]
    by_cases opens : token.isSymbol "\x7b" = true
    · simp only [opens, if_true]
      exact .cons ih shows proper (Token.mark_of_isSymbol opens ▸ rfl)
    simp only [opens]
    by_cases closes : token.isSymbol "\x7d" = true
    · simp only [closes, if_true]
      cases depth with
      | zero => exact .halt (by simp [halts, closes]) (.inl rfl)
      | succ outer =>
        by_cases ends : (amongMembers && outer == 0) = true
        · obtain rfl : outer = 0 := by simp_all
          simp only [ends, if_true]
          exact .one (Token.mark_of_isSymbol closes ▸ rfl) proper
        · simp only [ends]
          exact .cons ih shows proper (Token.mark_of_isSymbol closes ▸ rfl)
    have passes := step_block_of_other opens closes proper ⟨0, depth⟩
    by_cases ends : (token.isSymbol ";" && depth == 0) = true
    · obtain rfl : depth = 0 := by simp_all
      simp only [closes, ends, if_true]
      exact .one passes proper
    · simp only [closes, ends]
      exact .cons ih shows proper passes

/-- A piece that cannot be read becomes an error. -/
theorem agrees_badPiece :
    Agrees .block shift size .fresh .amid (badPiece amongMembers) (badPiece amongMembers) := by
  refine .node ?_
  intro window after after' last last' ends fits _
  have shows : Level.block.run .zero window = none :=
    (fits.shows _ rfl).resolve_right fun other => by cases other.1
  have outcome := @skips_skip shift amongMembers window after after' 0 last last' shows
  cases window with
  | nil => cases shows
  | cons token window =>
    have steady : halts amongMembers (move shift token) = halts amongMembers token := rfl
    simp only [move_cons, cons_append, head?_cons, Option.any_some, steady] at outcome ⊢
    by_cases halted : halts amongMembers token = true
    · simp only [halted, Bool.not_true, guard, Bool.false_eq_true, if_false]
      exact .fails
    · simp only [halted, Bool.not_false, guard, if_true, Pure.pure, Bind.bind, Option.bind_some]
      generalize skip amongMembers 0 last (token :: (window ++ after)) = result,
        skip amongMembers 0 last' (move shift token :: (move shift window ++ after')) =
          result' at outcome ⊢
      cases outcome with
      | fails => exact .fails
      | stops taken rest split leads moves proper =>
        refine .reads [] taken rest split leads (fun _ => .inr fun nothing => ?_) proper
        obtain ⟨first, rest', same, halted'⟩ := moves nothing
        rw [nothing, nil_append, same] at split
        obtain ⟨rfl, -⟩ := cons.inj split
        exact halted halted'

/-! ## Blocks -/

theorem agrees_statements (known : Knows shift size 3 rules rules') :
    Agrees .block shift size .fresh .fresh (statements rules) (statements rules') :=
  .many (.orElse known.statement agrees_badPiece)

/-- Blocks agree on windows. -/
theorem agrees_block (known : Knows shift size rank rules rules') {level}
    (bodies : level.stopsAtBrace = false) :
    Agrees level shift size .fresh ⟨true, level.closed⟩ (block rules) (block rules') :=
  have : Within .block level ⟨0, 1⟩ := .inBraces bodies
  .node <| .bind (.openBrace bodies) fun _ =>
    .bind (known.later agrees_statements) fun _ => .map (.closeBrace bodies) (by simp)

end JavaSlice.Syntax.Grammar
