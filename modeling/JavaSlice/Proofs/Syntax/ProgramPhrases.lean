import JavaSlice.Proofs.Syntax.DeclarationPhrases

/-!
# Phrases of a file, and phrases that can be carried to another file

The phrases at the top of a file agree on windows like all others. So whatever a parser reads from a
whole file consists of tokens of the file (`Agrees.exists_taken`). If these tokens show where the
phrase ends, the parser reads them wherever they stand (`Reads`), and gives up wherever it has given
up in the file (`Rejects`).
-/

namespace JavaSlice.Syntax

open List Grammar

/-! ## Whole files -/

section Files

variable {α : Type} [Movable α] {level : Level} {zone : Zone} {size last : Nat}
  {tokens : List Token} {p : Parser α}

theorem Level.run_of_finish (level : Level) (mem : token ∈ tokens)
    (finish : token.kind = .finish) (depth : Depth) : level.run depth tokens = none := by
  obtain ⟨front, back, rfl⟩ := append_of_mem mem
  have mark : token.mark = .finish := by rw [Token.mark, finish]
  rw [Level.run_append]
  cases level.run depth front with
  | none => rfl
  | some next => rw [Option.bind_some, Level.run_cons, mark, Level.step_finish, Option.bind_none]

/-- A parser takes tokens from the front of a file. -/
theorem Agrees.exists_taken (agrees : Agrees level 0 size .fresh ⟨touched, zone⟩ p p)
    (le : tokens.length ≤ size) (finish : ∃ token ∈ tokens, token.kind = .finish)
    (reads : p ⟨tokens, last⟩ = some (value, cursor)) :
    ∃ taken, tokens = taken ++ cursor.tokens ∧ (touched → taken ≠ []) ∧
      (∀ token ∈ taken, token.kind ≠ .finish) ∧
      cursor.last = lastStop last taken ∧
        Zone.Leads level (.within .zero) zone taken cursor.tokens := by
  obtain ⟨token, mem, kind⟩ := finish
  have outcome := @agrees tokens [] [] last last Iff.rfl
    ⟨le, nofun, fun depth _ => .inl (level.run_of_finish mem kind depth)⟩ nofun
  rw [append_nil, reads] at outcome
  generalize p ⟨move 0 tokens ++ [], last⟩ = result' at outcome
  cases outcome with
  | reads value taken rest split leads takes proper =>
    rw [append_nil] at *
    exact ⟨taken, split, fun touched => (takes touched).resolve_left (by simp), proper, rfl, leads⟩

/-- Nothing is read at the end of a file. -/
theorem Agrees.fails_at_finish (agrees : Agrees level 0 (size + 1) .fresh ⟨true, zone⟩ p p)
    (finish : token.kind = .finish) (last : Nat) : p ⟨[token], last⟩ = none := by
  cases reads : p ⟨[token], last⟩ with
  | none => rfl
  | some result =>
    obtain ⟨taken, split, nonempty, proper, -⟩ :=
      agrees.exists_taken (by simp) ⟨token, by simp, finish⟩ reads
    obtain ⟨first, taken, rfl⟩ := exists_cons_of_ne_nil (nonempty rfl)
    obtain ⟨rfl, -⟩ := cons.inj split
    exact (proper _ mem_cons_self finish).elim

end Files

/-! ## Two runs of a parser -/

/-- Whether some tokens show, together with a window before them, where a phrase of a level ends. -/
def Level.Follows (level : Level) (window after : List Token) : Prop :=
  after ≠ [] ∧ (level.run .zero window = none ∨
    level.ends = true ∧ level.run .zero window = some .zero ∧ level.Stops after)

theorem Level.Follows.shows {level : Level} {window after after' : List Token}
    (follows : level.Follows window after) (follows' : level.Follows window after') :
    level.Shows .zero window after after' := by
  rcases follows.2 with stop | ⟨ends, path, stops⟩
  · exact .inl stop
  · rcases follows'.2 with stop | ⟨-, -, stops'⟩
    · exact .inl stop
    · exact .inr ⟨ends, path, stops, stops'⟩

section Outcomes

variable {α : Type} [Movable α] {level : Level} {shift last last' : Nat} {start stop : Stage}
  {window after after' : List Token} {value : α} {cursor : Cursor} {result : Option (α × Cursor)}

theorem Outcome.of_first
    (outcome : Outcome level shift start stop window after after' last last' (some (value, cursor))
      result) :
    ∃ taken rest, window = taken ++ rest ∧ cursor = ⟨rest ++ after, lastStop last taken⟩ ∧
      result = some (move shift value,
        ⟨move shift rest ++ after', lastStop last' (move shift taken)⟩) := by
  cases outcome with
  | reads value taken rest split => exact ⟨taken, rest, split, rfl, rfl⟩

theorem Outcome.of_second
    (outcome : Outcome level shift start stop window after after' last last' result
      (some (value, cursor))) :
    ∃ value' taken rest, window = taken ++ rest ∧ value = move shift value' ∧
      cursor = ⟨move shift rest ++ after', lastStop last' (move shift taken)⟩ ∧
      result = some (value', ⟨rest ++ after, lastStop last taken⟩) := by
  cases outcome with
  | reads value' taken rest split => exact ⟨value', taken, rest, split, rfl, rfl, rfl⟩

theorem Outcome.of_none
    (outcome : Outcome level shift start stop window after after' last last' result none) :
    result = none := by
  cases outcome with
  | fails => rfl

theorem Outcome.none_of
    (outcome : Outcome level shift start stop window after after' last last' none result) :
    result = none := by
  cases outcome with
  | fails => rfl

end Outcomes

end JavaSlice.Syntax

namespace JavaSlice.Syntax.Grammar

open List Syntax.Parser

section Phrases

variable {shift size rank : Nat} {rules rules' : Rules}

theorem agrees_packageDeclaration (known : Knows shift size (rank + 1) rules rules') :
    Agrees .head shift size .fresh ⟨true, .shut⟩ (packageDeclaration rules)
      (packageDeclaration rules') :=
  .node <| .bind (agrees_annotations known).lift fun _ => .bind (.word rfl) fun _ =>
    .bind (known.later fun _ => agrees_qualifiedName) fun _ =>
    .map (.symbol_shut (fun _ => ⟨rfl, by decide⟩) rfl (.inl rfl)) (by simp)

theorem agrees_importDeclaration :
    Agrees .head shift size .fresh ⟨true, .shut⟩ importDeclaration importDeclaration :=
  .node <| .bind (.word rfl) fun _ => .bind (.tryWord rfl) fun _ =>
    .bind (.again agrees_qualifiedName.lift) fun _ =>
    .bind (.maybe (.bind (.symbol rfl) fun _ => .leaf (fun _ => rfl)
      fun _ same => Token.mark_of_isSymbol same ▸ rfl)) fun _ =>
    .map (.symbol_shut (fun _ => ⟨rfl, by decide⟩) rfl (.inl rfl)) (by simp)

/-- The end of the file is never taken, whatever the test. -/
theorem satisfy_eq (test : Token → Bool) :
    satisfy test = satisfy fun token => token.kind != .finish && test token := by
  funext ⟨tokens, last⟩
  cases tokens with
  | nil => rfl
  | cons token rest =>
    rw [Agrees.satisfy_cons, Agrees.satisfy_cons]
    simp

theorem agrees_moduleDeclaration : Steady .block (rank + 1) moduleDeclaration := by
  intro shift size rules rules' known
  have directive : Agrees .block shift size ⟨false, .within ⟨0, 1⟩⟩ ⟨true, .within ⟨0, 1⟩⟩
      (do let _ ← satisfy fun token => !token.isSymbol "\x7b" &&
        !token.isSymbol "\x7d"; pure ([] : List Tree))
      (do let _ ← satisfy fun token => !token.isSymbol "\x7b" &&
        !token.isSymbol "\x7d"; pure []) := by
    rw [satisfy_eq]
    refine .map (.satisfy (fun _ => rfl) fun token test => ?_) (by simp)
    simp only [Bool.and_eq_true, bne_iff_ne, Bool.not_eq_true'] at test
    exact step_block_of_other (by simp [test.2.1]) (by simp [test.2.2]) test.1 _
  exact .node <| .bind (agrees_annotations known).lift fun _ => .bind (.tryWord rfl) fun _ =>
    .bind (.word rfl) fun _ => .bind (.again agrees_qualifiedName.lift) fun _ =>
      .bind (.openBrace rfl) fun _ =>
    .bind directive.many.again fun _ => .map (.closeBrace rfl) (by simp)

theorem agrees_looseMethod (known : Knows shift size 3 rules rules') :
    Agrees .member shift size .fresh ⟨true, .shut⟩ (looseMethod rules) (looseMethod rules') :=
  agrees_afterModifiers rfl known fun start marks => agrees_methodRest start marks .member known

end Phrases

/-! ## Phrases that can be carried elsewhere -/

/-- A parser reads some tokens wherever they stand, if the tokens after them are of a kind. -/
def Reads (parser : Rules → Phrases) (before : List Token → Prop) (tokens : List Token)
    (trees : List Tree) : Prop :=
  ∀ (place depth : Nat) (after : List Token) (last : Nat), 16 * tokens.length + 3 ≤ depth →
    before after → parser (close grammar depth) ⟨move place tokens ++ after, last⟩ =
      some (move place trees, ⟨after, lastStop last (move place tokens)⟩)

/-- A parser gives up at some tokens wherever they stand, if the tokens after them are of a kind. -/
def Rejects (parser : Rules → Phrases) (before : List Token → Prop)
    (tokens : List Token) : Prop :=
  ∀ (place depth : Nat) (after : List Token) (last : Nat), 16 * tokens.length + 3 ≤ depth →
    before after → parser (close grammar depth) ⟨move place tokens ++ after, last⟩ = none

section Carrying

variable {level : Level} {zone : Zone} {parser : Rules → Phrases}
  {tokens rest : List Token} {place depth last : Nat} {before : List Token → Prop}

variable (agrees : ∀ {shift size : Nat} {rules rules' : Rules}, Knows shift size 3 rules rules' →
    Agrees level shift size .fresh ⟨true, zone⟩ (parser rules) (parser rules'))
include agrees

/-- How the runs of a parser in two places end. -/
theorem outcome_of_follows {after} (shift last last' : Nat)
    (deep : 16 * tokens.length + 3 ≤ depth) (deep' : 16 * tokens.length + 3 ≤ depth')
    (follows : level.Follows tokens after) (follows' : level.Follows tokens after') :
    Outcome level shift .fresh ⟨true, zone⟩ tokens after after' last last'
      (parser (close grammar depth) ⟨tokens ++ after, last⟩)
      (parser (close grammar depth') ⟨move shift tokens ++ after', last'⟩) :=
  agrees (knows_close deep deep') (iff_of_false follows.1 follows'.1)
    ⟨Nat.le_refl _, nofun, fun _ same => Zone.within.inj same ▸ follows.shows follows'⟩ nofun

variable (follows : ∀ {after}, before after → level.Follows tokens after) (here : before rest)
  (deep : 16 * (move place tokens ++ rest).length + 3 ≤ depth)
include follows here deep

/-- What a parser has read in one place, it reads everywhere. -/
theorem exists_reads
    (reads : parser (close grammar depth) ⟨move place tokens ++ rest, last⟩ =
      some (trees, ⟨rest, stop⟩)) :
    ∃ trees', trees = move place trees' ∧ Reads parser before tokens trees' := by
  have deep : 16 * tokens.length + 3 ≤ depth := by
    rw [length_append, length_move] at deep
    omega
  have base := outcome_of_follows agrees place 0 last deep deep (follows here) (follows here)
  rw [reads] at base
  obtain ⟨trees', taken, left, split, rfl, cursor, based⟩ := base.of_second
  -- Nothing of the window is left, because the run in the file has taken it all.
  have left_nil : left = [] := by
    have length := congrArg List.length (congrArg Cursor.tokens cursor)
    simp only [length_append, length_move] at length
    exact length_eq_zero_iff.mp (by omega)
  subst left_nil
  refine ⟨trees', rfl, fun place' depth' after last' deep' there => ?_⟩
  have further := outcome_of_follows agrees place' 0 last' deep deep' (follows here) (follows there)
  rw [based] at further
  obtain ⟨taken', left', split', cursor', same⟩ := further.of_first
  have left_nil' : left' = [] := by
    have length := congrArg List.length (congrArg Cursor.tokens cursor')
    simp only [length_append, length_nil] at length
    exact length_eq_zero_iff.mp (by omega)
  subst left_nil'
  rw [append_nil] at split'
  rw [same, split']
  rfl

/-- Where a parser has given up in one place, it gives up everywhere. -/
theorem rejects_of_fails
    (fails : parser (close grammar depth) ⟨move place tokens ++ rest, last⟩ = none) :
    Rejects parser before tokens := by
  have deep : 16 * tokens.length + 3 ≤ depth := by
    rw [length_append, length_move] at deep
    omega
  have base := outcome_of_follows agrees place 0 last deep deep (follows here) (follows here)
  rw [fails] at base
  intro place' depth' after last' deep' there
  have further := outcome_of_follows agrees place' 0 last' deep deep' (follows here) (follows there)
  rw [base.of_none] at further
  exact further.none_of

end Carrying

end JavaSlice.Syntax.Grammar
