import JavaSlice.Proofs.Syntax.ProgramPhrases

/-!
# Runs of parsers, step by step

What a parser that is put together from others has done can be read off the runs of its parts. The
module has one statement for each combinator, and two for repetitions: a property of cursors that
every step keeps is kept by all steps together, and steps that follow each other make up a
repetition (`Steps`).
-/

namespace JavaSlice.Syntax.Parser

open List

variable {α β : Type} {cursor cursor' : Cursor}
variable {p : Phrases} {trees : List Tree}
variable {value : Unit} {token : Token} {test : Token → Bool} {text : String} {kind : Kind}

/-! ## Combinators -/

/-- A parser after another succeeds if both do. -/
theorem bind_eq_some {p : Parser α} {f : α → Parser β} {result : β × Cursor} :
    (p >>= f) cursor = some result ↔
      ∃ value middle, p cursor = some (value, middle) ∧ f value middle = some result := by
  simp only [Bind.bind, StateT.bind, Option.bind_eq_some_iff, Prod.exists]

theorem pure_eq_some {value value'} :
    (pure value : Parser α) cursor = some (value', cursor') ↔
      value' = value ∧ cursor' = cursor := by
  rw [pure_apply, Option.some.injEq, eq_comm, Prod.mk.injEq]

theorem bind_pure_eq_some {p : Parser α} {f : α → β} {result : β} :
    (p >>= fun value => pure (f value)) cursor = some (result, cursor') ↔
      ∃ value, p cursor = some (value, cursor') ∧ result = f value := by
  simp only [bind_eq_some, pure_eq_some]
  constructor
  · rintro ⟨value, middle, reads, rfl, rfl⟩
    exact ⟨value, reads, rfl⟩
  · rintro ⟨value, reads, rfl⟩
    exact ⟨value, cursor', reads, rfl, rfl⟩

/-- An alternative is tried where the first choice gives up. -/
theorem orElse_eq_some {p q : Parser α} {result : α × Cursor} :
    (p <|> q) cursor = some result ↔ p cursor = some result ∨ p cursor = none ∧
      q cursor = some result := by
  cases reads : p cursor with
  | none => simp [orElse_of_none reads]
  | some value => simp [orElse_of_some reads]

theorem maybe_of_some (reads : p cursor = some result) : maybe p cursor = some result :=
  orElse_of_some reads

theorem maybe_of_none (fails : p cursor = none) : maybe p cursor = some ([], cursor) :=
  orElse_of_none fails

theorem peek_eq_some :
    peek cursor = some (token, cursor') ↔ cursor' = cursor ∧ ∃ rest,
      cursor.tokens = token :: rest := by
  unfold peek
  split <;> simp_all [eq_comm, and_comm]

theorem place_eq_some :
    place cursor = some (n, cursor') ↔
      cursor' = cursor ∧ ∃ token rest, cursor.tokens = token :: rest ∧ n = token.start := by
  simp only [place, bind_eq_some, peek_eq_some, pure_eq_some]
  constructor
  · rintro ⟨token, middle, ⟨rfl, rest, tokens⟩, rfl, rfl⟩
    exact ⟨rfl, token, rest, tokens, rfl⟩
  · rintro ⟨rfl, token, rest, tokens, rfl⟩
    exact ⟨token, cursor', ⟨rfl, rest, tokens⟩, rfl, rfl⟩

/-- A token is taken if it passes the test and is not the end. -/
theorem satisfy_eq_some :
    satisfy test cursor = some (token, cursor') ↔
      ∃ rest, cursor.tokens = token :: rest ∧ token.kind ≠ .finish ∧ test token ∧
        cursor' = ⟨rest, token.stop⟩ := by
  obtain ⟨tokens, last⟩ := cursor
  cases tokens with
  | nil =>
    have fails : satisfy test ⟨[], last⟩ = none := rfl
    simp [fails]
  | cons first rest =>
    rw [Agrees.satisfy_cons]
    split
    next holds =>
      simp only [Option.some.injEq, Prod.mk.injEq, cons.injEq]
      constructor
      · rintro ⟨rfl, rfl⟩
        exact ⟨rest, ⟨rfl, rfl⟩, holds.1, holds.2, rfl⟩
      · rintro ⟨rest, ⟨rfl, rfl⟩, -, -, rfl⟩
        exact ⟨rfl, rfl⟩
    next holds =>
      simp only [reduceCtorEq, cons.injEq, false_iff, not_exists, not_and]
      rintro rest ⟨rfl, rfl⟩ proper passes
      exact (holds ⟨proper, passes⟩).elim

/-- A parser that passes over one token. -/
theorem pass_eq_some (proper : ∀ token, test token → token.kind ≠ .finish) :
    (do let _ ← satisfy test; pure ()) cursor = some (value, cursor') ↔
      ∃ token rest, cursor.tokens = token :: rest ∧ test token ∧
        cursor' = ⟨rest, token.stop⟩ := by
  simp only [bind_eq_some, satisfy_eq_some, pure_eq_some]
  constructor
  · rintro ⟨token, middle, ⟨rest, tokens, -, same, rfl⟩, -, rfl⟩
    exact ⟨token, rest, tokens, same, rfl⟩
  · rintro ⟨token, rest, tokens, same, rfl⟩
    exact ⟨token, _, ⟨rest, tokens, proper token same, same, rfl⟩, trivial, rfl⟩

theorem symbol_eq_some :
    symbol text cursor = some (value, cursor') ↔
      ∃ token rest, cursor.tokens = token :: rest ∧ token.isSymbol text ∧
        cursor' = ⟨rest, token.stop⟩ :=
  pass_eq_some fun token same finish => by simp [Token.isSymbol, finish] at same

theorem word_eq_some :
    word text cursor = some (value, cursor') ↔
      ∃ token rest, cursor.tokens = token :: rest ∧ token.isWord text ∧
        cursor' = ⟨rest, token.stop⟩ :=
  pass_eq_some fun token same finish => by simp [Token.isWord, finish] at same

theorem nodeFrom_eq_some :
    nodeFrom kind start children cursor = some (tree, cursor') ↔
      tree = .node kind none start cursor.last children ∧ cursor' = cursor :=
  pure_eq_some

/-- A node covers the tokens that its parts take. -/
theorem node_eq_some :
    node kind p cursor = some (trees, cursor') ↔
      ∃ token rest children, cursor.tokens = token :: rest ∧ p cursor = some (children, cursor') ∧
        trees = [.node kind none token.start cursor'.last children] := by
  have last : ∀ (middle : Cursor) (result : Cursor × Cursor),
      (get : Parser Cursor) middle = some result ↔ result = (middle, middle) := by
    intro middle result
    exact ⟨fun same => (Option.some.inj same).symm, fun same => congrArg some same.symm⟩
  simp only [node, bind_eq_some, peek_eq_some, last, pure_eq_some, Prod.mk.injEq]
  constructor
  · rintro ⟨token, middle, ⟨rfl, rest, tokens⟩, children, middle', reads, _, _, ⟨rfl, rfl⟩,
      rfl, rfl⟩
    exact ⟨token, rest, children, tokens, reads, rfl⟩
  · rintro ⟨token, rest, children, tokens, reads, rfl⟩
    exact ⟨token, cursor, ⟨rfl, rest, tokens⟩, children, cursor', reads, cursor', cursor',
      ⟨rfl, rfl⟩, rfl, rfl⟩

theorem inRole_eq_some :
    inRole role p cursor = some (trees, cursor') ↔
      ∃ trees', p cursor = some (trees', cursor') ∧ trees = trees'.map (Tree.withRole role) :=
  bind_pure_eq_some

theorem leaf_eq_some :
    leaf kind test cursor = some (trees, cursor') ↔
      ∃ token rest, cursor.tokens = token :: rest ∧ token.kind ≠ .finish ∧ test token ∧
        trees = [.node kind none token.start token.stop []] ∧ cursor' = ⟨rest, token.stop⟩ := by
  simp only [leaf, bind_eq_some, satisfy_eq_some, pure_eq_some]
  constructor
  · rintro ⟨token, middle, ⟨rest, tokens, proper, passes, rfl⟩, rfl, rfl⟩
    exact ⟨token, rest, tokens, proper, passes, rfl, rfl⟩
  · rintro ⟨token, rest, tokens, proper, passes, rfl, rfl⟩
    exact ⟨token, _, ⟨rest, tokens, proper, passes, rfl⟩, rfl, rfl⟩

/-! ## Repetitions -/

/-- What every step of a repetition keeps is kept by the repetition, and what every step gives is in
the result. Only steps that give sound phrases count. -/
theorem many_induction (holds : Cursor → Prop) (good : Tree → Prop) {isSound : Tree → Prop}
    (step : ∀ cursor trees cursor', holds cursor → p cursor = some (trees, cursor') →
      (∀ tree ∈ trees, isSound tree) → holds cursor' ∧ ∀ tree ∈ trees, good tree)
    (start : holds cursor) (reads : many p cursor = some (trees, cursor'))
    (sound : ∀ tree ∈ trees, isSound tree) : holds cursor' ∧ ∀ tree ∈ trees, good tree := by
  unfold many at reads
  generalize cursor.tokens = bound at reads
  induction bound generalizing cursor trees with
  | nil =>
    obtain ⟨rfl, rfl⟩ := pure_eq_some.mp reads
    exact ⟨start, nofun⟩
  | cons token bound ih =>
    rw [repeatBounded, orElse_eq_some] at reads
    rcases reads with reads | ⟨-, stopped⟩
    · obtain ⟨first, middle, one, reads⟩ := bind_eq_some.mp reads
      obtain ⟨rest, more, rfl⟩ := bind_pure_eq_some.mp reads
      obtain ⟨next, firstGood⟩ :=
        step _ _ _ start one fun tree inside => sound tree (mem_append_left _ inside)
      obtain ⟨final, restGood⟩ :=
        ih next (fun tree inside => sound tree (mem_append_right _ inside)) more
      refine ⟨final, fun tree inside => ?_⟩
      rcases mem_append.mp inside with inside | inside
      · exact firstGood tree inside
      · exact restGood tree inside
    · obtain ⟨rfl, rfl⟩ := pure_eq_some.mp stopped
      exact ⟨start, nofun⟩

/-- Steps of a parser that follow each other up to where it gives up. Every step takes a token. -/
inductive Steps (p : Phrases) : Cursor → List Tree → Cursor → Prop where
  | stop {cursor : Cursor} (fails : p cursor = none) : Steps p cursor [] cursor
  | step {cursor middle cursor' : Cursor} {first rest : List Tree}
      (reads : p cursor = some (first, middle))
      (takes : middle.tokens.length < cursor.tokens.length) (steps : Steps p middle rest cursor') :
      Steps p cursor (first ++ rest) cursor'

section

variable (steps : Steps p cursor trees cursor')
include steps

theorem Steps.repeatBounded (long : cursor.tokens.length ≤ bound.length) :
    repeatBounded p bound cursor = some (trees, cursor') := by
  induction steps generalizing bound with
  | stop fails =>
    cases bound with
    | nil => rfl
    | cons token bound =>
      rw [Parser.repeatBounded, orElse_of_none (bind_of_none fails)]
      rfl
  | step reads takes steps ih =>
    cases bound with
    | nil =>
      rw [length_nil] at long
      omega
    | cons token bound =>
      rw [length_cons] at long
      rw [Parser.repeatBounded]
      refine orElse_of_some ?_
      rw [bind_of_some reads, bind_of_some (ih (by omega))]
      rfl

/-- Repetitions that end by themselves are all taken. -/
theorem Steps.many : many p cursor = some (trees, cursor') :=
  steps.repeatBounded (Nat.le_refl _)

/-- Repetitions give back no token. -/
theorem Steps.length_le : cursor'.tokens.length ≤ cursor.tokens.length := by
  induction steps with
  | stop => exact Nat.le_refl _
  | step reads takes steps ih => exact Nat.le_trans ih (Nat.le_of_lt takes)

end

end JavaSlice.Syntax.Parser
