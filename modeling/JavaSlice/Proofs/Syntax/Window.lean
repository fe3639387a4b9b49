import JavaSlice.Proofs.Syntax.Brackets

/-!
# What a parser looks at

A parser that reads a piece of a file looks at the tokens of the piece and not at what comes after
it. This module says so for the combinators that parsers are made of. Two runs are compared, on two
lists of tokens that start alike: the second starts with the tokens of the first, the *window*,
moved by some number of characters. If the window shows where the piece has to end, then both runs
give up, or both succeed, take the same tokens of the window and give the same phrases, moved like
the tokens.

The two runs may also differ in how deep their rules may nest. `Knows` says on which windows the
rules agree, and the parser of every rule is shown to agree on larger windows than the rules that it
uses.
-/

namespace JavaSlice.Syntax

open List

variable {tokens : List Token}
variable {taken : List Token}

/-! ## Sequences and choices -/

namespace Parser

variable {α β : Type} {cursor cursor' : Cursor}
variable {p : Parser α}
variable {f : α → Parser β} {q : Parser α}

theorem pure_apply (value : α) : (pure value : Parser α) cursor = some (value, cursor) :=
  rfl

theorem bind_of_none (fails : p cursor = none) : (p >>= f) cursor = none := by
  simp [Bind.bind, StateT.bind, fails]

theorem bind_of_some (reads : p cursor = some (value, cursor')) :
    (p >>= f) cursor = f value cursor' := by
  simp [Bind.bind, StateT.bind, reads]

theorem orElse_of_none (fails : p cursor = none) : (p <|> q) cursor = q cursor := by
  simp only [HOrElse.hOrElse, OrElse.orElse, Alternative.orElse, StateT.orElse, fails]
  rfl

theorem orElse_of_some (reads : p cursor = some result) : (p <|> q) cursor = some result := by
  simp only [HOrElse.hOrElse, OrElse.orElse, Alternative.orElse, StateT.orElse, reads]
  rfl

end Parser

/-! ## Two runs of a parser -/

/-- What is known about the tokens ahead of a parser. -/
inductive Zone where
  /-- The window shows where the piece ends, and some brackets are open. -/
  | within (depth : Depth)
  /-- The token that ends the piece has been taken. -/
  | shut
  | lost

/-- What is known after the braces of a body: they end a member. -/
def Level.closed : Level → Zone
  | .member => .shut
  | _ => .within .zero

/-- Whether the end of the file is in front. -/
def AtFinish (tokens : List Token) : Prop :=
  ∃ token rest, tokens = token :: rest ∧ token.kind = .finish

/-- Nothing is taken at the end of the file. -/
theorem AtFinish.eq_nil (finish : AtFinish (tokens ++ rest))
    (proper : ∀ token ∈ tokens, token.kind ≠ .finish) : tokens = [] := by
  obtain ⟨token, rest', same, kind⟩ := finish
  cases tokens with
  | nil => rfl
  | cons first tokens =>
    obtain ⟨rfl, -⟩ := cons.inj same
    exact (proper first mem_cons_self kind).elim

theorem AtFinish.run (finish : AtFinish tokens) (level : Level) (depth : Depth) :
    level.run depth tokens = none := by
  obtain ⟨token, rest, rfl, kind⟩ := finish
  have mark : token.mark = .finish := by rw [Token.mark, kind]
  rw [Level.run_cons, mark, Level.step_finish, Option.bind_none]

/-- Whether the last of some tokens is a semicolon or a closing brace. -/
def Ended (tokens : List Token) : Prop :=
  ∃ (front : List Token) (last : Token), tokens = front ++ [last] ∧
    (last.mark = .semicolon ∨ last.mark = .closeBrace)

theorem Ended.append (front : List Token) (ended : Ended tokens) : Ended (front ++ tokens) := by
  obtain ⟨front', last, rfl, mark⟩ := ended
  exact ⟨front ++ front', last, (append_assoc ..).symm, mark⟩

theorem Ended.ne_nil (ended : Ended tokens) : tokens ≠ [] := by
  obtain ⟨front, last, rfl, -⟩ := ended
  simp

/-- Whether some tokens lead from one zone to another. A piece that cannot be read may reach up to
the end of the file, where it does not matter which brackets are open. -/
def Zone.Leads (level : Level) : Zone → Zone → List Token → List Token → Prop
  | within depth, within next, taken, rest => level.run depth taken = some next ∨ AtFinish rest
  | within depth, shut, taken, _ => level.run depth taken = none ∧ Ended taken
  | shut, shut, taken, _ => taken = []
  | _, lost, _, _ => True
  | _, _, _, _ => False

theorem Zone.Leads.refl (zone : Zone) (rest : List Token) : zone.Leads level zone [] rest := by
  cases zone <;> simp [Leads]

theorem Zone.Leads.trans {level : Level} {first second third : Zone} {taken' rest : List Token}
    (leads : first.Leads level second taken (taken' ++ rest))
    (leads' : second.Leads level third taken' rest)
    (proper : ∀ token ∈ taken', token.kind ≠ .finish) :
    first.Leads level third (taken ++ taken') rest := by
  cases first with
  | within depth =>
    cases second with
    | within next =>
      rcases leads with path | finish
      · cases third with
        | shut => exact ⟨by simp [Level.run_append, path, leads'.1], leads'.2.append taken⟩
        | within | lost => simp_all [Leads, Level.run_append]
      · obtain rfl := finish.eq_nil proper
        cases third with
        | shut => exact (leads'.2.ne_nil rfl).elim
        | within | lost => simp_all [Leads]
    | shut | lost => cases third <;> simp_all [Leads]
  | shut | lost => cases second <;> cases third <;> simp_all [Leads]

/-- How far a parser is: whether it has taken a token, and what it knows about the tokens ahead. -/
structure Stage where
  taken : Bool
  zone : Zone

/-- Nothing has been taken. -/
abbrev Stage.fresh : Stage := ⟨false, .within .zero⟩

/-- Something has been taken, and no bracket is open. -/
abbrev Stage.amid : Stage := ⟨true, .within .zero⟩

/-- Whether a window fits a stage: it is no longer than `size`, shorter after a token has been
taken, and shows where the piece ends. -/
structure Stage.Fits (stage : Stage) (level : Level) (size : Nat)
    (window after after' : List Token) : Prop where
  length_le : window.length ≤ size
  length_lt : stage.taken = true → window.length < size
  shows : ∀ depth, stage.zone = .within depth → level.Shows depth window after after'

/-- What is left of a window fits the stage that has been reached. -/
theorem Stage.Fits.rest {level : Level} {start middle : Stage} {size : Nat}
    {rest after after' : List Token} (fits : start.Fits level size (taken ++ rest) after after')
    (leads : start.zone.Leads level middle.zone taken rest)
    (takes : middle.taken → start.taken ∨ taken ≠ []) :
    middle.Fits level size rest after after' := by
  have length := fits.length_le
  rw [length_append] at length
  refine ⟨by omega, ?_, ?_⟩
  · intro touched
    rcases takes touched with before | nonempty
    · have shorter := fits.length_lt before
      rw [length_append] at shorter
      omega
    · have := length_pos_iff.mpr nonempty
      omega
  · intro next known
    cases zone : start.zone with
    | within depth =>
      rw [zone, known] at leads
      rcases leads with path | finish
      · exact (fits.shows depth zone).drop path
      · exact .inl (finish.run level next)
    | shut | lost =>
      rw [zone, known] at leads
      exact leads.elim

/-- Where the last of some tokens ends. -/
def lastStop (last : Nat) (tokens : List Token) : Nat :=
  tokens.foldl (fun _ token => token.stop) last

theorem lastStop_append (last : Nat) (first second : List Token) :
    lastStop last (first ++ second) = lastStop (lastStop last first) second :=
  foldl_append

theorem lastStop_move (known : last' = last + shift ∨ tokens ≠ []) :
    lastStop last' (move shift tokens) = lastStop last tokens + shift := by
  induction tokens generalizing last last' with
  | nil => simpa [lastStop] using known
  | cons token tokens ih => exact ih (.inl rfl)

section Agreement

variable {α β : Type} [Movable α] [Movable β]

/-- How two runs of a parser on a window end: both give up, or both take the same tokens and give
the same value, moved. -/
inductive Outcome (level : Level) (shift : Nat) (start stop : Stage)
    (window after after' : List Token)
    (last last' : Nat) : Option (α × Cursor) → Option (α × Cursor) → Prop where
  | fails : Outcome level shift start stop window after after' last last' none none
  | reads (value : α) (taken rest : List Token) (split : window = taken ++ rest)
      (leads : start.zone.Leads level stop.zone taken rest)
      (takes : stop.taken = true → start.taken = true ∨ taken ≠ [])
      (proper : ∀ token ∈ taken, token.kind ≠ .finish) :
      Outcome level shift start stop window after after' last last'
        (some (value, ⟨rest ++ after, lastStop last taken⟩))
        (some (move shift value, ⟨move shift rest ++ after', lastStop last' (move shift taken)⟩))

/-- A change of what is said about the two stages. -/
theorem Outcome.restage {level : Level} {shift : Nat} {start stop start' stop' : Stage}
    {window after after' : List Token} {last last' : Nat} {result result' : Option (α × Cursor)}
    (outcome : Outcome level shift start stop window after after' last last' result result')
    (begun : start.taken → start'.taken)
    (done : stop'.taken → start'.taken ∨ stop.taken)
    (leads : ∀ taken rest, start.zone.Leads level stop.zone taken rest →
      start'.zone.Leads level stop'.zone taken rest) :
    Outcome level shift start' stop' window after after' last last' result result' := by
  cases outcome with
  | fails => exact .fails
  | reads value taken rest split path takes proper =>
    refine .reads value taken rest split (leads _ _ path) ?_ proper
    intro touched
    rcases done touched with before | later
    · exact .inl before
    · exact (takes later).imp_left begun

/-- Two parsers agree if on every window that fits a stage they end in the same way at another
stage. -/
def Agrees (level : Level) (shift size : Nat) (start stop : Stage) (parser parser' : Parser α) :
    Prop :=
  ∀ ⦃window after after' : List Token⦄ ⦃last last' : Nat⦄, (after = [] ↔ after' = []) →
    start.Fits level size window after after' → (start.taken = true → last' = last + shift) →
      Outcome level shift start stop window after after' last last'
        (parser ⟨window ++ after, last⟩) (parser' ⟨move shift window ++ after', last'⟩)

namespace Agrees

variable {level inner outer : Level} {shift size : Nat} {start middle stop : Stage}
  {depth next : Depth} {zone zone' : Zone} {taken taken' : Bool} {p p' q q' : Parser α}

variable {test : Token → Bool} {kind : Kind} {step step' : Tree → Parser Tree}
variable {f f' : Token → Parser α} {after after' : List Token} {text : String}

/-! ### Sequences and choices -/

theorem pure (same : value' = move shift value) :
    Agrees level shift size start start (Pure.pure value : Parser α) (Pure.pure value') := by
  intro window after after' last last' _ _ _
  subst same
  exact .reads value [] window rfl (.refl _ _) .inl nofun

theorem failure :
    Agrees level shift size start stop (Alternative.failure : Parser α) Alternative.failure :=
  fun _ _ _ _ _ _ _ _ => .fails

theorem bind {f f' : α → Parser β} (first : Agrees level shift size start middle p p')
    (second : ∀ value, Agrees level shift size middle stop (f value) (f' (move shift value))) :
    Agrees level shift size start stop (p >>= f) (p' >>= f') := by
  intro window after after' last last' ends fits lasts
  have outcome := first ends fits lasts
  simp only [Bind.bind, StateT.bind]
  generalize p ⟨window ++ after, last⟩ = result, p' ⟨move shift window ++ after', last'⟩ = result'
    at outcome
  cases outcome with
  | fails => exact .fails
  | reads value taken rest split leads takes proper =>
    subst split
    have lasts' : middle.taken = true →
        lastStop last' (move shift taken) = lastStop last taken + shift :=
      fun touched => lastStop_move ((takes touched).imp lasts id)
    have further := second value ends (fits.rest leads takes) lasts'
    simp only [Option.bind_some]
    generalize f value ⟨rest ++ after, lastStop last taken⟩ = result, f' (move shift value)
      ⟨move shift rest ++ after', lastStop last' (move shift taken)⟩ = result' at further ⊢
    cases further with
    | fails => exact .fails
    | reads value' taken' rest' split' leads' takes' proper' =>
      subst split'
      rw [← lastStop_append, ← lastStop_append, ← move_append]
      refine .reads value' (taken ++ taken') rest' (append_assoc ..).symm
        (leads.trans leads' proper') ?_ ?_
      · intro touched
        rcases takes' touched with before | nonempty
        · exact (takes before).imp_right fun nonempty => append_ne_nil_of_left_ne_nil nonempty _
        · exact .inr (append_ne_nil_of_right_ne_nil _ nonempty)
      · simpa [or_imp, forall_and] using ⟨proper, proper'⟩

theorem map {f f' : α → β} (agrees : Agrees level shift size start stop p p')
    (same : ∀ value, f' (move shift value) = move shift (f value)) :
    Agrees level shift size start stop (p >>= fun value => Pure.pure (f value))
      (p' >>= fun value => Pure.pure (f' value)) :=
  .bind agrees fun value => .pure (same value)

theorem orElse (first : Agrees level shift size start stop p p')
    (second : Agrees level shift size start stop q q') :
    Agrees level shift size start stop (p <|> q) (p' <|> q') := by
  intro window after after' last last' ends fits lasts
  have outcome := first ends fits lasts
  simp only [HOrElse.hOrElse, OrElse.orElse, Alternative.orElse, StateT.orElse]
  generalize p ⟨window ++ after, last⟩ = result, p' ⟨move shift window ++ after', last'⟩ = result'
    at outcome ⊢
  cases outcome with
  | fails => exact second ends fits lasts
  | reads value taken rest split leads takes proper =>
    exact .reads value taken rest split leads takes proper

theorem ite {condition : Prop} [Decidable condition]
    (positive : condition → Agrees level shift size start stop p p')
    (negative : ¬condition → Agrees level shift size start stop q q') :
    Agrees level shift size start stop (if condition then p else q) (if condition then p'
      else q') := by
  split
  next holds => exact positive holds
  next holds => exact negative holds

/-! ### Stages -/

theorem mono (agrees : Agrees level shift size start stop p p') (le : size' ≤ size) :
    Agrees level shift size' start stop p p' :=
  fun _ _ _ _ _ ends fits lasts =>
    agrees ends ⟨Nat.le_trans fits.length_le le,
      fun touched => Nat.lt_of_lt_of_le (fits.length_lt touched) le, fits.shows⟩ lasts

/-- A change of what is said about the two stages. -/
theorem restage (agrees : Agrees level shift size start stop p p')
    (zone : start'.zone = start.zone) (begun : start.taken → start'.taken)
    (done : stop'.taken → start'.taken ∨ stop.taken)
    (leads : ∀ taken rest, start.zone.Leads level stop.zone taken rest →
      start'.zone.Leads level stop'.zone taken rest) :
    Agrees level shift size start' stop' p p' :=
  fun _ _ _ _ _ ends fits lasts =>
    (agrees ends ⟨fits.length_le, fun touched => fits.length_lt (begun touched), zone ▸ fits.shows⟩
      fun touched => lasts (begun touched)).restage begun done leads

/-- It may be left open whether a token has been taken. -/
theorem forget (agrees : Agrees level shift size start ⟨taken, zone⟩ p p') :
    Agrees level shift size start ⟨false, zone⟩ p p' :=
  agrees.restage rfl id nofun fun _ _ leads => leads

/-- It may be left open what is known about the tokens ahead. -/
theorem lose (agrees : Agrees level shift size start ⟨taken, zone⟩ p p') :
    Agrees level shift size start ⟨taken, .lost⟩ p p' :=
  agrees.restage rfl id .inr fun _ _ _ => by cases start.zone <;> trivial

/-- After a token has been taken, a parser may still take none. -/
theorem again (agrees : Agrees level shift size ⟨taken, zone⟩ ⟨taken', zone'⟩ p p') :
    Agrees level shift size ⟨true, zone⟩ ⟨true, zone'⟩ p p' :=
  agrees.restage rfl (fun _ => rfl) (fun _ => .inl rfl) fun _ _ leads => leads

/-- After a token has been taken, only smaller windows count. -/
theorem later
    (agrees : ∀ size' < size, Agrees level shift size' ⟨false, zone⟩ ⟨taken', zone'⟩ p p') :
    Agrees level shift size ⟨true, zone⟩ ⟨true, zone'⟩ p p' := by
  intro window after after' last last' ends fits lasts
  have outcome := @agrees window.length (fits.length_lt rfl) window after after' last last' ends
    ⟨Nat.le_refl _, nofun, fits.shows⟩ nofun
  exact outcome.restage nofun (fun _ => .inl rfl) fun _ _ leads => leads

/-- A phrase of one level is read inside a phrase of another. -/
theorem lift [within : Within inner outer depth]
    (agrees : Agrees inner shift size ⟨taken, .within .zero⟩ ⟨taken', .within .zero⟩ p p') :
    Agrees outer shift size ⟨taken, .within depth⟩ ⟨taken', .within depth⟩ p p' := by
  obtain ⟨place, rfl, embeds⟩ := within.embeds
  intro window after after' last last' ends fits lasts
  have shows := embeds.shows (fits.shows _ rfl)
  have outcome :=
    agrees ends ⟨fits.length_le, fits.length_lt, fun _ same => Zone.within.inj same ▸ shows⟩ lasts
  generalize p ⟨window ++ after, last⟩ = result, p' ⟨move shift window ++ after', last'⟩ = result'
    at outcome ⊢
  cases outcome with
  | fails => exact .fails
  | reads value taken rest split path takes proper =>
    exact .reads value taken rest split (path.imp_left embeds.run) takes proper

theorem liftFrom (inner : Level) [Within inner outer depth]
    (agrees : Agrees inner shift size ⟨taken, .within .zero⟩ ⟨taken', .within .zero⟩ p p') :
    Agrees outer shift size ⟨taken, .within depth⟩ ⟨taken', .within depth⟩ p p' :=
  agrees.lift

/-! ### Single tokens -/

/-- A window in which nothing is left is followed by tokens at which every phrase stops. -/
theorem stops_of_nil (shows : level.Shows depth [] after after') :
    level.ends ∧ depth = .zero ∧ level.Stops after ∧ level.Stops after' := by
  rcases shows with stop | ⟨ends, same, stops, stops'⟩
  · cases stop
  · exact ⟨ends, Option.some.inj same, stops, stops'⟩

theorem satisfy_cons (test : Token → Bool) (token : Token) (rest : List Token) (last : Nat) :
    Parser.satisfy test ⟨token :: rest, last⟩ =
      if token.kind ≠ .finish ∧ test token then some (token, ⟨rest, token.stop⟩)
        else none := by
  simp only [Parser.satisfy, Parser.next, Bind.bind, StateT.bind]
  by_cases finish : token.kind = .finish <;> by_cases passes : test token = true <;>
    simp [finish, passes, Parser.pure_apply, Alternative.failure, StateT.failure]

/-- A token is taken if it passes a test, where no token passes at which phrases stop. -/
theorem satisfy_zone (steady : ∀ token, test (move shift token) = test token)
    (ends : level.ends → depth = .zero → ∀ token, level.EndsAt token → test token = false)
    (leads : ∀ token rest, test token → Zone.Leads level (.within depth) zone [token] rest) :
    Agrees level shift size ⟨taken, .within depth⟩ ⟨true, zone⟩ (Parser.satisfy test)
      (Parser.satisfy test) := by
  intro window after after' last last' _ fits _
  cases window with
  | nil =>
    obtain ⟨may, same, ⟨token, rest, rfl, stop⟩, token', rest', rfl, stop'⟩ :=
      stops_of_nil (fits.shows _ rfl)
    simp only [move_nil, nil_append, satisfy_cons, ends may same token stop,
      ends may same token' stop', Bool.false_eq_true, and_false, if_false]
    exact .fails
  | cons token rest =>
    simp only [move_cons, cons_append, satisfy_cons, steady]
    by_cases holds : token.kind ≠ .finish ∧ test token = true
    · rw [if_pos holds, if_pos (show (move shift token).kind ≠ .finish ∧ _ from holds)]
      exact .reads token [token] rest rfl (leads token rest holds.2) (fun _ => .inr nofun)
        (by simpa using holds.1)
    · rw [if_neg holds, if_neg (show ¬((move shift token).kind ≠ .finish ∧ _) from holds)]
      exact .fails

theorem satisfy (steady : ∀ token, test (move shift token) = test token)
    (passes : ∀ token, test token → level.step depth token.mark = some next) :
    Agrees level shift size ⟨taken, .within depth⟩ ⟨true, .within next⟩ (Parser.satisfy test)
      (Parser.satisfy test) := by
  refine .satisfy_zone steady (fun _ same token ended => ?_) fun token rest holds => ?_
  · refine Bool.eq_false_iff.mpr fun holds => ?_
    simpa [← same, passes token holds] using ended.1
  · simp [Zone.Leads, passes token holds]

theorem symbol (passes : level.step depth (.ofSymbol text) = some next) :
    Agrees level shift size ⟨taken, .within depth⟩ ⟨true, .within next⟩ (Parser.symbol text)
      (Parser.symbol text) :=
  .map (.satisfy (fun _ => rfl) fun _ same => Token.mark_of_isSymbol same ▸ passes) (by simp)

theorem symbol_shut (ends : level.ends → level = .head ∧ Mark.ofSymbol text ≠ .openBrace)
    (stops : level.step depth (.ofSymbol text) = none)
    (closes : Mark.ofSymbol text = .semicolon ∨ Mark.ofSymbol text = .closeBrace) :
    Agrees level shift size ⟨taken, .within depth⟩ ⟨true, .shut⟩ (Parser.symbol text)
      (Parser.symbol text) := by
  refine .map (.satisfy_zone (fun _ => rfl) (fun may _ token ended => ?_) fun token rest same => ?_)
    (by simp)
  · obtain ⟨head, other⟩ := ends may
    exact Bool.eq_false_iff.mpr fun same => other (Token.mark_of_isSymbol same ▸ ended.2 head)
  · have mark := Token.mark_of_isSymbol same
    exact ⟨by simp [mark, stops], [], token, rfl, mark ▸ closes⟩

theorem word (passes : level.step depth .plain = some next) :
    Agrees level shift size ⟨taken, .within depth⟩ ⟨true, .within next⟩ (Parser.word text)
      (Parser.word text) :=
  .map (.satisfy (fun _ => rfl) fun _ same => Token.mark_of_isWord same ▸ passes) (by simp)

theorem leaf (steady : ∀ token, test (move shift token) = test token)
    (passes : ∀ token, test token → level.step depth token.mark = some next) :
    Agrees level shift size ⟨taken, .within depth⟩ ⟨true, .within next⟩ (Parser.leaf kind test)
      (Parser.leaf kind test) :=
  .map (.satisfy steady passes) (by simp)

/-- A leaf for words. -/
theorem leafWord (passes : level.step depth .plain = some next) :
    Agrees level shift size ⟨taken, .within depth⟩ ⟨true, .within next⟩
      (Parser.leaf kind (·.isWord text)) (Parser.leaf kind (·.isWord text)) :=
  .leaf (fun _ => rfl) fun _ same => Token.mark_of_isWord same ▸ passes

/-! ### Looking ahead -/

theorem peek (ends : level.ends = false) :
    Agrees level shift size ⟨taken, .within depth⟩ ⟨taken, .within depth⟩ Parser.peek
      Parser.peek := by
  intro window after after' last last' _ fits _
  cases window with
  | nil => simp [(stops_of_nil (fits.shows _ rfl)).1] at ends
  | cons token rest => exact .reads token [] (token :: rest) rfl (.refl _ _) .inl nofun

/-- A test of the token in front has the same answer in both runs, if all tokens at which phrases
stop give the same. -/
theorem ahead (steady : ∀ token, test (move shift token) = test token) (answer : Bool)
    (same : level.ends → ∀ token, level.step .zero token.mark = none →
      test token = answer) :
    Agrees level shift size ⟨taken, .within depth⟩ ⟨taken, .within depth⟩ (Parser.ahead test)
      (Parser.ahead test) := by
  intro window after after' last last' _ fits _
  cases window with
  | nil =>
    obtain ⟨ends, rfl, ⟨token, rest, rfl, stop⟩, token', rest', rfl, stop'⟩ :=
      stops_of_nil (fits.shows _ rfl)
    have reads : ∀ token rest last, level.step .zero token.mark = none →
        Parser.ahead test ⟨token :: rest, last⟩ = some (answer, ⟨token :: rest, last⟩) := by
      intro token rest last stop
      rw [← same ends token stop]
      rfl
    rw [move_nil, nil_append, nil_append, reads token rest last stop.1,
      reads token' rest' last' stop'.1]
    exact .reads answer [] [] rfl (.refl _ _) .inl nofun
  | cons token rest =>
    have reads : ∀ token rest last, Parser.ahead test ⟨token :: rest, last⟩ =
        some (test token, ⟨token :: rest, last⟩) := fun _ _ _ => rfl
    rw [move_cons, cons_append, cons_append, reads, reads, steady]
    exact .reads (test token) [] (token :: rest) rfl (.refl _ _) .inl nofun

theorem atSymbol (passes : level.ends → level.step .zero (.ofSymbol text) ≠ none) :
    Agrees level shift size ⟨taken, .within depth⟩ ⟨taken, .within depth⟩ (Parser.atSymbol text)
      (Parser.atSymbol text) :=
  .ahead (fun _ => rfl) false fun ends token stop => by
    cases same : token.isSymbol text with
    | false => rfl
    | true =>
      rw [Token.mark_of_isSymbol same] at stop
      exact (passes ends stop).elim

theorem atWord (ends : level.ends = false) :
    Agrees level shift size ⟨taken, .within depth⟩ ⟨taken, .within depth⟩ (Parser.atWord text)
      (Parser.atWord text) :=
  .ahead (fun _ => rfl) false fun may => by simp [ends] at may

/-- A test of the token in front, where nothing else is asked of the token. -/
theorem peekTest {t : Token → Bool} {g g' : Bool → Parser α}
    (steady : ∀ token, t (move shift token) = t token) (answer : Bool)
    (same : level.ends → ∀ token, level.step .zero token.mark = none → t token = answer)
    (further : ∀ holds, Agrees level shift size ⟨taken, .within depth⟩ stop (g holds) (g' holds)) :
    Agrees level shift size ⟨taken, .within depth⟩ stop (Parser.peek >>= fun token => g (t token))
      (Parser.peek >>= fun token => g' (t token)) := by
  have test : ∀ h : Bool → Parser α, (Parser.peek >>= fun token => h (t token)) =
      Parser.ahead t >>= h := by
    intro h
    simp [Parser.ahead]
  rw [test g, test g']
  exact .bind (.ahead steady answer same) further

/-- A parser that takes any token and goes on only if it is a word. -/
theorem nextWord (passes : level.step depth .plain = some next)
    (others : ∀ token, token.kind ≠ .word → f token = Alternative.failure ∧
      f' token = Alternative.failure)
    (words : ∀ token, Agrees level shift size ⟨true, .within next⟩ stop (f token)
      (f' (move shift token))) :
    Agrees level shift size ⟨taken, .within depth⟩ stop (Parser.next >>= f)
      (Parser.next >>= f') := by
  have test : ∀ h : Token → Parser α,
      (∀ token, token.kind ≠ .word → h token = Alternative.failure) →
      Parser.next >>= h = Parser.satisfy (·.kind == .word) >>= h := by
    intro h fails
    simp only [Parser.satisfy, bind_assoc]
    congr 1
    funext token
    by_cases word : token.kind = .word
    · simp [word]
    · rw [fails token word, if_neg (by simpa using word)]
      rfl
  rw [test f fun token other => (others token other).1,
    test f' fun token other => (others token other).2]
  exact .bind (.satisfy (fun _ => rfl) fun _ word => Token.mark_of_word word ▸ passes) words

/-- Two parsers agree where a token is known to be in front. -/
def At (level : Level) (shift size : Nat) (start stop : Stage) (token : Token)
    (parser parser' : Parser α) : Prop :=
  ∀ ⦃rest after after' : List Token⦄ ⦃last last' : Nat⦄, (after = [] ↔ after' = []) →
    start.Fits level size (token :: rest) after after' →
      (start.taken = true → last' = last + shift) →
      Outcome level shift start stop (token :: rest) after after' last last'
        (parser ⟨token :: rest ++ after, last⟩)
          (parser' ⟨move shift (token :: rest) ++ after', last'⟩)

/-- A parser that looks at the token in front. -/
theorem inspect (ends : level.ends = false)
    (agrees : ∀ token, At level shift size ⟨taken, .within depth⟩ stop token (f token)
      (f' (move shift token))) :
    Agrees level shift size ⟨taken, .within depth⟩ stop (Parser.peek >>= f)
      (Parser.peek >>= f') := by
  intro window after after' last last' same fits lasts
  cases window with
  | nil => simp [(stops_of_nil (fits.shows _ rfl)).1] at ends
  | cons token rest => exact agrees token same fits lasts

namespace At

variable {token : Token}

theorem of (agrees : Agrees level shift size start stop p p') :
    At level shift size start stop token p p' :=
  fun _ _ _ _ _ ends fits lasts => agrees ends fits lasts

theorem ite {condition : Prop} [Decidable condition]
    (positive : condition → At level shift size start stop token p p')
    (negative : ¬condition → At level shift size start stop token q q') :
    At level shift size start stop token (if condition then p else q) (if condition then p'
      else q') := by
  split
  next holds => exact positive holds
  next holds => exact negative holds

theorem take (plain : token.mark = .plain) (passes : level.step depth .plain = some depth)
    (agrees : Agrees level shift size ⟨true, .within depth⟩ stop p p') :
    At level shift size ⟨taken, .within depth⟩ stop token (Parser.next >>= fun _ => p)
      (Parser.next >>= fun _ => p') := by
  have test : ∀ (r : Parser α) front rest last, front.mark = .plain →
      (Parser.next >>= fun _ => r) ⟨front :: rest, last⟩ =
        (Parser.satisfy (·.mark == .plain) >>= fun _ => r) ⟨front :: rest, last⟩ := by
    intro r front rest last same
    simp only [Bind.bind, StateT.bind, satisfy_cons, Parser.next, same, beq_self_eq_true, and_true]
    by_cases finish : front.kind = .finish <;> simp [finish]
  intro rest after after' last last' ends fits lasts
  rw [move_cons, cons_append, cons_append, test p token _ _ plain,
    test p' (move shift token) _ _ plain]
  exact (Agrees.bind (.satisfy (fun _ => rfl) fun front same => eq_of_beq same ▸ passes) fun _ =>
    agrees) ends fits lasts

end At

theorem guardThat :
    Agrees level shift size start start (Parser.guardThat condition) (Parser.guardThat condition) :=
  .ite (fun _ => .pure rfl) fun _ => .failure

theorem place (ends : level.ends = false) :
    Agrees level shift size ⟨taken, .within depth⟩ ⟨taken, .within depth⟩ Parser.place
      Parser.place :=
  .map (.peek ends) (by simp)

/-! ### Nodes -/

theorem nodeFrom {start start' children children'} (place : start' = start + shift)
    (same : children' = move shift children) :
    Agrees level shift size ⟨true, zone⟩ ⟨true, zone⟩ (Parser.nodeFrom kind start children)
      (Parser.nodeFrom kind start' children') := by
  intro window after after' last last' _ _ lasts
  have outcome : Outcome level shift ⟨true, zone⟩ ⟨true, zone⟩ window after after' last last'
      (some (Tree.node kind none start last children, ⟨window ++ after, last⟩))
      (some (move shift (Tree.node kind none start last children),
        ⟨move shift window ++ after', last'⟩)) :=
    .reads _ [] window rfl (.refl _ _) .inl nofun
  subst place same
  rw [Tree.move_node, ← lasts rfl] at outcome
  exact outcome

/-- A parser that takes a token gives up where nothing is left. -/
theorem fails_of_nil (agrees : Agrees level shift size ⟨false, zone⟩ ⟨true, zone'⟩ p p')
    (ends : after = [] ↔ after' = []) (fits : Stage.Fits ⟨false, zone⟩ level size [] after after')
    (last last' : Nat) : p ⟨after, last⟩ = none ∧ p' ⟨after', last'⟩ = none := by
  have outcome := @agrees [] after after' last last' ends fits nofun
  rw [move_nil, nil_append, nil_append] at outcome
  generalize p ⟨after, last⟩ = result, p' ⟨after', last'⟩ = result' at outcome
  cases outcome with
  | fails => exact ⟨rfl, rfl⟩
  | reads value taken rest split leads takes proper =>
    obtain ⟨rfl, rfl⟩ := append_eq_nil_iff.mp split.symm
    simp at takes

theorem node {kind p p'}
    (agrees : Agrees level shift size ⟨false, .within depth⟩ ⟨true, zone⟩ p p') :
    Agrees level shift size ⟨false, .within depth⟩ ⟨true, zone⟩ (Parser.node kind p)
      (Parser.node kind p') := by
  intro window after after' last last' ends fits _
  cases window with
  | nil =>
    obtain ⟨-, rfl, ⟨token, rest, rfl, -⟩, token', rest', rfl, -⟩ := stops_of_nil (fits.shows _ rfl)
    have fails := agrees.fails_of_nil ends fits last last'
    simp only [move_nil, nil_append, Parser.node, Parser.peek, Bind.bind, StateT.bind,
      Option.bind_some, fails.1, fails.2, Option.bind_none]
    exact .fails
  | cons token rest =>
    have outcome := @agrees (token :: rest) after after' last last' ends fits nofun
    simp only [Parser.node, Parser.peek, Bind.bind, StateT.bind, move_cons, cons_append,
      Option.bind_some] at outcome ⊢
    generalize p ⟨token :: (rest ++ after), last⟩ = result,
      p' ⟨move shift token :: (move shift rest ++ after'), last'⟩ = result' at outcome ⊢
    cases outcome with
    | fails => exact .fails
    | reads value taken rest' split leads takes proper =>
      have moved : lastStop last' (move shift taken) = lastStop last taken + shift :=
        lastStop_move (.inr ((takes rfl).resolve_left nofun))
      have same : [Tree.node kind none (token.start + shift) (lastStop last' (move shift taken))
          (move shift value)] =
          move shift [Tree.node kind none token.start (lastStop last taken) value] := by
        simp [moved]
      change Outcome _ _ _ _ _ _ _ _ _ (some _)
        (some ([Tree.node kind none (token.start + shift) _ _], _))
      rw [same]
      exact .reads _ taken rest' split leads takes proper

theorem inRole {role p p'} (agrees : Agrees level shift size start stop p p') :
    Agrees level shift size start stop (Parser.inRole role p) (Parser.inRole role p') :=
  .map agrees (by simp)

/-- A parser that notes where it starts; it takes a token before it uses the place. -/
theorem placed {q q' : Parser β} {f f' : Nat → β → Parser α}
    (first : Agrees level shift size ⟨false, .within depth⟩ ⟨true, zone⟩ q q')
    (second : ∀ place value, Agrees level shift size ⟨true, zone⟩ stop (f place value)
      (f' (place + shift) (move shift value))) :
    Agrees level shift size ⟨false, .within depth⟩ stop
      (Parser.place >>= fun place => q >>= f place)
        (Parser.place >>= fun place => q' >>= f' place) := by
  intro window after after' last last' ends fits lasts
  cases window with
  | nil =>
    obtain ⟨-, rfl, ⟨token, rest, rfl, -⟩, token', rest', rfl, -⟩ := stops_of_nil (fits.shows _ rfl)
    have fails := first.fails_of_nil ends fits last last'
    simp only [move_nil, nil_append, Parser.place, Parser.peek, Bind.bind, StateT.bind,
      Parser.pure_apply, Option.bind_some, fails.1, fails.2, Option.bind_none]
    exact .fails
  | cons token rest => exact (first.bind (second token.start)) ends fits lasts

/-! ### Brackets -/

theorem openParen (counts : level ≠ .block) :
    Agrees level shift size ⟨taken, .within .zero⟩ ⟨true, .within ⟨1, 0⟩⟩ (Parser.symbol "(")
      (Parser.symbol "(") :=
  .symbol <| by cases level <;> first | rfl | exact (counts rfl).elim

theorem closeParen (counts : level ≠ .block) :
    Agrees level shift size ⟨taken, .within ⟨1, 0⟩⟩ ⟨true, .within .zero⟩ (Parser.symbol ")")
      (Parser.symbol ")") :=
  .symbol <| by cases level <;> first | rfl | exact (counts rfl).elim

theorem openBrace (bodies : level.stopsAtBrace = false) :
    Agrees level shift size ⟨taken, .within .zero⟩ ⟨true, .within ⟨0, 1⟩⟩ (Parser.symbol "\x7b")
      (Parser.symbol "\x7b") :=
  .symbol <| by cases level <;> first | rfl | cases bodies

theorem closeBrace (bodies : level.stopsAtBrace = false) :
    Agrees level shift size ⟨taken, .within ⟨0, 1⟩⟩ ⟨true, level.closed⟩ (Parser.symbol "\x7d")
      (Parser.symbol "\x7d") := by
  cases level with
  | modifier | head => cases bodies
  | member => exact .symbol_shut nofun rfl (.inr rfl)
  | constant | value | block => exact .symbol rfl

/-! ### Repetitions -/

/-- A recursion that is bounded by the tokens ahead; they are at least as many as those of the
window. -/
theorem bounded {f f' : List Token → Parser α}
    (agrees : ∀ {bound bound' : List Token} {size' : Nat}, size' ≤ size → size' ≤ bound.length →
      size' ≤ bound'.length → Agrees level shift size' ⟨false, .within depth⟩ stop (f bound)
        (f' bound')) :
    Agrees level shift size ⟨false, .within depth⟩ stop (fun cursor => f cursor.tokens cursor)
      (fun cursor => f' cursor.tokens cursor) := by
  intro window after after' last last' ends fits lasts
  refine agrees fits.length_le ?_ ?_ ends ⟨Nat.le_refl _, nofun, fits.shows⟩ lasts <;> simp

/-- Windows that show where a piece ends are not empty, unless two runs may end before different
tokens. -/
theorem zero (ends : level.ends = false) :
    Agrees level shift 0 ⟨taken, .within depth⟩ stop p p' := by
  intro window after after' last last' _ fits _
  obtain rfl := length_eq_zero_iff.mp (Nat.le_zero.mp fits.length_le)
  simp [(stops_of_nil (fits.shows _ rfl)).1] at ends

theorem maybe {p p'} (agrees : Agrees level shift size ⟨taken, zone⟩ ⟨taken', zone⟩ p p') :
    Agrees level shift size ⟨taken, zone⟩ ⟨taken, zone⟩ (Parser.maybe p) (Parser.maybe p') := by
  refine .orElse ?_ (.pure rfl)
  cases taken with
  | false => exact agrees.forget
  | true => exact agrees.again

theorem trySymbol (passes : level.step depth (.ofSymbol text) = some depth) :
    Agrees level shift size ⟨taken, .within depth⟩ ⟨taken, .within depth⟩ (Parser.trySymbol text)
      (Parser.trySymbol text) := by
  refine .orElse ?_ (.pure rfl)
  cases taken with
  | false => exact .forget (.map (.symbol passes) (by simp))
  | true => exact .map (.symbol passes) (by simp)

theorem tryWord (passes : level.step depth .plain = some depth) :
    Agrees level shift size ⟨taken, .within depth⟩ ⟨taken, .within depth⟩ (Parser.tryWord text)
      (Parser.tryWord text) := by
  refine .orElse ?_ (.pure rfl)
  cases taken with
  | false => exact .forget (.map (.word passes) (by simp))
  | true => exact .map (.word passes) (by simp)

/-- A parser that goes on differently if a keyword is in front. -/
theorem tryWord_bind {f f' : Bool → Parser α} (passes : level.step depth .plain = some depth)
    (yes : Agrees level shift size ⟨true, .within depth⟩ stop (f true) (f' true))
    (no : Agrees level shift size ⟨taken, .within depth⟩ stop (f false) (f' false)) :
    Agrees level shift size ⟨taken, .within depth⟩ stop (Parser.tryWord text >>= f)
      (Parser.tryWord text >>= f') := by
  have fails : ∀ (h : Bool → Parser α) cursor, Parser.word text cursor = none →
      (Parser.tryWord text >>= h) cursor = h false cursor := by
    intro h cursor fails
    have skips : Parser.tryWord text cursor = some (false, cursor) :=
      (Parser.orElse_of_none (Parser.bind_of_none fails)).trans (Parser.pure_apply false)
    exact Parser.bind_of_some skips
  have reads : ∀ (h : Bool → Parser α) cursor value, Parser.word text cursor = some value →
      (Parser.tryWord text >>= h) cursor = (Parser.word text >>= fun _ => h true) cursor := by
    intro h cursor value reads
    have takes : Parser.tryWord text cursor = some (true, value.2) :=
      Parser.orElse_of_some ((Parser.bind_of_some reads).trans (Parser.pure_apply true))
    rw [Parser.bind_of_some takes, Parser.bind_of_some reads]
  have first : Agrees level shift size ⟨taken, .within depth⟩ ⟨true, .within depth⟩
      (Parser.word text)
    (Parser.word text) := .word passes
  have whole : Agrees level shift size ⟨taken, .within depth⟩ stop
      (Parser.word text >>= fun _ => f true)
    (Parser.word text >>= fun _ => f' true) := first.bind fun _ => yes
  intro window after after' last last' ends fits lasts
  have outcome := first ends fits lasts
  generalize here : Parser.word text ⟨window ++ after, last⟩ = result,
    there : Parser.word text ⟨move shift window ++ after', last'⟩ = result' at outcome
  cases outcome with
  | fails =>
    rw [fails f _ here, fails f' _ there]
    exact no ends fits lasts
  | reads =>
    rw [reads f _ _ here, reads f' _ _ there]
    exact whole ends fits lasts

section Repetitions

variable {p p' : Phrases}
variable {ι : Type}

theorem repeatBounded_of_fails (fails : p cursor = none)
    (bound : List Token) : Parser.repeatBounded p bound cursor = some ([], cursor) := by
  cases bound with
  | nil => rfl
  | cons _ bound =>
    rw [Parser.repeatBounded, Parser.orElse_of_none (Parser.bind_of_none fails), Parser.pure_apply]

/-- A recursion that calls itself with a smaller bound. The bound does not matter if it is no
smaller than the window. -/
theorem of_bounds (f f' : ι → List Token → Parser α)
    (zero : ∀ i bound bound', Agrees level shift 0 start stop (f i bound) (f' i bound'))
    (goes : ∀ i token token' bound bound' size', size' ≤ size →
      (∀ j, ∀ size'' < size', Agrees level shift size'' start stop (f j bound) (f' j bound')) →
        Agrees level shift size' start stop (f i (token :: bound)) (f' i (token' :: bound')))
    (i : ι) (le : size' ≤ size) (short : size' ≤ bound.length)
    (short' : size' ≤ bound'.length) :
    Agrees level shift size' start stop (f i bound) (f' i bound') := by
  induction bound generalizing bound' i size' with
  | nil =>
    obtain rfl := Nat.le_zero.mp short
    exact zero i _ _
  | cons token bound ih =>
    cases bound' with
    | nil =>
      obtain rfl := Nat.le_zero.mp short'
      exact zero i _ _
    | cons token' bound' =>
      rw [length_cons] at short short'
      exact goes i _ _ _ _ _ le fun j size'' lt => ih j (by omega) (by omega) (by omega)

/-- A recursion that goes on after each step as long as its bound allows. -/
theorem loop (f f' : ι → List Token → Parser α) {q q' : ι → Parser β} {value : ι → α}
    (agrees : ∀ i, Agrees level shift size ⟨false, .within depth⟩ ⟨true, .within depth⟩ (q i)
      (q' i))
    (stops : ∀ i bound cursor, q i cursor = none → f i bound cursor = some (value i, cursor))
    (stops' : ∀ i bound cursor, q' i cursor = none →
      f' i bound cursor = some (move shift (value i), cursor))
    (goes : ∀ i token token' bound bound' size', size' ≤ size →
      (∀ j, ∀ size'' < size', Agrees level shift size'' ⟨false, .within depth⟩
        ⟨false, .within depth⟩ (f j bound) (f' j bound')) →
          Agrees level shift size' ⟨false, .within depth⟩ ⟨false, .within depth⟩
            (f i (token :: bound)) (f' i (token' :: bound')))
    (i : ι) :
    Agrees level shift size ⟨false, .within depth⟩ ⟨false, .within depth⟩
      (fun cursor => f i cursor.tokens cursor) fun cursor => f' i cursor.tokens cursor := by
  have zero : ∀ i bound bound', Agrees level shift 0 ⟨false, .within depth⟩ ⟨false, .within depth⟩
      (f i bound) (f' i bound') := by
    intro i bound bound' window after after' last last' ends fits _
    obtain rfl := length_eq_zero_iff.mp (Nat.le_zero.mp fits.length_le)
    have fails := ((agrees i).mono (Nat.zero_le _)).fails_of_nil ends fits last last'
    rw [move_nil, nil_append, nil_append, stops _ _ _ fails.1, stops' _ _ _ fails.2]
    exact .reads (value i) [] [] rfl (.refl _ _) .inl nofun
  exact .bounded (of_bounds f f' zero goes i)

theorem many (agrees : Agrees level shift size ⟨false, .within depth⟩ ⟨true, .within depth⟩ p p') :
    Agrees level shift size ⟨false, .within depth⟩ ⟨false, .within depth⟩ (Parser.many p)
      (Parser.many p') := by
  refine loop (fun _ : Unit => Parser.repeatBounded p) (fun _ => Parser.repeatBounded p')
    (fun _ => agrees) (fun _ bound _ fails => repeatBounded_of_fails fails bound)
    (fun _ bound _ fails => repeatBounded_of_fails fails bound) ?_ ()
  intro _ _ _ bound bound' size' le further
  exact .orElse (.forget (.bind (agrees.mono le) fun _ => .map (.later (further ())) (by simp)))
    (.pure rfl)

theorem many1 (agrees : Agrees level shift size ⟨false, .within depth⟩ ⟨true, .within depth⟩ p p') :
    Agrees level shift size ⟨false, .within depth⟩ ⟨true, .within depth⟩ (Parser.many1 p)
      (Parser.many1 p') :=
  .bind agrees fun _ => .map agrees.many.again (by simp)

theorem sepBy1 (passes : level.step depth (.ofSymbol separator) = some depth)
    (agrees : Agrees level shift size ⟨false, .within depth⟩ ⟨true, .within depth⟩ p p') :
    Agrees level shift size ⟨false, .within depth⟩ ⟨true, .within depth⟩ (Parser.sepBy1 separator p)
      (Parser.sepBy1 separator p') :=
  .bind agrees fun _ => .map (again <| many <| .bind (.symbol passes) fun _ => agrees.again)
    (by simp)

theorem commas (passes : level.step depth .comma = some depth)
    (agrees : Agrees level shift size ⟨false, .within depth⟩ ⟨true, .within depth⟩ p p') :
    Agrees level shift size ⟨false, .within depth⟩ ⟨false, .within depth⟩ (Parser.commas p)
      (Parser.commas p') :=
  .maybe (.sepBy1 passes agrees)

theorem growBounded_of_fails (fails : step tree cursor = none) (bound : List Token) :
    Parser.growBounded step bound tree cursor = some (tree, cursor) := by
  cases bound with
  | nil => rfl
  | cons _ bound =>
    rw [Parser.growBounded, Parser.orElse_of_none (Parser.bind_of_none fails), Parser.pure_apply]

theorem grow
    (agrees : ∀ tree, Agrees level shift size ⟨false, .within depth⟩ ⟨true, .within depth⟩
      (step tree) (step' (move shift tree)))
    (tree : Tree) :
    Agrees level shift size ⟨false, .within depth⟩ ⟨false, .within depth⟩ (Parser.grow step tree)
      (Parser.grow step' (move shift tree)) := by
  refine loop (fun tree bound => Parser.growBounded step bound tree)
    (fun tree bound => Parser.growBounded step' bound (move shift tree)) agrees
    (fun _ bound _ fails => growBounded_of_fails fails bound)
    (fun _ bound _ fails => growBounded_of_fails fails bound) ?_ tree
  intro tree _ _ bound bound' size' le further
  exact .orElse (.forget (.bind ((agrees tree).mono le) fun larger => .later (further larger)))
    (.pure rfl)

end Repetitions

end Agrees

end Agreement

/-! ## Recursive rules -/

/-- How many rules may follow each other before a token is taken. -/
def Rule.rank : Rule → Nat
  | .annotationRule | .block | .body _ => 0
  | .type | .typeDeclaration | .expression _ _ => 1
  | .statement => 2

/-- Two parsers agree at the levels at which a rule is used. -/
def Rule.Agrees (shift size : Nat) (parser parser' : Phrases) : Rule → Prop
  | .annotationRule => Syntax.Agrees .modifier shift size .fresh .amid parser parser'
  | .type => Syntax.Agrees .head shift size .fresh .amid parser parser'
  | .expression _ _ => Syntax.Agrees .value shift size .fresh .amid parser parser'
  | .statement => Syntax.Agrees .block shift size .fresh .amid parser parser'
  | .block | .body _ => ∀ level : Level, level.stopsAtBrace = false →
    Syntax.Agrees level shift size .fresh ⟨true, level.closed⟩ parser parser'
  | .typeDeclaration => ∀ level ∈ [Level.value, Level.member],
    Syntax.Agrees level shift size .fresh ⟨true, level.closed⟩ parser parser'

/-- Two sets of rules agree on windows shorter than `size`, and on windows of that length where the
rank of the rule is smaller than `rank`. -/
def Knows (shift size rank : Nat) (rules rules' : Rules) : Prop :=
  ∀ (rule : Rule) (size' : Nat), size' < size ∨ size' = size ∧ rule.rank < rank →
    rule.Agrees shift size' (rules rule) (rules' rule)

namespace Knows

variable {shift size rank : Nat} {rules rules' : Rules}
variable {size' : Nat}

/-- After a token has been taken, all rules are known to agree. -/
theorem below (known : Knows shift size rank rules rules') (lt : size' < size) :
    Knows shift size' 3 rules rules' :=
  fun rule size'' le => known rule size'' (.inl (by omega))

theorem mono (known : Knows shift size rank rules rules') (le : size' ≤ size) :
    Knows shift size' rank rules rules' :=
  fun rule size'' lt => known rule size'' (by omega)

theorem annotationRule (known : Knows shift size (rank + 1) rules rules') :
    Agrees .modifier shift size .fresh .amid (rules .annotationRule) (rules' .annotationRule) :=
  known .annotationRule size (.inr ⟨rfl, Nat.succ_pos _⟩)

theorem type (known : Knows shift size (rank + 2) rules rules') :
    Agrees .head shift size .fresh .amid (rules .type) (rules' .type) :=
  known .type size (.inr ⟨rfl, Nat.succ_lt_succ (Nat.succ_pos _)⟩)

theorem expression (known : Knows shift size (rank + 2) rules rules') :
    Agrees .value shift size .fresh .amid (rules (.expression lambdas level))
      (rules' (.expression lambdas level)) :=
  known (.expression lambdas level) size (.inr ⟨rfl, Nat.succ_lt_succ (Nat.succ_pos _)⟩)

theorem statement (known : Knows shift size (rank + 3) rules rules') :
    Agrees .block shift size .fresh .amid (rules .statement) (rules' .statement) :=
  known .statement size (.inr ⟨rfl, Nat.succ_lt_succ (Nat.succ_lt_succ (Nat.succ_pos _))⟩)

theorem block (known : Knows shift size (rank + 1) rules rules')
    (bodies : level.stopsAtBrace = false) :
    Agrees level shift size .fresh ⟨true, level.closed⟩ (rules .block) (rules' .block) :=
  known .block size (.inr ⟨rfl, Nat.succ_pos _⟩) level bodies

theorem body (known : Knows shift size (rank + 1) rules rules')
    (bodies : level.stopsAtBrace = false) :
    Agrees level shift size .fresh ⟨true, level.closed⟩ (rules (.body kind))
      (rules' (.body kind)) :=
  known (.body kind) size (.inr ⟨rfl, Nat.succ_pos _⟩) level bodies

theorem typeDeclaration (known : Knows shift size (rank + 2) rules rules')
    (listed : level ∈ [Level.value, Level.member]) :
    Agrees level shift size .fresh ⟨true, level.closed⟩ (rules .typeDeclaration)
      (rules' .typeDeclaration) :=
  known .typeDeclaration size (.inr ⟨rfl, Nat.succ_lt_succ (Nat.succ_pos _)⟩) level listed

/-- A phrase is read after a token has been taken. -/
theorem later {α : Type} [Movable α] {p p' : Parser α} {inner outer : Level} {depth : Depth}
    {taken : Bool} [Within inner outer depth] (known : Knows shift size rank rules rules')
    (agrees : ∀ {size'}, Knows shift size' 3 rules rules' →
      Agrees inner shift size' .fresh ⟨taken, .within .zero⟩ p p') :
    Agrees outer shift size ⟨true, .within depth⟩ ⟨true, .within depth⟩ p p' :=
  .later fun _ lt => (agrees (known.below lt)).lift

end Knows

/-- A parser agrees on windows if the rules that it refers to do. -/
def Steady {α : Type} [Movable α] (level : Level) (rank : Nat) (p : Rules → Parser α) : Prop :=
  ∀ {shift size : Nat} {rules rules' : Rules}, Knows shift size rank rules rules' →
    Agrees level shift size .fresh .amid (p rules) (p rules')

theorem Knows.call {α : Type} [Movable α] {inner outer : Level} {depth : Depth}
    [Within inner outer depth] {p : Rules → Parser α} {shift size rank : Nat} {rules rules' : Rules}
    (known : Knows shift size rank rules rules') (steady : Steady inner 3 p) :
    Agrees outer shift size ⟨true, .within depth⟩ ⟨true, .within depth⟩ (p rules) (p rules') :=
  known.later fun known => steady known

end JavaSlice.Syntax
