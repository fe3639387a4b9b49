import JavaSlice.Syntax.Program

/-!
# Brackets and the ends of phrases

Where a phrase has to end depends on what is read. A `Level` says at which tokens every phrase of a
kind stops: the header of a declaration at a brace or a semicolon, an expression at a semicolon or
at a bracket that closes nothing, the statements of a block at the brace that closes the block.
Brackets that are opened on the way are counted in a `Depth`. `Level.run` follows some tokens and
gives up at the first one at which phrases stop.

Tokens and phrases have places in the source. `move` says how they change when text is put in front
of it.
-/

namespace JavaSlice.Syntax

open List Option

/-! ## Moving -/

/-- Things with places in a source. They move when text is put in front of the source. -/
class Movable (α : Type) where
  move : Nat → α → α

export Movable (move)

instance : Movable Unit := ⟨fun _ value => value⟩

instance : Movable Bool := ⟨fun _ value => value⟩

instance : Movable String := ⟨fun _ value => value⟩

/-- A number that a parser gives is a place. -/
instance : Movable Nat := ⟨fun shift place => place + shift⟩

instance {α : Type} [Movable α] : Movable (List α) := ⟨fun shift => List.map (move shift)⟩

instance : Movable Token :=
  ⟨fun shift token =>
    { token with start := token.start + shift, stop := token.stop + shift }⟩

namespace Tree

mutual

/-- A phrase that has moved. -/
def moved (shift : Nat) : Tree → Tree
  | .node kind role start stop children =>
    .node kind role (start + shift) (stop + shift) (allMoved shift children)
  | .flawed flaw kind role start stop children =>
    .flawed flaw kind role (start + shift) (stop + shift) (allMoved shift children)

/-- Phrases that have moved. -/
def allMoved (shift : Nat) : List Tree → List Tree
  | [] => []
  | tree :: trees => tree.moved shift :: allMoved shift trees

end

instance : Movable Tree := ⟨moved⟩

end Tree

section Moving

variable {α : Type} [Movable α] {shift : Nat}

@[simp]
theorem move_nil : move shift ([] : List α) = [] := rfl

@[simp]
theorem move_cons (first : α) (rest : List α) :
    move shift (first :: rest) = move shift first :: move shift rest := rfl

@[simp]
theorem move_append (first second : List α) :
    move shift (first ++ second) = move shift first ++ move shift second :=
  map_append

@[simp]
theorem length_move (list : List α) : (move shift list).length = list.length :=
  length_map _

@[simp]
theorem isEmpty_move (list : List α) : (move shift list).isEmpty = list.isEmpty :=
  isEmpty_map

@[simp]
theorem move_eq_nil_iff (list : List α) : move shift list = [] ↔ list = [] :=
  map_eq_nil_iff

@[simp]
theorem move_bool (value : Bool) : move shift value = value := rfl

@[simp]
theorem move_place (place : Nat) : move shift place = place + shift := rfl

end Moving

namespace Token

variable {shift : Nat} (token : Token)

@[simp]
theorem kind_move : (move shift token).kind = token.kind := rfl

@[simp]
theorem text_move : (move shift token).text = token.text := rfl

@[simp]
theorem start_move : (move shift token).start = token.start + shift := rfl

@[simp]
theorem stop_move : (move shift token).stop = token.stop + shift := rfl

@[simp]
theorem isSymbol_move (text : String) : (move shift token).isSymbol text = token.isSymbol text :=
  rfl

end Token

namespace Tree

variable {shift : Nat}

@[simp]
theorem allMoved_eq (trees : List Tree) : allMoved shift trees = move shift trees := by
  induction trees with
  | nil => rfl
  | cons tree trees ih => rw [allMoved, ih]; rfl

@[simp]
theorem move_node (kind : Kind) (role : Option Role) (start stop : Nat) (children : List Tree) :
    move shift (node kind role start stop children) =
      node kind role (start + shift) (stop + shift) (move shift children) := by
  rw [← allMoved_eq]
  rfl

@[simp]
theorem kind_move (tree : Tree) : (move shift tree).kind = tree.kind := by
  cases tree <;> rfl

@[simp]
theorem role_move (tree : Tree) : (move shift tree).role = tree.role := by
  cases tree <;> rfl

@[simp]
theorem start_move (tree : Tree) : (move shift tree).start = tree.start + shift := by
  cases tree <;> rfl

@[simp]
theorem stop_move (tree : Tree) : (move shift tree).stop = tree.stop + shift := by
  cases tree <;> rfl

@[simp]
theorem children_move (tree : Tree) : (move shift tree).children = move shift tree.children := by
  cases tree <;> exact allMoved_eq _

@[simp]
theorem move_withRole (role : Role) (tree : Tree) :
    move shift (tree.withRole role) = (move shift tree).withRole role := by
  cases tree <;> rfl

@[simp]
theorem move_map_withRole (role : Role) (trees : List Tree) :
    move shift (trees.map (withRole role)) = (move shift trees).map (withRole role) := by
  induction trees with
  | nil => rfl
  | cons tree trees ih => simp [ih]

@[simp]
theorem flaw?_move (tree : Tree) : (move shift tree).flaw? = tree.flaw? := by
  cases tree <;> rfl

theorem holds_eq (test : Tree → Bool) (tree : Tree) :
    tree.holds test = (test tree || tree.children.any (holds test)) := by
  have all : ∀ trees, anyHolds test trees = trees.any (holds test) := by
    intro trees
    induction trees with
    | nil => rfl
    | cons tree trees ih => rw [anyHolds, ih, any_cons]
  cases tree <;> rw [holds, all, children]

/-- What holds of a phrase if it holds of its parts holds of every phrase. -/
theorem rises {motive : Tree → Prop}
    (step : ∀ tree : Tree, (∀ part ∈ tree.children, motive part) → motive tree) (tree : Tree) :
    motive tree :=
  step tree fun part isPart =>
    have smaller : sizeOf part < sizeOf tree := by
      have := sizeOf_lt_of_mem isPart
      cases tree <;> simp only [children, node.sizeOf_spec, flawed.sizeOf_spec] at this ⊢ <;> omega
    rises step part
termination_by sizeOf tree

/-- What does not depend on places holds of a phrase wherever it moves. -/
theorem holds_move (steady : ∀ tree : Tree, test (move shift tree) = test tree)
    (tree : Tree) : (move shift tree).holds test = tree.holds test := by
  induction tree using rises with
  | step tree ih =>
    rw [holds_eq, holds_eq, steady, children_move]
    refine congrArg _ (List.any_map.trans (Bool.eq_iff_iff.mpr ?_))
    simp only [List.any_eq_true, Function.comp_apply]
    exact exists_congr fun part => and_congr_right fun isPart => by rw [ih part isPart]

theorem hasError_eq (tree : Tree) :
    tree.hasError = (tree.flaw?.isSome || tree.children.any hasError) :=
  holds_eq _ tree

theorem hasError_node_iff {kind role start stop children} :
    (node kind role start stop children).hasError = false ↔
      kind ≠ .error ∧ ∀ tree ∈ children, tree.hasError = false := by
  rw [hasError_eq, flaw?, Tree.children]
  simp

/-- Moving a tree neither adds nor removes an error. -/
@[simp]
theorem hasError_move (tree : Tree) : (move shift tree).hasError = tree.hasError :=
  holds_move (fun tree => by rw [flaw?_move]) tree

end Tree

/-! ## Brackets -/

/-- What a token means for the end of a piece. -/
inductive Mark where
  | openParen
  | closeParen
  | openBrace
  | closeBrace
  | semicolon
  | comma
  /-- A word or any other symbol. -/
  | plain
  /-- A number, a string or a character, and a character that no token starts with. -/
  | literal
  | finish
deriving DecidableEq, Repr

/-- What a symbol means for the end of a piece. -/
def Mark.ofSymbol (text : String) : Mark :=
  if text = "(" then .openParen
  else if text = ")" then .closeParen
  else if text = "\x7b" then .openBrace
  else if text = "\x7d" then .closeBrace
  else if text = ";" then .semicolon
  else if text = "," then .comma
  else .plain

/-- What a token means for the end of a piece. -/
def Token.mark (token : Token) : Mark :=
  match token.kind with
  | .word => .plain
  | .symbol => .ofSymbol token.text
  | .finish => .finish
  | _ => .literal

@[simp]
theorem Token.mark_move (shift : Nat) (token : Token) : (move shift token).mark = token.mark := rfl

theorem Token.mark_of_isSymbol {token : Token} {text : String} (same : token.isSymbol text) :
    token.mark = .ofSymbol text := by
  simp only [isSymbol, Bool.and_eq_true, beq_iff_eq] at same
  rw [mark, same.1, same.2]

theorem Token.mark_of_word {token : Token} (word : token.kind == .word) : token.mark = .plain := by
  rw [mark, eq_of_beq word]

theorem Token.mark_of_isWord {token : Token} {text : String} (same : token.isWord text) :
    token.mark = .plain :=
  mark_of_word (Bool.and_eq_true _ _ ▸ same).1

/-- The symbol that a mark stands for. -/
def Mark.text : Mark → String
  | .openParen => "("
  | .closeParen => ")"
  | .openBrace => "\x7b"
  | .closeBrace => "\x7d"
  | .semicolon => ";"
  | .comma => ","
  | _ => ""

theorem Mark.text_ofSymbol {text} (special : ofSymbol text ≠ .plain) :
    (ofSymbol text).text = text := by
  unfold ofSymbol at special ⊢
  repeat' split
  all_goals simp_all [Mark.text]

/-- A token that means the same as a bracket, a semicolon or a comma is one. -/
theorem Token.isSymbol_of_mark {token : Token} {text : String}
    (special : Mark.ofSymbol text ≠ .plain) (same : token.mark = .ofSymbol text) :
    token.isSymbol text := by
  have text_eq := Mark.text_ofSymbol special
  cases kind : token.kind with
  | symbol =>
    simp only [mark, kind] at same
    have token_eq := Mark.text_ofSymbol (same ▸ special)
    rw [same, text_eq] at token_eq
    simp [isSymbol, kind, token_eq]
  | word => simp [mark, kind, ← same] at special
  | _ =>
    simp only [mark, kind] at same
    rw [← same] at text_eq
    subst text_eq
    cases same

theorem Token.kind_of_mark {token : Token} (finish : token.mark = .finish) :
    token.kind = .finish := by
  cases kind : token.kind with
  | symbol =>
    simp only [mark, kind] at finish
    have text := Mark.text_ofSymbol (show Mark.ofSymbol token.text ≠ .plain by simp [finish])
    rw [finish] at text
    rw [← text] at finish
    cases finish
  | finish => rfl
  | _ => simp [mark, kind] at finish

/-- How many brackets are open. -/
structure Depth where
  parens : Nat
  braces : Nat
deriving DecidableEq, Repr

/-- No bracket is open. -/
abbrev Depth.zero : Depth := ⟨0, 0⟩

/-- The kinds of phrase, by the tokens at which they stop. -/
inductive Level where
  /-- Annotations, modifiers and what stands between parentheses: outside of these no brace and no
  comma. -/
  | modifier
  /-- Types and headers: a brace only between parentheses. -/
  | head
  /-- Constants of an enumeration, which end before a comma. -/
  | constant
  /-- Expressions, which end before a semicolon. -/
  | value
  /-- A header with the braces after it, which ends with them. -/
  | member
  /-- The statements of a block. -/
  | block
deriving DecidableEq, Repr

namespace Level

/-- Whether phrases stop at a brace outside of parentheses. -/
def stopsAtBrace : Level → Bool
  | modifier | head => true
  | _ => false

/-- Whether phrases stop at a comma outside of brackets. -/
def stopsAtComma : Level → Bool
  | modifier | constant => true
  | _ => false

/-- Whether phrases stop at a literal outside of brackets. -/
def stopsAtLiteral : Level → Bool
  | modifier | head | constant => true
  | _ => false

/-- The depth after a token outside of braces, and nothing if phrases stop there. -/
def outside (level : Level) (parens : Nat) : Mark → Option Depth
  | .openParen => some ⟨parens + 1, 0⟩
  | .closeParen =>
    match parens with
    | 0 => none
    | outer + 1 => some ⟨outer, 0⟩
  | .openBrace => if parens = 0 ∧ level.stopsAtBrace then none else some ⟨parens, 1⟩
  | .comma => if parens = 0 ∧ level.stopsAtComma then none else some ⟨parens, 0⟩
  | .literal => if parens = 0 ∧ level.stopsAtLiteral then none else some ⟨parens, 0⟩
  | .plain => some ⟨parens, 0⟩
  | .closeBrace | .semicolon | .finish => none

/-- The depth after a token inside `braces + 1` braces; the last brace ends a member. -/
def inside (level : Level) (parens braces : Nat) : Mark → Option Depth
  | .finish => none
  | .openBrace => some ⟨parens, braces + 2⟩
  | .closeBrace => if level = .member ∧ parens = 0 ∧ braces = 0 then none else some ⟨parens, braces⟩
  | _ => some ⟨parens, braces + 1⟩

/-- The depth after a token of the statements of a block, where parentheses do not count. -/
def blockStep (depth : Depth) : Mark → Option Depth
  | .finish => none
  | .openBrace => some ⟨depth.parens, depth.braces + 1⟩
  | .closeBrace =>
    match depth.braces with
    | 0 => none
    | outer + 1 => some ⟨depth.parens, outer⟩
  | _ => some depth

/-- The depth after a token, and nothing if every phrase of a level stops there. -/
def step : Level → Depth → Mark → Option Depth
  | block, depth, mark => blockStep depth mark
  | level, ⟨parens, 0⟩, mark => level.outside parens mark
  | level, ⟨parens, braces + 1⟩, mark =>
    if parens = 0 ∧ level.stopsAtBrace then none else level.inside parens braces mark

theorem step_finish (level : Level) (depth : Depth) : level.step depth .finish = none := by
  obtain ⟨parens, braces⟩ := depth
  cases level <;> cases braces <;> simp [step, outside, inside, blockStep]

/-- The depth after some tokens, and nothing if every phrase of a level stops at one of them. -/
def run (level : Level) (depth : Depth) (tokens : List Token) : Option Depth :=
  tokens.foldlM (fun depth token => level.step depth token.mark) depth

@[simp]
theorem run_nil (level : Level) (depth : Depth) : level.run depth [] = some depth := rfl

@[simp]
theorem run_cons (level : Level) (depth : Depth) (token : Token) (tokens : List Token) :
    level.run depth (token :: tokens) =
      (level.step depth token.mark).bind fun next => level.run next tokens :=
  foldlM_cons

/-- Brackets are counted through one list of tokens and then the other. -/
theorem run_append (level : Level) (depth : Depth) (first second : List Token) :
    level.run depth (first ++ second) =
      (level.run depth first).bind fun next => level.run next second :=
  foldlM_append

/-- Places do not matter to brackets. -/
theorem run_move (level : Level) (depth : Depth) (shift : Nat) (tokens : List Token) :
    level.run depth (move shift tokens) = level.run depth tokens := by
  induction tokens generalizing depth with
  | nil => rfl
  | cons token tokens ih => simp [ih]

/-- Whether pieces of a level may end in two runs before two different tokens. -/
def ends : Level → Bool
  | modifier | head | constant => true
  | _ => false

/-- Whether a piece of a level may end before a token: headers end before the brace of a body. -/
def EndsAt (level : Level) (token : Token) : Prop :=
  level.step .zero token.mark = none ∧ (level = .head → token.mark = .openBrace)

/-- Whether some tokens start with one before which a piece of a level may end. -/
def Stops (level : Level) (tokens : List Token) : Prop :=
  ∃ token rest, tokens = token :: rest ∧ level.EndsAt token

/-- Whether a window shows where a piece ends: it holds a token at which every phrase stops, or it
is followed by one in both runs. -/
def Shows (level : Level) (depth : Depth) (window after after' : List Token) : Prop :=
  level.run depth window = none ∨
    level.ends = true ∧ level.run depth window = some .zero ∧ level.Stops after ∧ level.Stops after'

/-- What is seen of a text after some of it has been taken. -/
theorem Shows.drop {level : Level} {depth next : Depth} {taken window after after' : List Token}
    (shows : level.Shows depth (taken ++ window) after after')
    (path : level.run depth taken = some next) : level.Shows next window after after' := by
  simpa only [Shows, run_append, path, bind_some] using shows

end Level

/-! ## Levels inside levels -/

section Embeddings

open Level

variable {depth next : Depth} {mark : Mark}
variable {inner outer : Level} {place : Depth → Depth}
variable {between : Level}

/-- A level that stops at fewer tokens. -/
theorem step_of_stricter
    (listed : (inner, outer) ∈ [(modifier, .head), (modifier, constant), (modifier, value),
      (.head, value), (.head, member), (constant, value)])
    (passes : inner.step depth mark = some next) : outer.step depth mark = some next := by
  obtain ⟨parens, braces⟩ := depth
  simp only [mem_cons, Prod.mk.injEq, not_mem_nil, or_false] at listed
  rcases listed with ⟨rfl, rfl⟩ | ⟨rfl, rfl⟩ | ⟨rfl, rfl⟩ | ⟨rfl, rfl⟩ | ⟨rfl, rfl⟩ | ⟨rfl, rfl⟩ <;>
    cases braces <;> cases parens <;> cases mark <;>
      simp_all [step, outside, inside, stopsAtBrace, stopsAtComma, stopsAtLiteral]

/-- Between parentheses, everything that an expression holds is allowed. -/
theorem step_inParens (passes : value.step depth mark = some next) :
    modifier.step ⟨depth.parens + 1, depth.braces⟩ mark = some ⟨next.parens + 1, next.braces⟩ := by
  obtain ⟨parens, braces⟩ := depth
  cases braces <;> cases parens <;> cases mark <;>
    simp_all [step, outside, inside, stopsAtBrace, stopsAtComma, stopsAtLiteral] <;>
      subst passes <;> simp

theorem step_block_of_value (passes : value.step depth mark = some next) :
    block.step ⟨0, depth.braces⟩ mark = some ⟨0, next.braces⟩ := by
  obtain ⟨parens, braces⟩ := depth
  cases braces <;> cases parens <;> cases mark <;>
    simp_all [step, outside, inside, blockStep, stopsAtBrace, stopsAtComma, stopsAtLiteral] <;>
      subst passes <;> simp

/-- Between braces, everything that a block holds is allowed. -/
theorem step_inBraces (bodies : outer.stopsAtBrace = false)
    (passes : block.step depth mark = some next) :
    outer.step ⟨0, depth.braces + 1⟩ mark = some ⟨0, next.braces + 1⟩ := by
  obtain ⟨parens, braces⟩ := depth
  cases braces <;> cases mark <;> cases outer <;>
    simp_all [step, inside, blockStep, stopsAtBrace] <;> subst passes <;> simp

/-- Phrases of one level are allowed inside those of another, where some brackets are open: `place`
says which brackets are open for the outer phrase. -/
structure Embeds (inner outer : Level) (place : Depth → Depth) : Prop where
  step : ∀ {mark depth next}, inner.step depth mark = some next →
    outer.step (place depth) mark = some (place next)
  ends : outer.ends = true → ∀ {depth}, place depth = .zero →
    depth = .zero ∧ inner.ends = true ∧ (inner = .head → outer = .head)

/-- Embeddings compose. -/
theorem Embeds.comp (first : Embeds inner between place) (second : Embeds between outer place') :
    Embeds inner outer (place' ∘ place) where
  step passes := second.step (first.step passes)
  ends ends _ same := by
    obtain ⟨zero, ends', heads⟩ := second.ends ends same
    obtain ⟨zero', ends'', heads'⟩ := first.ends ends' zero
    exact ⟨zero', ends'', heads ∘ heads'⟩

theorem Embeds.value_modifier :
    Embeds value modifier fun depth => ⟨depth.parens + 1, depth.braces⟩ :=
  ⟨step_inParens, fun _ _ same => by simp at same⟩

theorem Embeds.value_block : Embeds value block fun depth => ⟨0, depth.braces⟩ :=
  ⟨step_block_of_value, nofun⟩

theorem Embeds.block_inBraces (bodies : outer.stopsAtBrace = false) :
    Embeds block outer fun depth => ⟨0, depth.braces + 1⟩ :=
  ⟨step_inBraces bodies, fun _ _ same => by simp at same⟩

/-- Phrases of one level are allowed inside those of another at some depth. -/
class Within (inner outer : Level) (depth : Depth) : Prop where
  embeds : ∃ place, place .zero = depth ∧ Embeds inner outer place

theorem Within.comp [within : Within inner between .zero] (same : place .zero = depth)
    (second : Embeds between outer place) : Within inner outer depth := by
  obtain ⟨place', same', first⟩ := within.embeds
  exact ⟨place ∘ place', by rw [Function.comp, same', same], first.comp second⟩

instance {level : Level} : Within level level .zero :=
  ⟨id, rfl, ⟨fun passes => passes, fun ends _ same => ⟨same, ends, id⟩⟩⟩

instance : Within modifier head .zero :=
  ⟨id, rfl, ⟨step_of_stricter (by decide), fun _ _ same => ⟨same, rfl, nofun⟩⟩⟩

instance : Within modifier constant .zero :=
  ⟨id, rfl, ⟨step_of_stricter (by decide), fun _ _ same => ⟨same, rfl, nofun⟩⟩⟩

instance : Within constant value .zero :=
  ⟨id, rfl, ⟨step_of_stricter (by decide), nofun⟩⟩

instance {inner : Level} [Within inner head .zero] : Within inner value .zero :=
  .comp rfl (⟨step_of_stricter (by decide), nofun⟩ : Embeds head value id)

instance {inner : Level} [Within inner head .zero] : Within inner member .zero :=
  .comp rfl (⟨step_of_stricter (by decide), nofun⟩ : Embeds head member id)

instance {inner : Level} [Within inner value .zero] : Within inner block .zero :=
  .comp rfl .value_block

instance {inner : Level} [Within inner value .zero] : Within inner modifier ⟨1, 0⟩ :=
  .comp rfl .value_modifier

instance {inner : Level} [Within inner value .zero] : Within inner value ⟨1, 0⟩ :=
  .comp rfl (Embeds.value_modifier.comp
    (⟨step_of_stricter (by decide), nofun⟩ : Embeds modifier value id))

/-- Braces open a block at any level that allows bodies. -/
theorem Within.inBraces [Within inner block .zero] (bodies : outer.stopsAtBrace = false) :
    Within inner outer ⟨0, 1⟩ :=
  .comp rfl (.block_inBraces bodies)

instance {inner : Level} [Within inner block .zero] : Within inner value ⟨0, 1⟩ := .inBraces rfl

/-- A run at the inner level is a run at the outer one. -/
theorem Embeds.run (embeds : Embeds inner outer place) (path : inner.run depth tokens = some next) :
    outer.run (place depth) tokens = some (place next) := by
  induction tokens generalizing depth with
  | nil =>
    obtain rfl := some.inj path
    rfl
  | cons token tokens ih =>
    rw [run_cons, bind_eq_some_iff] at path
    obtain ⟨middle, passes, path⟩ := path
    rw [run_cons, embeds.step passes, bind_some, ih path]

/-- A window that shows where the outer phrase ends shows where the inner one ends. -/
theorem Embeds.shows {after} (embeds : Embeds inner outer place)
    (shows : outer.Shows (place depth) window after after') :
    inner.Shows depth window after after' := by
  cases path : inner.run depth window with
  | none => exact .inl path
  | some next =>
    have outerPath := embeds.run path
    rcases shows with stop | ⟨ends, path', stops, stops'⟩
    · rw [stop] at outerPath
      cases outerPath
    · rw [path', some.injEq] at outerPath
      obtain ⟨rfl, innerEnds, heads⟩ := embeds.ends ends outerPath.symm
      have stops_of : ∀ {tokens}, outer.Stops tokens → inner.Stops tokens := by
        rintro tokens ⟨token, rest, rfl, stop, brace⟩
        refine ⟨token, rest, rfl, ?_, brace ∘ heads⟩
        cases passes : inner.step .zero token.mark with
        | none => rfl
        | some further =>
          have outerStep := embeds.step passes
          rw [← outerPath, stop] at outerStep
          cases outerStep
      exact .inr ⟨innerEnds, path, stops_of stops, stops_of stops'⟩

end Embeddings

end JavaSlice.Syntax
