import Mathlib.Data.List.Basic
import JavaSlice.Proofs.Syntax.Brackets
import JavaSlice.Proofs.Syntax.Lexemes

/-!
# The tokens of a piece of source

A piece of a source from the start of one token to the end of another can be cut out and put before
another text. `Spans z x tokens` says that the text `x` is made of some tokens and the gaps between
them when `z` comes after it; the places of the tokens are counted from the start of the piece.
Every run of tokens of a source spans a piece (`exists_spans`), and the piece has the same tokens
before any text that separates it from what follows (`Spans.relex`).
-/

namespace JavaSlice.Syntax.Token

open List Shape

variable {place : Nat} {text source : List Char} {token : Token} {rest : List Token}

/-! ## Scanning step by step -/

/-- The tokens of a text that starts at a place. -/
def scanAt (place : Nat) (text : List Char) : List Token :=
  scanFrom text.length place text

theorem scanFrom_eq_of_le (le : text.length ≤ bound) (le' : text.length ≤ bound') :
    scanFrom bound place text = scanFrom bound' place text := by
  induction bound generalizing bound' place text with
  | zero =>
    obtain rfl := length_eq_zero_iff.mp (Nat.le_zero.mp le)
    cases bound' <;> rfl
  | succ bound ih =>
    cases text with
    | nil => cases bound' <;> rfl
    | cons c rest =>
      cases bound' with
      | zero => cases le'
      | succ bound' =>
        simp only [scanFrom]
        cases gap : gap? (c :: rest) with
        | some n =>
          have bounds := gap?_bounds gap
          simp only [length_cons] at le le' bounds
          exact ih (by simp; omega) (by simp; omega)
        | none =>
          have bounds := classify_bounds (cons_ne_nil c rest)
          simp only [length_cons] at le le' bounds
          exact congrArg (List.cons _) (ih (by simp; omega) (by simp; omega))

theorem scanAt_nil (place : Nat) : scanAt place [] = [⟨.finish, "", place, place⟩] := rfl

theorem scanAt_of_gap (gap : gap? text = some n) (place : Nat) :
    scanAt place text = scanAt (place + n) (text.drop n) := by
  cases text with
  | nil => cases gap
  | cons c rest =>
    have bounds := gap?_bounds gap
    simp only [scanAt, length_cons, scanFrom, gap] at bounds ⊢
    exact scanFrom_eq_of_le (by simp; omega) (Nat.le_refl _)

theorem scanAt_of_token {kind n} (nonempty : text ≠ []) (gap : gap? text = none)
    (classified : classify text = (kind, n)) (place : Nat) :
    scanAt place text =
      ⟨kind, String.ofList (text.take n), place, place + n⟩ ::
        scanAt (place + n) (text.drop n) := by
  have bounds := classify_bounds nonempty
  obtain ⟨c, rest, rfl⟩ := exists_cons_of_ne_nil nonempty
  simp only [scanAt, length_cons, scanFrom, gap, classified] at bounds ⊢
  rw [scanFrom_eq_of_le (by simp; omega) (Nat.le_refl _)]

/-- What gaps and tokens in front of a text keep holds of every text. -/
theorem scan_induction {holds : Nat → List Char → Prop} (nil : ∀ place, holds place [])
    (gap : ∀ {place text n}, gap? text = some n → (text.take n).length = n →
      holds (place + n) (text.drop n) → holds place text)
    (token : ∀ {place text kind n}, text ≠ [] → gap? text = none → classify text = (kind, n) →
      0 < n → (text.take n).length = n → holds (place + n) (text.drop n) → holds place text)
    (place : Nat) (text : List Char) : holds place text := by
  generalize size : text.length = n
  induction n using Nat.strongRecOn generalizing place text with
  | ind n ih =>
  subst size
  by_cases empty : text = []
  · subst empty
    exact nil place
  cases isGap : gap? text with
  | some n =>
    have bounds := gap?_bounds isGap
    exact gap isGap (by simp; omega) (ih _ (by simp; omega) _ _ rfl)
  | none =>
    have bounds := classify_bounds empty
    generalize classified : classify text = found at bounds
    exact token empty isGap classified bounds.1 (by simp; omega) (ih _ (by simp; omega) _ _ rfl)

/-! ## Pieces -/

/-- A text is made of some tokens and the gaps before and between them when another text comes after
it. The last token ends the text. -/
inductive Spans (z : List Char) : List Char → List Token → Prop where
  | last {x : List Char} {kind : TokenKind} (nonempty : x ≠ []) (gap : gap? (x ++ z) = none)
      (classified : classify (x ++ z) = (kind, x.length)) :
        Spans z x [⟨kind, String.ofList x, 0, x.length⟩]
  | gap {g x : List Char} {tokens : List Token} (gap : gap? (g ++ (x ++ z)) = some g.length)
      (spans : Spans z x tokens) : Spans z (g ++ x) (move g.length tokens)
  | token {w x : List Char} {kind : TokenKind} {tokens : List Token} (nonempty : w ≠ [])
      (gap : gap? (w ++ (x ++ z)) = none) (classified : classify (w ++ (x ++ z)) = (kind, w.length))
      (spans : Spans z x tokens) :
      Spans z (w ++ x) (⟨kind, String.ofList w, 0, w.length⟩ :: move w.length tokens)

theorem move_move (first second : Nat) (tokens : List Token) :
    move second (move first tokens) = move (first + second) tokens := by
  induction tokens with
  | nil => rfl
  | cons token tokens ih =>
    rw [move_cons, move_cons, move_cons, ih]
    exact congrArg (· :: _) (by simp [Movable.move, Nat.add_assoc])

theorem move_zero (tokens : List Token) : move 0 tokens = tokens :=
  map_id tokens

namespace Spans

variable {x z : List Char} {tokens : List Token}

section

variable (spans : Spans z x tokens)
include spans

theorem ne_nil : x ≠ [] := by
  induction spans with
  | last nonempty => exact nonempty
  | gap gap spans ih => exact append_ne_nil_of_right_ne_nil _ ih
  | token nonempty => exact append_ne_nil_of_left_ne_nil nonempty _

theorem tokens_ne_nil : tokens ≠ [] := by
  induction spans with
  | gap gap spans ih => simpa using ih
  | _ => simp

/-- The tokens of a piece are what is scanned. -/
theorem scanAt_eq (place : Nat) :
    scanAt place (x ++ z) = move place tokens ++ scanAt (place + x.length) z := by
  induction spans generalizing place with
  | @last x kind nonempty gap classified =>
    rw [scanAt_of_token (append_ne_nil_of_left_ne_nil nonempty z) gap classified]
    simp [Movable.move, Nat.add_comm]
  | @gap g x tokens gap spans ih =>
    rw [append_assoc, scanAt_of_gap gap, drop_left, ih, move_move, length_append,
      Nat.add_comm g.length place, Nat.add_assoc]
  | @token w x kind tokens nonempty gap classified spans ih =>
    rw [append_assoc, scanAt_of_token (append_ne_nil_of_left_ne_nil nonempty _) gap classified,
      drop_left, take_left, ih, move_cons, move_move, length_append,
      Nat.add_comm w.length place, ← Nat.add_assoc]
    simp [Movable.move, Nat.add_comm]

/-- The gap in front of the first token can be left out. -/
theorem exists_start :
    ∃ g x' tokens', x = g ++ x' ∧ Spans z x' tokens' ∧ tokens = move g.length tokens' ∧
      tokens'.head?.map (·.start) = some 0 := by
  induction spans with
  | last nonempty gap classified =>
    exact ⟨[], _, _, rfl, .last nonempty gap classified, (move_zero _).symm, rfl⟩
  | @gap g x tokens gap spans ih =>
    obtain ⟨g', x', tokens', rfl, spans', rfl, start⟩ := ih
    refine ⟨g ++ g', x', tokens', (append_assoc ..).symm, spans', ?_, start⟩
    rw [move_move, length_append, Nat.add_comm]
  | token nonempty gap classified spans =>
    exact ⟨[], _, _, rfl, .token nonempty gap classified spans, (move_zero _).symm, rfl⟩

/-- A piece ends as its last token does. -/
theorem exists_last :
    ∃ front last, tokens = front ++ [last] ∧ last.text.toList.getLast? = x.getLast? ∧
      last.stop = x.length := by
  induction spans with
  | last nonempty gap classified => exact ⟨[], _, rfl, by simp, rfl⟩
  | @gap g x tokens gap spans ih =>
    obtain ⟨front, last, rfl, same, stop⟩ := ih
    refine ⟨move g.length front, move g.length last, move_append .., ?_, ?_⟩
    · rw [text_move, same, getLast?_append_of_ne_nil _ spans.ne_nil]
    · rw [stop_move, stop, length_append, Nat.add_comm]
  | @token w x kind tokens nonempty gap classified spans ih =>
    obtain ⟨front, last, rfl, same, stop⟩ := ih
    refine ⟨⟨kind, String.ofList w, 0, w.length⟩ :: move w.length front, move w.length last, ?_,
      ?_, ?_⟩
    · rw [move_append]
      rfl
    · rw [text_move, same, getLast?_append_of_ne_nil _ spans.ne_nil]
    · rw [stop_move, stop, length_append, Nat.add_comm]

/-- The text of a token stands at its place in the piece. -/
theorem drop_start (mem : token ∈ tokens) :
    token.text.toList <+: x.drop token.start ∧
      token.stop = token.start + token.text.toList.length := by
  induction spans generalizing token with
  | last nonempty gap classified =>
    obtain rfl := mem_singleton.mp mem
    simp
  | @gap g x tokens gap spans ih =>
    obtain ⟨token, inside, rfl⟩ := mem_map.mp mem
    obtain ⟨stands, stop⟩ := ih inside
    rw [text_move, start_move, stop_move, stop]
    refine ⟨?_, by omega⟩
    rwa [Nat.add_comm, ← drop_drop, drop_left]
  | @token w x kind tokens nonempty gap classified spans ih =>
    rcases mem_cons.mp mem with rfl | further
    · simp
    · obtain ⟨token, inside, rfl⟩ := mem_map.mp further
      obtain ⟨stands, stop⟩ := ih inside
      rw [text_move, start_move, stop_move, stop]
      refine ⟨?_, by omega⟩
      rwa [Nat.add_comm, ← drop_drop, drop_left]

end

end Spans

/-! ## Pieces before other texts -/

/-- Whether a token is no stray character of a source and does not start a comment that is never
closed. -/
def isLexeme (source : List Char) (token : Token) : Bool :=
  token.kind != .unknown && ! ['/', '*'].isPrefixOf (source.drop token.start)

theorem isLexeme_iff :
    token.isLexeme source ↔ token.kind ≠ .unknown ∧
      ¬ ['/', '*'] <+: source.drop token.start := by
  simp [isLexeme, ← isPrefixOf_iff_prefix]

/-- A piece has the same tokens before every text that separates it from what follows. -/
theorem Spans.relex (spans : Spans z x tokens) (clean : ∀ token ∈ tokens, token.isLexeme (x ++ z))
    (settled : Settled x z) (separates : Separates z y) : Spans y x tokens := by
  induction spans with
  | @last x kind nonempty gap classified =>
    obtain ⟨known, closed⟩ := isLexeme_iff.mp (clean _ mem_cons_self)
    refine .last nonempty (gap?_append_of_none nonempty gap closed separates) ?_
    rw [← classified]
    exact classify_append nonempty (by rwa [classified]) (Nat.le_of_eq (by rw [classified])) settled
      separates
  | @gap g x tokens gap spans ih =>
    have longer : g.length < (g ++ x).length := by
      have := length_pos_iff.mpr spans.ne_nil
      simp
      omega
    refine .gap ?_ (ih (fun token mem => ?_) ?_)
    · rw [← append_assoc] at gap ⊢
      exact gap?_append gap longer
    · have := clean (move g.length token) (mem_map_of_mem mem)
      rw [isLexeme_iff, kind_move, start_move, Nat.add_comm, ← drop_drop, append_assoc,
        drop_left] at this
      rwa [isLexeme_iff]
    · simpa using settled.drop longer
  | @token w x kind tokens nonempty gap classified spans ih =>
    have longer : w.length < (w ++ x).length := by
      have := length_pos_iff.mpr spans.ne_nil
      simp
      omega
    have nonempty' : w ++ x ≠ [] := append_ne_nil_of_left_ne_nil nonempty x
    obtain ⟨known, closed⟩ := isLexeme_iff.mp (clean _ mem_cons_self)
    rw [← append_assoc] at gap classified
    refine .token nonempty ?_ ?_ (ih (fun token mem => ?_) ?_)
    · rw [← append_assoc]
      exact gap?_append_of_none nonempty' gap closed separates
    · rw [← append_assoc, ← classified]
      refine classify_append nonempty' (by rwa [classified]) ?_ settled separates
      rw [classified]
      exact Nat.le_of_lt longer
    · have := clean (move w.length token) (mem_cons_of_mem _ (mem_map_of_mem mem))
      rw [isLexeme_iff, kind_move, start_move, Nat.add_comm, ← drop_drop, append_assoc,
        drop_left] at this
      rwa [isLexeme_iff]
    · simpa using settled.drop longer

/-! ## Pieces of a source -/

/-- Tokens in front of a text span a piece of it. -/
theorem exists_spans (nonempty : tokens ≠ []) (proper : ∀ token ∈ tokens, token.kind ≠ .finish)
    (scanned : scanAt place text = tokens ++ rest) :
    ∃ x z tokens', text = x ++ z ∧ Spans z x tokens' ∧ tokens = move place tokens' ∧
      rest = scanAt (place + x.length) z := by
  induction place, text using scan_induction generalizing tokens with
  | nil place =>
    rw [scanAt_nil] at scanned
    obtain ⟨first, tokens, rfl⟩ := exists_cons_of_ne_nil nonempty
    obtain ⟨rfl, -⟩ := cons.inj scanned
    exact absurd rfl (proper _ mem_cons_self)
  | @gap place text n gap front ih =>
    rw [scanAt_of_gap gap] at scanned
    obtain ⟨x, z, tokens', same, spans, rfl, rfl⟩ := ih nonempty proper scanned
    have whole : text = text.take n ++ (x ++ z) := by rw [← same, take_append_drop]
    refine ⟨text.take n ++ x, z, move (text.take n).length tokens', ?_, .gap ?_ spans, ?_, ?_⟩
    · rw [append_assoc, ← whole]
    · rw [← whole, front, gap]
    · rw [move_move, front, Nat.add_comm]
    · rw [length_append, front, Nat.add_assoc]
  | @token place text kind n empty gap classified positive front ih =>
    rw [scanAt_of_token empty gap classified] at scanned
    obtain ⟨first, tokens, rfl⟩ := exists_cons_of_ne_nil nonempty
    obtain ⟨rfl, further⟩ := cons.inj scanned
    have frontNonempty : text.take n ≠ [] := length_pos_iff.mp (by omega)
    by_cases alone : tokens = []
    · subst alone
      have whole : text.take n ++ text.drop n = text := take_append_drop n text
      have last : Spans (text.drop n) (text.take n)
          [⟨kind, String.ofList (text.take n), 0, (text.take n).length⟩] :=
        .last frontNonempty (by rw [whole, gap]) (by rw [whole, classified, front])
      refine ⟨_, _, _, whole.symm, last, ?_, ?_⟩
      · simp [Movable.move, front, Nat.add_comm]
      · rw [front, further]
        rfl
    · obtain ⟨x, z, tokens', same, spans, rfl, rfl⟩ :=
        ih alone (forall_mem_cons.mp proper).2 further
      have whole : text.take n ++ (x ++ z) = text := by rw [← same, take_append_drop]
      have more : Spans z (text.take n ++ x)
          (⟨kind, String.ofList (text.take n), 0, (text.take n).length⟩ ::
          move (text.take n).length tokens') :=
        .token frontNonempty (by rw [whole, gap]) (by rw [whole, classified, front]) spans
      refine ⟨_, z, _, by rw [append_assoc, whole], more, ?_, ?_⟩
      · rw [move_cons, move_move, front, Nat.add_comm n place]
        simp [Movable.move, Nat.add_comm]
      · rw [length_append, front, Nat.add_assoc]

/-- Whether a source is made of tokens, white space and comments that are closed. -/
def isLexical (source : List Char) : Bool :=
  (scan source).all (isLexeme source)

/-- Some tokens are the last ones of a source from a place on. -/
structure Remain (source : List Char) (tokens : List Token) : Prop where
  scanned : ∃ place, tokens = scanAt place (source.drop place)
  clean : ∀ token ∈ tokens, token.isLexeme source = true

theorem remain_scan (lexical : isLexical source) : Remain source (scan source) where
  scanned := by
    unfold scan
    split
    next rest => exact ⟨1, rfl⟩
    next => exact ⟨0, rfl⟩
  clean := all_eq_true.mp lexical

/-- The end of the file is always among the tokens. -/
theorem exists_finish_scanAt (place : Nat) (text : List Char) :
    ∃ token ∈ scanAt place text, token.kind = .finish := by
  induction place, text using scan_induction with
  | nil place => exact ⟨_, mem_cons_self, rfl⟩
  | gap gap _ ih => rwa [scanAt_of_gap gap]
  | token nonempty gap classified _ _ ih =>
    obtain ⟨token, mem, finish⟩ := ih
    rw [scanAt_of_token nonempty gap classified]
    exact ⟨token, mem_cons_of_mem _ mem, finish⟩

theorem Remain.exists_finish (remain : Remain source tokens) :
    ∃ token ∈ tokens, token.kind = .finish := by
  obtain ⟨place, rfl⟩ := remain.scanned
  exact exists_finish_scanAt _ _

theorem scanAt_ne_nil (place : Nat) (text : List Char) : scanAt place text ≠ [] := by
  obtain ⟨token, mem, -⟩ := exists_finish_scanAt place text
  exact ne_nil_of_mem mem

/-- Before a token that no number goes on with, no number goes on. -/
theorem halts_of_scanAt (scanned : scanAt place text = token :: rest)
    (other : ∀ c, token.text.toList.head? = some c → isNumeral c = false) : Halts text := by
  rintro c more rfl
  cases gap : gap? (c :: more) with
  | some n =>
    simp only [gap?] at gap
    split at gap
    next space => exact isNumeral_of_isCalm (by simp [isCalm, space])
    next =>
      unfold comment at gap
      split at gap
      next same => exact (cons.inj same).1 ▸ rfl
      next same => exact (cons.inj same).1 ▸ rfl
      next => cases gap
  | none =>
    have bounds := classify_bounds (cons_ne_nil c more)
    cases classified : classify (c :: more) with
    | mk kind n =>
    rw [classified] at bounds
    rw [scanAt_of_token (cons_ne_nil c more) gap classified] at scanned
    obtain ⟨rfl, -⟩ := cons.inj scanned
    obtain ⟨n, rfl⟩ := Nat.exists_eq_succ_of_ne_zero (Nat.pos_iff_ne_zero.mp bounds.1)
    exact other c (by simp)

/-- A piece of a source, from the start of its first token to the end of its last one, and what
comes after it. -/
structure Piece (source : List Char) (place : Nat) (x z : List Char) (tokens : List Token) :
    Prop where
  drop_eq : source.drop place = x ++ z
  spans : Spans z x tokens
  start : tokens.head?.map (·.start) = some 0
  clean : ∀ token ∈ tokens, token.isLexeme (x ++ z) = true

/-- The tokens that a parser takes from a source are a piece of it. -/
theorem Remain.exists_piece {source tokens rest} (remain : Remain source (tokens ++ rest))
    (nonempty : tokens ≠ []) (proper : ∀ token ∈ tokens, token.kind ≠ .finish) :
    ∃ place x z tokens', Piece source place x z tokens' ∧ tokens = move place tokens' ∧
      Remain source rest ∧ rest = scanAt (place + x.length) z := by
  obtain ⟨place, scanned⟩ := remain.scanned
  obtain ⟨x', z, tokens', text, whole, rfl, rfl⟩ := exists_spans nonempty proper scanned.symm
  obtain ⟨g, x, tokens, rfl, spans, rfl, start⟩ := whole.exists_start
  have drop_eq : source.drop (place + g.length) = x ++ z := by
    rw [← drop_drop, text, append_assoc, drop_left]
  have z_eq : z = source.drop (place + g.length + x.length) := by
    rw [← drop_drop, drop_eq, drop_left]
  rw [length_append, ← Nat.add_assoc] at remain ⊢
  refine ⟨place + g.length, x, z, tokens, ⟨drop_eq, spans, start, ?_⟩, ?_,
    ⟨⟨place + g.length + x.length, ?_⟩, ?_⟩, rfl⟩
  · intro token mem
    have lexeme := remain.clean (move place (move g.length token))
      (mem_append_left _ (mem_map_of_mem (mem_map_of_mem mem)))
    rw [isLexeme_iff] at lexeme ⊢
    rw [kind_move, kind_move, start_move, start_move] at lexeme
    rw [← drop_eq, drop_drop]
    rwa [show place + g.length + token.start = token.start + g.length + place by omega]
  · rw [move_move, Nat.add_comm]
  · rw [← z_eq]
  · exact fun token mem => remain.clean token (mem_append_right _ mem)

theorem Remain.tail (remain : Remain source (token :: rest)) (proper : token.kind ≠ .finish) :
    Remain source rest := by
  obtain ⟨_, _, _, _, _, _, remain', _⟩ :=
    @Remain.exists_piece source [token] rest remain nofun (by simpa using proper)
  exact remain'

end JavaSlice.Syntax.Token
