import JavaSlice.Proofs.Writing.FileExcerpts

/-!
# Headers before another brace

A header is written up to its last character that is no blank, and then a blank and the brace.
Comments may stand between the last token of the header and the brace. A comment that is closed
stays one, but a comment that goes to the end of its line takes the brace with it (`opensAfter`).
-/

namespace JavaSlice.Syntax

open List Option Shape Token

variable {c : Char} {place : Nat} {token : Token} {body front back : List Char}

/-! ## Scanning marks and blanks -/

theorem scanAt_blank (space : isSpace c) (place : Nat) (rest : List Char) :
    scanAt place (c :: rest) = scanAt (place + 1) rest :=
  scanAt_of_gap (by simp [gap?, space]) place

theorem scanAt_spaces (n place : Nat) (rest : List Char) :
    scanAt place (List.replicate n ' ' ++ rest) = scanAt (place + n) rest := by
  induction n generalizing place with
  | zero => rfl
  | succ n ih =>
    rw [replicate_succ, cons_append, scanAt_blank rfl, ih]
    congr 1
    omega

theorem scanAt_mark (listed : c ∈ [';', ',', '\x7b', '\x7d']) (place : Nat) (rest : List Char) :
    scanAt place (c :: rest) = ⟨.symbol, String.ofList [c], place, place + 1⟩ ::
      scanAt (place + 1) rest := by
  obtain ⟨gap, classified⟩ := classify_mark listed rest
  exact scanAt_of_token (cons_ne_nil _ _) gap classified place

/-- A source is scanned from its start, unless it starts with a mark of the order of bytes. -/
theorem scan_of_head? (first : source.head? = some c) (other : c ≠ '\ufeff') :
    scan source = scanAt 0 source := by
  unfold scan
  split
  next => exact (other (some.inj first).symm).elim
  next => rfl

/-! ## Gaps -/

/-- A text is made of gaps when another text comes after it. -/
inductive Gaps (z : List Char) : List Char → Prop where
  | nil : Gaps z []
  | cons {g h : List Char} (gap : gap? (g ++ (h ++ z)) = some g.length) (gaps : Gaps z h) :
      Gaps z (g ++ h)

/-- Before the first token of a text there are gaps. -/
theorem exists_gaps {text rest} (scanned : scanAt place text = token :: rest) :
    ∃ g z, text = g ++ z ∧ Gaps z g ∧ token.start = place + g.length ∧
      scanAt (place + g.length) z = token :: rest ∧ gap? z = none := by
  induction place, text using scan_induction with
  | nil place =>
    refine ⟨[], [], rfl, .nil, ?_, scanned, rfl⟩
    rw [scanAt_nil] at scanned
    obtain ⟨rfl, -⟩ := cons.inj scanned
    rfl
  | @gap place text n found length ih =>
    rw [scanAt_of_gap found] at scanned
    obtain ⟨g, z, same, gaps, start, scanned, none⟩ := ih scanned
    have whole : text = text.take n ++ (g ++ z) := by rw [← same, take_append_drop]
    refine ⟨text.take n ++ g, z, ?_, .cons ?_ gaps, ?_, ?_, none⟩
    · rw [append_assoc, ← whole]
    · rw [← whole, length, found]
    · rw [start, length_append, length, Nat.add_assoc]
    · rw [length_append, length, ← Nat.add_assoc, scanned]
  | token nonempty none classified =>
    refine ⟨[], _, rfl, .nil, ?_, scanned, none⟩
    rw [scanAt_of_token nonempty none classified] at scanned
    obtain ⟨rfl, -⟩ := cons.inj scanned
    rfl

/-! ## The brace after a header -/

/-- Whether the brace that is written after a header is a token of its own. -/
def opensAfter (header : List Char) : Bool :=
  (scan (header ++ [' ', '\x7b'])).any fun token => token.isSymbol "\x7b" &&
    token.start == header.length + 1

/-- Whether a brace is found at a place. -/
def BraceAt (place : Nat) (tokens : List Token) : Prop :=
  ∃ token ∈ tokens, token.isSymbol "\x7b" = true ∧ token.start = place

/-- A line comment takes all that is left of a line. -/
theorem scanAt_lineComment (oneLine : '\n' ∉ body) (place : Nat) :
    scanAt place ('/' :: '/' :: body) = scanAt (place + (body.length + 2)) [] := by
  have whole : body.takeWhile (· != '\n') = body := by
    have within : ∀ c ∈ body, (c != '\n') = true := by
      intro c inside
      rw [bne_iff_ne]
      rintro rfl
      exact oneLine inside
    simpa using @takeWhile_append_of_pos _ _ body [] within
  have gap : gap? ('/' :: '/' :: body) = some (body.length + 2) := by
    change some (runLength (· != '\n') body + 2) = _
    rw [runLength_eq, whole]
  rw [scanAt_of_gap gap]
  simp

theorem trimEndChars_append (nonempty : Text.trimEndChars back ≠ []) :
    Text.trimEndChars (front ++ back) = front ++ Text.trimEndChars back := by
  simp only [Text.trimEndChars, ne_eq, reverse_eq_nil_iff] at nonempty ⊢
  rw [reverse_append, dropWhile_append, if_neg (by simpa using nonempty), reverse_append,
    reverse_reverse]

theorem trimEndChars_append_of_nil (empty : Text.trimEndChars back = []) :
    Text.trimEndChars (front ++ back) = Text.trimEndChars front := by
  simp only [Text.trimEndChars, reverse_eq_nil_iff] at empty ⊢
  rw [reverse_append, dropWhile_append, if_pos (by simpa using empty)]

theorem trimEndChars_append_of_self (self : Text.trimEndChars front = front) :
    Text.trimEndChars (front ++ back) = front ++ Text.trimEndChars back := by
  by_cases empty : Text.trimEndChars back = []
  · rw [trimEndChars_append_of_nil empty, empty, self, append_nil]
  · exact trimEndChars_append empty

/-- A line comment takes the brace that is written after it. -/
theorem not_braceAt_lineComment (oneLine : '\n' ∉ body) (place place' : Nat) :
    ¬BraceAt place' (scanAt place ('/' :: '/' :: body ++ [' ', '\x7b'])) := by
  rintro ⟨token, inside, symbol, -⟩
  rw [cons_append, cons_append, scanAt_lineComment (by simpa using oneLine), scanAt_nil] at inside
  obtain rfl := mem_singleton.mp inside
  cases symbol

/-- A brace that is found after trimmed gaps is found there whatever stands after it. -/
theorem scanAt_trimmed (gaps : Gaps z g)
    (brace : BraceAt (place + (Text.trimEndChars g).length + 1)
      (scanAt place (Text.trimEndChars g ++ [' ', '\x7b']))) (rest : List Char) :
    scanAt place (Text.trimEndChars g ++ ' ' :: '\x7b' :: rest) =
      scanAt (place + (Text.trimEndChars g).length + 1) ('\x7b' :: rest) := by
  induction gaps generalizing place with
  | nil => exact scanAt_blank rfl place _
  | @cons g h gap gaps ih =>
    by_cases empty : Text.trimEndChars h = []
    · rw [trimEndChars_append_of_nil empty] at brace ⊢
      rcases gap_cases gap with ⟨c, rfl, space⟩ | ⟨body, rfl, oneLine⟩ | ⟨-, last, closed⟩
      · have trimmed : Text.trimEndChars [c] = [] := by
          simp [Text.trimEndChars, isBlank_of_isSpace space]
        rw [trimmed] at brace ⊢
        exact scanAt_blank rfl place _
      · have trimmed : Text.trimEndChars ('/' :: '/' :: body) = '/' :: '/' ::
            Text.trimEndChars body :=
          @trimEndChars_append_of_self ['/', '/'] body (by decide)
        rw [trimmed] at brace
        have oneLine' : '\n' ∉ Text.trimEndChars body :=
          fun inside => oneLine ((Text.trimEndChars_isPrefix body).subset inside)
        exact (not_braceAt_lineComment oneLine' _ _ brace).elim
      · have trimmed : Text.trimEndChars g = g := by
          refine Text.trimEndChars_of_getLast? fun c same => ?_
          obtain rfl := some.inj (last.symm.trans same)
          decide
        rw [trimmed, scanAt_of_gap (closed _), drop_left]
        exact scanAt_blank rfl _ _
    · obtain ⟨blanks, same⟩ := Text.trimEndChars_isPrefix h
      have longer : g.length < (g ++ Text.trimEndChars h).length := by
        have := length_pos_iff.mpr empty
        simp
        omega
      have found : gap? ((g ++ Text.trimEndChars h) ++ (blanks ++ z)) = some g.length := by
        rw [append_assoc, ← append_assoc _ blanks, same, gap]
      have skip : ∀ y, scanAt place ((g ++ Text.trimEndChars h) ++ y) =
          scanAt (place + g.length) (Text.trimEndChars h ++ y) := by
        intro y
        rw [scanAt_of_gap (gap?_append found longer), append_assoc, drop_left]
      rw [trimEndChars_append empty, length_append, ← Nat.add_assoc] at brace ⊢
      rw [skip] at brace ⊢
      exact ih brace

theorem scanAt_move (shift place : Nat) (text : List Char) :
    scanAt (place + shift) text = move shift (scanAt place text) := by
  induction place, text using scan_induction with
  | nil => rfl
  | gap gap _ ih => rw [scanAt_of_gap gap, scanAt_of_gap gap, ← ih, Nat.add_right_comm]
  | token nonempty gap classified _ _ ih =>
    rw [scanAt_of_token nonempty gap classified, scanAt_of_token nonempty gap classified,
      move_cons, ← ih, Nat.add_right_comm]
    simp [Movable.move]

/-! ## Headers -/

theorem isPlain_of_mark (noLiteral : token.mark ≠ .literal) (noFinish : token.mark ≠ .finish) :
    token.IsPlain := by
  unfold Token.mark at noLiteral noFinish
  unfold Token.IsPlain
  cases kind : token.kind <;> simp_all

/-- A header starts and ends with a word or a symbol. -/
theorem isPlain_of_path (path : Level.head.run .zero tokens = some .zero) :
    (∀ token, tokens.head? = some token → token.IsPlain) ∧ ∀ token, tokens.getLast? = some token →
      token.IsPlain := by
  constructor
  · intro token first
    obtain ⟨rest, rfl⟩ : ∃ rest, tokens = token :: rest :=
      ⟨tokens.tail, by cases tokens <;> simp_all⟩
    rw [Level.run_cons] at path
    refine isPlain_of_mark ?_ ?_ <;> intro mark <;> rw [mark] at path <;> cases path
  · intro token last
    obtain ⟨front, rfl⟩ := getLast?_eq_some_iff.mp last
    rw [Level.run_append] at path
    obtain ⟨⟨parens, braces⟩, -, step⟩ := bind_eq_some_iff.mp path
    rw [Level.run_cons] at step
    obtain ⟨next, step, same⟩ := bind_eq_some_iff.mp step
    obtain rfl := some.inj same
    refine isPlain_of_mark ?_ ?_ <;> intro mark <;> rw [mark] at step
    · cases braces <;> cases parens <;>
        simp [Level.step, Level.outside, Level.inside, Level.stopsAtBrace, Level.stopsAtLiteral]
          at step
    · rw [Level.step_finish] at step
      cases step

namespace Grammar.TypeExcerpt

variable {source : List Char} (type : TypeExcerpt source)

/-- The characters at the ends of a header are no blanks. -/
theorem head?_header : ∃ c, type.header.head? = some c ∧ Text.isBlank c = false ∧ c ≠ '\ufeff' := by
  have spans := type.piece.spans
  have start := type.piece.start
  have path := type.heading.path
  cases tokens : type.tokens with
  | nil => exact (spans.tokens_ne_nil tokens).elim
  | cons first rest =>
    rw [tokens] at spans start path
    have plain := (isPlain_of_path path).1 first rfl
    obtain ⟨starts, classified⟩ := spans.classify_head (some.inj start)
    obtain ⟨c, others, text⟩ : ∃ c others, first.text.toList = c :: others := by
      refine exists_cons_of_ne_nil fun empty => ?_
      have bounds := (classify_bounds (append_ne_nil_of_left_ne_nil spans.ne_nil type.after)).1
      rw [classified, empty] at bounds
      cases bounds
    refine ⟨c, ?_, spans.calm mem_cons_self plain c (by simp [text])⟩
    obtain ⟨behind, same⟩ := starts
    rw [← same, text]
    rfl

theorem getLast?_header : ∃ c, type.header.getLast? = some c ∧ Text.isBlank c = false := by
  obtain ⟨front, last, tokens, same, -⟩ := type.piece.spans.exists_last
  have plain := (isPlain_of_path type.heading.path).2 last (by simp [tokens])
  have nonempty := type.piece.spans.ne_nil
  rw [getLast?_eq_some_getLast nonempty] at same ⊢
  refine ⟨_, rfl, ?_⟩
  exact (type.piece.spans.calm (by simp [tokens]) plain _ (mem_of_getLast? same)).1

/-- Before the brace of a type there are gaps. -/
theorem exists_gaps : ∃ g z, type.after = g ++ z ∧ Gaps z g ∧
    type.bodyStart = type.place + type.header.length + g.length := by
  obtain ⟨token, rest, scanned, -⟩ := type.brace
  have start := type.bodyPlace
  obtain ⟨g, z, after, gaps, begin, -⟩ := Syntax.exists_gaps scanned
  rw [scanned] at start
  exact ⟨g, z, after, gaps, (some.inj start).symm.trans begin⟩

variable {type} {g z : List Char}

/-- The text of a header is trimmed after its last token. -/
theorem trimChars_header (after : type.after = g ++ z)
    (begin : type.bodyStart = type.place + type.header.length + g.length) :
    Text.trimChars (Reading.cut source type.place type.bodyStart) = type.header ++
      Text.trimEndChars g := by
  have found : source.drop type.place = (type.header ++ g) ++ z := by
    rw [type.piece.drop_eq, after, append_assoc]
  have cut : Reading.cut source type.place type.bodyStart = type.header ++ g :=
    cut_of_drop found rfl (by rw [begin, length_append, Nat.add_assoc])
  obtain ⟨c, first, calm, -⟩ := type.head?_header
  obtain ⟨d, last, calm'⟩ := type.getLast?_header
  have starts : ∀ e, (type.header ++ g).head? = some e → Text.isBlank e = false := by
    intro e same
    rw [head?_append, first] at same
    exact some.inj same ▸ calm
  have self : Text.trimEndChars type.header = type.header := by
    refine Text.trimEndChars_of_getLast? fun e same => ?_
    exact some.inj (last.symm.trans same) ▸ calm'
  rw [cut, Text.trimChars, Text.dropWhile_of_head? starts, trimEndChars_append_of_self self]

/-- Gaps start with a blank or a slash. -/
theorem separates_of_gaps (after : type.after = g ++ z) (gaps : Gaps z g) (rest : List Char) :
    Separates type.after (Text.trimEndChars g ++ ' ' :: rest) := by
  cases trimmed : Text.trimEndChars g with
  | nil => exact ⟨' ', rest, rfl, rfl, nofun⟩
  | cons c others =>
    obtain ⟨blanks, same⟩ := Text.trimEndChars_isPrefix g
    rw [trimmed] at same
    subst same
    refine ⟨c, others ++ ' ' :: rest, rfl, ?_, fun slash => by rw [after, slash]; rfl⟩
    generalize whole : c :: others ++ blanks = text at gaps
    cases gaps with
    | nil => cases whole
    | @cons g h gap gaps =>
      rcases gap_cases gap with ⟨d, rfl, space⟩ | ⟨body, rfl, -⟩ | ⟨⟨body, rfl⟩, -⟩
      · obtain ⟨rfl, -⟩ := cons.inj whole
        simp [isCalm, space]
      · obtain ⟨rfl, -⟩ := cons.inj whole
        rfl
      · obtain ⟨rfl, -⟩ := cons.inj whole
        rfl

/-- Where the brace is a token of its own, the tokens of a header are the same as in the source. -/
theorem scanAt_header (after : type.after = g ++ z) (gaps : Gaps z g)
    (opens : opensAfter (type.header ++ Text.trimEndChars g)) (place : Nat) (rest : List Char) :
    scanAt place ((type.header ++ Text.trimEndChars g) ++ ' ' :: '\x7b' :: rest) =
      move place type.tokens ++
        scanAt (place + (type.header ++ Text.trimEndChars g).length + 1) ('\x7b' :: rest) := by
  have spans : ∀ rest, Spans (Text.trimEndChars g ++ ' ' :: rest) type.header type.tokens :=
      fun rest =>
    type.piece.spans.relex type.piece.clean (.inl type.brace.halts)
      (separates_of_gaps after gaps rest)
  have scanned : ∀ place rest, scanAt place ((type.header ++ Text.trimEndChars g) ++ ' ' :: rest) =
      move place type.tokens ++ scanAt (place + type.header.length)
        (Text.trimEndChars g ++ ' ' :: rest) := by
    intro place rest
    rw [append_assoc, (spans rest).scanAt_eq]
  have noMark : scan ((type.header ++ Text.trimEndChars g) ++ [' ', '\x7b']) =
      scanAt 0 ((type.header ++ Text.trimEndChars g) ++ [' ', '\x7b']) := by
    obtain ⟨c, first, -, other⟩ := type.head?_header
    refine scan_of_head? ?_ other
    rw [append_assoc, head?_append, first]
    rfl
  have brace : BraceAt (type.header.length + (Text.trimEndChars g).length + 1)
      (scanAt type.header.length (Text.trimEndChars g ++ [' ', '\x7b'])) := by
    obtain ⟨token, inside, holds⟩ := List.any_eq_true.mp opens
    rw [Bool.and_eq_true, beq_iff_eq] at holds
    rw [noMark, scanned, move_zero, Nat.zero_add, mem_append] at inside
    rw [length_append] at holds
    rcases inside with inside | inside
    · -- The tokens of the header stand before its end.
      obtain ⟨⟨behind, stands⟩, -⟩ := type.piece.spans.drop_start inside
      have text := (Prod.mk.inj (isSymbol_iff.mp holds.1)).2
      have beyond : type.header.drop token.start = [] := drop_eq_nil_of_le (by omega)
      rw [beyond, text] at stands
      cases stands
    · exact ⟨token, inside, holds.1, holds.2⟩
  have moved : BraceAt (place + type.header.length + (Text.trimEndChars g).length + 1)
      (scanAt (place + type.header.length) (Text.trimEndChars g ++ [' ', '\x7b'])) := by
    obtain ⟨token, inside, symbol, start⟩ := brace
    rw [Nat.add_comm place, scanAt_move]
    exact ⟨move place token, List.mem_map_of_mem inside, symbol, by rw [start_move, start]; omega⟩
  rw [scanned, scanAt_trimmed gaps moved, length_append, Nat.add_assoc place]

variable (type)

/-- The header of a type as it is written, with the comments after its last token. -/
def head : List Char :=
  Text.trimChars (Reading.cut source type.place type.bodyStart)

theorem head?_head : ∃ c, type.head.head? = some c ∧ Text.isBlank c = false ∧ c ≠ '\ufeff' := by
  obtain ⟨g, z, after, -, begin⟩ := type.exists_gaps
  obtain ⟨c, first, calm⟩ := type.head?_header
  refine ⟨c, ?_, calm⟩
  rw [head, trimChars_header after begin, head?_append, first]
  rfl

/-- The tokens of a header that is written before a brace. -/
theorem scanAt_head (opens : opensAfter type.head) (place : Nat) (rest : List Char) :
    scanAt place (type.head ++ ' ' :: '\x7b' :: rest) =
      move place type.tokens ++ scanAt (place + type.head.length + 1) ('\x7b' :: rest) := by
  obtain ⟨g, z, after, gaps, begin⟩ := type.exists_gaps
  have same : type.head = type.header ++ Text.trimEndChars g := trimChars_header after begin
  rw [same] at opens ⊢
  exact scanAt_header after gaps opens place rest

end Grammar.TypeExcerpt

end JavaSlice.Syntax
