import JavaSlice.Proofs.Syntax.Relexing
import JavaSlice.Text.Blank

/-!
# Words and symbols as they are written

The characters of words and symbols are no blanks. So where no comment stands between some words and
symbols, the text that they span says the same as they do once the blanks are dropped
(`Spans.filter_blanks`). The other way round, a text is put together from words, symbols and single
blanks, and it is known which tokens it has (`Spells`).
-/

namespace JavaSlice.Syntax

open List Option Shape

variable {c : Char} {text : List Char}

/-! ## Characters -/

/-- The places of the blanks among the characters. -/
def blankCodes : List Nat :=
  List.range' 9 5 ++ List.range' 0x2000 11 ++
    [0x20, 0x85, 0xA0, 0x1680, 0x2028, 0x2029, 0x202F, 0x205F, 0x3000]

theorem mem_blankCodes (blank : Text.isBlank c) : c.toNat ∈ blankCodes := by
  simp only [Text.isBlank, Bool.or_eq_true, Bool.and_eq_true, decide_eq_true_eq, beq_iff_eq]
    at blank
  simp only [blankCodes, mem_append, mem_range'_1, mem_cons, not_mem_nil, or_false]
  rcases blank
    with (((((((((range | code) | code) | code) | code) | range) | code) | code) | code) | code) |
      code
  case inl.inl.inl.inl.inl.inl.inl.inl.inl.inl =>
    exact .inl (.inl ⟨range.1, Nat.lt_succ_of_le range.2⟩)
  case inl.inl.inl.inl.inl.inr => exact .inl (.inr ⟨range.1, Nat.lt_succ_of_le range.2⟩)
  all_goals simp [code]

/-- A class of characters that holds none of the blanks. -/
theorem not_isBlank {isClass : Char → Bool}
    (none : ∀ code ∈ blankCodes, isClass (Char.ofNat code) = false) (holds : isClass c) :
    Text.isBlank c = false := by
  cases blank : Text.isBlank c with
  | false => rfl
  | true =>
    have other := none _ (mem_blankCodes blank)
    rw [Char.ofNat_toNat, holds] at other
    cases other

theorem isBlank_of_isIdentifierPart (part : Text.isIdentifierPart c) : Text.isBlank c = false :=
  not_isBlank (by decide +kernel) part

theorem isIdentifierPart_of_isIdentifierStart (start : Text.isIdentifierStart c) :
    Text.isIdentifierPart c := by
  unfold Text.isIdentifierStart at start
  unfold Text.isIdentifierPart
  split at start
  next ascii =>
    rw [if_pos ascii, Char.isAlphanum]
    simp only [Bool.or_eq_true] at start ⊢
    exact start.imp_left (.imp_left .inl)
  next ascii => simp [ascii, start]

theorem isDigit_of_isIdentifierStart (start : Text.isIdentifierStart c) : c.isDigit = false := by
  cases digit : c.isDigit with
  | false => rfl
  | true =>
    simp only [Char.isDigit, Bool.and_eq_true, decide_eq_true_eq, ge_iff_le, UInt32.le_iff_toNat_le]
      at digit
    have code : c.toNat ∈ List.range' 48 10 := mem_range'_1.mpr ⟨digit.1, Nat.lt_succ_of_le digit.2⟩
    have other : ∀ code ∈ List.range' 48 10, Text.isIdentifierStart (Char.ofNat code) = false := by
      decide
    have none := other _ code
    rw [Char.ofNat_toNat, start] at none
    cases none

theorem isBlank_of_isSpace (space : isSpace c) : Text.isBlank c := by
  simp only [isSpace, Bool.or_eq_true, Bool.and_eq_true, decide_eq_true_eq, beq_iff_eq] at space
  rcases space with rfl | ⟨least, most⟩
  · rfl
  · simp [Text.isBlank, least, most]

/-! ## Identifiers -/

/-- A text is an identifier or a keyword. -/
def IsIdentifier (text : List Char) : Prop :=
  ∃ c rest, text = c :: rest ∧ Text.isIdentifierStart c = true ∧ ∀ d ∈ rest,
    Text.isIdentifierPart d = true

theorem IsIdentifier.isIdentifierPart (identifier : IsIdentifier text) :
    ∀ c ∈ text, Text.isIdentifierPart c := by
  obtain ⟨c, rest, rfl, start, parts⟩ := identifier
  exact forall_mem_cons.mpr ⟨isIdentifierPart_of_isIdentifierStart start, parts⟩

theorem runLength_eq (isClass : Char → Bool) (text : List Char) :
    runLength isClass text = (text.takeWhile isClass).length := by
  induction text with
  | nil => rfl
  | cons c rest ih => cases holds : isClass c <;> simp [runLength, holds, ih]

theorem word_of_isIdentifier (identifier : IsIdentifier text)
    (ends : ∀ c, z.head? = some c → Text.isIdentifierPart c = false) :
    word (text ++ z) = some text.length := by
  obtain ⟨c, rest, rfl, start, parts⟩ := identifier
  have stops : z.takeWhile Text.isIdentifierPart = [] := by
    cases z with
    | nil => rfl
    | cons d z => simp [ends d rfl]
  simp [word, start, runLength_eq, takeWhile_append_of_pos parts, stops]

theorem isIdentifier_of_word (found : word (text ++ z) = some text.length) : IsIdentifier text := by
  cases text with
  | nil => exact absurd (word_bounds found).1 (by simp)
  | cons c rest =>
    simp only [cons_append, word, length_cons] at found
    split at found
    next start =>
      have length := Nat.succ.inj (some.inj found)
      have whole : rest <+: (rest ++ z).takeWhile Text.isIdentifierPart := by
        have longest := takeWhile_prefix Text.isIdentifierPart (l := rest ++ z)
        refine prefix_of_prefix_length_le (prefix_append rest z) longest (Nat.le_of_eq ?_)
        rw [← runLength_eq, length]
      refine ⟨c, rest, rfl, start, fun d inside => ?_⟩
      exact List.all_eq_true.mp all_takeWhile d (whole.subset inside)
    next => cases found

/-- A word ends where no identifier goes on. -/
theorem not_isIdentifierPart_of_word (found : word (text ++ z) = some text.length)
    (next : z.head? = some c) : Text.isIdentifierPart c = false := by
  obtain ⟨d, rest, rfl, start, parts⟩ := isIdentifier_of_word found
  obtain ⟨others, rfl⟩ : ∃ others, z = c :: others := ⟨z.tail, by cases z <;> simp_all⟩
  simp only [cons_append, word, start, if_true, runLength_eq, length_cons, some.injEq,
    Nat.add_right_cancel_iff, takeWhile_append_of_pos parts, length_append, takeWhile_cons] at found
  cases part : Text.isIdentifierPart c with
  | false => rfl
  | true =>
    simp only [part, if_true, length_cons] at found
    omega

/-! ## Tokens and what they say -/

namespace Token

variable {w : List Char}

/-- What a token says, without its place. -/
def said (token : Token) : TokenKind × String :=
  (token.kind, token.text)

@[simp]
theorem map_said_move (shift : Nat) (tokens : List Token) :
    (move shift tokens).map said = tokens.map said :=
  List.map_map

theorem flatMap_text_move (shift : Nat) (tokens : List Token) :
    (move shift tokens).flatMap (·.text.toList) = tokens.flatMap (·.text.toList) :=
  flatMap_map ..

theorem isWord_iff {token : Token} {text : String} :
    token.isWord text ↔ token.said = (.word, text) := by
  simp [isWord, said]

theorem isSymbol_iff {token : Token} {text : String} :
    token.isSymbol text ↔ token.said = (.symbol, text) := by
  simp [isSymbol, said]

/-- A word is an identifier. -/
theorem isIdentifier_of_classify (classified : classify (w ++ z) = (.word, w.length)) :
    IsIdentifier w :=
  isIdentifier_of_word (word_of_classify classified)

theorem mem_symbols_of_classify (classified : classify (w ++ z) = (.symbol, w.length)) :
    String.ofList w ∈ symbols := by
  obtain ⟨listed, mem, length, starts⟩ := symbol_eq_some (symbol_of_classify classified)
  have same : listed.toList.length = w.length := by rw [length, String.length_toList]
  have whole : listed.toList = w :=
    (prefix_of_prefix_length_le starts (prefix_append w z) (Nat.le_of_eq same)).eq_of_length same
  rwa [← whole, String.ofList_toList]

/-- Whether a token is a word or a symbol. -/
def IsPlain (token : Token) : Prop :=
  token.kind = .word ∨ token.kind = .symbol

/-- Words and symbols hold no blanks, and no mark that stands at the start of some files. -/
theorem calm_of_classify {z kind} (classified : classify (w ++ z) = (kind, w.length))
    (plain : kind = .word ∨ kind = .symbol) : ∀ c ∈ w, Text.isBlank c = false ∧ c ≠ '\ufeff' := by
  intro c inside
  rcases plain with rfl | rfl
  · have part := (isIdentifier_of_classify classified).isIdentifierPart c inside
    refine ⟨isBlank_of_isIdentifierPart part, ?_⟩
    rintro rfl
    exact absurd part (by decide +kernel)
  · have each : symbols.all (fun symbol => symbol.toList.all fun c => !Text.isBlank c &&
        c != '\ufeff') = true := by
      decide +kernel
    have calm := List.all_eq_true.mp each _ (mem_symbols_of_classify classified)
    rw [String.toList_ofList] at calm
    simpa using List.all_eq_true.mp calm c inside

theorem getLast?_commentRest (found : commentRest text = some n) :
    (text.take n).getLast? = some '/' := by
  fun_induction commentRest text generalizing n with
  | case1 rest =>
    obtain rfl := some.inj found
    rfl
  | case2 c rest _ ih =>
    obtain ⟨m, inner, rfl⟩ := map_eq_some_iff.mp found
    have last := ih inner
    have nonempty : rest.take m ≠ [] := by
      intro empty
      simp [empty] at last
    rw [take_succ_cons, ← singleton_append, getLast?_append_of_ne_nil _ nonempty, last]
  | case3 => cases found

/-- A gap is a blank, a comment up to the end of its line, or a comment that is closed. -/
theorem gap_cases (found : gap? (g ++ z) = some g.length) :
    (∃ c, g = [c] ∧ isSpace c) ∨ (∃ body, g = '/' :: '/' :: body ∧ '\n' ∉ body) ∨
      (∃ body, g = '/' :: '*' :: body) ∧ g.getLast? = some '/' ∧ ∀ y,
        gap? (g ++ y) = some g.length := by
  generalize text : g ++ z = t at found
  unfold gap? at found
  split at found
  next c rest =>
    split at found
    next space =>
      have length := some.inj found
      obtain ⟨empty, rfl, -⟩ := exists_of_append_eq [c] text (Nat.le_of_eq length)
      obtain rfl : empty = [] := by simpa using length
      exact .inl ⟨c, rfl, space⟩
    next =>
      refine .inr ?_
      unfold comment at found
      split at found
      next rest same =>
        have length := some.inj found
        obtain ⟨body, rfl, rfl⟩ :=
          exists_of_append_eq ['/', '/'] (text.trans same) (length ▸ Nat.le_add_left _ _)
        refine .inl ⟨body, rfl, fun inside => ?_⟩
        have whole : body <+: (body ++ z).takeWhile (· != '\n') := by
          have longest := takeWhile_prefix (· != '\n') (l := body ++ z)
          refine prefix_of_prefix_length_le (prefix_append body z) longest ?_
          exact runLength_eq _ (body ++ z) ▸ Nat.le_of_eq (Nat.add_right_cancel length).symm
        simpa using List.all_eq_true.mp all_takeWhile '\n' (whole.subset inside)
      next rest same =>
        obtain ⟨m, body, length, rfl, rfl, closed, -⟩ :=
          exists_of_step ['/', '*'] found (text.trans same) (Nat.le_refl _)
        obtain rfl : body.length = m := by simpa using length
        have last := getLast?_commentRest closed
        rw [take_left] at last
        have nonempty : body ≠ [] := by
          rintro rfl
          cases last
        refine .inr ⟨⟨body, rfl⟩, (getLast?_append_of_ne_nil _ nonempty).trans last, fun y => ?_⟩
        simp only [cons_append, nil_append, gap?, comment,
          commentRest_append closed (Nat.le_refl _)]
        rfl
      next => cases found
  next => cases found

/-- A gap without a slash is one blank. -/
theorem isBlank_of_gap? (found : gap? (g ++ rest) = some g.length) (noComment : '/' ∉ g) :
    ∀ c ∈ g, Text.isBlank c := by
  rcases gap_cases found with ⟨c, rfl, space⟩ | ⟨body, rfl, -⟩ | ⟨⟨body, rfl⟩, -⟩
  · simpa using isBlank_of_isSpace space
  all_goals exact absurd mem_cons_self noComment

namespace Spans

variable {x z : List Char} {tokens : List Token}
variable {token : Token}

section

variable (spans : Spans z x tokens) (inside : token ∈ tokens)
include spans inside

/-- The characters of a token come from its classification. -/
theorem classified :
    ∃ after, classify (token.text.toList ++ after) = (token.kind, token.text.toList.length) := by
  induction spans generalizing token with
  | last nonempty gap classified =>
    obtain rfl := mem_singleton.mp inside
    exact ⟨z, by simpa using classified⟩
  | gap gap spans ih =>
    obtain ⟨original, within, rfl⟩ := List.mem_map.mp inside
    exact @ih original within
  | token nonempty gap classified spans ih =>
    rcases mem_cons.mp inside with rfl | inside
    · exact ⟨_, by simpa using classified⟩
    · obtain ⟨original, within, rfl⟩ := List.mem_map.mp inside
      exact @ih original within

theorem isIdentifier (word : token.kind = .word) : IsIdentifier token.text.toList := by
  obtain ⟨after, classified⟩ := spans.classified inside
  rw [word] at classified
  exact isIdentifier_of_classify classified

theorem calm (plain : token.IsPlain) :
    ∀ c ∈ token.text.toList, Text.isBlank c = false ∧ c ≠ '\ufeff' := by
  obtain ⟨after, classified⟩ := spans.classified inside
  exact calm_of_classify classified plain

end

/-- Where no comment stands between words and symbols, the text without its blanks is what they
say. -/
theorem filter_blanks (spans : Spans z x tokens) (noComment : '/' ∉ x)
    (plain : ∀ token ∈ tokens, token.IsPlain) :
    x.filter (!Text.isBlank ·) = tokens.flatMap (·.text.toList) := by
  have kept : ∀ {w : List Char} {kind : TokenKind} {after : List Char},
      classify (w ++ after) = (kind, w.length) →
      (kind = .word ∨ kind = .symbol) → w.filter (!Text.isBlank ·) = w := by
    intro w kind after classified plain
    exact filter_eq_self.mpr fun c inside => by
      simp [(calm_of_classify classified plain c inside).1]
  induction spans with
  | last nonempty gap classified =>
    rw [kept classified (plain _ mem_cons_self)]
    simp
  | @gap g x tokens gap spans ih =>
    rw [mem_append, not_or] at noComment
    have blanks : g.filter (!Text.isBlank ·) = [] :=
      filter_eq_nil_iff.mpr fun c inside => by simp [isBlank_of_gap? gap noComment.1 c inside]
    rw [filter_append, blanks, nil_append,
      ih noComment.2 fun token inside => plain (move g.length token) (List.mem_map_of_mem inside)]
    exact (flatMap_text_move _ _).symm
  | @token w x kind tokens nonempty gap classified spans ih =>
    rw [mem_append, not_or] at noComment
    rw [forall_mem_cons] at plain
    rw [filter_append, kept classified plain.1,
      ih noComment.2 fun token inside => plain.2 (move w.length token) (List.mem_map_of_mem inside)]
    simp only [flatMap_cons, String.toList_ofList]
    rw [flatMap_text_move]

section

variable (spans : Spans z x (token :: tokens))
include spans

/-- The first token of a text that does not start with a gap, and what comes after it. -/
theorem cases_head (start : token.start = 0) :
    ∃ x', x = token.text.toList ++ x' ∧ classify (x ++ z) = (token.kind, token.text.toList.length) ∧
      (tokens = [] ∨ ∃ tokens', Spans z x' tokens' ∧
        tokens = move token.text.toList.length tokens') := by
  generalize all : token :: tokens = listed at spans
  cases spans with
  | last nonempty gap classified =>
    obtain ⟨rfl, rfl⟩ := cons.inj all
    exact ⟨[], by simp, by simpa using classified, .inl rfl⟩
  | @gap g x others gap spans =>
    obtain ⟨first, others, rfl⟩ := exists_cons_of_ne_nil spans.tokens_ne_nil
    obtain ⟨rfl, -⟩ := cons.inj all
    have := (gap?_bounds gap).1
    rw [start_move] at start
    omega
  | @token w x kind others nonempty gap classified spans =>
    obtain ⟨rfl, rfl⟩ := cons.inj all
    exact ⟨x, by simp, by simpa using classified, .inr ⟨others, spans, by simp⟩⟩

theorem classify_head (start : token.start = 0) :
    token.text.toList <+: x ∧ classify (x ++ z) = (token.kind, token.text.toList.length) := by
  obtain ⟨x', rfl, classified, -⟩ := spans.cases_head start
  exact ⟨prefix_append .., classified⟩

theorem exists_tail (start : token.start = 0) (more : tokens ≠ []) :
    ∃ x' tokens', x = token.text.toList ++ x' ∧ Spans z x' tokens' ∧
      tokens = move token.text.toList.length tokens' := by
  obtain ⟨x', rfl, -, rfl | ⟨tokens', spans', rfl⟩⟩ := spans.cases_head start
  · exact (more rfl).elim
  · exact ⟨x', tokens', rfl, spans', rfl⟩

end

theorem length_lt (spans : Spans z x tokens) (place : Nat) :
    (scanAt (place + x.length) z).length < (scanAt place (x ++ z)).length := by
  have more := length_pos_iff.mpr spans.tokens_ne_nil
  rw [spans.scanAt_eq, length_append, length_move]
  omega

/-- A piece is split between two of its tokens. -/
theorem exists_split {before after} (spans : Spans z x (before ++ after)) (nonempty : before ≠ [])
    (more : after ≠ []) :
    ∃ x₁ x₂ after', x = x₁ ++ x₂ ∧ Spans (x₂ ++ z) x₁ before ∧ Spans z x₂ after' ∧
      after = move x₁.length after' := by
  generalize all : before ++ after = listed at spans
  induction spans generalizing before after with
  | last =>
    obtain ⟨first, before, rfl⟩ := exists_cons_of_ne_nil nonempty
    exact (more (append_eq_nil_iff.mp (cons.inj all).2).2).elim
  | @gap g x tokens gap spans ih =>
    obtain ⟨before, after, rfl, rfl, rfl⟩ := map_eq_append_iff.mp all.symm
    obtain ⟨x₁, x₂, after, rfl, first, second, rfl⟩ :=
      ih (by simpa using nonempty) (by simpa using more) rfl
    refine ⟨g ++ x₁, x₂, after, (append_assoc ..).symm, .gap ?_ first, second, ?_⟩
    · rw [← gap, append_assoc]
    · exact (move_move _ _ _).trans (by rw [length_append, Nat.add_comm])
  | @token w x kind tokens nonempty' gap classified spans ih =>
    obtain ⟨first, before, rfl⟩ := exists_cons_of_ne_nil nonempty
    rw [cons_append] at all
    obtain ⟨rfl, same⟩ := cons.inj all
    by_cases alone : before = []
    · subst alone
      exact ⟨w, x, tokens, rfl, .last nonempty' gap classified, spans, same⟩
    · obtain ⟨before, after, rfl, rfl, rfl⟩ := map_eq_append_iff.mp same.symm
      obtain ⟨x₁, x₂, after, rfl, first, second, rfl⟩ :=
        ih (by simpa using alone) (by simpa using more) rfl
      rw [append_assoc] at gap classified
      refine ⟨w ++ x₁, x₂, after, (append_assoc ..).symm, .token nonempty' gap classified first,
        second, ?_⟩
      exact (move_move _ _ _).trans (by rw [length_append, Nat.add_comm])

/-- Some tokens between the first and the last ones of a piece span a piece of it. -/
theorem exists_middle (spans : Spans z x (first :: (middle ++ final)))
    (nonempty : middle ≠ []) (more : final ≠ []) :
    ∃ x₁ y x₂ middle', x = x₁ ++ (y ++ x₂) ∧ Spans (x₂ ++ z) y middle' ∧
      middle'.head?.map (·.start) = some 0 ∧ middle = move x₁.length middle' := by
  obtain ⟨x₁, x', _, rfl, -, later, moved⟩ := @exists_split x z [first] _ spans (cons_ne_nil _ _)
    (append_ne_nil_of_left_ne_nil nonempty _)
  obtain ⟨middle, final, rfl, rfl, rfl⟩ := map_eq_append_iff.mp moved.symm
  obtain ⟨y', x₂, _, rfl, inner, -⟩ :=
    later.exists_split (by simpa using nonempty) (by simpa using more)
  obtain ⟨g, y, middle, rfl, bare, rfl, start⟩ := inner.exists_start
  refine ⟨x₁ ++ g, y, x₂, middle, by simp, bare, start, ?_⟩
  exact (move_move _ _ _).trans (by rw [length_append, Nat.add_comm])

/-- Where no comment stands, the gap in front of the first token is made of blanks. -/
theorem exists_blanks (spans : Spans z x tokens) (noComment : '/' ∉ x) :
    ∃ g x' tokens', x = g ++ x' ∧ (∀ c ∈ g, Text.isBlank c) ∧ Spans z x' tokens' ∧
      tokens = move g.length tokens' ∧ tokens'.head?.map (·.start) = some 0 := by
  induction spans with
  | last nonempty gap classified =>
    exact ⟨[], _, _, rfl, nofun, .last nonempty gap classified, (move_zero _).symm, rfl⟩
  | @gap g x tokens gap spans ih =>
    rw [mem_append, not_or] at noComment
    obtain ⟨g', x', tokens', rfl, blanks, spans', rfl, start⟩ := ih noComment.2
    refine ⟨g ++ g', x', tokens', (append_assoc ..).symm, ?_, spans', ?_, start⟩
    · exact forall_mem_append.mpr ⟨isBlank_of_gap? gap noComment.1, blanks⟩
    · rw [move_move, length_append, Nat.add_comm]
  | token nonempty gap classified spans =>
    exact ⟨[], _, _, rfl, nofun, .token nonempty gap classified spans, (move_zero _).symm, rfl⟩

end Spans

end Token

/-! ## Texts made of words and symbols -/

/-- A text is made of tokens that say something, when another text comes after it. -/
def Spells (z x : List Char) (said : List (TokenKind × String)) : Prop :=
  ∃ tokens, Token.Spans z x tokens ∧ tokens.map Token.said = said

theorem classify_of_symbol (noWord : Text.isIdentifierStart c = false)
    (noNumber : number (c :: rest) = none) (noQuote : c ≠ '"' ∧ c ≠ '\'')
    (found : symbol (c :: rest) = some n) : Token.classify (c :: rest) = (.symbol, n) := by
  have noWord' : word (c :: rest) = none := by simp [word, noWord]
  rw [Token.classify_eq, noWord', noNumber, string_of_ne noQuote.1,
    character_of_ne noQuote.2, found]
  rfl

/-- The marks that no longer symbol starts with. -/
theorem classify_mark (listed : c ∈ [';', ',', '\x7b', '\x7d']) (rest : List Char) :
    Token.gap? (c :: rest) = none ∧ Token.classify (c :: rest) = (.symbol, 1) := by
  have halts : [';', ',', '\x7b', '\x7d'].all (!isNumeral ·) = true := by decide
  have noNumber : number (c :: rest) = none :=
    number_of_not_isNumeral fun d others same =>
      (cons.inj same).1 ▸ by simpa using List.all_eq_true.mp halts c listed
  simp only [mem_cons, not_mem_nil, or_false] at listed
  rcases listed with rfl | rfl | rfl | rfl <;>
    exact ⟨rfl, classify_of_symbol (by decide) noNumber (by decide) rfl⟩

/-- A dot before a name or an asterisk is not the start of a number. -/
theorem classify_dot (other : c.isDigit = false ∧ c ≠ '.') (rest : List Char) :
    Token.gap? ('.' :: c :: rest) = none ∧ Token.classify ('.' :: c :: rest) = (.symbol, 1) := by
  have noNumber : number ('.' :: c :: rest) = none := by
    have noPlain : plainDigits ('.' :: c :: rest) = none := rfl
    have one : ".".length = 1 := rfl
    simp [number, integer, decimalFloat, hexFloat, longest, seq, noPlain, groups, hexMark, exact,
      decimals, one, other.1]
  refine ⟨rfl, classify_of_symbol (by decide) noNumber (by decide) ?_⟩
  simp [symbol, symbols, exact, other.2.symm]
  rfl

namespace Spells

variable {x z : List Char} {said : List (TokenKind × String)}

theorem token (nonempty : w ≠ []) (gap : Token.gap? (w ++ (x ++ z)) = none)
    (classified : Token.classify (w ++ (x ++ z)) = (kind, w.length)) (spells : Spells z x said) :
    Spells z (w ++ x) ((kind, String.ofList w) :: said) := by
  obtain ⟨tokens, spans, rfl⟩ := spells
  exact ⟨_, .token nonempty gap classified spans, by simp [Token.said]⟩

theorem semicolon : Spells z [';'] [(.symbol, ";")] := by
  obtain ⟨gap, classified⟩ := classify_mark (c := ';') (by decide) z
  exact ⟨_, .last (cons_ne_nil _ _) gap classified, rfl⟩

theorem space (spells : Spells z x said) : Spells z (' ' :: x) said := by
  obtain ⟨tokens, spans, rfl⟩ := spells
  exact ⟨_, .gap (g := [' ']) rfl spans, Token.map_said_move _ _⟩

theorem word (identifier : IsIdentifier w)
    (ends : ∀ c, (x ++ z).head? = some c → Text.isIdentifierPart c = false)
    (spells : Spells z x said) : Spells z (w ++ x) ((.word, String.ofList w) :: said) := by
  have found := word_of_isIdentifier identifier ends
  obtain ⟨c, rest, rfl, start, -⟩ := identifier
  refine spells.token (cons_ne_nil _ _) ?_ ?_
  · have noSpace : isSpace c = false := by
      cases space : isSpace c with
      | false => rfl
      | true =>
        have part := isBlank_of_isIdentifierPart (isIdentifierPart_of_isIdentifierStart start)
        rw [isBlank_of_isSpace space] at part
        cases part
    have noSlash : c ≠ '/' := by
      rintro rfl
      exact absurd start (by decide)
    simp only [cons_append, Token.gap?, noSpace, Bool.false_eq_true, if_false]
    rw [comment]
    · exact fun rest same => noSlash (cons.inj same).1
    · exact fun rest same => noSlash (cons.inj same).1
  · rw [Token.classify_eq, found]
    rfl

theorem dot (other : c.isDigit = false ∧ c ≠ '.') (spells : Spells z (c :: x) said) :
    Spells z ('.' :: c :: x) ((.symbol, ".") :: said) := by
  obtain ⟨gap, classified⟩ := classify_dot other (x ++ z)
  exact spells.token (w := ['.']) (cons_ne_nil _ _) gap classified

theorem asterisk (spells : Spells z (';' :: x) said) :
    Spells z ('*' :: ';' :: x) ((.symbol, "*") :: said) := by
  refine spells.token (w := ['*']) (cons_ne_nil _ _) rfl ?_
  have noNumber : number ('*' :: ';' :: (x ++ z)) = none :=
    number_of_not_isNumeral fun d others same => (cons.inj same).1 ▸ rfl
  exact classify_of_symbol (by decide) noNumber (by decide) rfl

end Spells

end JavaSlice.Syntax
