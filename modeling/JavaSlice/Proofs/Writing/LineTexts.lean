import Mathlib.Data.List.Basic
import JavaSlice.Proofs.Writing.NameLines

/-!
# The texts of lines

Blanks may stand between the words of a line. Reading the text of an import gives what its tokens
say, unless a comment stands in it (`ofChars?_of_spans`). An import that was read from a text with a
comment has the comment in its name (`slash_of_ofChars?`).
-/

namespace JavaSlice.Text

open List

variable {cs : List Char} {c : Char}

/-! ## Trimming -/

theorem filter_dropWhile_isBlank (cs : List Char) :
    (cs.dropWhile isBlank).filter (!isBlank ·) = cs.filter (!isBlank ·) := by
  have blanks : (cs.takeWhile isBlank).filter (!isBlank ·) = [] :=
    filter_eq_nil_iff.mpr fun c inside => by simp [all_eq_true.mp all_takeWhile c inside]
  have split := congrArg (List.filter (!isBlank ·))
    (takeWhile_append_dropWhile (p := isBlank) (l := cs))
  rwa [filter_append, blanks, nil_append] at split

theorem filter_trimChars (cs : List Char) :
    (trimChars cs).filter (!isBlank ·) = cs.filter (!isBlank ·) := by
  rw [trimChars, trimEndChars, filter_reverse, filter_dropWhile_isBlank, filter_reverse,
    reverse_reverse, filter_dropWhile_isBlank]

theorem trimEndChars_isPrefix (cs : List Char) : trimEndChars cs <+: cs := by
  rw [trimEndChars, ← reverse_suffix, reverse_reverse]
  exact dropWhile_suffix _

theorem dropWhile_of_head? (first : ∀ c, cs.head? = some c → isClass c = false) :
    cs.dropWhile isClass = cs := by
  cases cs with
  | nil => rfl
  | cons c rest => exact dropWhile_cons_of_neg (by simp [first c rfl])

theorem trimEndChars_of_getLast? (last : ∀ c, cs.getLast? = some c → isBlank c = false) :
    trimEndChars cs = cs := by
  rw [trimEndChars, dropWhile_of_head? (by simpa using last), reverse_reverse]

theorem append_of_isPrefixOf? {front text back : List Char}
    (found : front.isPrefixOf? text = some back) : text = front ++ back :=
  (isPrefixOf?_eq_some_iff_append_eq.mp found).symm

end JavaSlice.Text

namespace JavaSlice.Syntax

open List Source Grammar

/-! ## Imports -/

/-- The text between the keyword of an import and its name. -/
def staticText (isStatic : Bool) : List Char :=
  if isStatic then "static".toList else []

/-- The text between the name of an import and the semicolon. -/
def wildcardText (isWildcard : Bool) : List Char :=
  if isWildcard then ['.', '*'] else []

section Imports

variable {x z : List Char} {tokens : List Token} {isStatic isWildcard : Bool} {first : String}
  {rest : List String}
variable {kind : TokenKind} {text : String} {b : List Char}

theorem flatMap_text_of_said (spelled : tokens.map Token.said = said) :
    tokens.flatMap (·.text.toList) = said.flatMap (·.2.toList) := by
  rw [← spelled, flatMap_map]
  rfl

theorem flatMap_importLine : (importLine isStatic isWildcard first rest).flatMap (·.2.toList) =
    "import".toList ++ (staticText isStatic ++
      (dottedText first rest ++ (wildcardText isWildcard ++ [';']))) := by
  have statics : (staticLine isStatic).flatMap (·.2.toList) = staticText isStatic := by
    cases isStatic <;> rfl
  have wildcards : (wildcardLine isWildcard).flatMap (·.2.toList) = wildcardText isWildcard := by
    cases isWildcard <;> rfl
  rw [importLine, flatMap_cons, flatMap_append, flatMap_append, flatMap_append, statics,
    flatMap_nameLine, wildcards]
  rfl

/-- Words and symbols are what lines are made of. -/
theorem isPlain_of_nameLine (inside : (kind, text) ∈ nameLine first rest) :
    kind = .word ∨ kind = .symbol := by
  rcases mem_cons.mp inside with same | inside
  · exact .inl (Prod.mk.inj same).1
  · obtain ⟨segment, -, inside⟩ := mem_flatMap.mp inside
    simp only [mem_cons, Prod.mk.injEq, not_mem_nil, or_false] at inside
    exact inside.symm.imp And.left And.left

theorem isPlain_of_importLine (inside : (kind, text) ∈ importLine isStatic isWildcard first rest) :
    kind = .word ∨ kind = .symbol := by
  have statics : ∀ pair ∈ staticLine isStatic, pair.1 = .word ∨ pair.1 = .symbol := by
    cases isStatic <;> decide
  have wildcards : ∀ pair ∈ wildcardLine isWildcard, pair.1 = .word ∨ pair.1 = .symbol := by
    cases isWildcard <;> decide
  simp only [importLine, mem_cons, mem_append, Prod.mk.injEq, not_mem_nil, or_false] at inside
  rcases inside with ⟨rfl, -⟩ | inside | inside | inside | ⟨rfl, -⟩
  · exact .inl rfl
  · exact statics _ inside
  · exact isPlain_of_nameLine inside
  · exact wildcards _ inside
  · exact .inr rfl

/-- The segments of a name that some tokens say are identifiers. -/
theorem isSegment_of_spans (spans : Token.Spans z x tokens)
    (spelled : tokens.map Token.said = said) (named : ∀ pair ∈ nameLine first rest, pair ∈ said)
    (names : ∀ text ∈ first :: rest, text ∉ reservedWords) :
    ∀ text ∈ first :: rest, IsSegment text := by
  intro text listed
  have inside : (TokenKind.word, text) ∈ nameLine first rest := by
    rcases mem_cons.mp listed with rfl | listed
    · exact mem_cons_self
    · exact mem_cons_of_mem _ (mem_flatMap.mpr ⟨text, listed, by simp⟩)
  have pair := named _ inside
  rw [← spelled] at pair
  obtain ⟨token, member, same⟩ := mem_map.mp pair
  obtain ⟨kind, rfl⟩ := Prod.mk.inj same
  exact ⟨spans.isIdentifier member kind, names _ listed⟩

/-- What stands between the keyword of an import and its semicolon ends with a name or an
asterisk. -/
theorem getLast?_importText (segments : ∀ text ∈ first :: rest, IsSegment text) :
    (staticText isStatic ++ (dottedText first rest ++ wildcardText isWildcard)).getLast? ≠
      some ';' := by
  intro last
  have nonempty : dottedText first rest ≠ [] := dottedText_ne_nil (segments first mem_cons_self)
  rw [getLast?_append_of_ne_nil _ (append_ne_nil_of_left_ne_nil nonempty _)] at last
  cases isWildcard with
  | true =>
    rw [getLast?_append_of_ne_nil _ (by simp [wildcardText])] at last
    exact absurd last (by decide)
  | false =>
    obtain ⟨c, last', part⟩ := getLast?_dottedText segments
    rw [wildcardText, if_neg nofun, append_nil, last'] at last
    obtain rfl := Option.some.inj last
    exact absurd part (by decide)

theorem takeWildcard_importText (segments : ∀ text ∈ first :: rest, IsSegment text) :
    Import.takeWildcard (dottedText first rest ++ wildcardText isWildcard) =
      (isWildcard, dottedText first rest) := by
  cases isWildcard with
  | true => simp [wildcardText, Import.takeWildcard]
  | false =>
    obtain ⟨c, last, part⟩ := getLast?_dottedText segments
    rw [getLast?_eq_head?_reverse] at last
    rw [wildcardText, if_neg nofun, append_nil, Import.takeWildcard]
    cases backwards : (dottedText first rest).reverse with
    | nil => rfl
    | cons d others =>
      rw [backwards] at last
      obtain rfl := Option.some.inj last
      have noAsterisk : d ≠ '*' := by
        rintro rfl
        exact absurd part (by decide)
      split
      next same => exact (noAsterisk (cons.inj same).1).elim
      next => rfl

/-- A text whose first token is a word starts with that word and no longer one. -/
theorem word_of_head (spans : Token.Spans z x (token :: tokens)) (start : token.start = 0)
    (kind : token.kind = .word) :
    token.text.toList <+: x ∧ Shape.word (x ++ z) = some token.text.toList.length := by
  obtain ⟨starts, classified⟩ := spans.classify_head start
  exact ⟨starts, Token.word_of_classify (kind ▸ classified)⟩

theorem isIdentifier_static : IsIdentifier "static".toList :=
  ⟨'s', "tatic".toList, rfl, by decide, all_eq_true.mp (by decide)⟩

/-- The keyword of a static import ends before a blank. -/
theorem word_static (blank : Text.isBlank c) :
    Shape.word ("static".toList ++ c :: others) = some 6 := by
  refine word_of_isIdentifier isIdentifier_static fun d first => ?_
  obtain rfl := Option.some.inj first
  cases part : Text.isIdentifierPart c with
  | false => rfl
  | true => simp [isBlank_of_isIdentifierPart part] at blank

/-- A text that starts with a segment of a name is not that of a static import. -/
theorem takeStatic_of_segment (spans : Token.Spans z x (name :: tokens))
    (start : name.start = 0) (kind : name.kind = .word) (segment : IsSegment name.text)
    (starts : b <+: x) : Import.takeStatic b = (false, b) := by
  obtain ⟨named, found⟩ := word_of_head spans start kind
  unfold Import.takeStatic
  split
  next c after prefixed =>
    split
    next blank =>
      -- the first word would be the keyword, which is no segment of a name
      obtain rfl := Text.append_of_isPrefixOf? prefixed
      obtain ⟨behind, rfl⟩ := starts
      rw [append_assoc, append_assoc, cons_append, word_static blank] at found
      have keyword : "static".toList = name.text.toList := by
        have starts : "static".toList <+: "static".toList ++ c :: after ++ behind :=
          ⟨c :: after ++ behind, by simp⟩
        have length := Option.some.inj found
        exact (prefix_of_prefix_length_le starts named (Nat.le_of_eq length)).eq_of_length length
      have reserved : name.text ∈ reservedWords := by
        rw [← String.toList_inj.mp keyword]
        decide
      exact (segment.2 reserved).elim
    next => rfl
  next => rfl

/-- A blank separates the keyword of a static import from the name. -/
theorem exists_blank_after_static (spans : Token.Spans z x tokens)
    (start : tokens.head?.map (·.start) = some 0) (noComment : '/' ∉ x)
    (spelled : tokens.map Token.said = (.word, "static") :: (.word, first) :: said)
    (segment : IsSegment first) : ∃ c rest, Text.isBlank c ∧ x = "static".toList ++ c :: rest := by
  obtain ⟨keyword, others, rfl, keywordSaid, spelled⟩ := map_eq_cons_iff.mp spelled
  obtain ⟨kind, text⟩ := Prod.mk.inj keywordSaid
  have zero : keyword.start = 0 := Option.some.inj start
  obtain ⟨-, found⟩ := word_of_head spans zero kind
  have more : others ≠ [] := by
    rintro rfl
    cases spelled
  obtain ⟨x', others', rfl, spans', rfl⟩ := spans.exists_tail zero more
  rw [text] at *
  rw [mem_append, not_or] at noComment
  obtain ⟨g, x'', others'', rfl, blanks, spans'', rfl, start''⟩ := spans'.exists_blanks noComment.2
  rw [Token.map_said_move, Token.map_said_move] at spelled
  obtain ⟨name, _, rfl, nameSaid, -⟩ := map_eq_cons_iff.mp spelled
  obtain ⟨nameKind, rfl⟩ := Prod.mk.inj nameSaid
  obtain ⟨named, -⟩ := word_of_head spans'' (Option.some.inj start'') nameKind
  cases g with
  | nil =>
    obtain ⟨⟨c, more, text', begin, -⟩, -⟩ := segment
    obtain ⟨behind, rfl⟩ := named
    rw [append_assoc] at found
    have part := not_isIdentifierPart_of_word found (c := c) (by simp [text'])
    rw [isIdentifierPart_of_isIdentifierStart begin] at part
    cases part
  | cons c g => exact ⟨c, g ++ x'', blanks c mem_cons_self, rfl⟩

/-- Whether an import is static shows in the text after its first keyword. -/
theorem takeStatic_of_spans (spans : Token.Spans z x tokens)
    (start : tokens.head?.map (·.start) = some 0) (noComment : '/' ∉ x)
    (spelled : tokens.map Token.said = staticLine isStatic ++
      (nameLine first rest ++ (wildcardLine isWildcard ++ [(.symbol, ";")])))
    (segments : ∀ text ∈ first :: rest, IsSegment text) (starts : b <+: x)
    (content : b.filter (!Text.isBlank ·) = staticText isStatic ++
      (dottedText first rest ++ wildcardText isWildcard)) :
    ∃ after, Import.takeStatic b = (isStatic, after) ∧
      after.filter (!Text.isBlank ·) = dottedText first rest ++ wildcardText isWildcard := by
  have segment := segments first mem_cons_self
  cases isStatic with
  | false =>
    obtain ⟨name, others, rfl, nameSaid, -⟩ := map_eq_cons_iff.mp spelled
    obtain ⟨kind, rfl⟩ := Prod.mk.inj nameSaid
    exact ⟨b, takeStatic_of_segment spans (Option.some.inj start) kind segment starts, content⟩
  | true =>
    obtain ⟨c, behind, blank, rfl⟩ :=
      exists_blank_after_static spans start noComment spelled segment
    have long : ("static".toList ++ [c]).length ≤ b.length := by
      have shorter := length_filter_le (!Text.isBlank ·) b
      have nonempty : 0 < (dottedText first rest).length :=
        length_pos_iff.mpr (dottedText_ne_nil segment)
      have six : (staticText true).length = "static".toList.length := rfl
      rw [content] at shorter
      simp only [length_append, length_singleton] at shorter ⊢
      omega
    have begins : "static".toList ++ [c] <+: "static".toList ++ c :: behind := ⟨behind, by simp⟩
    obtain ⟨after, rfl⟩ := prefix_of_prefix_length_le begins starts long
    rw [append_assoc, singleton_append] at content ⊢
    refine ⟨c :: after, ?_, ?_⟩
    · rw [Import.takeStatic, isPrefixOf?_eq_some_iff_append_eq.mpr rfl]
      exact if_pos blank
    · rw [filter_append] at content
      exact append_cancel_left content

/-- The text of an import between its keyword and its semicolon. -/
theorem bodyOfLine?_of_text (blanks : ∀ c ∈ g, Text.isBlank c)
    (first : ∀ c, y.head? = some c → Text.isBlank c = false) (nonempty : y ≠ [])
    (last : y.getLast? ≠ some ';') :
    Import.bodyOfLine? ("import".toList ++ (g ++ (y ++ [';']))) = some (Text.trimEndChars y) := by
  have whole : Text.trimChars ("import".toList ++ (g ++ (y ++ [';']))) = "import".toList ++
      (g ++ (y ++ [';'])) := by
    have final : ("import".toList ++ (g ++ (y ++ [';']))).getLast? = some ';' := by
      rw [← append_assoc, ← append_assoc, getLast?_append_of_ne_nil _ (cons_ne_nil _ _)]
      rfl
    have begin : ∀ c, ("import".toList ++ (g ++ (y ++ [';']))).head? = some c →
        Text.isBlank c = false := by
      rintro c same
      obtain rfl := Option.some.inj same
      rfl
    rw [Text.trimChars, Text.dropWhile_of_head? begin, Text.trimEndChars_of_getLast?]
    rintro c same
    obtain rfl := Option.some.inj (final.symm.trans same)
    rfl
  have body : ((g ++ (y ++ [';'])).reverse.dropWhile (· == ';')).reverse = g ++ y := by
    rw [← append_assoc, reverse_append, reverse_singleton, singleton_append,
      dropWhile_cons_of_pos rfl, Text.dropWhile_of_head?, reverse_reverse]
    rintro c same
    rw [← getLast?_eq_head?_reverse, getLast?_append_of_ne_nil _ nonempty] at same
    rw [beq_eq_false_iff_ne]
    rintro rfl
    exact last same
  rw [Import.bodyOfLine?, whole, isPrefixOf?_eq_some_iff_append_eq.mpr rfl, Option.map_some, body,
    Text.trimChars, dropWhile_append_of_pos blanks, Text.dropWhile_of_head? first]

section

variable (spans : Token.Spans z x tokens)
include spans

/-- A text that says something ends as it does. -/
theorem exists_semicolon
    (spelled : tokens.map Token.said = said ++ [(.symbol, ";")]) : ∃ y, x = y ++ [';'] := by
  obtain ⟨front, final, rfl, last, -⟩ := spans.exists_last
  rw [map_append] at spelled
  have same := singleton_inj.mp (append_inj_right' spelled rfl)
  rw [(Prod.mk.inj same).2] at last
  exact getLast?_eq_some_iff.mp last.symm

/-- The first token of an import after its keyword is a word. -/
theorem head_isBlank (start : tokens.head?.map (·.start) = some 0)
    (spelled : ∃ text said, tokens.map Token.said = (.word, text) :: said) :
    ∃ c, x.head? = some c ∧ Text.isBlank c = false := by
  obtain ⟨text, said, spelled⟩ := spelled
  obtain ⟨token, others, rfl, tokenSaid, -⟩ := map_eq_cons_iff.mp spelled
  obtain ⟨kind, rfl⟩ := Prod.mk.inj tokenSaid
  obtain ⟨c, more, text, -⟩ := spans.isIdentifier mem_cons_self kind
  obtain ⟨behind, rfl⟩ := (spans.classify_head (Option.some.inj start)).1
  refine ⟨c, by simp [text], ?_⟩
  exact (spans.calm mem_cons_self (.inl kind) c (by simp [text])).1

/-- Reading the text of an import gives what its tokens say, if no comment stands in it. -/
theorem ofChars?_of_spans (start : tokens.head?.map (·.start) = some 0) (noComment : '/' ∉ x)
    (spelled : tokens.map Token.said = importLine isStatic isWildcard first rest)
    (names : ∀ text ∈ first :: rest, text ∉ reservedWords) :
    Import.ofChars? x = some ⟨String.ofList (dottedText first rest), isStatic, isWildcard⟩ := by
  have segments := isSegment_of_spans spans spelled (by simp +contextual [importLine]) names
  have plain : ∀ token ∈ tokens, token.IsPlain := by
    intro token inside
    exact isPlain_of_importLine (spelled ▸ mem_map_of_mem inside)
  have filtered := spans.filter_blanks noComment plain
  rw [flatMap_text_of_said spelled, flatMap_importLine] at filtered
  obtain ⟨keyword, others, rfl, keywordSaid, spelled⟩ := map_eq_cons_iff.mp spelled
  have more : others ≠ [] := by
    rintro rfl
    cases isStatic <;> cases spelled
  obtain ⟨x', others', rfl, spans', rfl⟩ := spans.exists_tail (Option.some.inj start) more
  rw [(Prod.mk.inj keywordSaid).2] at *
  rw [mem_append, not_or] at noComment
  obtain ⟨g, x'', inner, rfl, blanks, spans'', rfl, start''⟩ := spans'.exists_blanks noComment.2
  rw [Token.map_said_move, Token.map_said_move] at spelled
  obtain ⟨y, rfl⟩ := @exists_semicolon _ z inner spans''
    (staticLine isStatic ++ (nameLine first rest ++ wildcardLine isWildcard))
    (by rw [spelled, append_assoc, append_assoc])
  have content : y.filter (!Text.isBlank ·) =
      staticText isStatic ++ (dottedText first rest ++ wildcardText isWildcard) := by
    have none : g.filter (!Text.isBlank ·) = [] :=
      filter_eq_nil_iff.mpr fun c inside => by simp [blanks c inside]
    rw [filter_append, filter_append, none, nil_append, filter_append] at filtered
    have inner := append_cancel_left filtered
    rw [← append_assoc, ← append_assoc] at inner
    rw [append_cancel_right inner, append_assoc]
  have nonempty : y ≠ [] := by
    rintro rfl
    have none := (append_eq_nil_iff.mp (append_eq_nil_iff.mp content.symm).2).1
    exact dottedText_ne_nil (segments first mem_cons_self) none
  have last : y.getLast? ≠ some ';' := by
    intro last
    obtain ⟨front, rfl⟩ := getLast?_eq_some_iff.mp last
    refine @getLast?_importText isStatic isWildcard first rest segments ?_
    rw [← content, filter_append, getLast?_append_of_ne_nil _ (by decide)]
    rfl
  have begin : ∀ c, y.head? = some c → Text.isBlank c = false := by
    intro c same
    obtain ⟨d, head, calm⟩ := head_isBlank spans'' start'' (by
      rw [spelled]
      cases isStatic <;> exact ⟨_, _, rfl⟩)
    rw [head?_append, same] at head
    exact Option.some.inj head ▸ calm
  obtain ⟨after, taken, named⟩ := takeStatic_of_spans spans'' start''
    (fun inside => noComment.2 (mem_append_right _ inside)) spelled segments
    ((Text.trimEndChars_isPrefix y).trans (prefix_append y [';'])) (by
      rw [← content]
      exact (congrArg _ (congrArg Text.trimEndChars (Text.dropWhile_of_head? begin).symm)).trans
        (Text.filter_trimChars y))
  rw [Import.ofChars?, bodyOfLine?_of_text blanks begin nonempty last]
  simp only [Option.bind_eq_bind, Option.bind_some, taken, named, takeWildcard_importText segments]
  rw [if_neg]
  simpa using dottedText_ne_nil (segments first mem_cons_self)

end

theorem mem_trimChars (calm : Text.isBlank c = false) (inside : c ∈ cs) :
    c ∈ Text.trimChars cs := by
  have kept : c ∈ cs.filter (!Text.isBlank ·) := mem_filter.mpr ⟨inside, by simp [calm]⟩
  rw [← Text.filter_trimChars] at kept
  exact (mem_filter.mp kept).1

theorem mem_dropWhile {cs : List Char} {isClass : Char → Bool} (other : isClass c = false)
    (inside : c ∈ cs) : c ∈ cs.dropWhile isClass := by
  rw [← takeWhile_append_dropWhile (p := isClass) (l := cs), mem_append] at inside
  refine inside.resolve_left fun taken => ?_
  rw [all_eq_true.mp all_takeWhile c taken] at other
  cases other

/-- A comment in an import shows in the name that is read. -/
theorem slash_of_ofChars? (read : Import.ofChars? x = some line) (comment : '/' ∈ x) :
    '/' ∈ line.name.toList := by
  simp only [Import.ofChars?, Option.bind_eq_bind, Option.bind_eq_some_iff] at read
  obtain ⟨body, bodyRead, read⟩ := read
  obtain ⟨text, prefixed, rfl⟩ := Option.map_eq_some_iff.mp bodyRead
  have inText : '/' ∈ text := by
    have inside := mem_trimChars (by decide) comment
    rw [Text.append_of_isPrefixOf? prefixed, mem_append] at inside
    exact inside.resolve_left (by decide)
  have inBody : '/' ∈ Text.trimChars (text.reverse.dropWhile (· == ';')).reverse :=
    mem_trimChars (by decide) (mem_reverse.mpr (mem_dropWhile (by decide) (mem_reverse.mpr inText)))
  generalize Text.trimChars (text.reverse.dropWhile (· == ';')).reverse = body at *
  have inRest : '/' ∈ (Import.takeStatic body).2 := by
    unfold Import.takeStatic
    split
    next c rest prefixed =>
      split
      next =>
        rw [Text.append_of_isPrefixOf? prefixed, mem_append] at inBody
        exact inBody.resolve_left (by decide)
      next => exact inBody
    next => exact inBody
  have inName : '/' ∈ ((Import.takeStatic body).2.filter (!Text.isBlank ·)) :=
    mem_filter.mpr ⟨inRest, by decide⟩
  generalize (Import.takeStatic body).2.filter (!Text.isBlank ·) = name at *
  split at read
  · cases read
  · obtain rfl := Option.some.inj read
    rw [String.toList_ofList]
    unfold Import.takeWildcard
    split
    next rest backwards =>
      rw [← mem_reverse, backwards] at inName
      simpa using inName
    next => exact inName

end Imports

/-! ## Lines as they are written -/

section Writing

variable {z tail : List Char} {said : List (TokenKind × String)} {first : String}
  {rest : List String}

/-- A name without blanks. -/
theorem Spells.name (segments : ∀ text ∈ first :: rest, IsSegment text)
    (ends : ∀ c, (tail ++ z).head? = some c → Text.isIdentifierPart c = false)
    (spells : Spells z tail said) :
    Spells z (dottedText first rest ++ tail) (nameLine first rest ++ said) := by
  induction rest generalizing first with
  | nil =>
    have written := spells.word (segments first mem_cons_self).1 ends
    rw [String.ofList_toList] at written
    simpa [dottedText, nameLine] using written
  | cons second rest ih =>
    have written := ih fun text listed => segments text (mem_cons_of_mem _ listed)
    obtain ⟨⟨c, others, text, begin, -⟩, -⟩ := segments second (by simp)
    have split : dottedText second rest ++ tail =
        c :: (others ++ (rest.flatMap fun segment => '.' :: segment.toList) ++ tail) := by
      simp [dottedText, text]
    have noDot : c.isDigit = false ∧ c ≠ '.' := by
      refine ⟨isDigit_of_isIdentifierStart begin, ?_⟩
      rintro rfl
      exact absurd begin (by decide)
    rw [split] at written
    have dotted := written.dot noDot
    have whole := dotted.word (segments first mem_cons_self).1 (by
      rintro d same
      obtain rfl := Option.some.inj same
      decide)
    rw [← split, String.ofList_toList] at whole
    rw [dottedText_cons]
    simpa [nameLine] using whole

theorem isIdentifier_import : IsIdentifier "import".toList :=
  ⟨'i', "mport".toList, rfl, by decide, all_eq_true.mp (by decide)⟩

theorem isIdentifier_package : IsIdentifier "package".toList :=
  ⟨'p', "ackage".toList, rfl, by decide, all_eq_true.mp (by decide)⟩

theorem head?_space (same : ((' ' :: x) ++ z).head? = some c) :
    Text.isIdentifierPart c = false := by
  obtain rfl := Option.some.inj same
  decide

/-- The declaration of a package as it is written. -/
theorem spells_package (segments : ∀ text ∈ first :: rest, IsSegment text) :
    Spells z ("package ".toList ++ (dottedText first rest ++ [';'])) (packageLine first rest) := by
  have named := Spells.name (z := z) segments (by
    rintro c same
    obtain rfl := Option.some.inj same
    decide) .semicolon
  exact named.space.word isIdentifier_package fun _ => head?_space

/-- An import as it is written. -/
theorem spells_import (isStatic isWildcard : Bool)
    (segments : ∀ text ∈ first :: rest, IsSegment text) :
    Spells z (Import.render ⟨String.ofList (dottedText first rest), isStatic, isWildcard⟩).toList
      (importLine isStatic isWildcard first rest) := by
  have named : Spells z (dottedText first rest ++ (if isWildcard then ".*;" else ";").toList)
      (nameLine first rest ++ (wildcardLine isWildcard ++ [(.symbol, ";")])) := by
    cases isWildcard with
    | true =>
      refine .name segments ?_ (.dot (by decide) (.asterisk .semicolon))
      rintro c same
      obtain rfl := Option.some.inj same
      decide
    | false =>
      refine .name segments ?_ .semicolon
      rintro c same
      obtain rfl := Option.some.inj same
      decide
  rw [Import.render, String.toList_append, String.toList_append, String.toList_ofList, append_assoc]
  dsimp only
  cases isStatic with
  | true =>
    rw [if_pos rfl]
    have statics := named.space.word isIdentifier_static fun _ => head?_space
    exact statics.space.word isIdentifier_import fun _ => head?_space
  | false =>
    rw [if_neg nofun]
    exact named.space.word isIdentifier_import fun _ => head?_space

/-- No comment stands in an import as it is written. -/
theorem slash_of_render (isStatic isWildcard : Bool)
    (segments : ∀ text ∈ first :: rest, IsSegment text) :
    '/' ∉ (Import.render ⟨String.ofList (dottedText first rest), isStatic, isWildcard⟩).toList := by
  have noName : '/' ∉ dottedText first rest := by
    intro inside
    rcases mem_dottedText segments inside with part | same
    · exact absurd part (by decide)
    · exact absurd same (by decide)
  rw [Import.render, String.toList_append, String.toList_append, String.toList_ofList, mem_append,
    mem_append]
  dsimp only
  rintro ((inside | inside) | inside)
  · split at inside
    · exact absurd inside (by decide)
    · exact absurd inside (by decide)
  · exact noName inside
  · split at inside
    · exact absurd inside (by decide)
    · exact absurd inside (by decide)

end Writing

end JavaSlice.Syntax
