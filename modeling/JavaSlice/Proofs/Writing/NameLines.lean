import JavaSlice.Proofs.Syntax.Spelling
import JavaSlice.Proofs.Syntax.Runs
import JavaSlice.Source.Import

/-!
# Lines that name a package or an import

The declaration of a package and an import are words, dots and a semicolon. What their tokens say is
a list (`packageLine`, `importLine`), and whatever tokens say the same are read as the same line.
-/

namespace JavaSlice.Syntax

open List Syntax.Parser Grammar

variable {trees : List Tree} {depth : Nat} {isWildcard : Bool}

/-! ## Names -/

/-- What the tokens of a name say. -/
def nameLine (first : String) (rest : List String) : List (TokenKind × String) :=
  (.word, first) :: rest.flatMap fun segment => [(.symbol, "."), (.word, segment)]

/-- The text of a name without blanks. -/
def dottedText (first : String) (rest : List String) : List Char :=
  first.toList ++ rest.flatMap fun segment => '.' :: segment.toList

/-- A text is a segment of a name. -/
def IsSegment (text : String) : Prop :=
  IsIdentifier text.toList ∧ text ∉ reservedWords

theorem dottedText_cons (first second : String) (rest : List String) :
    dottedText first (second :: rest) = first.toList ++ '.' :: dottedText second rest := by
  simp [dottedText]

theorem flatMap_nameLine (first : String) (rest : List String) :
    (nameLine first rest).flatMap (·.2.toList) = dottedText first rest := by
  induction rest generalizing first with
  | nil => simp [nameLine, dottedText]
  | cons second rest ih =>
    rw [dottedText_cons, ← ih]
    simp [nameLine]

/-- The characters of a name belong to identifiers, or are dots. -/
theorem mem_dottedText (segments : ∀ text ∈ first :: rest, IsSegment text)
    (inside : c ∈ dottedText first rest) : Text.isIdentifierPart c ∨ c = '.' := by
  have part : ∀ text ∈ first :: rest, ∀ c ∈ text.toList, Text.isIdentifierPart c = true :=
    fun text listed => (segments text listed).1.isIdentifierPart
  rcases mem_append.mp inside with inside | inside
  · exact .inl (part first mem_cons_self c inside)
  · obtain ⟨segment, listed, inside⟩ := mem_flatMap.mp inside
    rcases mem_cons.mp inside with rfl | inside
    · exact .inr rfl
    · exact .inl (part segment (mem_cons_of_mem _ listed) c inside)

theorem dottedText_ne_nil (segment : IsSegment first) : dottedText first rest ≠ [] := by
  obtain ⟨⟨c, others, text, -⟩, -⟩ := segment
  simp [dottedText, text]

/-- A name ends with a character of an identifier. -/
theorem getLast?_dottedText (segments : ∀ text ∈ first :: rest, IsSegment text) :
    ∃ c, (dottedText first rest).getLast? = some c ∧ Text.isIdentifierPart c := by
  induction rest generalizing first with
  | nil =>
    have identifier := (segments first mem_cons_self).1
    obtain ⟨c, others, text, -⟩ := id identifier
    have nonempty : first.toList ≠ [] := by simp [text]
    refine ⟨first.toList.getLast nonempty, ?_, identifier.isIdentifierPart _ (getLast_mem nonempty)⟩
    simp [dottedText, getLast?_eq_some_getLast nonempty]
  | cons second rest ih =>
    obtain ⟨c, last, part⟩ := ih fun text listed => segments text (mem_cons_of_mem _ listed)
    refine ⟨c, ?_, part⟩
    have nonempty : dottedText second rest ≠ [] := dottedText_ne_nil (segments second (by simp))
    rw [dottedText_cons, getLast?_append_of_ne_nil _ (cons_ne_nil _ _), ← singleton_append,
      getLast?_append_of_ne_nil _ nonempty, last]

section Names

variable {tokens after : List Token} {first : String} {rest : List String} {last : Nat}
variable {token : Token} {text : String}

theorem symbol_of_said (said : token.said = (.symbol, text)) :
    symbol text ⟨token :: after, last⟩ = some ((), ⟨after, token.stop⟩) :=
  symbol_eq_some.mpr ⟨token, after, rfl, Token.isSymbol_iff.mpr said, rfl⟩

theorem symbol_of_ne (other : token.said ≠ (.symbol, text)) :
    symbol text ⟨token :: after, last⟩ = none := by
  cases read : symbol text ⟨token :: after, last⟩ with
  | none => rfl
  | some result =>
    obtain ⟨_, _, same, symbol, -⟩ := symbol_eq_some.mp read
    obtain ⟨rfl, -⟩ := cons.inj same
    exact (other (Token.isSymbol_iff.mp symbol)).elim

theorem trySymbol_of_ne (other : token.said ≠ (.symbol, text)) :
    trySymbol text ⟨token :: after, last⟩ = some (false, ⟨token :: after, last⟩) := by
  rw [trySymbol, orElse_of_none (bind_of_none (symbol_of_ne other))]
  rfl

theorem word_of_said (said : token.said = (.word, text)) :
    word text ⟨token :: after, last⟩ = some ((), ⟨after, token.stop⟩) :=
  word_eq_some.mpr ⟨token, after, rfl, Token.isWord_iff.mpr said, rfl⟩

theorem word_of_ne (other : token.said ≠ (.word, text)) :
    word text ⟨token :: after, last⟩ = none := by
  cases read : word text ⟨token :: after, last⟩ with
  | none => rfl
  | some result =>
    obtain ⟨_, _, same, word, -⟩ := word_eq_some.mp read
    obtain ⟨rfl, -⟩ := cons.inj same
    exact (other (Token.isWord_iff.mp word)).elim

theorem isName_of_said (said : token.said = (.word, text)) (name : text ∉ reservedWords) :
    isName token := by
  obtain ⟨kind, rfl⟩ := Prod.mk.inj said
  simp [isName, kind, name]

theorem said_of_isName (name : isName token) :
    token.said = (.word, token.text) ∧ token.text ∉ reservedWords := by
  simpa [isName, Token.said] using name

theorem proper_of_said (said : token.said = (kind, text)) (other : kind ≠ .finish) :
    token.kind ≠ .finish := by
  obtain ⟨rfl, -⟩ := Prod.mk.inj said
  exact other

/-- A phrase that covers the tokens of a name. -/
structure NamePhrase (tokens : List Token) (tree : Tree) : Prop where
  kind : tree.kind = .identifier ∨ tree.kind = .scopedIdentifier
  start : tokens.head?.map (·.start) = some tree.start
  stop : tree.stop = lastStop 0 tokens
  sound : tree.hasError = false

/-- Dots and segments are read one pair after the other. -/
theorem exists_dottedNames
    (spelled : tokens.map Token.said = rest.flatMap fun segment =>
      [(.symbol, "."), (.word, segment)])
    (names : ∀ text ∈ rest, text ∉ reservedWords)
    (stops : ∀ last, dottedName ⟨after, last⟩ = none) :
    ∃ trees, Steps dottedName ⟨tokens ++ after, last⟩ trees ⟨after, lastStop last tokens⟩ ∧
      (trees = [] ↔ rest = []) ∧ ∀ tree ∈ trees, tree.hasError = false := by
  induction rest generalizing tokens last with
  | nil =>
    obtain rfl := map_eq_nil_iff.mp spelled
    exact ⟨[], .stop (stops last), by simp, nofun⟩
  | cons segment rest ih =>
    rw [flatMap_cons, cons_append, map_eq_cons_iff] at spelled
    obtain ⟨dot, others, rfl, dotSaid, spelled⟩ := spelled
    rw [cons_append, map_eq_cons_iff] at spelled
    obtain ⟨name, others, rfl, nameSaid, spelled⟩ := spelled
    obtain ⟨trees, steps, -, sound⟩ := @ih others name.stop spelled fun text listed =>
      names text (mem_cons_of_mem _ listed)
    have reads : dottedName ⟨dot :: name :: others ++ after, last⟩ =
        some ([.node .identifier none name.start name.stop []], ⟨others ++ after, name.stop⟩) := by
      rw [dottedName, cons_append, bind_of_some (symbol_of_said dotSaid)]
      exact leaf_eq_some.mpr ⟨name, _, rfl, proper_of_said nameSaid nofun,
        isName_of_said nameSaid (names segment mem_cons_self), rfl, rfl⟩
    refine ⟨_, .step reads (by simp only [length_append, length_cons]; omega) steps, by simp, ?_⟩
    rw [singleton_append, forall_mem_cons]
    exact ⟨rfl, sound⟩

/-- A name is read from tokens that say it. -/
theorem exists_qualifiedName (spelled : tokens.map Token.said = nameLine first rest)
    (names : ∀ text ∈ first :: rest, text ∉ reservedWords)
    (stops : ∀ last, dottedName ⟨after, last⟩ = none) :
    ∃ tree, qualifiedName ⟨tokens ++ after, last⟩ = some ([tree], ⟨after, lastStop last tokens⟩) ∧
      NamePhrase tokens tree := by
  obtain ⟨name, others, rfl, nameSaid, spelled⟩ := map_eq_cons_iff.mp spelled
  rw [forall_mem_cons] at names
  obtain ⟨trees, steps, alone, sound⟩ :=
    @exists_dottedNames others after rest name.stop spelled names.2 stops
  have placed : place ⟨name :: others ++ after, last⟩ =
      some (name.start, ⟨name :: others ++ after, last⟩) := rfl
  have identified : identifier ⟨name :: others ++ after, last⟩ =
      some ([.node .identifier none name.start name.stop []], ⟨others ++ after, name.stop⟩) :=
    leaf_eq_some.mpr ⟨name, _, rfl, proper_of_said nameSaid nofun, isName_of_said nameSaid names.1,
      rfl, rfl⟩
  rw [qualifiedName, bind_of_some placed, bind_of_some identified, bind_of_some steps.many]
  cases trees with
  | nil =>
    obtain rfl := alone.mp rfl
    obtain rfl := map_eq_nil_iff.mp spelled
    exact ⟨_, rfl, ⟨.inl rfl, rfl, rfl, rfl⟩⟩
  | cons tree trees =>
    refine ⟨_, rfl, ⟨.inr rfl, rfl, rfl, Tree.hasError_node_iff.mpr ⟨nofun, ?_⟩⟩⟩
    rw [singleton_append, forall_mem_cons]
    exact ⟨rfl, sound⟩

/-- What has been read as dots and segments. -/
theorem said_of_dottedNames
    (reads : repeatBounded dottedName bound ⟨tokens, last⟩ = some (trees, cursor)) :
    ∃ (taken : List Token) (rest : List String), tokens = taken ++ cursor.tokens ∧
      cursor.last = lastStop last taken ∧
      taken.map Token.said = (rest.flatMap fun segment => [(.symbol, "."), (.word, segment)]) ∧
      (∀ text ∈ rest, text ∉ reservedWords) ∧ (trees = [] → taken = []) := by
  induction bound generalizing tokens last trees with
  | nil =>
    obtain ⟨rfl, rfl⟩ := pure_eq_some.mp reads
    exact ⟨[], [], rfl, rfl, rfl, forall_mem_nil _, fun _ => rfl⟩
  | cons token bound ih =>
    rw [repeatBounded, orElse_eq_some] at reads
    rcases reads with reads | ⟨-, stopped⟩
    · obtain ⟨head, _, one, further⟩ := bind_eq_some.mp reads
      obtain ⟨others, more, rfl⟩ := bind_pure_eq_some.mp further
      obtain ⟨_, _, separator, identified⟩ := bind_eq_some.mp one
      obtain ⟨dot, behind, rfl, dotSymbol, rfl⟩ := symbol_eq_some.mp separator
      obtain ⟨name, behind, rfl, -, nameTest, rfl, rfl⟩ := leaf_eq_some.mp identified
      obtain ⟨taken, rest, rfl, stop, spelled, names, -⟩ := ih more
      obtain ⟨nameSaid, notReserved⟩ := said_of_isName nameTest
      refine ⟨dot :: name :: taken, name.text :: rest, rfl, stop, ?_, ?_, ?_⟩
      · simp [Token.isSymbol_iff.mp dotSymbol, nameSaid, spelled]
      · exact forall_mem_cons.mpr ⟨notReserved, names⟩
      · exact fun nothing => absurd nothing (cons_ne_nil _ _)
    · obtain ⟨rfl, rfl⟩ := pure_eq_some.mp stopped
      exact ⟨[], [], rfl, rfl, rfl, forall_mem_nil _, fun _ => rfl⟩

/-- What has been read as a name. -/
theorem said_of_qualifiedName (reads : qualifiedName ⟨tokens, last⟩ = some (trees, cursor)) :
    ∃ taken first rest tree, tokens = taken ++ cursor.tokens ∧
      taken.map Token.said = nameLine first rest ∧
      (∀ text ∈ first :: rest, text ∉ reservedWords) ∧ cursor.last = lastStop last taken ∧
        trees = [tree] ∧
      (tree.kind = .identifier ∨ tree.kind = .scopedIdentifier) ∧
      taken.head?.map (·.start) = some tree.start ∧ tree.stop = lastStop 0 taken := by
  obtain ⟨start, _, placed, further⟩ := bind_eq_some.mp reads
  obtain ⟨rfl, first, others, ahead, rfl⟩ := place_eq_some.mp placed
  obtain ⟨head, _, identified, further⟩ := bind_eq_some.mp further
  obtain ⟨name, others, rfl, -, nameTest, rfl, rfl⟩ := leaf_eq_some.mp identified
  obtain ⟨rfl, -⟩ := cons.inj ahead
  obtain ⟨more, middle, dotted, result⟩ := bind_eq_some.mp further
  obtain ⟨taken, rest, rfl, stop, spelled, names, alone⟩ := said_of_dottedNames dotted
  obtain ⟨nameSaid, notReserved⟩ := said_of_isName nameTest
  have said : (name :: taken).map Token.said = nameLine name.text rest := by
    simp [nameLine, nameSaid, spelled]
  have names' : ∀ text ∈ name.text :: rest, text ∉ reservedWords :=
    forall_mem_cons.mpr ⟨notReserved, names⟩
  split at result
  next empty =>
    obtain ⟨rfl, rfl⟩ := pure_eq_some.mp result
    obtain rfl := alone (List.isEmpty_iff.mp empty)
    exact ⟨[name], name.text, rest, _, rfl, said, names', stop, rfl, .inl rfl, rfl, rfl⟩
  next =>
    obtain ⟨tree, _, stamped, result⟩ := bind_eq_some.mp result
    obtain ⟨rfl, rfl⟩ := nodeFrom_eq_some.mp stamped
    obtain ⟨rfl, rfl⟩ := pure_eq_some.mp result
    exact ⟨name :: taken, name.text, rest, _, rfl, said, names', stop, rfl, .inr rfl, rfl, stop⟩

end Names

/-! ## Lines -/

/-- What the tokens of the declaration of a package say. -/
def packageLine (first : String) (rest : List String) : List (TokenKind × String) :=
  (.word, "package") :: nameLine first rest ++ [(.symbol, ";")]

/-- What the tokens between the keyword of an import and its name say. -/
def staticLine (isStatic : Bool) : List (TokenKind × String) :=
  if isStatic then [(.word, "static")] else []

/-- What the tokens after the name of an import say. -/
def wildcardLine (isWildcard : Bool) : List (TokenKind × String) :=
  if isWildcard then [(.symbol, "."), (.symbol, "*")] else []

/-- What the tokens of an import say. -/
def importLine (isStatic isWildcard : Bool) (first : String) (rest : List String) :
    List (TokenKind × String) :=
  (.word, "import") :: (staticLine isStatic ++
    (nameLine first rest ++ (wildcardLine isWildcard ++ [(.symbol, ";")])))

section Lines

variable {tokens after : List Token} {first : String} {rest : List String} {last : Nat}
  {rules : Rules}
variable {isStatic : Bool} {cursor : Cursor}

/-- A name does not go on at a semicolon. -/
theorem dottedName_semicolon (said : token.said = (.symbol, ";")) (last : Nat) :
    dottedName ⟨token :: after, last⟩ = none :=
  bind_of_none (symbol_of_ne (by simp [said]))

/-- A name does not go on at an asterisk. -/
theorem dottedName_asterisk {star} (dotSaid : dot.said = (.symbol, "."))
    (starSaid : star.said = (.symbol, "*")) (last : Nat) :
    dottedName ⟨dot :: star :: after, last⟩ = none := by
  rw [dottedName, bind_of_some (symbol_of_said dotSaid)]
  cases read : identifier ⟨star :: after, dot.stop⟩ with
  | none => rfl
  | some result =>
    obtain ⟨_, _, same, -, name, -⟩ := leaf_eq_some.mp read
    obtain ⟨rfl, -⟩ := cons.inj same
    have word := (said_of_isName name).1
    rw [starSaid] at word
    cases (Prod.mk.inj word).1

/-- No annotation starts with a word. -/
theorem annotations_word (said : token.said = (.word, text)) :
    annotations (close grammar depth) ⟨token :: after, last⟩ =
      some ([], ⟨token :: after, last⟩) := by
  refine (Steps.stop ?_).many
  cases depth with
  | zero => rfl
  | succ depth =>
    have placed : place ⟨token :: after, last⟩ = some (token.start, ⟨token :: after, last⟩) := rfl
    change annotationRule (close grammar depth) _ = none
    rw [annotationRule, bind_of_some placed, bind_of_none (symbol_of_ne (by simp [said]))]

/-- The declaration of a package is read from tokens that say it. -/
theorem exists_packageDeclaration (spelled : tokens.map Token.said = packageLine first rest)
    (names : ∀ text ∈ first :: rest, text ∉ reservedWords) :
    ∃ keyword named semicolon name, tokens = keyword :: (named ++ [semicolon]) ∧
      named.map Token.said = nameLine first rest ∧ NamePhrase named name ∧
      packageDeclaration (close grammar depth) ⟨tokens ++ after, last⟩ =
        some ([.node .packageDeclaration none keyword.start semicolon.stop [name]],
          ⟨after, semicolon.stop⟩) := by
  obtain ⟨keyword, others, rfl, keywordSaid, spelled⟩ := map_eq_cons_iff.mp spelled
  obtain ⟨named, others, rfl, nameSaid, spelled⟩ := map_eq_append_iff.mp spelled
  obtain ⟨semicolon, others, rfl, semicolonSaid, spelled⟩ := map_eq_cons_iff.mp spelled
  obtain rfl := map_eq_nil_iff.mp spelled
  obtain ⟨name, reads, phrase⟩ :=
    @exists_qualifiedName named (semicolon :: after) first rest keyword.stop
    nameSaid names (dottedName_semicolon semicolonSaid)
  refine ⟨keyword, named, semicolon, name, rfl, nameSaid, phrase, ?_⟩
  refine node_eq_some.mpr ⟨keyword, _, [name], rfl, ?_, rfl⟩
  rw [cons_append, append_assoc, singleton_append, bind_of_some (annotations_word keywordSaid),
    bind_of_some (word_of_said keywordSaid), bind_of_some reads,
      bind_of_some (symbol_of_said semicolonSaid)]
  rfl

/-- An import is not the declaration of a package. -/
theorem packageDeclaration_import
    (spelled : tokens.map Token.said = importLine isStatic isWildcard first rest) :
    packageDeclaration (close grammar depth) ⟨tokens ++ after, last⟩ = none := by
  obtain ⟨keyword, others, rfl, keywordSaid, -⟩ := map_eq_cons_iff.mp spelled
  cases read : packageDeclaration (close grammar depth) ⟨keyword :: others ++ after, last⟩ with
  | none => rfl
  | some result =>
    obtain ⟨_, _, children, -, parts, -⟩ := node_eq_some.mp read
    rw [cons_append, bind_of_some (annotations_word keywordSaid),
      bind_of_none (word_of_ne (by simp [keywordSaid]))] at parts
    cases parts

theorem tryWord_static (spelled : tokens.map Token.said = staticLine isStatic)
    (nameSaid : name.said = (.word, first)) (notReserved : first ∉ reservedWords) :
    tryWord "static" ⟨tokens ++ name :: after, last⟩ =
      some (isStatic, ⟨name :: after, lastStop last tokens⟩) := by
  cases isStatic with
  | true =>
    obtain ⟨keyword, others, rfl, keywordSaid, spelled⟩ := map_eq_cons_iff.mp spelled
    obtain rfl := map_eq_nil_iff.mp spelled
    refine orElse_of_some ?_
    rw [singleton_append, bind_of_some (word_of_said keywordSaid)]
    rfl
  | false =>
    obtain rfl := map_eq_nil_iff.mp spelled
    have other : name.said ≠ (.word, "static") := by
      rintro same
      rw [nameSaid] at same
      exact notReserved ((Prod.mk.inj same).2 ▸ by decide)
    rw [nil_append, tryWord, orElse_of_none (bind_of_none (word_of_ne other))]
    rfl

theorem exists_wildcard (spelled : tokens.map Token.said = wildcardLine isWildcard) {semicolon}
    (semicolonSaid : semicolon.said = (.symbol, ";")) :
    (∀ last, dottedName ⟨tokens ++ semicolon :: after, last⟩ = none) ∧
      ∃ trees, maybe (do symbol "."; leaf .asterisk (·.isSymbol "*"))
        ⟨tokens ++ semicolon :: after, last⟩ =
        some (trees, ⟨semicolon :: after, lastStop last tokens⟩) ∧ ∀ tree ∈ trees,
          tree.hasError = false := by
  cases isWildcard with
  | true =>
    obtain ⟨dot, others, rfl, dotSaid, spelled⟩ := map_eq_cons_iff.mp spelled
    obtain ⟨star, others, rfl, starSaid, spelled⟩ := map_eq_cons_iff.mp spelled
    obtain rfl := map_eq_nil_iff.mp spelled
    refine ⟨dottedName_asterisk dotSaid starSaid, [.node .asterisk none star.start star.stop []],
      orElse_of_some ?_, ?_⟩
    · rw [cons_append, bind_of_some (symbol_of_said dotSaid)]
      exact leaf_eq_some.mpr ⟨star, _, rfl, proper_of_said starSaid (by decide),
        Token.isSymbol_iff.mpr starSaid, rfl, rfl⟩
    · simp [Tree.hasError, Tree.holds, Tree.anyHolds, Tree.flaw?]
  | false =>
    obtain rfl := map_eq_nil_iff.mp spelled
    refine ⟨dottedName_semicolon semicolonSaid, [], ?_, forall_mem_nil _⟩
    rw [nil_append, maybe, orElse_of_none (bind_of_none (symbol_of_ne (by simp [semicolonSaid])))]
    rfl

/-- An import is read from tokens that say it. -/
theorem exists_importDeclaration
    (spelled : tokens.map Token.said = importLine isStatic isWildcard first rest)
    (names : ∀ text ∈ first :: rest, text ∉ reservedWords) :
    ∃ tree, importDeclaration ⟨tokens ++ after, last⟩ =
      some ([tree], ⟨after, lastStop last tokens⟩) ∧
      tree.kind = .importDeclaration ∧ tokens.head?.map (·.start) = some tree.start ∧
      tree.stop = lastStop 0 tokens ∧ tree.hasError = false := by
  obtain ⟨keyword, others, rfl, keywordSaid, spelled⟩ := map_eq_cons_iff.mp spelled
  obtain ⟨statics, others, rfl, staticSaid, spelled⟩ := map_eq_append_iff.mp spelled
  obtain ⟨named, others, rfl, nameSaid, spelled⟩ := map_eq_append_iff.mp spelled
  obtain ⟨wildcards, others, rfl, wildcardSaid, spelled⟩ := map_eq_append_iff.mp spelled
  obtain ⟨semicolon, others, rfl, semicolonSaid, spelled⟩ := map_eq_cons_iff.mp spelled
  obtain rfl := map_eq_nil_iff.mp spelled
  obtain ⟨stops, trees, wildcardRead, wildcardSound⟩ := @exists_wildcard isWildcard wildcards after
    (lastStop (lastStop keyword.stop statics) named) wildcardSaid semicolon semicolonSaid
  obtain ⟨name, nameRead, phrase⟩ :=
    @exists_qualifiedName named (wildcards ++ semicolon :: after) first rest
    (lastStop keyword.stop statics) nameSaid names stops
  obtain ⟨head, behind, rfl, headSaid, -⟩ := map_eq_cons_iff.mp nameSaid
  refine ⟨.node .importDeclaration none keyword.start semicolon.stop (name :: trees), ?_, rfl, rfl,
    ?_, ?_⟩
  · refine node_eq_some.mpr ⟨keyword, _, name :: trees, rfl, ?_, ?_⟩
    · simp only [cons_append, append_assoc, nil_append] at nameRead wildcardRead ⊢
      rw [bind_of_some (word_of_said keywordSaid),
        bind_of_some (tryWord_static staticSaid headSaid (names first mem_cons_self)),
          bind_of_some nameRead,
        bind_of_some wildcardRead, bind_of_some (symbol_of_said semicolonSaid)]
      simp [lastStop]
      rfl
    · simp [lastStop]
  · simp [lastStop, Tree.stop]
  · exact Tree.hasError_node_iff.mpr ⟨by decide, forall_mem_cons.mpr ⟨phrase.sound, wildcardSound⟩⟩

theorem said_of_static (reads : tryWord "static" ⟨tokens, last⟩ = some (isStatic, cursor)) :
    ∃ taken, tokens = taken ++ cursor.tokens ∧ taken.map Token.said = staticLine isStatic := by
  rcases orElse_eq_some.mp reads with read | ⟨-, missing⟩
  · obtain ⟨_, _, read, result⟩ := bind_eq_some.mp read
    obtain ⟨keyword, behind, rfl, said, rfl⟩ := word_eq_some.mp read
    obtain ⟨rfl, rfl⟩ := pure_eq_some.mp result
    exact ⟨[keyword], rfl, by simp [staticLine, Token.isWord_iff.mp said]⟩
  · obtain ⟨rfl, rfl⟩ := pure_eq_some.mp missing
    exact ⟨[], rfl, rfl⟩

theorem said_of_wildcard
    (reads : maybe (do symbol "."; leaf .asterisk (·.isSymbol "*")) ⟨tokens, last⟩ =
      some (trees, cursor)) :
    ∃ taken isWildcard, tokens = taken ++ cursor.tokens ∧
      taken.map Token.said = wildcardLine isWildcard := by
  rcases orElse_eq_some.mp reads with read | ⟨-, missing⟩
  · obtain ⟨_, _, separator, asterisk⟩ := bind_eq_some.mp read
    obtain ⟨dot, behind, rfl, dotSaid, rfl⟩ := symbol_eq_some.mp separator
    obtain ⟨star, behind, rfl, -, starSaid, -, rfl⟩ := leaf_eq_some.mp asterisk
    refine ⟨[dot, star], true, rfl, ?_⟩
    simp [wildcardLine, Token.isSymbol_iff.mp dotSaid, Token.isSymbol_iff.mp starSaid]
  · obtain ⟨-, rfl⟩ := pure_eq_some.mp missing
    exact ⟨[], false, rfl, rfl⟩

/-- What has been read as an import. -/
theorem said_of_importDeclaration
    (reads : importDeclaration ⟨tokens, last⟩ = some (trees, cursor)) :
    ∃ taken isStatic isWildcard first rest tree, tokens = taken ++ cursor.tokens ∧
      taken.map Token.said = importLine isStatic isWildcard first rest ∧
      (∀ text ∈ first :: rest, text ∉ reservedWords) ∧ trees = [tree] ∧
        tree.kind = .importDeclaration ∧
      taken.head?.map (·.start) = some tree.start ∧ tree.stop = lastStop 0 taken := by
  obtain ⟨token, others, children, ahead, parts, rfl⟩ := node_eq_some.mp reads
  obtain ⟨_, _, keywordRead, afterKeyword⟩ := bind_eq_some.mp parts
  obtain ⟨keyword, others, rfl, keywordSaid, rfl⟩ := word_eq_some.mp keywordRead
  obtain ⟨rfl, -⟩ := cons.inj ahead
  obtain ⟨isStatic, ⟨_, _⟩, staticRead, afterStatic⟩ := bind_eq_some.mp afterKeyword
  obtain ⟨statics, rfl, staticSaid⟩ := said_of_static staticRead
  obtain ⟨_, ⟨_, _⟩, nameRead, afterName⟩ := bind_eq_some.mp afterStatic
  obtain ⟨named, first, rest, name, rfl, nameSaid, names, -⟩ := said_of_qualifiedName nameRead
  obtain ⟨_, ⟨_, _⟩, wildcardRead, afterWildcard⟩ := bind_eq_some.mp afterName
  obtain ⟨wildcards, isWildcard, rfl, wildcardSaid⟩ := said_of_wildcard wildcardRead
  obtain ⟨_, _, semicolonRead, result⟩ := bind_eq_some.mp afterWildcard
  obtain ⟨semicolon, behind, rfl, semicolonSaid, rfl⟩ := symbol_eq_some.mp semicolonRead
  obtain ⟨rfl, rfl⟩ := pure_eq_some.mp result
  refine ⟨keyword :: (statics ++ (named ++ (wildcards ++ [semicolon]))), isStatic, isWildcard,
    first, rest, _, by simp, ?_, names, rfl, rfl, rfl, by simp [lastStop, Tree.stop]⟩
  simp [importLine, Token.isWord_iff.mp keywordSaid, staticSaid, nameSaid, wildcardSaid,
    Token.isSymbol_iff.mp semicolonSaid]

end Lines

end JavaSlice.Syntax
