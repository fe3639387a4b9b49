import JavaSlice.Syntax.Token

/-!
# Where lexemes end

The length of a lexeme depends on the text after it only as far as a character there could belong to
it. This module says so for each shape. A number goes on as long as characters come that numbers are
made of (`Local`); a string, a character and a comment between marks end with their own marks
(`Closed`); a word and a symbol end where a character comes that is calm (`isCalm`).
`classify_append` and `gap?_append` put the shapes together: what a text starts with does not change
if the text after it changes and something calm stands in between.
-/

namespace JavaSlice.Syntax

open List Option

namespace Shape

variable {text : List Char}
variable {isClass : Char → Bool} {c : Char} {rest b b' : List Char} {stack : List Nesting}
variable {top : Nesting}

/-! ## Lengths -/

/-- Every text of a shape has a character. -/
def Positive (shape : Shape) : Prop :=
  ∀ text n, shape text = some n → 0 < n

theorem Positive.seq_left (positive : Positive first) : Positive (seq first second) := by
  intro text n found
  simp only [seq, bind_eq_some_iff, map_eq_some_iff] at found
  obtain ⟨k, found, m, -, rfl⟩ := found
  have := positive _ _ found
  omega

theorem longest_eq_some (found : longest first second text = some n) :
    first text = some n ∨ second text = some n := by
  revert found
  fun_cases longest first second text <;> grind

theorem Positive.longest (positive : Positive first) (positive' : Positive second) :
    Positive (longest first second) :=
  fun _ _ found => (longest_eq_some found).elim (positive _ _) (positive' _ _)

theorem one_eq_some (found : one isClass text = some n) :
    n = 1 ∧ ∃ c rest, text = c :: rest ∧ isClass c := by
  revert found
  fun_cases one isClass text <;> grind

theorem exact_eq_some {word n} (found : exact word text = some n) :
    n = word.length ∧ word.toList <+: text := by
  simp only [exact] at found
  split at found
  next is_prefix => exact ⟨(some.inj found).symm, isPrefixOf_iff_prefix.mp is_prefix⟩
  next => cases found

theorem positive_exact {word} (nonempty : 0 < word.length) : Positive (exact word) :=
  fun _ _ found => (exact_eq_some found).1 ▸ nonempty

theorem groups_eq_some (found : groups isDigit many text = some n) :
    0 < n ∧ n = groupsLength isDigit many text := by
  revert found
  fun_cases groups isDigit many text <;> grind [groupsLength]

theorem positive_plainDigits : Positive plainDigits :=
  (positive_exact (by decide)).longest <|
    Positive.seq_left fun _ _ found => (one_eq_some found).1 ▸ Nat.one_pos

/-! ## Numbers -/

/-- Whether numbers may hold a character. -/
def isNumeral (c : Char) : Bool :=
  c.isAlphanum || c == '_' || c == '.' || c == '+' || c == '-'

/-- Whether a text is empty or starts with a character that no number holds. -/
def Halts (text : List Char) : Prop :=
  ∀ c rest, text = c :: rest → isNumeral c = false

theorem Halts.isClass_eq_false (halts : Halts (c :: rest))
    (numeral : ∀ c, isClass c → isNumeral c) : isClass c = false := by
  cases holds : isClass c with
  | false => rfl
  | true => exact absurd (numeral c holds) (by simp [halts c rest rfl])

/-- A shape that looks only at characters that numbers may hold. -/
structure Local (shape : Shape) : Prop where
  bounded : ∀ text n, shape text = some n → n ≤ text.length
  same : ∀ numerals after, (∀ c ∈ numerals, isNumeral c = true) → Halts after →
    shape (numerals ++ after) = shape numerals

theorem local_one (numeral : ∀ c, isClass c → isNumeral c) :
    Local (one isClass) where
  bounded text n found := by
    obtain ⟨rfl, c, rest, rfl, -⟩ := one_eq_some found
    simp
  same numerals after _ halts := by
    cases numerals with
    | cons c numerals => rfl
    | nil =>
      cases after with
      | nil => rfl
      | cons c rest => simp [one, halts.isClass_eq_false numeral]

theorem local_oneOf (numeral : cs.toList.all isNumeral) : Local (oneOf cs) :=
  local_one fun c listed => List.all_eq_true.mp numeral c (contains_iff_mem.mp listed)

namespace Local

variable {first second : Shape}

theorem seq (one : Local first) (two : Local second) : Local (seq first second) where
  bounded text n found := by
    simp only [Shape.seq, bind_eq_some_iff, map_eq_some_iff] at found
    obtain ⟨k, found, m, found', rfl⟩ := found
    have le := one.bounded _ _ found
    have le' := two.bounded _ _ found'
    rw [length_drop] at le'
    omega
  same numerals after all halts := by
    simp only [Shape.seq, one.same numerals after all halts]
    cases found : first numerals with
    | none => rfl
    | some k =>
      have le := one.bounded _ _ found
      rw [bind_some, bind_some, drop_append_of_le_length le,
        two.same _ _ (fun c mem => all c (mem_of_mem_drop mem)) halts]

theorem longest (one : Local first) (two : Local second) : Local (longest first second) where
  bounded text n found := (longest_eq_some found).elim (one.bounded _ _) (two.bounded _ _)
  same numerals after all halts := by
    simp only [Shape.longest, one.same numerals after all halts, two.same numerals after all halts]

theorem optional (one : Local first) : Local (optional first) where
  bounded text n found := by
    simp only [Shape.optional, some.injEq] at found
    cases length : first text with
    | none => simp [length] at found; omega
    | some k =>
      have := one.bounded _ _ length
      simp [length] at found
      omega
  same numerals after all halts := by
    simp only [Shape.optional, one.same numerals after all halts]

end Local

theorem isPrefix_append_iff {word numerals after} (numeral : ∀ c ∈ word, isNumeral c)
    (halts : Halts after) : word <+: numerals ++ after ↔ word <+: numerals := by
  induction numerals generalizing word with
  | nil =>
    cases word with
    | nil => simp
    | cons c word =>
      have starts : ¬c :: word <+: after := by
        rintro ⟨rest, rfl⟩
        simp [halts c (word ++ rest) rfl] at numeral
      simpa using starts
  | cons d numerals ih =>
    cases word with
    | nil => simp
    | cons c word =>
      rw [forall_mem_cons] at numeral
      rw [cons_append, cons_prefix_cons, cons_prefix_cons, ih numeral.2]

theorem local_exact {word} (numeral : word.toList.all isNumeral) : Local (exact word) where
  bounded text n found := by
    obtain ⟨rfl, starts⟩ := exact_eq_some found
    rw [← String.length_toList]
    exact starts.length_le
  same numerals after _ halts := by
    have same : word.toList.isPrefixOf (numerals ++ after) = word.toList.isPrefixOf numerals := by
      rw [Bool.eq_iff_iff, isPrefixOf_iff_prefix, isPrefixOf_iff_prefix,
        isPrefix_append_iff (List.all_eq_true.mp numeral) halts]
    simp only [exact, same]

theorem groupsLength_le (isDigit : Char → Bool) (many : Bool) (text : List Char) :
    groupsLength isDigit many text ≤ text.length := by
  fun_induction groupsLength isDigit many text <;> grind

section Groups

variable {isDigit : Char → Bool} (numeral : ∀ c, isDigit c = true → isNumeral c = true)
include numeral

theorem groupsLength_append {after} (halts : Halts after) (many : Bool) (numerals : List Char) :
    groupsLength isDigit many (numerals ++ after) = groupsLength isDigit many numerals := by
  have underscore : ∀ c, (c == '_') = true → isNumeral c = true := by
    intro c same
    rw [eq_of_beq same]
    rfl
  induction numerals with
  | nil =>
    cases after with
    | nil => rfl
    | cons c rest =>
      simp [groupsLength, halts.isClass_eq_false numeral, halts.isClass_eq_false underscore]
  | cons c numerals ih =>
    have ahead : ((numerals ++ after).head? != some '_') = (numerals.head? != some '_') := by
      cases numerals with
      | cons d numerals => rfl
      | nil =>
        cases after with
        | nil => rfl
        | cons d rest => simpa [bne] using halts.isClass_eq_false underscore
    simp only [cons_append, groupsLength, ih, ahead]

theorem local_groups (many : Bool) : Local (groups isDigit many) where
  bounded text n found := (groups_eq_some found).2 ▸ groupsLength_le ..
  same numerals after _ halts := by
    cases numerals with
    | nil =>
      cases after with
      | nil => rfl
      | cons c rest => simp [groups, halts.isClass_eq_false numeral]
    | cons c numerals =>
      rw [cons_append, groups, groups, ← cons_append, groupsLength_append numeral halts]

end Groups

theorem isNumeral_of_isDigit (c : Char) (digit : c.isDigit) : isNumeral c := by
  simp [isNumeral, Char.isAlphanum, digit]

/-- Letters and digits are given by their codes. -/
theorem isNumeral_of_code (code : 48 ≤ c.toNat ∧ c.toNat ≤ 57 ∨ 65 ≤ c.toNat ∧ c.toNat ≤ 90 ∨
    97 ≤ c.toNat ∧ c.toNat ≤ 122) : isNumeral c := by
  have alphanumeric : c.isAlphanum = true := by
    change (decide (65 ≤ c.val ∧ c.val ≤ 90) || decide (97 ≤ c.val) && decide (c.val ≤ 122) ||
      decide (48 ≤ c.val) && decide (c.val ≤ 57)) = true
    simp only [Bool.or_eq_true, Bool.and_eq_true, decide_eq_true_eq, UInt32.le_iff_toNat_le]
    change ((65 ≤ c.toNat ∧ c.toNat ≤ 90) ∨ (97 ≤ c.toNat ∧ c.toNat ≤ 122)) ∨
      (48 ≤ c.toNat ∧ c.toNat ≤ 57)
    omega
  simp [isNumeral, alphanumeric]

theorem isNumeral_of_isHexDigit (c : Char) (digit : isHexDigit c) : isNumeral c := by
  simp only [isHexDigit, Bool.or_eq_true, Bool.and_eq_true, decide_eq_true_eq] at digit
  rcases digit with (digit | ⟨least, most⟩) | ⟨least, most⟩
  · exact isNumeral_of_isDigit c digit
  · have least : 97 ≤ c.toNat := least
    have most : c.toNat ≤ 102 := most
    exact isNumeral_of_code (by omega)
  · have least : 65 ≤ c.toNat := least
    have most : c.toNat ≤ 70 := most
    exact isNumeral_of_code (by omega)

theorem isNumeral_of_octal (c : Char) (digit : '0' ≤ c && c ≤ '7') : isNumeral c := by
  simp only [Bool.and_eq_true, decide_eq_true_eq] at digit
  have least : 48 ≤ c.toNat := digit.1
  have most : c.toNat ≤ 55 := digit.2
  exact isNumeral_of_code (by omega)

theorem isNumeral_of_binary (c : Char) (digit : c == '0' || c == '1') : isNumeral c := by
  simp only [Bool.or_eq_true, beq_iff_eq] at digit
  rcases digit with rfl | rfl <;> rfl

theorem local_plainDigits : Local plainDigits :=
  have later : Local (seq (optional (exact "_")) (groups Char.isDigit true)) :=
    (local_exact (by decide)).optional.seq (local_groups isNumeral_of_isDigit true)
  (local_exact (by decide)).longest ((local_oneOf (by decide)).seq later.optional)

/-- A number is decided by the numerals that the text starts with. -/
theorem local_number : Local number := by
  have long : Local longSuffix := .optional (local_oneOf (by decide))
  have float : Local floatSuffix := local_oneOf (by decide)
  have sign : Local (optional (oneOf "+-")) := .optional (local_oneOf (by decide))
  have zero : Local (exact "0") := local_exact (by decide)
  have dot : Local (exact ".") := local_exact (by decide)
  have decimals : Local decimals := local_groups isNumeral_of_isDigit false
  have hex : Local hexDigits := local_groups isNumeral_of_isHexDigit false
  have hexMark : Local hexMark := zero.seq (local_oneOf (by decide))
  have exponent : Local exponent := (local_oneOf (by decide)).seq (sign.seq decimals)
  have integer : Local integer := (local_plainDigits.seq long).longest <|
    (hexMark.seq (hex.seq long)).longest <|
      (((zero.seq (local_oneOf (by decide))).longest zero).seq
        ((local_groups isNumeral_of_octal false).seq long)).longest
        ((zero.seq (local_oneOf (by decide))).seq
          ((local_groups isNumeral_of_binary false).seq long))
  have tail : Local (seq (optional Shape.exponent) (optional floatSuffix)) :=
    exponent.optional.seq float.optional
  have decimalFloat : Local decimalFloat :=
    (decimals.seq (dot.seq (decimals.optional.seq tail))).longest <|
    (dot.seq (decimals.seq tail)).longest <|
      (local_plainDigits.seq (exponent.seq float.optional)).longest
        (local_plainDigits.seq (exponent.optional.seq float))
  have hexFloat : Local hexFloat := hexMark.seq <|
    ((hex.seq dot.optional).longest (hex.optional.seq (dot.seq hex))).seq <|
      .optional <| (local_oneOf (by decide)).seq (sign.seq (local_plainDigits.seq float.optional))
  exact integer.longest (decimalFloat.longest hexFloat)

/-- A number has a character at least. -/
theorem positive_number : Positive number := by
  have zero : Positive (exact "0") := positive_exact (by decide)
  have dot : Positive (exact ".") := positive_exact (by decide)
  have plain : ∀ {shape}, Positive (seq plainDigits shape) := positive_plainDigits.seq_left
  have integer : Positive integer := plain.longest <| zero.seq_left.seq_left.longest <|
    (zero.seq_left.longest zero).seq_left.longest zero.seq_left.seq_left
  have decimalFloat : Positive decimalFloat :=
    Positive.seq_left (fun _ _ found => (groups_eq_some found).1) |>.longest <|
    dot.seq_left.longest <| plain.longest plain
  exact integer.longest (decimalFloat.longest zero.seq_left.seq_left)

/-- A number starts with a digit or a dot. -/
theorem number_of_not_isNumeral (halts : Halts text) : number text = none := by
  rw [← nil_append text, local_number.same [] text nofun halts]
  rfl

/-! ## Strings, characters and comments -/

/-- The least number of characters that close one thing that is open. -/
def Nesting.cost : Nesting → Nat
  | .quoted | .code => 1
  | .block => 3

/-- The least number of characters that close everything that is open. -/
def stackCost : List Nesting → Nat
  | [] => 0
  | top :: stack => top.cost + stackCost stack

theorem cost_le (found : stringRest stack text = some n) : stackCost stack ≤ n := by
  fun_induction stringRest stack text generalizing n <;>
    grind [stackCost, Nesting.cost, map_eq_some_iff]

/-- The front of a text lies inside a part that is long enough. -/
theorem exists_of_append_eq (front : List Char) (text : a ++ b = front ++ rest)
    (le : front.length ≤ a.length) : ∃ a', a = front ++ a' ∧ rest = a' ++ b := by
  rw [append_eq_append_iff] at text
  rcases text with ⟨middle, rfl, rfl⟩ | ⟨middle, rfl, rfl⟩
  · rw [length_append] at le
    obtain rfl := length_eq_zero_iff.mp (show middle.length = 0 by omega)
    exact ⟨[], by simp, rfl⟩
  · exact ⟨middle, rfl, rfl⟩

/-- Characters that a text begins with, it begins with whatever comes after it. -/
theorem ahead_of_append (front : List Char) (same : a ++ b' = front ++ rest)
    (le : front.length ≤ a.length) : ∃ rest, a ++ b = front ++ rest := by
  obtain ⟨a, rfl, -⟩ := exists_of_append_eq front same le
  exact ⟨a ++ b, append_assoc ..⟩

/-- A lexeme that starts with some characters and ends inside a text goes on in the rest of the
text. -/
theorem exists_of_step (front : List Char) (found : further.map (· + front.length) = some n)
    (text : a ++ b = front ++ rest) (le : n ≤ a.length) :
    ∃ m a', n = m + front.length ∧ a = front ++ a' ∧ rest = a' ++ b ∧ further = some m ∧
      m ≤ a'.length := by
  obtain ⟨m, goesOn, rfl⟩ := map_eq_some_iff.mp found
  obtain ⟨a, rfl, rfl⟩ := exists_of_append_eq front text (by omega)
  rw [length_append] at le
  exact ⟨m, a, rfl, rfl, rfl, goesOn, by omega⟩

/-- Where an expression is open inside a string, the string is closed after it. -/
theorem two_le_of_code (grounded : (Nesting.code :: stack).getLast? ≠ some .code)
    (found : stringRest (.code :: stack) text = some n) : 2 ≤ n := by
  have cost := cost_le found
  cases stack with
  | nil => simp at grounded
  | cons top stack => cases top <;> simp [stackCost, Nesting.cost] at cost <;> omega

/-- In an expression a backslash is passed alone. -/
theorem three_le_of_backslash (grounded : (Nesting.code :: stack).getLast? ≠ some .code)
    (found : stringRest (.code :: stack) ('\\' :: text) = some n) : 3 ≤ n := by
  rw [stringRest, map_eq_some_iff] at found
  · obtain ⟨k, goesOn, rfl⟩ := found
    have two := two_le_of_code grounded goesOn
    omega
  all_goals simp

/-- What is open in a text of a string takes one character to close, and a text block takes
three. -/
theorem one_le_of_text (nonempty : stack ≠ []) (notCode : ∀ below, stack ≠ .code :: below)
    (found : stringRest stack text = some n) : 1 ≤ n ∧ ∀ below, stack = .block :: below →
      3 ≤ n := by
  have cost := cost_le found
  rcases stack with _ | ⟨_ | _ | _, below⟩
  · exact absurd rfl nonempty
  · simp only [stackCost, Nesting.cost] at cost
    exact ⟨by omega, by simp⟩
  · simp only [stackCost, Nesting.cost] at cost
    exact ⟨by omega, fun _ _ => by omega⟩
  · exact absurd rfl (notCode below)

theorem getLast?_ne_of_cons (grounded : (top :: stack).getLast? ≠ some .code) :
    stack.getLast? ≠ some .code := by
  cases stack with
  | nil => simp
  | cons below stack => rwa [getLast?_cons_cons] at grounded

theorem getLast?_cons_ne (nonempty : stack ≠ []) (grounded : stack.getLast? ≠ some .code) :
    (top :: stack).getLast? ≠ some .code := by
  obtain ⟨below, stack, rfl⟩ := exists_cons_of_ne_nil nonempty
  rwa [getLast?_cons_cons]

/-- A string that ends inside a text ends there whatever comes after the text. -/
theorem stringRest_append (grounded : stack.getLast? ≠ some .code)
    (found : stringRest stack (a ++ b) = some n) (le : n ≤ a.length) :
    stringRest stack (a ++ b') = some n := by
  generalize text : a ++ b = t at found
  fun_induction stringRest stack t generalizing a n with
  | case1 => rwa [stringRest]
  | case14 => cases found
  | case2 stack rest ih | case4 stack rest ih =>
    obtain ⟨m, a, rfl, rfl, rfl, found, le⟩ := exists_of_step [_] found text le
    simp [stringRest, ih (getLast?_ne_of_cons grounded) le rfl found]
  | case3 stack rest ih =>
    obtain ⟨m, a, rfl, rfl, rfl, found, le⟩ := exists_of_step [_, _, _] found text le
    simp [stringRest, ih (getLast?_ne_of_cons grounded) le rfl found]
  | case5 stack rest ih =>
    obtain ⟨m, a, rfl, rfl, rfl, found, le⟩ := exists_of_step [_] found text le
    simp [stringRest, ih (getLast?_cons_ne (cons_ne_nil _ _) grounded) le rfl found]
  | case6 stack rest ih =>
    obtain ⟨m, a, rfl, rfl, rfl, found, le⟩ := exists_of_step [_, _, _] found text le
    simp [stringRest, ih (getLast?_cons_ne (cons_ne_nil _ _) grounded) le rfl found]
  | case7 stack rest other ih =>
    obtain ⟨m, a, rfl, rfl, rfl, found, le⟩ := exists_of_step [_] found text le
    have further := ih (getLast?_cons_ne (cons_ne_nil _ _) grounded) le rfl found
    have cost := cost_le found
    simp only [stackCost, Nesting.cost] at cost
    simp only [cons_append, nil_append]
    rw [stringRest, further]
    · rfl
    · -- the string inside is closed later, so that the two characters ahead belong to it
      intro rest same
      obtain ⟨rest, ahead⟩ := ahead_of_append ['"', '"'] same (show 2 ≤ a.length by omega)
      exact other rest ahead
  | case8 stack c rest ih =>
    obtain ⟨m, a, rfl, rfl, rfl, found, le⟩ := exists_of_step [_, _, _, _] found text le
    simp [stringRest, ih grounded le rfl found]
  | case9 stack c rest other ih =>
    obtain ⟨m, a, rfl, rfl, rfl, found, le⟩ := exists_of_step [_, _, _] found text le
    have two := two_le_of_code grounded found
    simp only [cons_append, nil_append]
    rw [stringRest, ih grounded le rfl found]
    · rfl
    · intro rest backslash same
      obtain ⟨rest, ahead⟩ := ahead_of_append ['\''] same (show 1 ≤ a.length by omega)
      exact other rest backslash ahead
  | case10 stack c rest notClose notOpen _ notQuote notEscape notChar ih =>
    obtain ⟨m, a, rfl, rfl, rfl, found, le⟩ := exists_of_step [_] found text le
    have two := two_le_of_code grounded found
    simp only [cons_append, nil_append]
    rw [stringRest, ih grounded le rfl found]
    · rfl
    · exact notClose
    · exact notOpen
    · exact fun _ quote _ => notQuote quote
    · exact notQuote
    · intro head rest quote same
      obtain ⟨_, first⟩ := ahead_of_append ['\\'] same (show 1 ≤ a.length by omega)
      have three := three_le_of_backslash grounded (first ▸ found)
      obtain ⟨rest, ahead⟩ := ahead_of_append ['\\', head, '\''] same (show 3 ≤ a.length by omega)
      exact notEscape head rest quote ahead
    · intro head rest quote same
      obtain ⟨rest, ahead⟩ := ahead_of_append [head, '\''] same (show 2 ≤ a.length by omega)
      exact notChar head rest quote ahead
  | case11 stack rest nonempty other ih =>
    obtain ⟨m, a, rfl, rfl, rfl, found, le⟩ := exists_of_step [_, _] found text le
    simp only [cons_append, nil_append]
    rw [stringRest, ih (getLast?_cons_ne nonempty grounded) le rfl found]
    · rfl
    · exact nonempty
    · exact other
  | case12 stack c rest nonempty other notOpen ih =>
    obtain ⟨m, a, rfl, rfl, rfl, found, le⟩ := exists_of_step [_, _] found text le
    simp only [cons_append, nil_append]
    rw [stringRest, ih grounded le rfl found]
    · rfl
    · exact notOpen
    · exact nonempty
    · exact other
  | case13 stack c rest nonempty notQuote notBlock _ _ _ _ _ _ notCode _ notEscape ih =>
    obtain ⟨m, a, rfl, rfl, rfl, found, le⟩ := exists_of_step [_] found text le
    obtain ⟨one, three⟩ := one_le_of_text nonempty notCode found
    have escape : ∀ head rest, c = '\\' → a ++ b' = head :: rest → False := by
      intro head rest same next
      obtain ⟨rest, ahead⟩ := ahead_of_append [head] next (Nat.le_trans one le)
      exact notEscape head rest same ahead
    simp only [cons_append, nil_append]
    rw [stringRest, ih grounded le rfl found]
    · rfl
    · exact fun rest same => escape _ rest same
    · exact escape
    · exact nonempty
    · exact notQuote
    · intro below rest block quote same
      have three := three below block
      obtain ⟨rest, ahead⟩ := ahead_of_append ['"', '"'] same (show 2 ≤ a.length by omega)
      exact notBlock below rest block quote ahead
    all_goals
      intro rest'
      intros
      exact notCode rest' ‹_›

/-- A string inside a text is one with anything after the text, a quote apart. -/
theorem string_append (found : string (a ++ b) = some n) (le : n ≤ a.length)
    (other : b'.head? ≠ some '"') : string (a ++ b') = some n := by
  generalize text : a ++ b = t at found
  revert found
  fun_cases string t with
  | case1 rest =>
    intro found
    obtain ⟨m, a, rfl, rfl, rfl, found, le⟩ := exists_of_step [_, _, _] found text le
    simp [string, stringRest_append (by simp) found le]
  | case2 rest single =>
    intro found
    obtain ⟨m, a, rfl, rfl, rfl, found, le⟩ := exists_of_step [_] found text le
    have cost := cost_le found
    simp only [stackCost, Nesting.cost] at cost
    simp only [cons_append, nil_append]
    rw [string, stringRest_append (by simp) found le]
    · rfl
    · intro rest same
      match a with
      | [] => simp at le; omega
      | [d] =>
        simp only [cons_append, nil_append, cons.injEq] at same
        simp [same.2] at other
      | d :: e :: a =>
        simp only [cons_append, cons.injEq] at same
        obtain ⟨rfl, rfl, -⟩ := same
        exact single _ rfl
  | case3 => simp

theorem stringRest_le (found : stringRest stack text = some n) : n ≤ text.length := by
  fun_induction stringRest stack text generalizing n <;> grind [map_eq_some_iff]

theorem characterRest_bounds (found : characterRest text = some n) : 0 < n ∧ n ≤ text.length := by
  fun_induction characterRest text generalizing n <;> grind [map_eq_some_iff]

theorem commentRest_bounds (found : commentRest text = some n) : 0 < n ∧ n ≤ text.length := by
  fun_induction commentRest text generalizing n <;> grind [map_eq_some_iff]

/-- A character literal inside a text does not depend on what follows. -/
theorem characterRest_append (found : characterRest (a ++ b) = some n) (le : n ≤ a.length) :
    characterRest (a ++ b') = some n := by
  generalize text : a ++ b = t at found
  fun_induction characterRest t generalizing a n with
  | case1 rest =>
    obtain rfl := some.inj found
    obtain ⟨a, rfl, rfl⟩ := exists_of_append_eq [_] text le
    rfl
  | case2 => cases found
  | case3 c rest ih =>
    obtain ⟨m, a, rfl, rfl, rfl, found, le⟩ := exists_of_step [_, _] found text le
    simp [characterRest, ih le rfl found]
  | case4 c rest notQuote notBreak notEscape ih =>
    obtain ⟨m, a, rfl, rfl, rfl, found, le⟩ := exists_of_step [_] found text le
    simp only [cons_append, nil_append]
    rw [characterRest, ih le rfl found]
    · rfl
    · exact notQuote
    · exact notBreak
    · intro head rest same next
      obtain ⟨rest, ahead⟩ :=
        ahead_of_append [head] next (Nat.le_trans (characterRest_bounds found).1 le)
      exact notEscape head rest same ahead
  | case5 => cases found

theorem character_append (found : character (a ++ b) = some n) (le : n ≤ a.length) :
    character (a ++ b') = some n := by
  generalize text : a ++ b = t at found
  revert found
  fun_cases character t with
  | case2 rest nonempty =>
    intro found
    obtain ⟨m, a, rfl, rfl, rfl, found, le⟩ := exists_of_step [_] found text le
    have bounds := characterRest_bounds found
    simp only [cons_append, nil_append]
    rw [character, characterRest_append found le]
    · rfl
    · intro rest same
      obtain ⟨rest, ahead⟩ := ahead_of_append [_] same (Nat.le_trans bounds.1 le)
      exact nonempty rest ahead
  | case1 | case3 => simp

/-- A comment that ends inside a text does not depend on what follows. -/
theorem commentRest_append (found : commentRest (a ++ b) = some n) (le : n ≤ a.length) :
    commentRest (a ++ b') = some n := by
  generalize text : a ++ b = t at found
  fun_induction commentRest t generalizing a n with
  | case1 rest =>
    obtain rfl := some.inj found
    obtain ⟨a, rfl, rfl⟩ := exists_of_append_eq [_, _] text le
    rfl
  | case2 c rest notEnd ih =>
    obtain ⟨m, a, rfl, rfl, rfl, found, le⟩ := exists_of_step [_] found text le
    have bounds := commentRest_bounds found
    simp only [cons_append, nil_append]
    rw [commentRest, ih le rfl found]
    · rfl
    · intro rest star same
      obtain ⟨rest, ahead⟩ := ahead_of_append [_] same (Nat.le_trans bounds.1 le)
      exact notEnd rest star ahead
  | case3 => cases found

theorem runLength_le (isClass : Char → Bool) (text : List Char) :
    runLength isClass text ≤ text.length := by
  fun_induction runLength isClass text <;> grind

/-- A run that ends inside a text, or at its end and before a character of another class, ends
there. -/
theorem runLength_append (le : runLength isClass (a ++ b) ≤ a.length)
    (ends : runLength isClass (a ++ b) = a.length → ∀ c rest, b' = c :: rest → isClass c = false) :
    runLength isClass (a ++ b') = runLength isClass (a ++ b) := by
  induction a with
  | nil =>
    have none : runLength isClass b = 0 := by simpa using le
    rw [nil_append, nil_append, none]
    cases b' with
    | nil => rfl
    | cons c rest => simp [runLength, ends (by simpa using none) c rest rfl]
  | cons c a ih =>
    simp only [cons_append, runLength] at le ends ⊢
    cases holds : isClass c with
    | false => rfl
    | true =>
      simp only [holds, if_true, length_cons, Nat.add_right_cancel_iff, Nat.add_le_add_iff_right]
        at le ends ⊢
      exact ih le ends

/-! ## What lexemes end at -/

/-- Whether a character ends every word, number and symbol before it. -/
def isCalm (c : Char) : Bool :=
  isSpace c || c == '/' || c == ',' || c == ';'

/-- The calm characters. -/
def calmCharacters : List Char :=
  [' ', '\t', '\n', '\x0b', '\x0c', '\r', '/', ',', ';']

theorem mem_of_isCalm (calm : isCalm c) : c ∈ calmCharacters := by
  simp only [isCalm, isSpace, Bool.or_eq_true, Bool.and_eq_true, beq_iff_eq, decide_eq_true_eq]
    at calm
  rcases calm with (((rfl | ⟨least, most⟩) | rfl) | rfl) | rfl
  · decide
  · have code : c.toNat = 9 ∨ c.toNat = 10 ∨ c.toNat = 11 ∨ c.toNat = 12 ∨ c.toNat = 13 := by omega
    have same : c = Char.ofNat c.toNat := (Char.ofNat_toNat c).symm
    rcases code with code | code | code | code | code <;> rw [same, code] <;> decide
  all_goals decide

theorem isNumeral_of_isCalm (calm : isCalm c) : isNumeral c = false := by
  have each : calmCharacters.all (!isNumeral ·) = true := by decide
  simpa using List.all_eq_true.mp each c (mem_of_isCalm calm)

theorem isIdentifierPart_of_isCalm (calm : isCalm c) : Text.isIdentifierPart c = false := by
  have each : calmCharacters.all (!Text.isIdentifierPart ·) = true := by decide +kernel
  simpa using List.all_eq_true.mp each c (mem_of_isCalm calm)

/-- No symbol goes on with a calm character. -/
theorem isCalm_of_mem_symbols : ∀ symbol ∈ symbols, ∀ c ∈ symbol.toList.tail, isCalm c = false := by
  have each : symbols.all (fun symbol => symbol.toList.tail.all (!isCalm ·)) = true := by
    decide +kernel
  simpa using each

/-- A text `y` may stand where `z` stood: it starts with a calm character, and where a comment
starts, one may have started before. -/
def Separates (z y : List Char) : Prop :=
  ∃ c rest, y = c :: rest ∧ isCalm c = true ∧ (c = '/' → z.head? = some '/')

/-- What stands after a text cannot make a number longer that the text ends with. -/
def Settled (text z : List Char) : Prop :=
  Halts z ∨ ∃ c, text.getLast? = some c ∧ isNumeral c = false

/-- A separating text stops a number. -/
theorem Separates.halts (separates : Separates z y) : Halts y := by
  obtain ⟨c, rest, rfl, calm, -⟩ := separates
  rintro d rest' same
  obtain ⟨rfl, -⟩ := cons.inj same
  exact isNumeral_of_isCalm calm

theorem Separates.head?_ne_quote (separates : Separates z y) : y.head? ≠ some '"' := by
  obtain ⟨c, rest, rfl, calm, -⟩ := separates
  rintro same
  obtain rfl := some.inj same
  cases calm

theorem Settled.drop (settled : Settled text z) (lt : n < text.length) :
    Settled (text.drop n) z := by
  rcases settled with halts | ⟨c, last, other⟩
  · exact .inl halts
  · refine .inr ⟨c, ?_, other⟩
    rw [getLast?_drop, if_neg (by omega), last]

variable {a z y : List Char} {n : Nat}

/-- A number inside a text does not depend on what follows, as long as it halts there. -/
theorem number_append (settled : Settled a z) (halts : Halts y) :
    number (a ++ y) = number (a ++ z) := by
  have numerals : ∀ c ∈ a.takeWhile isNumeral, isNumeral c = true :=
    List.all_eq_true.mp all_takeWhile
  have split := takeWhile_append_dropWhile (p := isNumeral) (l := a)
  have stops := head?_dropWhile_not isNumeral a
  cases remains : a.dropWhile isNumeral with
  | nil =>
    rw [remains, append_nil] at split
    rw [split] at numerals
    have halts' : Halts z := by
      rcases settled with halts | ⟨c, last, other⟩
      · exact halts
      · have := numerals c (mem_of_getLast? last)
        simp [other] at this
    rw [local_number.same _ _ numerals halts, local_number.same _ _ numerals halts']
  | cons c rest =>
    simp only [remains, head?_cons] at stops
    have halts : ∀ text, Halts (c :: rest ++ text) := by
      rintro text d rest' same
      obtain ⟨rfl, -⟩ := cons.inj same
      exact stops
    rw [remains] at split
    rw [← split, append_assoc, append_assoc, local_number.same _ _ numerals (halts y),
      local_number.same _ _ numerals (halts z)]

/-- A word inside a text does not depend on what follows, as long as it ends there. -/
theorem word_append (nonempty : a ≠ []) (le : ∀ n, word (a ++ z) = some n → n ≤ a.length)
    (separates : Separates z y) : word (a ++ y) = word (a ++ z) := by
  obtain ⟨c, a, rfl⟩ := exists_cons_of_ne_nil nonempty
  obtain ⟨d, rest, rfl, calm, -⟩ := separates
  simp only [cons_append, word] at le ⊢
  split
  next starts =>
    have le := le _ (if_pos starts)
    rw [runLength_append (by simpa using le)]
    rintro - e rest' same
    obtain ⟨rfl, -⟩ := cons.inj same
    exact isIdentifierPart_of_isCalm calm
  next => rfl

theorem exact_eq_none_iff {word} : exact word text = none ↔ ¬word.toList <+: text := by
  simp [exact]

theorem exact_of_isPrefix {word} (starts : word.toList <+: text) :
    exact word text = some word.length :=
  if_pos <| isPrefixOf_iff_prefix.mpr starts

/-- A symbol that a text with something calm after it starts with lies inside the text. -/
theorem isPrefix_of_mem_symbols {text} (listed : text ∈ symbols) (nonempty : a ≠ [])
    (calm : isCalm c) (starts : text.toList <+: a ++ c :: rest) : text.toList <+: a := by
  obtain ⟨more, same⟩ := starts
  rcases append_eq_append_iff.mp same with ⟨middle, inside, -⟩ | ⟨middle, long, calmFirst⟩
  · exact ⟨middle, inside.symm⟩
  · cases middle with
    | nil => exact ⟨[], by rw [long, append_nil, append_nil]⟩
    | cons d middle =>
      obtain ⟨e, a, rfl⟩ := exists_cons_of_ne_nil nonempty
      obtain ⟨rfl, -⟩ := cons.inj calmFirst
      have inner : c ∈ text.toList.tail := by simp [long]
      rw [isCalm_of_mem_symbols text listed c inner] at calm
      cases calm

theorem findSome?_exact_append {texts : List String} (listed : ∀ text ∈ texts, text ∈ symbols)
    (nonempty : a ≠ []) (found : texts.findSome? (exact · (a ++ z)) = some n) (le : n ≤ a.length)
    (calm : isCalm c) : texts.findSome? (exact · (a ++ c :: rest)) = some n := by
  induction texts with
  | nil => cases found
  | cons text texts ih =>
    rw [forall_mem_cons] at listed
    rw [findSome?_cons] at found ⊢
    cases fits : exact text (a ++ z) with
    | some k =>
      obtain rfl : k = n := by simpa [fits] using found
      obtain ⟨rfl, starts⟩ := exact_eq_some fits
      have inside : text.toList <+: a :=
        prefix_of_prefix_length_le starts (prefix_append a z) (by rwa [String.length_toList])
      rw [exact_of_isPrefix (inside.trans (prefix_append a _))]
    | none =>
      rw [fits] at found
      have misfits : exact text (a ++ c :: rest) = none := by
        rw [exact_eq_none_iff] at fits ⊢
        exact fun starts => fits
          ((isPrefix_of_mem_symbols listed.1 nonempty calm starts).trans (prefix_append a z))
      rw [misfits]
      exact ih listed.2 found

/-- The first symbol that fits is the same, because those before it do not fit inside the text. -/
theorem symbol_append (nonempty : a ≠ []) (found : symbol (a ++ z) = some n) (le : n ≤ a.length)
    (separates : Separates z y) : symbol (a ++ y) = some n := by
  obtain ⟨c, rest, rfl, calm, -⟩ := separates
  exact findSome?_exact_append (fun _ => id) nonempty found le calm

theorem symbol_eq_some (found : symbol text = some n) :
    ∃ listed ∈ symbols, n = listed.length ∧ listed.toList <+: text := by
  obtain ⟨listed, mem, fits⟩ := exists_of_findSome?_eq_some found
  exact ⟨listed, mem, exact_eq_some fits⟩

theorem symbol_quote (quote : c = '"' ∨ c = '\'') (rest : List Char) :
    symbol (c :: rest) = none := by
  rcases quote with rfl | rfl <;> rfl

theorem string_of_ne (other : c ≠ '"') (rest : List Char) : string (c :: rest) = none := by
  unfold string
  split <;> simp_all

theorem character_of_ne (other : c ≠ '\'') (rest : List Char) : character (c :: rest) = none := by
  unfold character
  split <;> simp_all

theorem ne_of_character_eq_some (found : character (c :: rest) = some n) : c ≠ '"' := by
  rintro rfl
  cases found

theorem comment_append (found : comment (a ++ z) = some n) (lt : n < a.length) :
    comment (a ++ y) = some n := by
  generalize text : a ++ z = t at found
  revert found
  fun_cases comment t with
  | case1 rest =>
    intro found
    obtain rfl := some.inj found
    obtain ⟨a, rfl, rfl⟩ := exists_of_append_eq [_, _] text (by simp; omega)
    simp only [length_append, length_cons, length_nil] at lt
    simp only [cons_append, nil_append, comment]
    rw [runLength_append (b := z) (by omega) (fun _ => by omega)]
  | case2 rest =>
    intro found
    obtain ⟨m, a, rfl, rfl, rfl, found, le⟩ := exists_of_step [_, _] found text (Nat.le_of_lt lt)
    simp [comment, commentRest_append found le]
  | case3 => simp

theorem word_bounds (found : word text = some n) : 0 < n ∧ n ≤ text.length := by
  revert found
  fun_cases word text <;> grind [runLength_le]

theorem string_bounds (found : string text = some n) : 0 < n ∧ n ≤ text.length := by
  revert found
  fun_cases string text <;> grind [map_eq_some_iff, → stringRest_le]

theorem character_bounds (found : character text = some n) : 0 < n ∧ n ≤ text.length := by
  revert found
  fun_cases character text <;> grind [map_eq_some_iff, → characterRest_bounds]

theorem symbol_bounds (found : symbol text = some n) : 0 < n ∧ n ≤ text.length := by
  have nonempty : ∀ listed ∈ symbols, 0 < listed.length := by decide
  obtain ⟨listed, mem, rfl, starts⟩ := symbol_eq_some found
  refine ⟨nonempty listed mem, ?_⟩
  rw [← String.length_toList]
  exact starts.length_le

theorem comment_bounds (found : comment text = some n) : 0 < n ∧ n ≤ text.length := by
  revert found
  fun_cases comment text <;> grind [map_eq_some_iff, runLength_le, → commentRest_bounds]

end Shape

namespace Token

open Shape

/-- The kinds of lexemes in the order in which they are tried. -/
theorem classify_eq (text : List Char) :
    classify text = (((word text).map (TokenKind.word, ·)).or <|
      ((number text).map (TokenKind.number, ·)).or <|
      ((string text).map (TokenKind.string, ·)).or <|
        ((character text).map (TokenKind.character, ·)).or <|
        (symbol text).map (TokenKind.symbol, ·)).getD (.unknown, 1) := by
  unfold classify shapes
  simp only [findSome?_cons, findSome?_nil]
  cases word text <;> cases number text <;> cases string text <;> cases character text <;>
    cases symbol text <;> rfl

/-- What a text starts with is what the first shape that fits says. -/
theorem classify_cases (text : List Char) :
    (∃ n, word text = some n ∧ classify text = (.word, n)) ∨
    word text = none ∧ ((∃ n, number text = some n ∧ classify text = (.number, n)) ∨
    number text = none ∧ ((∃ n, string text = some n ∧ classify text = (.string, n)) ∨
    string text = none ∧ ((∃ n, character text = some n ∧ classify text = (.character, n)) ∨
    character text = none ∧ ((∃ n, symbol text = some n ∧ classify text = (.symbol, n)) ∨
    symbol text = none ∧ classify text = (.unknown, 1))))) := by
  rw [classify_eq]
  cases word text <;> cases number text <;> cases string text <;> cases character text <;>
    cases symbol text <;> simp

theorem word_of_classify {text n} (classified : classify text = (.word, n)) :
    word text = some n := by
  grind [classify_cases text]

theorem symbol_of_classify {text n} (classified : classify text = (.symbol, n)) :
    symbol text = some n := by
  grind [classify_cases text]

/-- A token has at least one character and lies inside the text. -/
theorem classify_bounds {text} (nonempty : text ≠ []) :
    0 < (classify text).2 ∧ (classify text).2 ≤ text.length := by
  obtain ⟨c, rest, rfl⟩ := exists_cons_of_ne_nil nonempty
  rcases classify_cases (c :: rest)
    with ⟨n, found, same⟩ | ⟨-, ⟨n, found, same⟩ | ⟨-, ⟨n, found, same⟩ |
    ⟨-, ⟨n, found, same⟩ | ⟨-, ⟨n, found, same⟩ | ⟨-, same⟩⟩⟩⟩⟩ <;> rw [same]
  · exact word_bounds found
  · exact ⟨positive_number _ _ found, local_number.bounded _ _ found⟩
  · exact string_bounds found
  · exact character_bounds found
  · exact symbol_bounds found
  · simp

/-- Inside a text tokens are the same, whatever stands after it. -/
theorem classify_append (nonempty : a ≠ []) (known : (classify (a ++ z)).1 ≠ .unknown)
    (le : (classify (a ++ z)).2 ≤ a.length) (settled : Settled a z) (separates : Separates z y) :
    classify (a ++ y) = classify (a ++ z) := by
  have numbers := number_append settled separates.halts
  rcases classify_cases (a ++ z) with ⟨n, found, same⟩ | ⟨noWord, rest⟩
  · rw [same] at le ⊢
    have words := word_append nonempty (fun m found' => by simp_all) separates
    rw [classify_eq, words, found]
    rfl
  · have words := word_append nonempty (by simp [noWord]) separates
    rw [noWord] at words
    obtain ⟨c, a, rfl⟩ := exists_cons_of_ne_nil nonempty
    rcases rest with ⟨n, found, same⟩ | ⟨noNumber, ⟨n, found, same⟩ | ⟨noString, ⟨n, found, same⟩ |
      ⟨noCharacter, ⟨n, found, same⟩ | ⟨-, same⟩⟩⟩⟩
    all_goals rw [same] at le known ⊢
    · rw [classify_eq, words, numbers, found]
      rfl
    · rw [classify_eq, words, numbers, noNumber, string_append found le separates.head?_ne_quote]
      rfl
    · have strings := string_of_ne (ne_of_character_eq_some found) (a ++ y)
      rw [classify_eq, words, numbers, noNumber, cons_append, strings, ← cons_append,
        character_append found le]
      rfl
    · have notQuote : ¬(c = '"' ∨ c = '\'') := by
        intro quote
        rw [cons_append, symbol_quote quote] at found
        cases found
      rw [not_or] at notQuote
      have strings := string_of_ne notQuote.1 (a ++ y)
      have characters := character_of_ne notQuote.2 (a ++ y)
      rw [classify_eq, words, numbers, noNumber, cons_append, strings, characters, ← cons_append,
        symbol_append nonempty found le separates]
      rfl
    · exact absurd rfl known

theorem gap?_bounds {text n} (found : gap? text = some n) : 0 < n ∧ n ≤ text.length := by
  revert found
  fun_cases gap? text <;> grind [→ comment_bounds]

/-- A gap that ends inside a text is the same, whatever stands after it. -/
theorem gap?_append (found : gap? (a ++ z) = some n) (lt : n < a.length) :
    gap? (a ++ y) = some n := by
  cases a with
  | nil => cases lt
  | cons c a =>
    simp only [cons_append, gap?] at found ⊢
    split at found
    next space => rw [if_pos space, found]
    next noSpace =>
      rw [if_neg noSpace]
      exact comment_append found lt

/-- Where no comment starts that is not closed, what is no gap stays no gap. -/
theorem gap?_append_of_none (nonempty : a ≠ []) (none : gap? (a ++ z) = none)
    (closed : ¬ ['/', '*'] <+: a ++ z) (separates : Separates z y) : gap? (a ++ y) = .none := by
  obtain ⟨c, a, rfl⟩ := exists_cons_of_ne_nil nonempty
  obtain ⟨e, rest, rfl, calm, slash⟩ := separates
  simp only [cons_append, gap?] at none closed ⊢
  split at none
  next => cases none
  next noSpace =>
    rw [if_neg noSpace]
    -- Only a slash could start a comment, and the character after it says which one.
    rw [comment]
    · rintro rest' same
      obtain ⟨rfl, second⟩ := cons.inj same
      cases a with
      | nil =>
        obtain ⟨rfl, -⟩ := cons.inj second
        cases z with
        | nil => cases slash rfl
        | cons d z =>
          obtain rfl := some.inj (slash rfl)
          cases none
      | cons d a =>
        obtain ⟨rfl, -⟩ := cons.inj second
        cases none
    · rintro rest' same
      obtain ⟨rfl, second⟩ := cons.inj same
      cases a with
      | nil =>
        obtain ⟨rfl, -⟩ := cons.inj second
        cases calm
      | cons d a =>
        obtain ⟨rfl, -⟩ := cons.inj second
        exact closed ⟨a ++ z, rfl⟩

end Token

end JavaSlice.Syntax
