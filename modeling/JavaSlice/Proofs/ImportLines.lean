import JavaSlice.Proofs.Writing.LineTexts

/-!
# Import lines

Writing an import and reading the line back gives the import, whatever it is called: `static` is a
keyword only where a blank follows it, and a name has no blanks. What a line is read as, however it
is written, can be written.
-/

namespace JavaSlice.Source.Import

open List Syntax

/-- Imports with a name that a line can carry. -/
structure IsWritable (line : Import) : Prop where
  named : line.name ≠ ""
  solid : ∀ c ∈ line.name.toList, Text.isBlank c = false
  starless : line.isWildcard = false → ¬ ['.', '*'] <:+ line.name.toList

theorem takeWildcard_eq_iff {text name isWildcard} :
    takeWildcard text = (isWildcard, name) ↔
      text = name ++ wildcardText isWildcard ∧ (isWildcard = false → ¬ ['.', '*'] <:+ name) := by
  unfold takeWildcard
  split
  next rest backwards =>
    obtain rfl : text = rest.reverse ++ ['.', '*'] := by simpa using congrArg List.reverse backwards
    cases isWildcard with
    | true => simp [wildcardText]
    | false =>
      refine iff_of_false (by simp) ?_
      rintro ⟨whole, starless⟩
      exact starless rfl ⟨rest.reverse, by simpa [wildcardText] using whole⟩
  next other =>
    have starless : ¬ ['.', '*'] <:+ text := by
      rintro ⟨front, rfl⟩
      exact other front.reverse (by simp)
    cases isWildcard with
    | true =>
      refine iff_of_false (by simp) ?_
      rintro ⟨rfl, -⟩
      exact starless (suffix_append _ _)
    | false =>
      simp only [wildcardText, Prod.mk.injEq, true_and, Bool.false_eq_true, if_false, append_nil]
      exact ⟨fun same => ⟨same, fun _ => same ▸ starless⟩, And.left⟩

/-- Without blanks there is no keyword `static`. -/
theorem takeStatic_of_solid (solid : ∀ c ∈ text, Text.isBlank c = false) :
    takeStatic text = (false, text) := by
  unfold takeStatic
  split
  next c rest found =>
    have inside : c ∈ text := by simp [Text.append_of_isPrefixOf? found]
    rw [if_neg (by simp [solid c inside])]
  next => rfl

section Lines

variable {line : Import}

/-- An import that can be written is read as it was written. -/
theorem ofString?_render (writable : line.IsWritable) (noSemicolon : ';' ∉ line.name.toList) :
    ofString? line.render = some line := by
  obtain ⟨name, isStatic, isWildcard⟩ := line
  obtain ⟨named, solid, starless⟩ := writable
  dsimp only at *
  let content := name.toList ++ wildcardText isWildcard
  let body := (if isStatic then "static ".toList else []) ++ content
  have nonempty : content ≠ [] :=
    append_ne_nil_of_left_ne_nil (fun empty => named (String.toList_eq_nil_iff.mp empty)) _
  have contentSolid : ∀ c ∈ content, Text.isBlank c = false := by
    refine forall_mem_append.mpr ⟨solid, ?_⟩
    cases isWildcard <;> simp [wildcardText, Text.isBlank]
  have split : (render ⟨name, isStatic, isWildcard⟩).toList = "import".toList ++
      ([' '] ++ (body ++ [';'])) := by
    cases isStatic <;> cases isWildcard <;> simp [render, body, content, wildcardText]
  have first : ∀ c, body.head? = some c → Text.isBlank c = false := by
    intro c found
    cases isStatic with
    | true => exact Option.some.inj found ▸ rfl
    | false => exact contentSolid c (mem_of_mem_head? found)
  have last : ∀ c, body.getLast? = some c → Text.isBlank c = false ∧ c ≠ ';' := by
    intro c found
    rw [getLast?_append_of_ne_nil _ nonempty] at found
    have inside := mem_of_getLast? found
    refine ⟨contentSolid c inside, ?_⟩
    rintro rfl
    rcases mem_append.mp inside with inside | inside
    · exact noSemicolon inside
    · cases isWildcard <;> simp [wildcardText] at inside
  have read : bodyOfLine? (render ⟨name, isStatic, isWildcard⟩).toList = some body := by
    rw [split, bodyOfLine?_of_text (by simp [Text.isBlank]) first
      (append_ne_nil_of_right_ne_nil _ nonempty)
      fun found => (last _ found).2 rfl, Text.trimEndChars_of_getLast? fun c found =>
        (last c found).1]
  have statics : ∃ rest, takeStatic body = (isStatic, rest) ∧
      rest.filter (!Text.isBlank ·) = content := by
    have kept : content.filter (!Text.isBlank ·) = content :=
      filter_eq_self.mpr fun c inside => by simp [contentSolid c inside]
    cases isStatic with
    | true => exact ⟨' ' :: content, rfl, kept⟩
    | false => exact ⟨content, takeStatic_of_solid contentSolid, kept⟩
  obtain ⟨rest, taken, kept⟩ := statics
  have starred : takeWildcard content = (isWildcard, name.toList) :=
    takeWildcard_eq_iff.mpr ⟨rfl, starless⟩
  rw [ofString?, ofChars?, read]
  simp [taken, kept, starred, named]

/-- What a text is read as can be written. -/
theorem isWritable_of_ofString? (read : ofString? text = some line) : line.IsWritable := by
  obtain ⟨body, -, read⟩ := Option.bind_eq_some_iff.mp read
  generalize taken : takeWildcard ((takeStatic body).2.filter (!Text.isBlank ·)) = pair at read
  obtain ⟨isWildcard, name⟩ := pair
  obtain ⟨whole, starless⟩ := takeWildcard_eq_iff.mp taken
  simp only [taken, Option.ite_none_left_eq_some, List.isEmpty_iff, Option.some.injEq] at read
  obtain ⟨nonempty, rfl⟩ := read
  refine ⟨by simpa using nonempty, fun c inside => ?_, by simpa using starless⟩
  have kept : c ∈ (takeStatic body).2.filter (!Text.isBlank ·) := by
    rw [whole]
    exact mem_append_left _ (by simpa using inside)
  simpa using (mem_filter.mp kept).2

end Lines

/-- Imports survive being written and read, and reading any text gives an import that does. -/
theorem lines_round_trip (line : Import) :
    (line.IsWritable → ';' ∉ line.name.toList → ofString? line.render = some line) ∧
      ∀ text, ofString? text = some line →
        line.IsWritable ∧ (';' ∉ line.name.toList → ofString? line.render = some line) :=
  ⟨ofString?_render, fun _ read =>
    ⟨isWritable_of_ofString? read, ofString?_render (isWritable_of_ofString? read)⟩⟩

/-- Two imports with names that start like keywords. -/
theorem keyword_lines_round_trip :
    ofString? "import static static;" = some ⟨"static", true, false⟩ ∧
      ofString? "import importstatic.*;" = some ⟨"importstatic", false, true⟩ :=
  ⟨(lines_round_trip ⟨"static", true, false⟩).1 ⟨by decide, by simp [Text.isBlank], by decide⟩
    (by decide),
    (lines_round_trip ⟨"importstatic", false, true⟩).1 ⟨by decide, by simp [Text.isBlank], nofun⟩
      (by decide)⟩

end JavaSlice.Source.Import
