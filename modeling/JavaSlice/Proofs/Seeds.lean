import JavaSlice.Proofs.SourceFiles
import JavaSlice.Proofs.Writing.LineTexts
import JavaSlice.Settings

/-!
# Seeds

A seed is read from exactly the texts that the grammar of seeds gives, with any blanks around them
(`Seed.ofString?_eq_some_iff`). No seed is written like another, so that reading takes writing back.
-/

namespace JavaSlice

open List

namespace Dotted

theorem mem_of_mem_intercalate {mark c : Char} {parts : List (List Char)}
    (inside : c ∈ [mark].intercalate parts) : c = mark ∨ ∃ part ∈ parts, c ∈ part := by
  induction parts with
  | nil => cases inside
  | cons part parts ih =>
    cases parts with
    | nil => exact .inr ⟨part, mem_cons_self, by simpa using inside⟩
    | cons next parts =>
      simp only [intercalate_cons_cons, mem_append, mem_singleton] at inside
      rcases inside with (inside | same) | inside
      · exact .inr ⟨part, mem_cons_self, inside⟩
      · exact .inl same
      · exact (ih inside).imp_right fun ⟨part, isPart, inside⟩ =>
          ⟨part, mem_cons_of_mem _ isPart, inside⟩

end Dotted

namespace Slice.Seed

/-! ## The grammar of seeds -/

/-- The texts that can stand for one name in a seed. -/
def IsName (text : List Char) : Prop :=
  ∃ first rest, text = first :: rest ∧ (first.isAlpha ∨ first = '_' ∨ first = '$') ∧
    ∀ c ∈ rest, Text.isWord c ∨ c = '$'

/-- Seeds that can be written: the owner is a sequence of names with dots between them, the member
is one name. -/
structure IsProper (seed : Seed) : Prop where
  owner : ∃ names, names ≠ [] ∧ (∀ name ∈ names, IsName name) ∧
    seed.owner.toList = ['.'].intercalate names
  member : IsName seed.member.toList

theorem isSegment_iff : isSegment text ↔ IsName text := by
  cases text <;> simp [isSegment, isSegmentStart, isSegmentPart, IsName, or_assoc]

/-- A name has none of the characters that structure a seed, and no blanks. -/
theorem IsName.plain (named : IsName text) :
    ∀ c ∈ text, c ≠ '#' ∧ c ≠ '.' ∧ Text.isBlank c = false := by
  have plain : ∀ c, (isSegmentStart c || isSegmentPart c) = true →
      c ≠ '#' ∧ c ≠ '.' ∧ Text.isBlank c = false := by
    intro c holds
    refine ⟨?_, ?_, @Syntax.not_isBlank c (fun c => isSegmentStart c || isSegmentPart c)
      (by decide +kernel) holds⟩
    all_goals
      rintro rfl
      exact absurd holds (by decide +kernel)
  obtain ⟨first, rest, rfl, start, parts⟩ := named
  refine forall_mem_cons.mpr ⟨plain first ?_, fun c inside => plain c ?_⟩
  · simp [isSegmentStart, or_assoc, start]
  · simp [isSegmentPart, parts c inside]

theorem toList_display (seed : Seed) :
    seed.display.toList = seed.owner.toList ++ '#' :: seed.member.toList := by
  simp [display]

section Proper

variable {seed : Seed}

theorem IsProper.owner_plain (proper : seed.IsProper) :
    ∀ c ∈ seed.owner.toList, c ≠ '#' ∧ Text.isBlank c = false := by
  obtain ⟨names, -, named, whole⟩ := proper.owner
  intro c inside
  rw [whole] at inside
  rcases Dotted.mem_of_mem_intercalate inside with rfl | ⟨name, isName, inside⟩
  · decide
  · have plain := (named name isName).plain c inside
    exact ⟨plain.1, plain.2.2⟩

/-- There are no blanks in a seed. -/
theorem IsProper.trim_display (proper : seed.IsProper) : Text.trim seed.display = seed.display := by
  have solid : ∀ c ∈ seed.display.toList, Text.isBlank c = false := by
    rw [toList_display, forall_mem_append, forall_mem_cons]
    exact ⟨fun c inside => (proper.owner_plain c inside).2, rfl,
      fun c inside => (proper.member.plain c inside).2.2⟩
  rw [Text.trim, Text.trimChars, Text.dropWhile_of_head? fun c first =>
    solid c (mem_of_mem_head? first),
    Text.trimEndChars_of_getLast? fun c last => solid c (mem_of_getLast? last),
      String.ofList_toList]

/-- Seeds are read from the texts that the grammar gives, and from no others. -/
theorem ofString?_eq_some_iff :
    ofString? text = some seed ↔ seed.IsProper ∧ Text.trim text = seed.display := by
  rw [Text.trim, ← String.toList_inj, toList_display, String.toList_ofList, ofString?]
  constructor
  · intro read
    obtain ⟨⟨owner, member⟩, cut, read⟩ := Option.bind_eq_some_iff.mp read
    simp only [Option.ite_none_right_eq_some, Bool.and_eq_true, all_eq_true, isSegment_iff,
      Option.some.injEq] at read
    obtain ⟨⟨names, isName⟩, rfl⟩ := read
    refine ⟨⟨⟨Dotted.splitAt '.' owner, by simp [Dotted.splitAt_eq], names, ?_⟩, ?_⟩, ?_⟩
    · rw [String.toList_ofList, Dotted.splitAt_eq, intercalate_splitOn]
    · rwa [String.toList_ofList]
    · rw [String.toList_ofList, String.toList_ofList, (Dotted.split_of_cut? cut).1]
  · rintro ⟨proper, trimmed⟩
    have names : ∀ name ∈ Dotted.splitAt '.' seed.owner.toList, isSegment name = true := by
      obtain ⟨names, some, named, whole⟩ := proper.owner
      rw [whole, Dotted.splitAt_eq,
        splitOn_intercalate _ (fun name isName dot => ((named name isName).plain _ dot).2.1 rfl)
          some]
      exact fun name isName => isSegment_iff.mpr (named name isName)
    rw [trimmed, Dotted.cut?_append fun hash => (proper.owner_plain _ hash).1 rfl]
    simpa [isSegment_iff.mpr proper.member] using names

end Proper

/-- The first text of the settings that is no seed is what the error carries. -/
theorem seeds_eq_error (none : ofString? text = none) (settings : Settings)
    (before after : List String) (read : ∀ other ∈ before, (ofString? other).isSome)
    (methods : settings.methods = before ++ text :: after) : settings.seeds = .error text := by
  rw [Settings.seeds, methods]
  clear methods
  induction before with
  | nil =>
    rw [nil_append, mapM_cons, none]
    rfl
  | cons other before ih =>
    rw [forall_mem_cons] at read
    obtain ⟨seed, found⟩ := Option.isSome_iff_exists.mp read.1
    rw [cons_append, mapM_cons, found, ih read.2]
    rfl

/-- Seeds are read by their grammar, each text in one way at most; what is written is read back, and
a text that is no seed stands in the error as it was given. -/
theorem read_by_grammar (text : String) :
    (∀ seed, ofString? text = some seed ↔ seed.IsProper ∧ Text.trim text = seed.display) ∧
      (∀ seed other : Seed, seed.IsProper → other.IsProper → seed.display = other.display →
        seed = other) ∧
      (∀ seed : Seed, seed.IsProper → ofString? seed.display = some seed) ∧
      (ofString? text = none → ∀ (settings : Settings) (before after : List String),
        (∀ other ∈ before, (ofString? other).isSome) → settings.methods = before ++ text :: after →
          settings.seeds = .error text) := by
  have back : ∀ seed : Seed, seed.IsProper → ofString? seed.display = some seed :=
    fun seed proper => ofString?_eq_some_iff.mpr ⟨proper, proper.trim_display⟩
  refine ⟨fun _ => ofString?_eq_some_iff, fun seed other proper proper' same => ?_, back,
    seeds_eq_error⟩
  have read := back seed proper
  rw [same, back other proper'] at read
  exact (Option.some.inj read).symm

end Slice.Seed

end JavaSlice
