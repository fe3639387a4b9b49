import JavaSlice.Proofs.Copies
import JavaSlice.Proofs.Enclosing

/-!
# What dotted names lead to

A dotted name in a file is looked up by its first segment, and the others are followed through types
whose names continue one another. Where such a type is a member of the one before it
(`Index.NamesNested`), the types on the way enclose the type at the end. A single import gives a
name a declaration of the type that the line refers to: a field of it, or the type itself and
members of it (`Index.target_of_single`).
-/

namespace JavaSlice

open List Option

/-! ## Segments -/

namespace Dotted

variable {mark : Char} {text : List Char}
variable {before : List Char} {segment name : String}

theorem cut?_append (absent : mark ∉ before) (after : List Char) :
    cut? mark (before ++ mark :: after) = some (before, after) := by
  induction before with
  | nil => simp [cut?]
  | cons first rest ih =>
    rw [mem_cons, not_or] at absent
    rw [cons_append, cut?, if_neg (Ne.symm absent.1), ih absent.2, map_some]

theorem cut?_eq_none_iff : cut? mark text = none ↔ mark ∉ text := by
  induction text with
  | nil => simp [cut?]
  | cons first rest ih =>
    rw [cut?, mem_cons, not_or]
    split
    next same => simp [same]
    next different => simp [ih, Ne.symm different]

/-- A cut is made at the first mark. -/
theorem split_of_cut? {after} (cut : cut? mark text = some (before, after)) :
    text = before ++ mark :: after ∧ mark ∉ before := by
  have inside : mark ∈ text := by
    by_contra absent
    rw [cut?_eq_none_iff.mpr absent] at cut
    cases cut
  obtain ⟨front, back, rfl, absent⟩ := eq_append_cons_of_mem inside
  rw [cut?_append absent] at cut
  cases cut
  exact ⟨rfl, absent⟩

/-- Splitting is that of the library. -/
theorem splitAt_eq (mark : Char) (text : List Char) : splitAt mark text = text.splitOn mark := by
  induction text with
  | nil => rfl
  | cons c rest ih =>
    rw [splitAt, ih, splitOn_cons_eq_if_modifyHead]
    cases parts : rest.splitOn mark with
    | nil => exact absurd parts (splitOn_ne_nil mark rest)
    | cons => simp

theorem splitAt_append (mark : Char) (text more : List Char) :
    splitAt mark (text ++ mark :: more) = splitAt mark text ++ splitAt mark more := by
  simp only [splitAt_eq, splitOn_append_cons_self]

theorem not_mem_of_mem_splitAt (mem : part ∈ splitAt mark text) : mark ∉ part := by
  induction text generalizing part with
  | nil => simp_all [splitAt]
  | cons first rest ih =>
    rw [splitAt] at mem
    split at mem
    next empty => exact absurd (splitAt_eq mark rest ▸ empty) (splitOn_ne_nil mark rest)
    next next parts same =>
      rw [same] at ih
      split at mem
      next _ =>
        rcases mem_cons.mp mem with rfl | further
        · exact not_mem_nil
        · exact ih further
      next different =>
        rcases mem_cons.mp mem with rfl | further
        · simpa [Ne.symm different] using ih mem_cons_self
        · exact ih (mem_cons_of_mem _ further)

/-- Everything before the last dot of a joined name is what came before. -/
theorem qualifier?_join (outer : String) (simple : '.' ∉ segment.toList) :
    qualifier? (join outer segment) = some outer := by
  have reversed : (join outer segment).toList.reverse =
      segment.toList.reverse ++ '.' :: outer.toList.reverse := by
    simp [join]
  rw [qualifier?, reversed, cut?_append (by simpa using simple)]
  simp

theorem splitHead?_eq_none_iff : splitHead? name = none ↔ '.' ∉ name.toList := by
  rw [splitHead?, map_eq_none_iff, cut?_eq_none_iff]

/-- The last segment of a name has no dot. -/
theorem simple_last (name : String) : '.' ∉ (last name).toList := by
  unfold last
  split
  next after before found => simpa using (split_of_cut? found).2
  next whole => simpa using cut?_eq_none_iff.mp whole

theorem simple_of_mem_segments (mem : segment ∈ segments name) : '.' ∉ segment.toList := by
  obtain ⟨part, isPart, rfl⟩ := List.mem_map.mp mem
  simpa using not_mem_of_mem_splitAt isPart

end Dotted

/-- The type that a single import refers to: the one that it names, or the one whose static member
it names. -/
def Source.Import.refersTo? (line : Source.Import) : Option String :=
  if line.isStatic then line.qualifier? else some line.name

namespace Index

open Source Slice

variable {index : Index} {name type : String} {decl : TypeDecl}

/-! ## Member types -/

/-- A type whose name continues that of another type by a segment is a member of it. This fails if a
package has the name of a type. -/
def NamesNested (index : Index) : Prop :=
  ∀ entry ∈ index.types, ∀ outer ∈ Dotted.qualifier? entry.1, index.hasType outer = true →
    entry.2.decl.outer = some outer

instance (index : Index) : Decidable index.NamesNested :=
  inferInstanceAs (Decidable (∀ entry ∈ index.types, ∀ outer ∈ Dotted.qualifier? entry.1,
    index.hasType outer = true → entry.2.decl.outer = some outer))

theorem hasType_iff : index.hasType name ↔ ∃ decl, index.typeDecl? name = some decl := by
  rw [hasType, Table.has, typeDecl?, ← isSome_iff_exists, isSome_map]

/-- A type whose name starts with that of another stands inside it. -/
theorem NamesNested.outer_eq {segment} (apart : index.NamesNested)
    (known : index.hasType outer) (simple : '.' ∉ segment.toList)
    (found : index.typeDecl? (Dotted.join outer segment) = some decl) :
    decl.outer = some outer := by
  obtain ⟨type, present, rfl⟩ := map_eq_some_iff.mp found
  exact apart _ (Table.mem_of_get? present) outer (Dotted.qualifier?_join outer simple) known

/-- The type at the end of some segments lies inside the type at their start. -/
theorem encloses_followMembers (apart : index.NamesNested)
    (found : index.typeDecl? type = some decl)
    (simple : ∀ segment ∈ segments, '.' ∉ segment.toList) :
    ∃ last, index.typeDecl? (index.followMembers type segments) = some last ∧
      index.Encloses decl last := by
  induction segments generalizing type decl with
  | nil => exact ⟨decl, found, .refl⟩
  | cons segment rest ih =>
    rw [followMembers]
    split
    next isType =>
      obtain ⟨member, present⟩ := hasType_iff.mp isType
      obtain ⟨last, atEnd, inside⟩ := ih present fun other mem =>
        simple other (mem_cons_of_mem _ mem)
      have outer := apart.outer_eq (hasType_iff.mpr ⟨decl, found⟩) (simple segment mem_cons_self)
        present
      exact ⟨last, atEnd, .tail inside ⟨type, outer, found⟩⟩
    next _ => exact ⟨decl, found, .refl⟩

/-! ## Single imports -/

variable {index : Index} {unit : CompilationUnit} {name : String} {resolution : Resolution}
  {line : Import}
variable {type : String} {decl : TypeDecl}

theorem MeansSimple.target_of_single (means : index.MeansSimple unit name resolution)
    (uses : resolution.line = some line) (single : line.isWildcard = false)
    (refers : line.refersTo? = some type) (found : index.typeDecl? type = some decl) :
    ((decl.field? name).isSome ∧ resolution.target = some (.field type name)) ∨
      resolution.target = some (.type type) := by
  cases means with
  | single =>
    cases uses
    unfold Import.refersTo? at refers
    rw [resolveImport]
    split at refers
    next isStatic =>
      rw [isStatic, refers]
      simp only [if_true, bind_some, staticMember?, found, map_some,
        some.injEq]
      split
      next isField => exact .inl ⟨isField, rfl⟩
      next _ => exact .inr rfl
    next isPlain =>
      cases refers
      have known : index.hasType line.name = true := hasType_iff.mpr ⟨decl, found⟩
      simp [isPlain, known]
  | staticField _ isWildcard | packageType _ isWildcard =>
    cases uses
    rw [isWildcard] at single
    cases single
  | _ => cases uses

/-- A name that a single import makes visible means a field of the type that the line refers to, or
that type or one reached from it. -/
theorem target_of_single (resolved : index.resolve? unit name = some resolution)
    (uses : resolution.line = some line) (single : line.isWildcard = false)
    (refers : line.refersTo? = some type) (found : index.typeDecl? type = some decl) :
    (∃ member, (decl.field? member).isSome ∧ resolution.target = some (.field type member)) ∨
      ∃ segments, (∀ segment ∈ segments, '.' ∉ segment.toList) ∧
        resolution.target = some (.type (index.followMembers type segments)) := by
  cases means_of_resolve? resolved with
  | @simple head _ means =>
    rcases means.target_of_single uses single refers found with ⟨isField, target⟩ | target
    · exact .inl ⟨head, isField, target⟩
    · exact .inr ⟨[], by simp, target⟩
  | qualified => cases uses
  | @dotted head rest owner _ means =>
    rcases means.target_of_single uses single refers found with ⟨-, target⟩ | target
    · cases target
    · cases target
      exact .inr ⟨Dotted.segments rest, fun _ => Dotted.simple_of_mem_segments, rfl⟩

end Index

end JavaSlice
