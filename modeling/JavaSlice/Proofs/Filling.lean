import JavaSlice.Proofs.Copies
import JavaSlice.Proofs.Discovery

/-!
# Filling files

A file takes in the steps of scans one after the other. Its imports and members grow, and the rest
of it stays as it is. An import line is recorded once. Two copies clash if they declare a field of
one name or a method under one key, and then the later one is dropped. So the order of steps does
not matter for what a file holds, as long as copies clash only where they are equal.
-/

namespace JavaSlice.Slice

open List Source

/-! ## Copies that clash -/

namespace OutlineMember

/-- A member that is present keeps a copy out: both declare a field of one name, or both have one
key. -/
def clashes (present copy : OutlineMember) : Bool :=
  if copy.kind = .field then present.kind == .field && copy.names.any present.names.contains
  else present.key == copy.key

/-- Puts a copy at the end of some members, unless one of them keeps it out. -/
def insert (members : List OutlineMember) (copy : OutlineMember) : List OutlineMember :=
  if members.any (·.clashes copy) then members else members ++ [copy]

/-- Where copies clash only if they are equal, each of them is there once in the end. -/
theorem foldl_insert {members copies : List OutlineMember} (distinct : members.Nodup)
    (apart : ∀ first ∈ members ++ copies, ∀ second ∈ members ++ copies,
      first.clashes second ↔ first = second) :
    (copies.foldl insert members).Nodup ∧
      ∀ member, member ∈ copies.foldl insert members ↔ member ∈ members ∨ member ∈ copies := by
  -- the members grow along the list, and what is apart at first is apart at every stage
  induction copies generalizing members with
  | nil => simpa using distinct
  | cons copy rest ih =>
    have isCopy : copy ∈ members ++ copy :: rest := mem_append_right _ mem_cons_self
    have clash : members.any (·.clashes copy) = true ↔ copy ∈ members := by
      rw [any_eq_true]
      constructor
      · rintro ⟨member, present, clashes⟩
        exact (apart member (mem_append_left _ present) copy isCopy).mp clashes ▸ present
      · exact fun present => ⟨copy, present, (apart copy isCopy copy isCopy).mpr rfl⟩
    rw [foldl_cons, insert]
    by_cases present : copy ∈ members
    · rw [if_pos (clash.mpr present)]
      have fewer : members ++ rest ⊆ members ++ copy :: rest :=
        ((sublist_cons_self copy rest).append_left members).subset
      obtain ⟨once, holds⟩ := ih distinct fun first isFirst second isSecond =>
        apart first (fewer isFirst) second (fewer isSecond)
      refine ⟨once, fun member => ?_⟩
      rw [holds, mem_cons]
      constructor
      · exact fun known => known.imp_right .inr
      · rintro (known | rfl | further)
        · exact .inl known
        · exact .inl present
        · exact .inr further
    · rw [if_neg (mt clash.mp present)]
      have longer : (members ++ [copy]).Nodup := by
        simpa [nodup_append] using ⟨distinct, fun _ known same => present (same ▸ known)⟩
      obtain ⟨once, holds⟩ := ih longer (by simpa using apart)
      refine ⟨once, fun member => ?_⟩
      rw [holds, mem_append, mem_singleton, mem_cons, or_assoc]

end OutlineMember

/-! ## Taking in steps -/

namespace OutputFile

variable {file : OutputFile} {line : Import}

/-- A file without its imports and members. -/
def bare (file : OutputFile) : OutputFile :=
  { file with imports := [], type := { file.type with members := [] } }

theorem bare_takeIn (file : OutputFile) (step : Step) : (file.takeIn step).bare = file.bare := by
  cases step with
  | need | fail => rfl
  | useImport line =>
    simp only [takeIn, addImport]
    split <;> rfl
  | keepField field =>
    simp only [takeIn, addField, Outline.addField]
    split <;> rfl
  | keepMethod key method =>
    simp only [takeIn, addMethod, Outline.addMethod]
    split <;> rfl

/-- Steps change imports and members only. -/
theorem bare_foldl_takeIn (file : OutputFile) (steps : List Step) :
    (steps.foldl takeIn file).bare = file.bare := by
  induction steps generalizing file with
  | nil => rfl
  | cons step rest ih => rw [foldl_cons, ih, bare_takeIn]

theorem members_takeIn (file : OutputFile) (step : Step) :
    (file.takeIn step).type.members = step.copy?.toList.foldl OutlineMember.insert
      file.type.members := by
  cases step with
  | need | fail => rfl
  | useImport line =>
    simp only [takeIn, addImport]
    split <;> rfl
  | keepField field =>
    have clash : file.type.members.any (·.clashes (.ofField field)) =
        !file.type.admitsField field := by
      rw [Outline.admitsField, Bool.not_not, Bool.eq_iff_iff]
      simp only [OutlineMember.clashes, OutlineMember.ofField, if_true, Outline.hasField,
        any_eq_true, Bool.and_eq_true]
      constructor
      · rintro ⟨member, present, isField, name, declared, shared⟩
        exact ⟨name, declared, member, present, isField, shared⟩
      · rintro ⟨name, declared, member, present, isField, shared⟩
        exact ⟨member, present, isField, name, declared, shared⟩
    simp only [takeIn, addField, Outline.addField, Step.copy?, Option.toList_some, foldl_cons,
      foldl_nil, OutlineMember.insert, clash]
    cases file.type.admitsField field <;> rfl
  | keepMethod key method =>
    have clash : file.type.members.any (·.clashes (.ofMethod key method)) =
        file.type.hasMember key := by
      simp only [OutlineMember.clashes, if_neg (OutlineMember.ofMethod_kind_ne_field key method)]
      rfl
    simp only [takeIn, addMethod, Outline.addMethod, Step.copy?, Option.toList_some, foldl_cons,
      foldl_nil, OutlineMember.insert, clash]
    cases file.type.hasMember key <;> rfl

/-- The members of a file are the copies taken in, as far as they do not clash. -/
theorem members_foldl_takeIn (file : OutputFile) (steps : List Step) :
    (steps.foldl takeIn file).type.members =
      (Step.copies steps).foldl OutlineMember.insert file.type.members := by
  induction steps generalizing file with
  | nil => rfl
  | cons step rest ih =>
    rw [foldl_cons, ih, members_takeIn, ← foldl_append]
    cases taken : step.copy? with
    | none =>
      rw [Step.copies, Step.copies, filterMap_cons_none taken, Option.toList_none,
        nil_append]
    | some copy =>
      rw [Step.copies, Step.copies, filterMap_cons_some taken, Option.toList_some,
        singleton_append]

theorem admitsImport_iff :
    file.admitsImport line ↔ file.isOwnPackage line = false ∧ line ∉ file.imports := by
  simp [admitsImport]

theorem mem_imports_addImport :
    line ∈ (file.addImport used).imports ↔
      line ∈ file.imports ∨ line = used ∧ file.isOwnPackage line = false := by
  by_cases admitted : file.admitsImport used = true
  · rw [addImport, if_pos admitted, mem_append, mem_singleton]
    refine or_congr_right ⟨?_, And.left⟩
    rintro rfl
    exact ⟨rfl, (admitsImport_iff.mp admitted).1⟩
  · rw [addImport, if_neg admitted]
    refine ⟨.inl, ?_⟩
    rintro (known | ⟨rfl, foreign⟩)
    · exact known
    · by_contra absent
      exact admitted (admitsImport_iff.mpr ⟨foreign, absent⟩)

/-- Recording a line keeps every line once. -/
theorem imports_addImport (distinct : file.imports.Nodup) (used : Import) :
    (file.addImport used).imports.Nodup ∧
      ∀ line, line ∈ (file.addImport used).imports ↔
        line ∈ file.imports ∨ line = used ∧ file.isOwnPackage line = false := by
  refine ⟨?_, fun line => mem_imports_addImport⟩
  by_cases admitted : file.admitsImport used = true
  · obtain ⟨-, fresh⟩ := admitsImport_iff.mp admitted
    rw [addImport, if_pos admitted]
    simpa [nodup_append] using ⟨distinct, fun _ known same => fresh (same ▸ known)⟩
  · rwa [addImport, if_neg admitted]

theorem isOwnPackage_takeIn (file : OutputFile) (step : Step) (line : Import) :
    (file.takeIn step).isOwnPackage line = file.isOwnPackage line :=
  (congrArg (isOwnPackage · line) (bare_takeIn file step) :)

/-- The imports of a file are the lines taken in, each once, without those of its own package. -/
theorem imports_foldl_takeIn (distinct : file.imports.Nodup) (steps : List Step) :
    (steps.foldl takeIn file).imports.Nodup ∧
      ∀ line, line ∈ (steps.foldl takeIn file).imports ↔
        line ∈ file.imports ∨ .useImport line ∈ steps ∧ file.isOwnPackage line = false := by
  induction steps generalizing file with
  | nil => simpa using distinct
  | cons step rest ih =>
    have one : (file.takeIn step).imports.Nodup ∧ ∀ line, line ∈ (file.takeIn step).imports ↔
        line ∈ file.imports ∨ .useImport line = step ∧ file.isOwnPackage line = false := by
      cases step with
      | useImport used => simpa [takeIn] using imports_addImport distinct used
      | need | fail | keepField | keepMethod => simpa [takeIn, addField, addMethod] using distinct
    obtain ⟨once, holds⟩ := ih one.1
    refine ⟨once, fun line => ?_⟩
    rw [foldl_cons, holds, one.2, mem_cons, isOwnPackage_takeIn, or_and_right, or_assoc]

end OutputFile

end JavaSlice.Slice
