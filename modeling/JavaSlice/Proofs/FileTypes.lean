import JavaSlice.Index.Sources
import JavaSlice.Proofs.Enclosing

/-!
# The types of a file

A simple name is looked for among all types of a file in one order, whoever asks. Types at the top
come first. Then each of these is searched in turn, its member types first and after them what is
inside each member type. This order (`CompilationUnit.searchOrder`) holds every type of the file
once.

Source files nest types as `CompilationUnit.isNested` says, since the reading of a type gives its
own qualified name to the types in its body.
-/

namespace JavaSlice

open List

variable {decl : Source.TypeDecl} {unit : Source.CompilationUnit}

namespace Source

namespace TypeDecl

/-! ## The search for a simple name -/

mutual

/-- The types inside a type as they are searched: its member types, and then the types inside each
of them. -/
def inside : TypeDecl → List TypeDecl
  | { nested, .. } => nested ++ insideAll nested

/-- The types inside the types of a list, one after the other. -/
def insideAll : List TypeDecl → List TypeDecl
  | [] => []
  | decl :: decls => inside decl ++ insideAll decls

end

mutual

theorem findNested?_eq_find? (name : String) :
    ∀ decl : TypeDecl, findNested? name decl = decl.inside.find? (·.name == name)
  | ⟨_, _, _, _, _, _, _, _, _, _, _, nested⟩ => by
    rw [findNested?, inside, find?_append, findNestedInAll?_eq_find? name nested]

theorem findNestedInAll?_eq_find? (name : String) :
    ∀ decls : List TypeDecl, findNestedInAll? name decls = (insideAll decls).find? (·.name == name)
  | [] => rfl
  | decl :: decls => by
    rw [findNestedInAll?, insideAll, find?_append, findNested?_eq_find? name decl,
      findNestedInAll?_eq_find? name decls]

end

mutual

/-- The search meets every type inside a type once. -/
theorem cons_inside_perm : ∀ decl : TypeDecl, (decl :: decl.inside).Perm decl.withNested
  | ⟨name, qualifiedName, kind, outer, header, preamble, constants, annotations, typeParams,
      headerTypes, members, nested⟩ => by
    rw [withNested, inside]
    exact (append_insideAll_perm nested).cons _ |>.trans (perm_append_singleton _ _).symm

theorem append_insideAll_perm :
    ∀ decls : List TypeDecl, (decls ++ insideAll decls).Perm (withNestedOfAll decls) 
  | [] => .nil
  | decl :: decls => by
    rw [withNestedOfAll, insideAll]
    have both := (cons_inside_perm decl).append (append_insideAll_perm decls)
    refine Perm.trans ?_ both
    rw [cons_append, cons_append, ← append_assoc, ← append_assoc]
    have swapped : (decls ++ decl.inside).Perm (decl.inside ++ decls) := perm_append_comm
    exact (swapped.append_right _).cons decl

end

end TypeDecl

namespace CompilationUnit

/-- All types of a file as they are searched for a simple name. -/
def searchOrder (unit : CompilationUnit) : List TypeDecl :=
  unit.types ++ TypeDecl.insideAll unit.types

theorem findDeclared?_eq_find? (unit : CompilationUnit) (name : String) :
    unit.findDeclared? name = unit.searchOrder.find? (·.name == name) := by
  rw [findDeclared?, findType?, searchOrder, find?_append, TypeDecl.findNestedInAll?_eq_find?]

theorem searchOrder_perm (unit : CompilationUnit) : unit.searchOrder.Perm unit.declaredTypes :=
  TypeDecl.append_insideAll_perm unit.types

theorem mem_declaredTypes_of_findDeclared? (found : unit.findDeclared? name = some decl) :
    decl ∈ unit.declaredTypes ∧ decl.name = name := by
  rw [findDeclared?_eq_find?] at found
  exact ⟨unit.searchOrder_perm.mem_iff.mp (mem_of_find?_eq_some found),
    by simpa using find?_some found⟩

/-- Some type is found for the name of a type of the file. -/
theorem exists_find?_searchOrder (declared : decl ∈ unit.declaredTypes) :
    ∃ first, unit.searchOrder.find? (·.name == decl.name) = some first := by
  rw [← Option.isSome_iff_exists, find?_isSome]
  exact ⟨decl, unit.searchOrder_perm.mem_iff.mpr declared, beq_self_eq_true _⟩

/-- It is that type exactly if no type of the same name is searched before. -/
theorem eq_iff_of_find?_searchOrder
    (found : unit.searchOrder.find? (·.name == decl.name) = some first) :
    first = decl ↔ ∃ before after, unit.searchOrder = before ++ decl :: after ∧
      ∀ other ∈ before, other.name ≠ decl.name := by
  constructor
  · rintro rfl
    obtain ⟨-, before, after, split, others⟩ := find?_eq_some_iff_append.mp found
    exact ⟨before, after, split, fun other earlier => by simpa using others other earlier⟩
  · rintro ⟨before, after, split, others⟩
    have isFirst : unit.searchOrder.find? (·.name == decl.name) = some decl :=
      find?_eq_some_iff_append.mpr ⟨beq_self_eq_true _, before, after, split, by simpa using others⟩
    exact Option.some.inj (found.symm.trans isFirst)

end CompilationUnit

/-! ## Types inside types -/

namespace TypeDecl

theorem isNested_eq (decl : TypeDecl) :
    decl.isNested = areMembersOf decl.qualifiedName decl.nested := by
  cases decl
  rw [isNested]

theorem of_mem_areMembersOf (members : areMembersOf encloser decls) (mem : decl ∈ decls) :
    decl.outer = some encloser ∧ decl.qualifiedName = Dotted.join encloser decl.name ∧
      decl.isNested := by
  induction decls with
  | nil => cases mem
  | cons first rest ih =>
    simp only [areMembersOf, Bool.and_eq_true, beq_iff_eq, and_assoc] at members
    obtain ⟨outer, qualified, nested, others⟩ := members
    rcases mem_cons.mp mem with rfl | further
    · exact ⟨outer, qualified, nested⟩
    · exact ih others further

theorem isMemberOf_of_mem_nested (nested : decl.isNested)
    (isMember : member ∈ decl.nested) : member.IsMemberOf decl := by
  obtain ⟨outer, qualified, -⟩ := of_mem_areMembersOf (decl.isNested_eq ▸ nested) isMember
  exact ⟨outer, qualified⟩

mutual

/-- A type at any depth of a well nested one is well nested, and its member types are at some depth
too. -/
theorem nested_of_mem_withNested :
    ∀ {top decl : TypeDecl}, top.isNested → decl ∈ top.withNested →
      decl.isNested ∧ decl.nested ⊆ top.withNested
  | ⟨name, qualifiedName, kind, outer, header, preamble, constants, annotations, typeParams,
      headerTypes, members, nested⟩, decl, inside, mem => by
    rw [withNested] at mem ⊢
    rcases mem_append.mp mem with below | itself
    · rw [isNested] at inside
      obtain ⟨wellNested, further⟩ := nested_of_mem_withNestedOfAll inside below
      exact ⟨wellNested, subset_append_of_subset_left _ further⟩
    · obtain rfl := mem_singleton.mp itself
      refine ⟨inside, fun member isMember =>
        mem_append_left _ (mem_withNestedOfAll.mpr ⟨member, isMember, ?_⟩)⟩
      rw [withNested_eq]
      exact mem_append_right _ (mem_singleton.mpr rfl)

theorem nested_of_mem_withNestedOfAll :
    ∀ {encloser : String} {decls : List TypeDecl} {decl : TypeDecl},
      areMembersOf encloser decls →
      decl ∈ withNestedOfAll decls → decl.isNested ∧ decl.nested ⊆ withNestedOfAll decls
  | _, [], _, _, mem => by simp [withNestedOfAll] at mem
  | encloser, first :: rest, decl, members, mem => by
    simp only [areMembersOf, Bool.and_eq_true] at members
    rw [withNestedOfAll] at mem ⊢
    rcases mem_append.mp mem with here | later
    · obtain ⟨wellNested, further⟩ := nested_of_mem_withNested members.1.2 here
      exact ⟨wellNested, subset_append_of_subset_left _ further⟩
    · obtain ⟨wellNested, further⟩ := nested_of_mem_withNestedOfAll members.2 later
      exact ⟨wellNested, subset_append_of_subset_right _ further⟩

end

end TypeDecl

/-- A member type of a type of a well nested file is a type of the file, qualified by the type
around it. -/
theorem CompilationUnit.member_of_mem_nested (nested : unit.isNested)
    (declared : decl ∈ unit.declaredTypes) (isMember : member ∈ decl.nested) :
    member ∈ unit.declaredTypes ∧ member.IsMemberOf decl := by
  obtain ⟨top, isTop, below⟩ := TypeDecl.mem_withNestedOfAll.mp declared
  have shape := all_eq_true.mp nested top isTop
  rw [Bool.and_eq_true] at shape
  obtain ⟨wellNested, further⟩ := TypeDecl.nested_of_mem_withNested shape.2 below
  exact ⟨TypeDecl.mem_withNestedOfAll.mpr ⟨top, isTop, further isMember⟩,
    TypeDecl.isMemberOf_of_mem_nested wellNested isMember⟩

end Source

/-! ## Files that are read -/

namespace Reading

open Source Syntax

variable (source : List Char) (package : Option String)

mutual

/-- A type that is read has the outer name it is read with, and the types in its body have its own
name. -/
theorem nested_of_typeDecl? :
    ∀ {outer : Option String} {phrase : Phrase} {decl : TypeDecl},
      typeDecl? source package outer phrase = some decl →
      decl.outer = outer ∧ decl.qualifiedName = qualifiedIn package outer decl.name ∧
        decl.isNested
  | outer, .mk _ _ _ _ _ _ _ _ parts, decl, isRead => by
    rw [typeDecl?] at isRead
    split at isRead
    next _ _ _ _ _ _ =>
      cases isRead
      exact ⟨rfl, rfl, areMembersOf_typesInBody _ _ parts⟩
    next _ => cases isRead

theorem areMembersOf_typesInBody :
    ∀ (outer : String) (isEnum : Bool) (parts : List Phrase),
      TypeDecl.areMembersOf outer (typesInBody source package outer isEnum parts)
  | _, _, [] => rfl
  | outer, isEnum, .mk _ _ _ _ _ _ _ _ parts :: rest => by
    rw [typesInBody]
    split
    next _ =>
      split
      next _ => exact areMembersOf_typesAfterConstants outer parts
      next _ => exact areMembersOf_typeDecls outer parts
    next _ => exact areMembersOf_typesInBody outer isEnum rest

theorem areMembersOf_typesAfterConstants :
    ∀ (outer : String) (phrases : List Phrase),
      TypeDecl.areMembersOf outer (typesAfterConstants source package outer phrases)
  | _, [] => rfl
  | outer, .mk _ _ _ _ _ _ _ _ parts :: rest => by
    rw [typesAfterConstants]
    split
    next _ => exact areMembersOf_typeDecls outer parts
    next _ => exact areMembersOf_typesAfterConstants outer rest

theorem areMembersOf_typeDecls :
    ∀ (outer : String) (phrases : List Phrase),
      TypeDecl.areMembersOf outer (typeDecls source package (some outer) phrases)
  | _, [] => rfl
  | outer, phrase :: phrases => by
    rw [typeDecls]
    cases isRead : typeDecl? source package (some outer) phrase with
    | none => exact areMembersOf_typeDecls outer phrases
    | some decl =>
      obtain ⟨isOuter, qualified, nested⟩ := nested_of_typeDecl? isRead
      have others := areMembersOf_typeDecls outer phrases
      simp [TypeDecl.areMembersOf, isOuter, qualified, nested, others, qualifiedIn, Dotted.join]

end

theorem nested_of_mem_typesOfFile {phrases package}
    (mem : decl ∈ typesOfFile source package phrases) : decl.outer = none ∧ decl.isNested := by
  induction phrases generalizing package with
  | nil => cases mem
  | cons phrase rest ih =>
    rcases mem_append.mp mem with here | later
    · obtain ⟨outer, -, nested⟩ := nested_of_typeDecl? source package (Option.mem_toList.mp here)
      exact ⟨outer, nested⟩
    · exact ih later

end Reading

/-- The types that are read off a tree are nested as source files nest types. -/
theorem Source.CompilationUnit.isNested_ofTree (path : String) (source : List Char)
    (tree : Syntax.Tree) : (CompilationUnit.ofTree path source tree).isNested := by
  refine all_eq_true.mpr fun top isTop => ?_
  obtain ⟨outer, nested⟩ := Reading.nested_of_mem_typesOfFile _ isTop
  rw [outer, nested]
  rfl

end JavaSlice
