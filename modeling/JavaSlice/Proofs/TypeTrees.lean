import JavaSlice.Proofs.FileTypes
import JavaSlice.Proofs.Writing.Rereading

/-!
# Trees of types

The types that are read off a file are named by their places: a type at the top after the package, a
member type after the type around it (`type_trees_well_formed`). A package belongs to the types that
follow it, so this needs that no type stands before the package. The nesting does not, and so outer
names get shorter in every index of source texts, even where one declaration takes the place of
another in the middle of a chain.
-/

namespace JavaSlice

open List

namespace Reading

open Source Syntax

variable {source : List Char} {trees : List Tree} {decl : TypeDecl}

/-- No package is declared after a type. -/
def PackageFirst (trees : List Tree) : Prop :=
  trees.Pairwise fun tree later => (typeKind? tree.kind).isSome = true →
    later.kind ≠ .packageDeclaration

instance : Decidable (PackageFirst trees) :=
  inferInstanceAs (Decidable (List.Pairwise _ _))

theorem isSome_typeKind?
    (read : typeDecl? source package outer (Phrase.ofTree source tree) = some decl) :
    (typeKind? tree.kind).isSome := by
  by_contra other
  rw [typeDecl?_eq_none (by simpa using other)] at read
  cases read

/-- The package of a type is that of the file if it is declared first. -/
theorem PackageFirst.qualifiedName_eq (packageFirst : PackageFirst trees)
    (listed : decl ∈ typesOfFile source package (Phrase.ofTrees source trees)) :
    decl.qualifiedName = Dotted.within (packageAfter source package (Phrase.ofTrees source trees))
      decl.name := by
  induction trees generalizing package with
  | nil => cases listed
  | cons tree trees ih =>
    obtain ⟨later, others⟩ := pairwise_cons.mp packageFirst
    rcases mem_append.mp listed with here | further
    · have read := Option.mem_toList.mp here
      have isType := isSome_typeKind? read
      have noPackage : tree.kind ≠ .packageDeclaration := fun same => by
        simp [same, typeKind?] at isType
      rw [packageAfter_of_others
        (forall_mem_cons.mpr ⟨noPackage, fun tree isLater => later tree isLater isType⟩)]
      exact (nested_of_typeDecl? source package read).2.1
    · exact ih others further

end Reading

open Source

/-- The types of a file with its package first are named by their places, whatever tree the file
has. In every index of such files the way out of a type leads to shorter names and ends. -/
theorem type_trees_well_formed :
    (∀ path source tree, Reading.PackageFirst (Syntax.Tree.children tree) →
      let unit := CompilationUnit.ofTree path source tree
      (∀ top ∈ unit.types, top.outer = none ∧ top.qualifiedName = unit.qualify top.name) ∧
      ∀ decl ∈ unit.declaredTypes, ∀ member ∈ decl.nested, member.outer = some decl.qualifiedName ∧
        member.qualifiedName = decl.qualifiedName ++ "." ++ member.name) ∧
    ∀ files : List (String × List Char × Syntax.Tree),
      let index := Index.ofUnits (files.map fun (path, source, tree) => .ofTree path source tree)
      (∀ inner outer, index.OuterLink inner outer → outer.length < inner.length) ∧
      ∀ decl, index.Chain decl.outer (index.enclosingTypes decl) := by
  constructor
  · intro path source tree packageFirst unit
    refine ⟨fun top isTop => ⟨(Reading.nested_of_mem_typesOfFile _ isTop).1, ?_⟩,
      fun decl declared member isMember => ?_⟩
    · simp only [unit, CompilationUnit.ofTree, Reading.parts_ofTree] at isTop ⊢
      exact packageFirst.qualifiedName_eq isTop
    · obtain ⟨outer, qualified⟩ := (CompilationUnit.member_of_mem_nested
        (CompilationUnit.isNested_ofTree path source tree) declared isMember).2
      exact ⟨outer, qualified⟩
  · intro files index
    have nested : ∀ unit ∈ files.map (fun file => CompilationUnit.ofTree file.1 file.2.1 file.2.2),
        unit.isNested = true :=
      forall_mem_map.mpr fun _ _ => CompilationUnit.isNested_ofTree ..
    exact ⟨fun _ _ => Index.length_lt_of_outerLink nested,
      fun decl => Index.chain_enclosingTypes (Index.outerAcyclic_of_isNested nested) decl⟩

/-- A file with types in an enumeration in a class. -/
def atlasSource : String :=
  "package p; class Atlas \x7b enum Scale \x7b SMALL, LARGE; static class Legend \x7b\x7d \x7d
  interface Page \x7b\x7d \x7d"

/-- Types inside an enumeration inside a class. -/
theorem atlas_types_well_formed : let unit := CompilationUnit.ofSource "p/Atlas.java" atlasSource
    unit.declaredTypes.map (·.qualifiedName) =
      ["p.Atlas.Scale.Legend", "p.Atlas.Scale", "p.Atlas.Page", "p.Atlas"] ∧
      (∀ top ∈ unit.types, top.outer = none ∧ top.qualifiedName = unit.qualify top.name) ∧
      ∀ decl ∈ unit.declaredTypes, ∀ member ∈ decl.nested, member.outer = some decl.qualifiedName ∧
        member.qualifiedName = decl.qualifiedName ++ "." ++ member.name :=
  ⟨by decide +kernel, type_trees_well_formed.1 "p/Atlas.java" atlasSource.toList
    (.ofSource atlasSource.toList) (by decide +kernel)⟩

end JavaSlice
