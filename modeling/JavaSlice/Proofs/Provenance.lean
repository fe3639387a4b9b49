import JavaSlice.Proofs.Union

/-!
# Where the imports of the output come from

The imports of an output file are lines of one source file, the one that declares its type. A scan
uses lines of the file of what it scans only. Types that stand inside one another come from one
source file, so that the lines of member types, which join those of the type around them when the
files are folded, are lines of the same source.

In the output every line stands once, in the order of names, and none imports a type of the file's
own package (`output_imports_sourced`).
-/

namespace JavaSlice

open List Option Slice Source

/-! ## The order of lines -/

namespace Source.Import

/-- A line stands before another one: by its name, plain before static, and one name before a
wildcard. -/
def Precedes (first second : Import) : Prop :=
  first.name < second.name ∨ first.name = second.name ∧
    (first.isStatic < second.isStatic ∨ first.isStatic = second.isStatic ∧
      first.isWildcard < second.isWildcard)

theorem precedes_of_le {first second : Import} (before : first.le second)
    (different : first ≠ second) : first.Precedes second := by
  by_cases sameName : first.name = second.name
  · obtain ⟨name, isStatic, isWildcard⟩ := first
    obtain ⟨other, otherStatic, otherWildcard⟩ := second
    subst sameName
    cases isStatic <;> cases otherStatic <;> cases isWildcard <;> cases otherWildcard <;>
      simp_all [le, Precedes]
  · rw [le, if_neg sameName, decide_eq_true_eq] at before
    exact .inl before

/-- Lines that differ are sorted strictly. -/
theorem precedes_mergeSort {lines : List Import} (once : lines.Nodup) :
    (lines.mergeSort le).Pairwise Precedes := by
  have sorted := pairwise_mergeSort orders_imports.trans orders_imports.total lines
  have distinct : (lines.mergeSort le).Nodup := (mergeSort_perm lines le).nodup_iff.mpr once
  exact (sorted.and distinct).imp fun ⟨before, different⟩ => precedes_of_le before different

end Source.Import

/-! ## One source file -/

namespace Index

variable {units : List CompilationUnit} {inner : String}

/-- Types that stand inside one another come from one source file. -/
theorem unit_eq_of_outerLink (wellNested : WellNested units)
    (linked : (ofUnits units).OuterLink inner outer) :
    (ofUnits units).unitOf? inner = (ofUnits units).unitOf? outer := by
  obtain ⟨decl, declared, isOuter⟩ := linked
  obtain ⟨type, stored, rfl⟩ := map_eq_some_iff.mp declared
  obtain ⟨encloser, step, rfl, -⟩ :=
    outerStep_of_outer wellNested.unique wellNested.nested declared isOuter
  have around := get?_of_encloses wellNested.unique wellNested.nested
    (mem_declarations_of_get? stored) (.single step)
  rw [unitOf?, unitOf?, stored, around, map_some, map_some]

theorem unit_eq_of_inside (wellNested : WellNested units)
    (inside : Relation.ReflTransGen (ofUnits units).OuterLink inner name) :
    (ofUnits units).unitOf? inner = (ofUnits units).unitOf? name := by
  induction inside with
  | refl => rfl
  | tail _ linked ih => exact ih.trans (unit_eq_of_outerLink wellNested linked)

end Index

namespace Slice

/-- A scan uses lines of the file of what it scans. -/
theorem Task.mem_imports_of_useImport {index : Index} {task : Task} {unit : CompilationUnit}
    (file : index.unitOf? task.owner = some unit) {line : Import}
    (used : .useImport line ∈ task.steps index) : line ∈ unit.imports := by
  obtain ⟨copies, mentions, scanned, noLine, held⟩ :=
    exists_mentions (Scope.mentions_rule index unit _)
    (fun _ => by simp [Step.Mentions, Step.IsMention]) file
  rw [scanned, mem_append] at used
  exact held _ (used.resolve_left (noLine line))

namespace Walk.Finished

variable {units : List CompilationUnit} {seeds : List Seed} {walk : Walk}
variable {name : String} {result : OutputFile}

/-- The lines of a file in the output are sorted, with none of them twice. -/
theorem imports_sorted (finished : Finished units seeds walk)
    (isResult : (Outcome.ofWalk walk).1.files.get? name = some result) :
    result.imports.Pairwise Import.Precedes := by
  have distinct := finished.imports_nodup isResult
  rw [Outcome.ofWalk, Registry.get?_outputFiles finished.solved.tracks.coherent.once.files]
    at isResult
  obtain ⟨file, -, rfl⟩ := map_eq_some_iff.mp isResult
  exact Import.precedes_mergeSort ((mergeSort_perm file.imports Import.le).nodup_iff.mp distinct)

/-- A line in the output stands in the source file of the type it is kept for, and is of use
there. -/
theorem imports_sourced (finished : Finished units seeds walk) (wellNested : Index.WellNested units)
    (isResult : (Outcome.ofWalk walk).1.files.get? name = some result)
    (stored : (Index.ofUnits units).types.get? name = some type) (present : line ∈ result.imports) :
    line ∈ type.unit.imports ∧ (OutputFile.ofDecl type.unit type.decl).isOwnPackage line =
      false := by
  have shown : line ∈ (Outcome.ofWalk walk).1.importsOf name :=
    Outcome.mem_importsOf.mpr ⟨result, isResult, present⟩
  obtain ⟨task, -, used, inside, again, storedAgain, -, foreign⟩ :=
    (finished.mem_importsOf_iff wellNested name line).mp shown
  obtain rfl := some.inj (stored.symm.trans storedAgain)
  have file : (Index.ofUnits units).unitOf? task.owner = some type.unit := by
    rw [Index.unit_eq_of_inside wellNested inside, Index.unitOf?, stored, map_some]
  exact ⟨Task.mem_imports_of_useImport file used, foreign⟩

end Walk.Finished

/-- In the slice of a project without repeated names, the imports of a file are in strict order. All
of them are import lines of the source file that declares its type, and none imports a single type
of the package of the file. -/
theorem output_imports_sourced (units : List CompilationUnit) (wellNested : Index.WellNested units)
    (seeds : List Seed) (outcome : Outcome)
    (ok : (slice (Index.ofUnits units) seeds).outcome = .ok outcome) :
    ∀ entry ∈ outcome.files, entry.2.imports.Pairwise Import.Precedes ∧
      ∃ unit ∈ units, (∃ decl ∈ unit.declaredTypes, decl.qualifiedName = entry.1) ∧
        entry.2.package = unit.package ∧
        ∀ line ∈ entry.2.imports, line ∈ unit.imports ∧
          ¬ (line.isStatic = false ∧ line.isWildcard = false ∧
            line.qualifier? = entry.2.package) := by
  rintro ⟨name, file⟩ membership
  obtain ⟨solved, rfl⟩ := slice_eq_ok_iff.mp ok
  have finished := Walk.finished_solve solved
  have once := finished.solved.tracks.coherent.once.files
  have isResult := Table.get?_of_mem (Registry.names_outputFiles_nodup once) membership
  obtain ⟨type, stored, package⟩ := finished.package_result wellNested isResult
  obtain ⟨inProject, inFile⟩ :=
    Index.mem_declarations_iff.mp (Index.mem_declarations_of_get? stored)
  refine ⟨finished.imports_sorted isResult, type.unit, inProject,
    ⟨type.decl, inFile, Index.qualifiedName_of_get? stored⟩, package, fun line present => ?_⟩
  obtain ⟨inSource, foreign⟩ := finished.imports_sourced wellNested isResult stored present
  refine ⟨inSource, ?_⟩
  rintro ⟨plain, single, own⟩
  rw [package] at own
  simp [OutputFile.isOwnPackage, OutputFile.ofDecl, Import.isSingleType, plain, single, own]
    at foreign

/-- A class with a member type. Each of them uses an import of its own, and one line imports a type
of the package. -/
def studio : List CompilationUnit :=
  let easel : TypeDecl :=
    ⟨"Easel", "p.Studio.Easel", .classType, some "p.Studio", "class Easel", none, [], [], [], [],
      [.field ⟨["paint"], .simple "Color", [], [], "Color paint;"⟩], []⟩
  [⟨"p/Studio.java", some "p", [⟨"p.Brush", false, false⟩, ⟨"q.Shade", false, false⟩,
    ⟨"q.Color", false, false⟩],
      [⟨"Studio", "p.Studio", .classType, none, "public class Studio", none, [], [], [], [],
        [.field ⟨["brush"], .simple "Brush", [], [], "Brush brush;"⟩,
          .field ⟨["shade"], .simple "Shade", [], [], "Shade shade;"⟩], [easel]⟩]⟩,
    ⟨"p/Brush.java", some "p", [],
      [⟨"Brush", "p.Brush", .classType, none, "public class Brush", none, [], [], [], [], [], []⟩]⟩]

/-- The line of the member type joins the line of the class, and the line for the package is left
out. -/
theorem studio_imports_sourced : let seeds : List Seed :=
  [⟨"p.Studio", "brush"⟩, ⟨"p.Studio", "shade"⟩, ⟨"p.Studio.Easel", "paint"⟩]
    Index.WellNested studio ∧ ∃ outcome file,
      (slice (Index.ofUnits studio) seeds).outcome = .ok outcome ∧
      ("p.Studio", file) ∈ outcome.files ∧
        file.imports.Perm [⟨"q.Shade", false, false⟩, ⟨"q.Color", false, false⟩] ∧
      file.imports.Pairwise Import.Precedes ∧ ∃ unit ∈ studio, ∀ line ∈ file.imports,
        line ∈ unit.imports := by
  intro seeds
  let registry := (Walk.start.solve (Index.ofUnits studio) seeds).1.registry
  have wellNested : Index.WellNested studio := ⟨by decide, by decide⟩
  have ok :=
    slice_eq_ok_iff.mpr ⟨(by decide : (Walk.start.solve (Index.ofUnits studio) seeds).2 = none),
      rfl⟩
  obtain ⟨folded, isFolded, lines⟩ := map_eq_some_iff.mp
    (by decide +kernel :
      ((Registry.foldFiles registry.files (Registry.foldOrder registry.files)).1.get?
      "p.Studio").map (·.imports) = some [⟨"q.Shade", false, false⟩, ⟨"q.Color", false, false⟩])
  have isFile : registry.outputFiles.1.get? "p.Studio" = some folded.finalize := by
    rw [Registry.get?_outputFiles (by decide), isFolded, map_some]
  have imports : folded.finalize.imports.Perm
      [⟨"q.Shade", false, false⟩, ⟨"q.Color", false, false⟩] :=
    lines ▸ mergeSort_perm folded.imports Import.le
  obtain ⟨sorted, unit, inProject, -, -, sourced⟩ :=
    output_imports_sourced studio wellNested seeds _ ok _ (Table.mem_of_get? isFile)
  exact ⟨wellNested, _, _, ok, Table.mem_of_get? isFile, imports, sorted, unit, inProject,
    fun line present => (sourced line present).1⟩

end Slice

end JavaSlice
