import JavaSlice.Proofs.Contents
import JavaSlice.Proofs.Folding
import JavaSlice.Proofs.Locals
import JavaSlice.Proofs.Names
import JavaSlice.Slice.Result

/-!
# Imports and the types that they refer to

A scan records an import line where it follows a name through the line. In most places it also needs
the declaration that the name leads to, so that the type to which the line refers gets a file. Two
kinds of expression record a line without that (`UsesLoosely`): a bare name that the line makes mean
a type, and not a field of the type; and an unqualified call that a static import explains, of a
method that the type inherits.

Apart from these, every single import in the output refers to a type that has a file, if the project
declares the type (`import_backed_or_loose`).
-/

namespace JavaSlice.Slice

open List Source

variable {resolution : Resolution} {name : String}

/-! ## Lines that are backed -/

/-- Uses of an import line that do not need the type to which the line refers. -/
def UsesLoosely (index : Index) (unit : CompilationUnit) (line : Import) : Expr → Prop
  -- a bare name that means a type
  | .identifier name => ∃ resolution owner, index.resolve? unit name = some resolution ∧
      resolution.line = some line ∧ resolution.target = some (.type owner)
  -- a call of a method that the type inherits
  | .call none name args => ∃ type decl key, line.isStatic = true ∧ line.simpleName = name ∧
      line.refersTo? = some type ∧ index.typeDecl? type = some decl ∧
      index.findMethod? ⟨name, some args.length⟩ decl = some key ∧ key.owner ≠ type
  | _ => False

/-- Names tell where types are: each is found under its own name, and inside the type whose name its
own continues. -/
structure WellNamed (index : Index) : Prop where
  named : index.Named
  acyclic : index.OuterAcyclic
  nested : index.NamesNested

namespace Step

/-- Steps need the types to which their single imports refer, as far as the project declares them,
unless an expression among some terms uses the line loosely. -/
def Backed (index : Index) (unit : CompilationUnit) (terms : List Expr) (steps : List Step) :
    Prop :=
  ∀ line, .useImport line ∈ steps → line.isWildcard = false →
    ∀ type, line.refersTo? = some type → index.hasType type = true →
      (∃ key, Needs index steps key ∧ index.InScope key type) ∨
        ∃ term ∈ terms, UsesLoosely index unit line term

variable {index : Index} {unit : CompilationUnit} {terms : List Expr}

theorem backed_of_wildcards (wild : ∀ line, .useImport line ∈ steps → line.isWildcard) :
    Backed index unit terms steps := by
  intro line used single
  rw [wild line used] at single
  cases single

theorem backed_need (kind : EdgeKind) (keys : List Key) :
    Backed index unit terms (keys.map (.need kind)) :=
  backed_of_wildcards (by simp)

theorem Backed.append (first : Backed index unit terms steps)
    (second : Backed index unit terms more) : Backed index unit terms (steps ++ more) := by
  intro line used single type refers known
  rcases mem_append.mp used with before | after
  · rcases first line before single type refers known with ⟨key, needs, inScope⟩ | loose
    · exact .inl ⟨key, needs_append.mpr (.inl needs), inScope⟩
    · exact .inr loose
  · rcases second line after single type refers known with ⟨key, needs, inScope⟩ | loose
    · exact .inl ⟨key, needs_append.mpr (.inr needs), inScope⟩
    · exact .inr loose

end Step

/-! ## Scans -/

section Rule

open Step

variable {index : Index} {unit : CompilationUnit} {terms : List Expr}

theorem useImport_mem_importSteps :
    .useImport line ∈ Scope.importSteps resolution ↔ resolution.line = some line := by
  simp [Scope.importSteps]

/-- What a name means is needed, with all types around it. -/
theorem backed_mention (wellNamed : WellNamed index)
    (resolved : index.resolve? unit name = some resolution) (kind : EdgeKind) :
    Backed index unit terms (Scope.importSteps resolution ++
      resolution.target.toList.map (.need kind)) := by
  intro line used single type refers known
  have uses : resolution.line = some line := by simpa [useImport_mem_importSteps] using used
  obtain ⟨decl, found⟩ := Index.hasType_iff.mp known
  refine .inl ?_
  rcases Index.target_of_single resolved uses single refers found with
    ⟨member, isField, means⟩ | ⟨segments, simple, means⟩
  · refine ⟨.field type member, ⟨⟨kind, by simp [means]⟩, ?_⟩, ?_⟩
    · exact (Index.declares_iff _ _).mpr ⟨decl, found, isField⟩
    · exact ⟨decl, found, decl, mem_cons_self, wellNamed.named _ _ found⟩
  · obtain ⟨last, atEnd, around⟩ := Index.encloses_followMembers wellNamed.nested found simple
    refine ⟨.type (index.followMembers type segments), ⟨⟨kind, by simp [means]⟩, ?_⟩, ?_⟩
    · exact (Index.declares_iff _ _).mpr ⟨last, atEnd, rfl⟩
    · exact ⟨last, atEnd, decl, (Index.mem_scopeTypes_iff wellNamed.acyclic).mpr around,
        wellNamed.named _ _ found⟩

/-- A bare name that a single import explains, and that means no field, uses the line loosely. -/
theorem backed_bare (inside : .identifier name ∈ terms)
    (resolved : index.resolve? unit name = some resolution)
    (noField : ∀ owner field, resolution.target ≠ some (.field owner field)) :
    Backed index unit terms (Scope.importSteps resolution) := by
  intro line used single type refers known
  have uses := useImport_mem_importSteps.mp used
  obtain ⟨decl, found⟩ := Index.hasType_iff.mp known
  rcases Index.target_of_single resolved uses single refers found with
    ⟨member, -, means⟩ | ⟨segments, -, means⟩
  · exact absurd means (noField type member)
  · exact .inr ⟨.identifier name, inside, resolution, _, resolved, uses, means⟩

/-- A call that a static import explains needs its method, which is one of the type or one that the
type inherits. -/
theorem backed_static (wellNamed : WellNamed index) (within : Scope.Within index unit scope)
    (inside : .call none name args ∈ terms)
    (explains : scope.staticMethod? ⟨name, some args.length⟩ = some (explaining, key)) :
    Backed index unit terms [.useImport explaining, .need .call key] := by
  intro line used single type refers known
  obtain rfl : line = explaining := by simpa using used
  obtain ⟨-, isStatic, owner, decl, found, reaches, named⟩ := Scope.staticMethod?_cases explains
  obtain ⟨-, sameName, qualifier⟩ := named.resolve_left (by simp [single])
  obtain rfl : owner = type := by
    rw [Import.refersTo?, if_pos isStatic, qualifier] at refers
    exact Option.some.inj refers
  rw [within.index] at found reaches
  by_cases own : key.owner = owner
  · have declared := Index.declares_of_findMethod? wellNamed.named found reaches
    refine .inl ⟨key, ⟨⟨.call, by simp⟩, declared⟩, decl, by rw [own, found], decl,
      mem_cons_self, ?_⟩
    exact wellNamed.named _ _ found
  · exact .inr ⟨.call none name args, inside, owner, decl, key, isStatic, sameName, refers, found,
      reaches, own⟩

/-- A call that a library explains uses a line that refers to no type of the project. -/
theorem backed_library (within : Scope.Within index unit scope)
    (explains : scope.libraryMethod? call = some explaining) :
    Backed index unit terms [.useImport explaining] := by
  intro line used _ type refers known
  obtain rfl : line = explaining := by simpa using used
  have outside := (find?_some explains :)
  simp only [Bool.and_eq_true] at outside
  rw [Import.refersTo?, if_pos outside.1.1.1] at refers
  simp [refers, within.index, known] at outside

theorem backed_rule (wellNamed : WellNamed index) (unit : CompilationUnit) (terms : List Expr) :
    ScanRule index unit terms (Backed index unit terms) where
  append := fun _ _ => Backed.append
  need := backed_need
  unread := fun _ _ _ => backed_of_wildcards (by simp)
  wildcards := by
    intro isStatic
    refine backed_of_wildcards fun line used => ?_
    simp only [Index.libraryWildcards, mem_map, mem_filter, Step.useImport.injEq, exists_eq_right,
      Bool.and_eq_true] at used
    exact used.2.1.1.1
  mention := fun _ _ resolved kind => backed_mention wellNamed resolved kind
  bare := fun _ _ inside resolved noField => backed_bare inside resolved noField
  static := fun _ within _ _ _ _ inside explains => backed_static wellNamed within inside explains
  library := fun _ within _ _ explains => backed_library within explains

end Rule

namespace Task

/-- A scan needs the types to which its single imports refer, apart from loose uses. -/
theorem backed {index : Index} (wellNamed : WellNamed index) {task : Task} {unit : CompilationUnit}
    (file : index.unitOf? task.owner = some unit) :
    Step.Backed index unit (task.terms index) (task.steps index) := by
  obtain ⟨copies, mentions, scanned, noLine, held⟩ := exists_mentions (backed_rule wellNamed unit _)
    (fun _ => Step.backed_of_wildcards (by simp)) file
  rw [scanned]
  exact (Step.backed_of_wildcards fun line used => absurd used (noLine line)).append held

end Task

/-! ## Walks -/

namespace Walk

/-- A task of the walk uses a line loosely in one of its expressions. -/
def UsesLoosely (index : Index) (walk : Walk) (line : Import) : Prop :=
  ∃ task unit, walk.Done task ∧ index.unitOf? task.owner = some unit ∧
    ∃ term ∈ task.terms index, Slice.UsesLoosely index unit line term

theorem Solved.hasFile_or_loose {index : Index} (wellNamed : WellNamed index) {seeds : List Seed}
    {walk : Walk} (solved : walk.Solved index seeds) {task : Task} (taken : walk.Done task)
    {line : Import} (used : .useImport line ∈ task.steps index) (single : line.isWildcard = false)
    {type : String} (refers : line.refersTo? = some type) (known : index.hasType type) :
    type ∈ walk.fileNames ∨ walk.UsesLoosely index line := by
  have coherent := solved.tracks.coherent
  have ownFile := coherent.owner_mem_fileNames wellNamed.named (found_of_done taken)
  have present := coherent.hasType wellNamed.named ownFile
  obtain ⟨unit, file⟩ :=
    (Index.unitOf?_eq_some_iff index task.owner).mpr (Index.hasType_iff.mp present)
  rcases Task.backed wellNamed file line used single type refers known
    with ⟨key, needs, inScope⟩ | loose
  · exact .inl ((coherent.files type).mpr ⟨key, solved.settled.found task taken key needs, inScope⟩)
  · exact .inr ⟨task, unit, taken, file, loose⟩

end Walk

/-- Every single import in the output of a successful walk refers to a type that has a file, if the
project declares the type, unless something that is kept uses the line loosely. -/
theorem import_backed_or_loose (units : List CompilationUnit)
    (acyclic : (Index.ofUnits units).OuterAcyclic) (nested : (Index.ofUnits units).NamesNested)
    (seeds : List Seed) (ok : (Walk.start.solve (Index.ofUnits units) seeds).2 = none) :
    let index := Index.ofUnits units
    let walk := (Walk.start.solve index seeds).1
    ∀ entry ∈ (Outcome.ofWalk walk).1.files, ∀ line ∈ entry.2.imports, line.isWildcard = false →
      ∀ type, line.refersTo? = some type → index.hasType type = true →
        walk.registry.hasFile type = true ∨ walk.UsesLoosely index line := by
  intro index walk entry membership line isImport single type refers known
  have named := Index.named_ofUnits units
  have solved : walk.Solved index seeds := Walk.solved_solve named ok
  -- the line is in some file before folding, and came there from a task of the file
  have inOutput : Registry.HasImport walk.registry.outputFiles.1 line :=
    ⟨entry, membership, isImport⟩
  obtain ⟨⟨name, file⟩, original, imported⟩ := Registry.hasImport_of_outputFiles inOutput
  have present : walk.registry.file? name = some file :=
    Table.get?_of_mem solved.tracks.coherent.once.files original
  have recorded : walk.Recorded index :=
    (Walk.recorded_start index).solve named (Walk.coherent_start index) ok
  obtain ⟨fresh, tasks, history⟩ := recorded name file present
  obtain ⟨⟨task, ⟨-, taken⟩, used⟩, -⟩ := (history.imports.2 line).mp imported
  have outcome := solved.hasFile_or_loose ⟨named, acyclic, nested⟩ taken used single refers known
  rwa [Walk.fileNames, ← Table.has_iff] at outcome

/-- A class that uses a constant of an enum in another package by a static import in one method, and
the enum itself in the other. -/
def palette : List CompilationUnit :=
  let run : Method :=
    ⟨"run", [], [], some .void, [], [],
      [.declare (.simple "Object") [⟨"shade", some (.identifier "RED")⟩]], false,
      "void run() { Object shade = RED; }"⟩
  let paint : Method :=
    ⟨"paint", [], [], some .void, [⟨"color", .simple "Color", []⟩], [], [], false,
      "void paint(Color color) {}"⟩
  [⟨"p/Main.java", some "p", [⟨"q.Color", false, false⟩, ⟨"q.Color.RED", true, false⟩],
      [⟨"Main", "p.Main", .classType, none, "public class Main", none, [], [], [], [],
        [.method run, .method paint], []⟩]⟩,
    ⟨"q/Color.java", some "q", [],
      [⟨"Color", "q.Color", .enumType, none, "public enum Color", some "RED,\n    GREEN;",
        [.group [], .group []], [], [], [], [], []⟩]⟩]

/-- The import of a class of the project that the slice has in its output. -/
theorem palette_import_backed_or_loose : let index := Index.ofUnits palette
    let walk := (Walk.start.solve index [⟨"p.Main", "paint"⟩]).1
    let line : Import := ⟨"q.Color", false, false⟩
    index.OuterAcyclic ∧ index.NamesNested ∧
      (Walk.start.solve index [⟨"p.Main", "paint"⟩]).2 = none ∧
      (∃ entry ∈ (Outcome.ofWalk walk).1.files, line ∈ entry.2.imports) ∧
      (walk.registry.hasFile "q.Color" = true ∨ walk.UsesLoosely index line) := by
  intro index walk line
  have acyclic : index.OuterAcyclic := Index.outerAcyclic_of_isNested (by decide)
  have nested : index.NamesNested := by decide
  have ok : (Walk.start.solve index [⟨"p.Main", "paint"⟩]).2 = none := by decide
  obtain ⟨file, membership, imported⟩ : ∃ file, ("p.Main", file) ∈ walk.registry.files ∧
      line ∈ file.imports :=
    ⟨_, .head _, by decide⟩
  have top : ∀ entry ∈ walk.registry.files, entry.2.outer = none := by decide
  have written := Registry.mem_outputFiles top membership
  have isImport : line ∈ file.finalize.imports := mem_mergeSort.mpr imported
  exact ⟨acyclic, nested, ok, ⟨_, written, isImport⟩,
    import_backed_or_loose palette acyclic nested _ ok _ written line isImport rfl "q.Color" rfl
      (by decide)⟩

/-- The constant is kept with its import, and the enum is not. -/
theorem enum_constant_import_dangles : let index := Index.ofUnits palette
    let outcome := Walk.start.solve index [⟨"p.Main", "run"⟩]
    let line : Import := ⟨"q.Color.RED", true, false⟩
    outcome.2 = none ∧ line.refersTo? = some "q.Color" ∧ index.hasType "q.Color" = true ∧
      (∃ entry ∈ (Outcome.ofWalk outcome.1).1.files, line ∈ entry.2.imports) ∧
      outcome.1.registry.hasFile "q.Color" = false := by
  intro index outcome line
  obtain ⟨file, membership, imported⟩ : ∃ file, ("p.Main", file) ∈ outcome.1.registry.files ∧
      line ∈ file.imports := ⟨_, .head _, by decide⟩
  have top : ∀ entry ∈ outcome.1.registry.files, entry.2.outer = none := by decide
  have written := Registry.mem_outputFiles top membership
  exact ⟨by decide, by decide, by decide, ⟨_, written, mem_mergeSort.mpr imported⟩, by decide⟩

end JavaSlice.Slice
