import JavaSlice.Proofs.Assembly
import JavaSlice.Proofs.Reachable
import JavaSlice.Proofs.SeedOrder

/-!
# Places in the output

A type stands at a *place* in the output: in a file, and in it where some simple names lead from the
outermost type inwards. What is kept at a place is decided by needed tasks, one at a time. A type is
there if its header is needed, a member is there if its key is, and a file has an import line if
some needed task uses it, of the outermost type or of one inside it. None of this depends on what
else a walk has found.

The argument goes through the files before they are folded. A place in the output leads to the file
of the type that stands there (`Assembled.inner?`), and this file has taken in the tasks of its
type.
-/

namespace JavaSlice.Slice

open List Source

/-! ## Places in an outline -/

namespace Outline

/-- The type to which simple names lead from a type inwards. -/
def inner? (outline : Outline) : List String → Option Outline
  | [] => some outline
  | name :: rest => (outline.nested.find? (·.name == name)).bind (·.inner? rest)

/-- A type without its members and the types inside it. -/
def title (outline : Outline) : Outline :=
  { outline with members := [], nested := [] }

theorem title_sort (outline : Outline) : outline.sort.title = outline.title := by
  rw [sort_eq]
  rfl

end Outline

namespace Registry

variable {files : Table OutputFile} {name : String} {outline : Outline}

/-- Every file holds one type, and a member type is named after the type that encloses it. -/
structure Plain (files : Table OutputFile) : Prop where
  flat : ∀ {name file}, files.get? name = some file → file.type.nested = []
  dotted : ∀ {name file outer}, files.get? name = some file → file.outer = some outer →
    name = Dotted.join outer file.type.name

/-- An assembled type has the title and the members of its own file. -/
theorem Assembled.shows (assembled : Assembled files name outline) :
    ∃ file, files.get? name = some file ∧ outline.title = file.type.title ∧
      outline.members.Perm file.type.members := by
  cases assembled with
  | intro members inner found =>
    refine ⟨_, found, Outline.title_sort _, ?_⟩
    rw [Outline.sort_eq]
    exact mergeSort_perm _ _

theorem named_of_assembled {inner} (plain : Plain files)
    (each : List.Forall₂ (Assembled files) members inner)
    (direct : ∀ member ∈ members, Directly files member name) :
    members = inner.map (fun type => Dotted.join name type.name) ∧
      ∀ type ∈ inner, Assembled files (Dotted.join name type.name) type := by
  induction each with
  | nil => exact ⟨rfl, nofun⟩
  | @cons member type members inner first rest ih =>
    obtain ⟨isFirst, areRest⟩ := forall_mem_cons.mp direct
    obtain ⟨file, found, title, -⟩ := first.shows
    obtain ⟨again, foundAgain, isOuter⟩ := directly_iff.mp isFirst
    obtain rfl : file = again := Option.some.inj (found.symm.trans foundAgain)
    have isName : member = Dotted.join name type.name := by
      have isSimple : type.name = file.type.name := (congrArg Outline.name title :)
      rw [plain.dotted found isOuter, isSimple]
    obtain ⟨names, others⟩ := ih areRest
    subst isName
    exact ⟨by rw [map_cons, ← names], forall_mem_cons.mpr ⟨first, others⟩⟩

/-- The types inside an assembled type are its member types, each once and assembled in its turn. -/
theorem Assembled.members (plain : Plain files) (assembled : Assembled files name outline) :
    (outline.nested.map fun type => Dotted.join name type.name).Nodup ∧
      (∀ member, Directly files member name ↔
        ∃ type ∈ outline.nested, Dotted.join name type.name = member) ∧
      ∀ type ∈ outline.nested, Assembled files (Dotted.join name type.name) type := by
  cases assembled with
  | @intro _ file nested members inner found distinct mem_iff each holds =>
    obtain ⟨names, all⟩ := named_of_assembled plain each fun member => (mem_iff member).mp
    rw [plain.flat found, map_nil, nil_append] at holds
    rw [Outline.withInner_nested]
    refine ⟨?_, fun member => ?_, fun type inside => all type (holds.mem_iff.mp inside)⟩
    · rw [(holds.map _).nodup_iff, ← names]
      exact distinct
    · rw [← mem_iff, names, mem_map]
      simp only [holds.mem_iff]

/-- Simple names lead from a type inwards, through types that have files. -/
def Lies (files : Table OutputFile) (name : String) : List String → Prop
  | [] => True
  | simple :: rest => Directly files (Dotted.join name simple) name ∧
    Lies files (Dotted.join name simple) rest

theorem join_injective
    (same : Dotted.join outer first = Dotted.join outer second) : first = second :=
  (String.append_right_inj _).mp same

/-- The places in an assembled type are those to which files lead, and the types there are assembled
too. -/
theorem Assembled.inner? (plain : Plain files) (assembled : Assembled files name outline)
    (path : List String) :
    ((outline.inner? path).isSome ↔ Lies files name path) ∧
      ∀ type, outline.inner? path = some type →
        Assembled files (path.foldl Dotted.join name) type := by
  induction path generalizing name outline with
  | nil =>
    refine ⟨iff_of_true rfl trivial, ?_⟩
    rintro _ ⟨⟩
    exact assembled
  | cons simple rest ih =>
    obtain ⟨-, direct, each⟩ := assembled.members plain
    cases found : outline.nested.find? (·.name == simple) with
    | none =>
      rw [Outline.inner?, found]
      refine ⟨iff_of_false nofun ?_, nofun⟩
      rintro ⟨isDirect, -⟩
      obtain ⟨type, inside, same⟩ := (direct _).mp isDirect
      exact find?_eq_none.mp found type inside (beq_iff_eq.mpr (join_injective same))
    | some type =>
      have inside := mem_of_find?_eq_some found
      obtain rfl : type.name = simple := beq_iff_eq.mp (find?_some found :)
      obtain ⟨places, types⟩ := ih (each type inside)
      rw [Outline.inner?, found]
      refine ⟨places.trans (and_iff_right ((direct _).mpr ⟨type, inside, rfl⟩)).symm, types⟩

end Registry

end JavaSlice.Slice

namespace JavaSlice

open Source Slice

/-! ## Places in a project -/

namespace Index

variable {units : List CompilationUnit}

/-- Files of a project in which no name belongs to two types and member types are nested as they are
written. -/
structure WellNested (units : List CompilationUnit) : Prop where
  unique : ((declarations units).map (·.decl.qualifiedName)).Nodup
  nested : ∀ unit ∈ units, unit.isNested = true

theorem WellFormed.wellNested (wellFormed : WellFormed units) : WellNested units :=
  ⟨wellFormed.unique, wellFormed.nested⟩

/-- A type of the project that stands in no other one. -/
def TopLevel (index : Index) (name : String) : Prop :=
  ∃ decl, index.typeDecl? name = some decl ∧ decl.outer = none

/-- Simple names lead from a type inwards, through types of the project. -/
def Leads (index : Index) (name : String) : List String → Prop
  | [] => True
  | simple :: rest => index.OuterLink (Dotted.join name simple) name ∧
    index.Leads (Dotted.join name simple) rest

/-- In well nested files without repeated names, a member type is named after the type that encloses
it. -/
theorem name_of_outer (wellNested : WellNested units)
    (stored : (ofUnits units).types.get? name = some type)
    (isOuter : type.decl.outer = some outer) : name = Dotted.join outer type.decl.name := by
  obtain ⟨inProject, inFile⟩ := mem_declarations_iff.mp (mem_declarations_of_get? stored)
  rcases CompilationUnit.member_of_mem_declaredTypes (wellNested.nested _ inProject) inFile with
    atTop | ⟨encloser, -, member⟩
  · simp [atTop] at isOuter
  · rw [← qualifiedName_of_get? stored, member.qualifiedName,
      Option.some.inj (member.outer.symm.trans isOuter)]

end Index

namespace Slice

section

variable {units} (wellNested : Index.WellNested units)
include wellNested

/-- With the header of a type, those of the types around it are needed. -/
theorem Task.Needed.outer {seeds member outer}
    (needed : (Task.header member).Needed (Index.ofUnits units) seeds)
    (linked : (Index.ofUnits units).OuterLink member outer) :
    (Task.header outer).Needed (Index.ofUnits units) seeds := by
  obtain ⟨key, owner, type, keyNeeded, present, around, rfl⟩ := needed
  obtain ⟨decl, found, isOuter⟩ := linked
  obtain ⟨name, named⟩ := Index.typeDecl?_of_encloses present around
  rw [Index.named_ofUnits units name type named, named, Option.some.injEq] at found
  subst found
  obtain ⟨encloser, step, isEncloser, -⟩ :=
    Index.outerStep_of_outer wellNested.unique wellNested.nested named isOuter
  exact ⟨key, owner, encloser, keyNeeded, present, around.tail step, isEncloser⟩

theorem Task.Needed.of_leads (leads : (Index.ofUnits units).Leads name path)
    (needed : (Task.header (path.foldl Dotted.join name)).Needed (Index.ofUnits units) seeds) :
    (Task.header name).Needed (Index.ofUnits units) seeds := by
  induction path generalizing name with
  | nil => exact needed
  | cons simple rest ih => exact (ih leads.2 needed).outer wellNested leads.1

theorem Task.Needed.around {inner}
    (inside : Relation.ReflTransGen (Index.ofUnits units).OuterLink inner name)
    (needed : (Task.header inner).Needed (Index.ofUnits units) seeds) :
    (Task.header name).Needed (Index.ofUnits units) seeds := by
  induction inside with
  | refl => exact needed
  | tail _ linked ih => exact ih.outer wellNested linked

end

/-! ## The files of a finished walk -/

namespace Walk

/-- A walk has come to its end without an error, and every file has taken in the tasks of its
type. -/
structure Finished (units : List CompilationUnit) (seeds : List Seed) (walk : Walk) : Prop where
  solved : Solved (Index.ofUnits units) seeds walk
  recorded : walk.Recorded (Index.ofUnits units)

theorem finished_solve (ok : (start.solve (Index.ofUnits units) seeds).2 = none) :
    Finished units seeds (start.solve (Index.ofUnits units) seeds).1 where
  solved := solved_solve (Index.named_ofUnits units) ok
  recorded := (recorded_start _).solve (Index.named_ofUnits units) (coherent_start _) ok

namespace Finished

variable {units : List CompilationUnit} {seeds : List Seed} {walk : Walk}
variable {name : String}

variable (finished : Finished units seeds walk) (wellNested : Index.WellNested units)
variable {file : OutputFile}
include finished wellNested

theorem done_iff (task : Task) : walk.Done task ↔ task.Needed (Index.ofUnits units) seeds :=
  finished.solved.done_iff_needed (Index.outerAcyclic_of_isNested wellNested.nested) task

theorem mem_fileNames_iff_needed (name : String) :
    name ∈ walk.fileNames ↔ (Task.header name).Needed (Index.ofUnits units) seeds :=
  (finished.solved.found_iff_done (.header name)).trans (finished.done_iff wellNested _)

/-- The header of the type to which a needed task belongs is needed. -/
theorem owner_needed {task : Task} (needed : task.Needed (Index.ofUnits units) seeds) :
    (Task.header task.owner).Needed (Index.ofUnits units) seeds := by
  have found := found_of_done ((finished.done_iff wellNested task).mpr needed)
  exact (finished.mem_fileNames_iff_needed wellNested _).mp
    (finished.solved.tracks.coherent.owner_mem_fileNames (Index.named_ofUnits units) found)

/-- A file belongs to a type of the project, and has taken in the tasks of this type. -/
theorem history (found : walk.registry.file? name = some file) :
    ∃ type tasks, (Index.ofUnits units).types.get? name = some type ∧
      History (Index.ofUnits units) walk name file (.ofDecl type.unit type.decl) tasks := by
  obtain ⟨fresh, tasks, history⟩ := finished.recorded name file found
  obtain ⟨type, stored, rfl⟩ := history.made.eq_ofDecl wellNested.unique wellNested.nested
  exact ⟨type, tasks, stored, history⟩

/-- A file still shows of its type what it was made with. -/
theorem titled (found : walk.registry.file? name = some file) :
    ∃ type, (Index.ofUnits units).types.get? name = some type ∧ file.outer = type.decl.outer ∧
      file.package = type.unit.package ∧ file.type.title = .ofDecl type.decl ∧
        file.type.nested = [] := by
  obtain ⟨type, tasks, stored, history⟩ := finished.history wellNested found
  have bare : file.bare = (OutputFile.ofDecl type.unit type.decl).bare := by
    rw [history.file, OutputFile.bare_foldl_takeIn]
  exact ⟨type, stored, congrArg (·.outer) bare, congrArg (·.package) bare,
    congrArg (·.type.title) bare, congrArg (·.type.nested) bare⟩

theorem plain :
    Registry.Plain walk.registry.files where
  flat := by
    intro name file found
    obtain ⟨-, -, -, -, -, flat⟩ := finished.titled wellNested found
    exact flat
  dotted := by
    intro name file outer found isOuter
    obtain ⟨type, stored, sameOuter, -, title, -⟩ := finished.titled wellNested found
    have sameName : file.type.name = type.decl.name := (congrArg Outline.name title :)
    rw [sameName]
    exact Index.name_of_outer wellNested stored (sameOuter.symm.trans isOuter)

/-- The files belong to the types with a needed header, and name the types that enclose these. -/
theorem exists_file_iff (outer : Option String) :
    (∃ file, walk.registry.file? name = some file ∧ file.outer = outer) ↔
      (Task.header name).Needed (Index.ofUnits units) seeds ∧
        ∃ decl, (Index.ofUnits units).typeDecl? name = some decl ∧ decl.outer = outer := by
  rw [← finished.mem_fileNames_iff_needed wellNested, mem_fileNames_iff, ← exists_and_right]
  refine exists_congr fun file => and_congr_right fun found => ?_
  obtain ⟨type, stored, sameOuter, -⟩ := finished.titled wellNested found
  rw [sameOuter, Index.typeDecl?, stored]
  simp

/-- A type stands directly inside another one among the files just if it does in the project and its
header is needed. -/
theorem directly_iff :
    Registry.Directly walk.registry.files member outer ↔
      (Task.header member).Needed (Index.ofUnits units) seeds ∧
        (Index.ofUnits units).OuterLink member outer :=
  Registry.directly_iff.trans (finished.exists_file_iff wellNested (some outer))

theorem enclosed : Registry.Enclosed walk.registry.files := by
  rintro ⟨name, file⟩ mem outer isOuter
  have found : walk.registry.file? name = some file :=
    Table.get?_of_mem finished.solved.tracks.coherent.once.files mem
  obtain ⟨needed, linked⟩ := (finished.directly_iff wellNested).mp
    (Registry.directly_iff.mpr ⟨file, found, isOuter⟩)
  obtain ⟨parent, isParent⟩ := mem_fileNames_iff.mp
    ((finished.mem_fileNames_iff_needed wellNested _).mpr (needed.outer wellNested linked))
  obtain ⟨type, stored, -, package, -⟩ := finished.titled wellNested found
  obtain ⟨decl, declared, declOuter⟩ := linked
  obtain ⟨encloser, step, rfl, shorter⟩ :=
    Index.outerStep_of_outer wellNested.unique wellNested.nested declared declOuter
  rw [Index.typeDecl?, stored, Option.map_some, Option.some.injEq] at declared
  subst declared
  -- both types stand in one source file, which gives both their package
  have around := Index.get?_of_encloses wellNested.unique wellNested.nested
    (Index.mem_declarations_of_get? stored) (.single step)
  obtain ⟨outerType, outerStored, -, outerPackage, -⟩ := finished.titled wellNested isParent
  obtain rfl := Option.some.inj (outerStored.symm.trans around)
  exact ⟨parent, isParent, outerPackage.trans package.symm, shorter⟩

omit wellNested in
theorem filesNamed : Registry.FilesNamed walk.registry.files :=
  finished.recorded.filesNamed finished.solved.tracks.coherent

/-- Simple names lead through files to a type just if they do so in the project and its header is
needed. -/
theorem lies_iff (needed : (Task.header name).Needed (Index.ofUnits units) seeds)
    (path : List String) :
    Registry.Lies walk.registry.files name path ↔ (Index.ofUnits units).Leads name path ∧
      (Task.header (path.foldl Dotted.join name)).Needed (Index.ofUnits units) seeds := by
  induction path generalizing name with
  | nil => exact iff_of_true trivial ⟨trivial, needed⟩
  | cons simple rest ih =>
    rw [Registry.Lies, finished.directly_iff wellNested, Index.Leads, List.foldl_cons]
    constructor
    · rintro ⟨⟨innerNeeded, linked⟩, further⟩
      obtain ⟨leads, last⟩ := (ih innerNeeded).mp further
      exact ⟨⟨linked, leads⟩, last⟩
    · rintro ⟨⟨linked, leads⟩, last⟩
      have innerNeeded := last.of_leads wellNested leads
      exact ⟨⟨innerNeeded, linked⟩, (ih innerNeeded).mpr ⟨leads, last⟩⟩

end Finished

end Walk

/-! ## What a slice holds -/

namespace Outcome

variable {outcome : Outcome}

/-- The type at a place: in a file, where simple names lead from its outermost type. -/
def typeAt? (outcome : Outcome) (name : String) (path : List String) : Option Outline :=
  (outcome.files.get? name).bind (·.type.inner? path)

/-- The members of the type at a place; none, if there is no type. -/
def membersAt (outcome : Outcome) (name : String) (path : List String) : List OutlineMember :=
  ((outcome.typeAt? name path).map (·.members)).getD []

/-- The imports of a file; none, if there is no file. -/
def importsOf (outcome : Outcome) (name : String) : List Import :=
  ((outcome.files.get? name).map (·.imports)).getD []

theorem mem_membersAt :
    member ∈ outcome.membersAt name path ↔ ∃ type, outcome.typeAt? name path = some type ∧
      member ∈ type.members := by
  rw [membersAt]
  cases outcome.typeAt? name path <;> simp

theorem mem_importsOf :
    line ∈ outcome.importsOf name ↔ ∃ file, outcome.files.get? name = some file ∧
      line ∈ file.imports := by
  rw [importsOf]
  cases outcome.files.get? name <;> simp

end Outcome

/-- Some needed task is of a kind. -/
def Caused (index : Index) (seeds : List Seed) (causes : Task → Prop) : Prop :=
  ∃ task : Task, task.Needed index seeds ∧ causes task

theorem caused_eq_and {condition : Prop} :
    Caused index seeds (fun task => task = given ∧ condition) ↔
      given.Needed index seeds ∧ condition := by
  constructor
  · rintro ⟨_, needed, rfl, holds⟩
    exact ⟨needed, holds⟩
  · rintro ⟨needed, holds⟩
    exact ⟨given, needed, rfl, holds⟩

namespace Walk.Finished

variable {units : List CompilationUnit} {seeds : List Seed} {walk : Walk}
variable {name : String} {result : OutputFile}

variable (finished : Finished units seeds walk) (wellNested : Index.WellNested units)
variable {path : List String} {type : Outline} {line : Import}
include finished wellNested

theorem mem_declarations_iff (key : Key) :
    key ∈ (Outcome.ofWalk walk).1.declarations ↔
      Caused (Index.ofUnits units) seeds (· = .node key) := by
  simp only [Caused, exists_eq_right]
  exact Registry.mem_visitedKeys_iff.trans (finished.done_iff wellNested (.node key))

/-- A file is in the output if it belongs to an outermost type with a needed header. -/
theorem mem_names_iff (name : String) :
    name ∈ (Outcome.ofWalk walk).1.files.names ↔
      (Index.ofUnits units).TopLevel name ∧
        (Task.header name).Needed (Index.ofUnits units) seeds := by
  have once := finished.solved.tracks.coherent.once.files
  refine ((finished.enclosed wellNested).mem_names once finished.filesNamed name).trans ?_
  exact (finished.exists_file_iff wellNested none).trans and_comm

/-- A file of the output belongs to an outermost type and shows all that is needed inside it. -/
theorem assembled (isResult : (Outcome.ofWalk walk).1.files.get? name = some result) :
    Registry.Assembled walk.registry.files name result.type := by
  have once := finished.solved.tracks.coherent.once.files
  obtain ⟨-, -, -, shown, -⟩ :=
    (finished.enclosed wellNested).outputFile once finished.filesNamed isResult
  exact shown

/-- A file of the output has the package of its type. -/
theorem package_result (isResult : (Outcome.ofWalk walk).1.files.get? name = some result) :
    ∃ type, (Index.ofUnits units).types.get? name = some type ∧
      result.package = type.unit.package := by
  have once := finished.solved.tracks.coherent.once.files
  obtain ⟨file, found, same, -⟩ :=
    (finished.enclosed wellNested).outputFile once finished.filesNamed isResult
  obtain ⟨type, stored, -, package, -⟩ := finished.titled wellNested found
  exact ⟨type, stored, same.trans package⟩

/-- A type stands at a place in the output if its header is needed. -/
theorem isSome_typeAt?_iff (name : String) (path : List String) :
    ((Outcome.ofWalk walk).1.typeAt? name path).isSome ↔
        Caused (Index.ofUnits units) seeds fun task =>
      task = .header (path.foldl Dotted.join name) ∧ (Index.ofUnits units).TopLevel name ∧
        (Index.ofUnits units).Leads name path := by
  have names := finished.mem_names_iff wellNested name
  rw [← Table.get?_isSome_iff] at names
  rw [caused_eq_and, Outcome.typeAt?]
  cases isResult : (Outcome.ofWalk walk).1.files.get? name with
  | none =>
    rw [isResult] at names
    refine iff_of_false nofun ?_
    rintro ⟨needed, top, leads⟩
    exact nomatch names.mpr ⟨top, needed.of_leads wellNested leads⟩
  | some result =>
    rw [isResult] at names
    obtain ⟨top, needed⟩ := names.mp rfl
    have places :=
      ((finished.assembled wellNested isResult).inner? (finished.plain wellNested) path).1
    rw [finished.lies_iff wellNested needed] at places
    refine places.trans ?_
    constructor
    · rintro ⟨leads, last⟩
      exact ⟨last, top, leads⟩
    · rintro ⟨last, -, leads⟩
      exact ⟨leads, last⟩

/-- The type at a place has the title of its declaration, and the members of its file. -/
theorem shows (isType : (Outcome.ofWalk walk).1.typeAt? name path = some type) :
    ∃ file indexed, walk.registry.file? (path.foldl Dotted.join name) = some file ∧
      (Index.ofUnits units).types.get? (path.foldl Dotted.join name) = some indexed ∧
      type.title = .ofDecl indexed.decl ∧ type.members.Perm file.type.members := by
  obtain ⟨result, isResult, inside⟩ := Option.bind_eq_some_iff.mp isType
  have place := ((finished.assembled wellNested isResult).inner? (finished.plain wellNested) path).2
    type inside
  obtain ⟨file, found, title, members⟩ := place.shows
  obtain ⟨indexed, stored, -, -, fileTitle, -⟩ := finished.titled wellNested found
  exact ⟨file, indexed, found, stored, title.trans fileTitle, members⟩

omit wellNested in
/-- A member is kept at a place if its key is needed. -/
theorem mem_membersAt_iff (wellFormed : Index.WellFormed units) (name : String) (path : List String)
    (member : OutlineMember) :
    member ∈ (Outcome.ofWalk walk).1.membersAt name path ↔
        Caused (Index.ofUnits units) seeds fun task =>
      ∃ key decl, task = .node ⟨path.foldl Dotted.join name, key⟩ ∧
        (Index.ofUnits units).typeDecl? (path.foldl Dotted.join name) = some decl ∧
        OutlineMember.copy? decl key = some member ∧
        (Index.ofUnits units).TopLevel name ∧ (Index.ofUnits units).Leads name path := by
  have places := finished.isSome_typeAt?_iff wellFormed.wellNested name path
  rw [caused_eq_and] at places
  have kept : ∀ type decl, (Outcome.ofWalk walk).1.typeAt? name path = some type →
      (Index.ofUnits units).typeDecl? (path.foldl Dotted.join name) = some decl →
      (member ∈ type.members ↔ ∃ key,
        (Task.node ⟨path.foldl Dotted.join name, key⟩).Needed (Index.ofUnits units) seeds ∧
          OutlineMember.copy? decl key = some member) := by
    intro type decl isType declared
    obtain ⟨file, -, found, -, -, members⟩ := finished.shows wellFormed.wellNested isType
    obtain ⟨_, _, -, history⟩ := finished.history wellFormed.wellNested found
    rw [members.mem_iff,
      (history.copiesOf declared (wellFormed.fields.of_typeDecl? declared)).mem_iff]
    simp only [← finished.done_iff wellFormed.wellNested]
    rfl
  rw [Outcome.mem_membersAt]
  constructor
  · rintro ⟨type, isType, isMember⟩
    obtain ⟨-, indexed, -, stored, -⟩ := finished.shows wellFormed.wellNested isType
    have declared : (Index.ofUnits units).typeDecl? (path.foldl Dotted.join name) =
        some indexed.decl := by
      rw [Index.typeDecl?, stored, Option.map_some]
    obtain ⟨-, top, leads⟩ := places.mp (by rw [isType]; rfl)
    obtain ⟨key, needed, copied⟩ := (kept type _ isType declared).mp isMember
    exact ⟨_, needed, key, _, rfl, declared, copied, top, leads⟩
  · rintro ⟨_, needed, key, decl, rfl, declared, copied, top, leads⟩
    obtain ⟨type, isType⟩ := Option.isSome_iff_exists.mp
      (places.mpr ⟨finished.owner_needed wellFormed.wellNested needed, top, leads⟩)
    exact ⟨type, isType, (kept type decl isType declared).mpr ⟨key, needed, copied⟩⟩

/-- Types stand inside one another among the files as they do in the project, as far as headers are
needed. -/
theorem inside_iff {inner} (needed : (Task.header inner).Needed (Index.ofUnits units) seeds) :
    Relation.ReflTransGen (Registry.Directly walk.registry.files) inner name ↔
      Relation.ReflTransGen (Index.ofUnits units).OuterLink inner name := by
  constructor
  · intro inside
    exact inside.lift id fun _ _ direct => ((finished.directly_iff wellNested).mp direct).2
  · intro inside
    induction inside using Relation.ReflTransGen.head_induction_on with
    | refl => exact .refl
    | head linked _ ih =>
      exact .head ((finished.directly_iff wellNested).mpr ⟨needed, linked⟩)
        (ih (needed.outer wellNested linked))

/-- A file before folding has the lines that needed tasks of its type use, without those of its own
package. -/
theorem mem_imports_iff (found : walk.registry.file? name = some file) :
    line ∈ file.imports ↔ file.isOwnPackage line = false ∧
      Caused (Index.ofUnits units) seeds fun task =>
        task.owner = name ∧ .useImport line ∈ task.steps (Index.ofUnits units) := by
  obtain ⟨type, tasks, stored, history⟩ := finished.history wellNested found
  rw [history.imports.2, history.isOwnPackage_eq, and_comm]
  simp only [finished.done_iff wellNested, Caused, and_assoc, and_left_comm]

/-- A file of the output has the imports of all types that stand in it. -/
theorem mem_imports_result_iff (isResult : (Outcome.ofWalk walk).1.files.get? name = some result) :
    line ∈ result.imports ↔ Registry.ImportedWithin walk.registry.files line name := by
  have once := finished.solved.tracks.coherent.once.files
  have enclosed := finished.enclosed wellNested
  obtain ⟨file, found, -, -, imports⟩ := enclosed.outputFile once finished.filesNamed isResult
  rw [imports, Registry.importedWithin_iff found, Registry.exists_importedWithin_iff]
  refine or_congr_right (and_iff_right_of_imp ?_)
  rintro ⟨inner, innerFile, inside, isInner, imported⟩
  have foreign := ((finished.mem_imports_iff wellNested isInner).mp imported).1
  rwa [OutputFile.isOwnPackage, enclosed.package_eq inside.to_reflTransGen isInner found] at foreign

/-- A file of the output has an import line if a needed task uses it, of a type that stands in the
file. -/
theorem mem_importsOf_iff (name : String) (line : Import) :
    line ∈ (Outcome.ofWalk walk).1.importsOf name ↔ Caused (Index.ofUnits units) seeds fun task =>
      .useImport line ∈ task.steps (Index.ofUnits units) ∧
        Relation.ReflTransGen (Index.ofUnits units).OuterLink task.owner name ∧
        ∃ type, (Index.ofUnits units).types.get? name = some type ∧ type.decl.outer = none ∧
          (OutputFile.ofDecl type.unit type.decl).isOwnPackage line = false := by
  have enclosed := finished.enclosed wellNested
  have headers := finished.mem_fileNames_iff_needed wellNested
  rw [Outcome.mem_importsOf]
  constructor
  · rintro ⟨result, isResult, imported⟩
    obtain ⟨⟨decl, declared, top⟩, needed⟩ :=
      (finished.mem_names_iff wellNested name).mp (Table.mem_names_of_get? isResult)
    obtain ⟨inner, innerFile, inside, isInner, imported⟩ :=
      (finished.mem_imports_result_iff wellNested isResult).mp imported
    obtain ⟨foreign, task, taskNeeded, rfl, used⟩ :=
      (finished.mem_imports_iff wellNested isInner).mp imported
    have innerNeeded := (headers task.owner).mp (mem_fileNames_iff.mpr ⟨innerFile, isInner⟩)
    obtain ⟨file, found⟩ := mem_fileNames_iff.mp ((headers name).mpr needed)
    obtain ⟨type, stored, -, package, -⟩ := finished.titled wellNested found
    rw [Index.typeDecl?, stored, Option.map_some, Option.some.injEq] at declared
    rw [OutputFile.isOwnPackage, enclosed.package_eq inside isInner found, package] at foreign
    exact ⟨task, taskNeeded, used, (finished.inside_iff wellNested innerNeeded).mp inside, type,
      stored, declared ▸ top, foreign⟩
  · rintro ⟨task, needed, used, inside, type, stored, top, foreign⟩
    have innerNeeded := finished.owner_needed wellNested needed
    have nameNeeded := innerNeeded.around wellNested inside
    have isTop : (Index.ofUnits units).TopLevel name :=
      ⟨type.decl, by rw [Index.typeDecl?, stored]; rfl, top⟩
    obtain ⟨result, isResult⟩ := Option.isSome_iff_exists.mp
      ((Table.get?_isSome_iff _ _).mpr
        ((finished.mem_names_iff wellNested name).mpr ⟨isTop, nameNeeded⟩))
    obtain ⟨innerFile, isInner⟩ := mem_fileNames_iff.mp ((headers _).mpr innerNeeded)
    obtain ⟨file, found⟩ := mem_fileNames_iff.mp ((headers name).mpr nameNeeded)
    obtain ⟨again, storedAgain, -, package, -⟩ := finished.titled wellNested found
    obtain rfl := Option.some.inj (storedAgain.symm.trans stored)
    have within := (finished.inside_iff wellNested innerNeeded).mpr inside
    have innerForeign : innerFile.isOwnPackage line = false := by
      rw [OutputFile.isOwnPackage, enclosed.package_eq within isInner found, package]
      exact foreign
    refine ⟨result, isResult, (finished.mem_imports_result_iff wellNested isResult).mpr ?_⟩
    exact ⟨task.owner, innerFile, within, isInner,
      (finished.mem_imports_iff wellNested isInner).mpr ⟨innerForeign, task, needed, rfl, used⟩⟩

omit wellNested in
/-- No member and no member type stands twice at a place. -/
theorem nodup_at (wellFormed : Index.WellFormed units)
    (isType : (Outcome.ofWalk walk).1.typeAt? name path = some type) :
    type.members.Nodup ∧ (type.nested.map (·.name)).Nodup := by
  obtain ⟨result, isResult, inside⟩ := Option.bind_eq_some_iff.mp isType
  have plain := finished.plain wellFormed.wellNested
  have place := ((finished.assembled wellFormed.wellNested isResult).inner? plain path).2
    type inside
  constructor
  · obtain ⟨file, found, -, members⟩ := place.shows
    obtain ⟨indexed, tasks, stored, history⟩ := finished.history wellFormed.wellNested found
    have declared : (Index.ofUnits units).typeDecl? (path.foldl Dotted.join name) =
        some indexed.decl := by
      rw [Index.typeDecl?, stored, Option.map_some]
    exact members.nodup_iff.mpr
      (history.copiesOf declared (wellFormed.fields.of_typeDecl? declared)).distinct
  · have names := (place.members plain).1
    rw [← Function.comp_def, ← List.map_map] at names
    exact names.of_map

omit wellNested in
theorem imports_nodup (isResult : (Outcome.ofWalk walk).1.files.get? name = some result) :
    result.imports.Nodup := by
  have once := finished.solved.tracks.coherent.once.files
  refine Registry.importsOnce_outputFiles (fun entry mem => ?_) _ (Table.mem_of_get? isResult)
  obtain ⟨fresh, tasks, history⟩ := finished.recorded entry.1 entry.2 (Table.get?_of_mem once mem)
  exact history.imports.1

end Walk.Finished

end Slice

end JavaSlice
