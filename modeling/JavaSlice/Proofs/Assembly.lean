import JavaSlice.Proofs.Folding

/-!
# Member types in the output

The files of member types are folded into those of their enclosing types, one after the other. A
fold takes a file out of the table and puts it into another one, or back where it was if there is no
file to put it into.

Whatever the enclosing types are called, nothing is lost on the way and nothing is doubled. A fold
changes the types of a table, those inside others counted too, in their order only
(`typesOf_foldFile`). So it is with all folds, even if the names of enclosing types are unknown or
lead around in a circle.

A table is *enclosed* if every enclosing type that is named has a file of the same package under a
shorter name. Longer names are folded first then, so that a file has taken in all its own members
when its turn comes. What has been folded is complete at every stage (`Gathered`), which one fold
keeps (`Gathered.foldFile`). In the end the files of the outermost types are left, and each type
stands directly inside the one that encloses it (`outputFiles_assembled`).
-/

namespace JavaSlice.Slice

open List Source

/-! ## The types of an outline -/

namespace Outline

/-- An outline with other types inside it. -/
def withInner (outline : Outline) (inner : List Outline) : Outline :=
  { outline with nested := inner }

@[simp]
theorem withInner_nested (outline : Outline) (inner : List Outline) :
    (outline.withInner inner).nested = inner := rfl

theorem withInner_self (outline : Outline) : outline.withInner outline.nested = outline := by
  cases outline
  rfl

theorem sort_withInner (outline : Outline) (inner : List Outline) :
    (outline.withInner inner).sort = outline.sort.withInner
      ((inner.map sort).mergeSort nameLe) := by
  simp only [sort_eq, withInner]

mutual

/-- The types of an outline, at any depth, each without the types inside it. -/
def parts : Outline → List Outline
  | ⟨name, kind, header, preamble, members, nested⟩ =>
    ⟨name, kind, header, preamble, members, []⟩ :: partsOfAll nested

/-- The types of some outlines. -/
def partsOfAll : List Outline → List Outline
  | [] => []
  | outline :: outlines => outline.parts ++ partsOfAll outlines

end

theorem partsOfAll_eq (outlines : List Outline) : partsOfAll outlines = outlines.flatMap parts := by
  induction outlines with
  | nil => rfl
  | cons outline rest ih => rw [partsOfAll, ih, flatMap_cons]

/-- The parts of an outline are itself and those of its member types. -/
theorem parts_eq (outline : Outline) :
    outline.parts = outline.withInner [] :: outline.nested.flatMap parts := by
  cases outline
  rw [parts, partsOfAll_eq, withInner]

/-- The types of an outline with one more type inside it. -/
theorem parts_append_nested (outline inner : Outline) :
    (outline.withInner (outline.nested ++ [inner])).parts = outline.parts ++ inner.parts := by
  rw [parts_eq, parts_eq outline, withInner_nested, flatMap_append, flatMap_singleton, cons_append]
  rfl

/-- Sorting loses no part. -/
theorem parts_sort (outline : Outline) : outline.sort.parts.Perm (outline.parts.map sort) := by
  rw [parts_eq, parts_eq outline, map_cons, sort_withInner, map_nil, mergeSort_nil]
  refine .cons _ ?_
  have sorted : outline.sort.nested.Perm (outline.nested.map sort) := by
    rw [sort_eq]
    exact mergeSort_perm _ _
  refine (sorted.flatMap_right parts).trans ?_
  rw [flatMap_map, map_flatMap]
  exact List.Perm.flatMap_left _ fun inner inside => inner.parts_sort
termination_by sizeOf outline
decreasing_by exact sizeOf_lt_of_mem_nested inside

end Outline

/-! ## Nothing is lost -/

namespace Registry

variable {files : Table OutputFile} {name outer : String} {registry : Registry}
  {file result : OutputFile} {done rest : List String}

/-- The types of a table of files, at any depth. -/
def typesOf (files : Table OutputFile) : List Outline :=
  files.flatMap (·.2.type.parts)

theorem foldFile_of_missing (missing : files.get? name = none) :
    foldFile files name = (files, []) := by
  rw [foldFile, missing]

section

variable {file : OutputFile} {name : String} {files : Table OutputFile}
  (found : files.get? name = some file)
include found

/-- A member type joins the file of its enclosing type. -/
theorem foldFile_of_parent (parent : file.outer.getD "" ∈ (files.drop name).names) :
    foldFile files name = ((files.drop name).update (file.outer.getD "") (·.absorb file), []) := by
  simp only [foldFile, found, (Table.has_iff _ _).mpr parent, if_true]

/-- A member type without such a file stays. -/
theorem foldFile_of_orphan (orphan : file.outer.getD "" ∉ (files.drop name).names) :
    foldFile files name = ((files.drop name).put name file,
      [orphanWarning (file.outer.getD "") name]) := by
  have absent : (files.drop name).has (file.outer.getD "") = false :=
    Bool.eq_false_iff.mpr (mt (Table.has_iff _ _).mp orphan)
  simp only [foldFile, found, absent, Bool.false_eq_true, if_false]

end

theorem not_mem_names_drop (name : String) : name ∉ (files.drop name).names := by
  rw [← Table.get?_eq_none_iff, Table.get?_drop, if_pos rfl]

theorem names_foldFile_nodup (once : files.names.Nodup) (name : String) :
    (foldFile files name).1.names.Nodup := by
  have rest := Table.names_drop_nodup once name
  cases found : files.get? name with
  | none => rwa [foldFile_of_missing found]
  | some file =>
    by_cases parent : file.outer.getD "" ∈ (files.drop name).names
    · rwa [foldFile_of_parent found parent, Table.names_update]
    · rw [foldFile_of_orphan found parent]
      exact Table.names_put_nodup rest name file

/-- A fold moves one file, and so changes the types of a table in their order only. -/
theorem typesOf_foldFile (once : files.names.Nodup) (name : String) :
    (typesOf (foldFile files name).1).Perm (typesOf files) := by
  have rest := Table.names_drop_nodup once name
  cases found : files.get? name with
  | none => rw [foldFile_of_missing found]
  | some file =>
    have apart : (typesOf files).Perm (file.type.parts ++ typesOf (files.drop name)) :=
      (Table.perm_cons_drop once found).flatMap_right _
    by_cases parent : file.outer.getD "" ∈ (files.drop name).names
    · obtain ⟨taker, isTaker⟩ :=
        Option.isSome_iff_exists.mp ((Table.get?_isSome_iff _ _).mpr parent)
      have before : (typesOf (files.drop name)).Perm
          (taker.type.parts ++ typesOf ((files.drop name).drop (file.outer.getD ""))) :=
        (Table.perm_cons_drop rest isTaker).flatMap_right _
      have after : (typesOf (foldFile files name).1).Perm
          ((taker.absorb file).type.parts ++
            typesOf ((files.drop name).drop (file.outer.getD ""))) := by
        rw [foldFile_of_parent found parent]
        exact (Table.update_perm rest isTaker (·.absorb file)).flatMap_right _
      refine after.trans (.trans ?_ (apart.trans (before.append_left _)).symm)
      rw [OutputFile.absorb_eq, ← Outline.withInner, Outline.parts_append_nested, ← append_assoc]
      exact perm_append_comm.append_right _
    · rw [foldFile_of_orphan found parent, Table.put_of_not_mem (not_mem_names_drop name), typesOf,
        flatMap_append, flatMap_singleton]
      exact perm_append_comm.trans apart.symm

theorem typesOf_foldFiles (once : files.names.Nodup) (names : List String) :
    (foldFiles files names).1.names.Nodup ∧
      (typesOf (foldFiles files names).1).Perm (typesOf files) := by
  induction names generalizing files with
  | nil => exact ⟨once, .refl _⟩
  | cons name rest ih =>
    obtain ⟨onceMore, perm⟩ := ih (names_foldFile_nodup once name)
    exact ⟨onceMore, perm.trans (typesOf_foldFile once name)⟩

/-- The order in which the files of member types are folded. -/
def foldOrder (files : Table OutputFile) : List String :=
  (memberNames files).mergeSort foldLe

/-- The output is what folding leaves, finished and in the order of names. -/
theorem outputFiles_perm (registry : Registry) :
    registry.outputFiles.1.Perm ((foldFiles registry.files (foldOrder registry.files)).1.map
        fun entry =>
      (entry.1, entry.2.finalize)) :=
  (mergeSort_perm _ _).map _

section

variable (once : registry.files.names.Nodup)
include once

theorem names_outputFiles_nodup : registry.outputFiles.1.names.Nodup := by
  refine (registry.outputFiles_perm.map _).nodup_iff.mpr ?_
  rw [map_map]
  exact (typesOf_foldFiles once (foldOrder registry.files)).1

/-- The output files are those that are left, finished. -/
theorem get?_outputFiles (name : String) :
    registry.outputFiles.1.get? name =
      ((foldFiles registry.files (foldOrder registry.files)).1.get? name).map
        OutputFile.finalize := by
  rw [Table.get?_eq_of_perm (names_outputFiles_nodup once) registry.outputFiles_perm,
    Table.get?_map]

/-- Folding loses no type and doubles none: the types of the output, at any depth, are those of all
files, each with the members that it had, in their order. -/
theorem typesOf_outputFiles :
    (typesOf registry.outputFiles.1).Perm ((typesOf registry.files).map Outline.sort) := by
  have folded := (typesOf_foldFiles once (foldOrder registry.files)).2
  refine (registry.outputFiles_perm.flatMap_right _).trans (.trans ?_ (folded.map Outline.sort))
  rw [flatMap_map, typesOf, map_flatMap]
  exact List.Perm.flatMap_left _ fun entry _ => entry.2.type.parts_sort

end

/-! ## Imports -/

/-- No file of a table has an import line twice. -/
def ImportsOnce (files : Table OutputFile) : Prop :=
  ∀ entry ∈ files, entry.2.imports.Nodup

/-- A file that takes in another one takes in only lines that it does not have. -/
theorem importsOnce_foldFile (once : ImportsOnce files) (name : String) :
    ImportsOnce (foldFile files name).1 := by
  have left : ImportsOnce (files.drop name) := fun entry mem => once entry (mem_of_mem_filter mem)
  cases found : files.get? name with
  | none => rwa [foldFile_of_missing found]
  | some file =>
    by_cases parent : file.outer.getD "" ∈ (files.drop name).names
    · rw [foldFile_of_parent found parent]
      intro entry mem
      obtain ⟨old, before, rfl⟩ := mem_map.mp mem
      dsimp only
      split
      · rw [OutputFile.absorb_eq]
        exact (OutputFile.imports_foldl_addImport (left old before) file.imports).1
      · exact left old before
    · rw [foldFile_of_orphan found parent]
      intro entry mem
      rcases Table.mem_put mem with before | rfl
      · exact left entry before
      · exact once (name, entry.2) (Table.mem_of_get? found)

theorem importsOnce_foldFiles (once : ImportsOnce files) (names : List String) :
    ImportsOnce (foldFiles files names).1 := by
  induction names generalizing files with
  | nil => exact once
  | cons name rest ih => exact ih (importsOnce_foldFile once name)

theorem importsOnce_outputFiles (once : ImportsOnce registry.files) :
    ImportsOnce registry.outputFiles.1 := by
  intro entry mem
  rw [registry.outputFiles_perm.mem_iff] at mem
  obtain ⟨folded, isFolded, rfl⟩ := mem_map.mp mem
  exact (mergeSort_perm _ _).nodup_iff.mpr (importsOnce_foldFiles once _ folded isFolded)

/-! ## Types inside one another -/

/-- A member type has a file, which names the type that encloses it. -/
def Directly (files : Table OutputFile) (member outer : String) : Prop :=
  (files.get? member).bind (·.outer) = some outer

instance (files : Table OutputFile) (member outer : String) :
    Decidable (Directly files member outer) :=
  inferInstanceAs (Decidable ((files.get? member).bind (·.outer) = some outer))

/-- A file stands directly inside that of its outer name. -/
theorem directly_iff :
    Directly files member outer ↔ ∃ file, files.get? member = some file ∧ file.outer = some outer :=
  Option.bind_eq_some_iff

/-- Every enclosing type that is named has a file of the same package under a shorter name. -/
def Enclosed (files : Table OutputFile) : Prop :=
  ∀ entry ∈ files, ∀ outer ∈ entry.2.outer, ∃ parent ∈ files.get? outer,
    parent.package = entry.2.package ∧ outer.utf8ByteSize < entry.1.utf8ByteSize

/-- An outline shows the type under a name: finished, and with its member types directly inside it,
each of which is shown in the same way. Types that were inside it before stay there. -/
inductive Assembled (files : Table OutputFile) : String → Outline → Prop where
  | intro {name : String} {file : OutputFile} {nested : List Outline} (members : List String)
      (inner : List Outline) (found : files.get? name = some file) (distinct : members.Nodup)
      (mem_iff : ∀ member, member ∈ members ↔ Directly files member name)
      (each : Forall₂ (Assembled files) members inner)
      (holds : nested.Perm (file.type.nested.map Outline.sort ++ inner)) :
      Assembled files name (file.type.sort.withInner nested)

/-- A line is among the imports of a type, or of one inside it. -/
def ImportedWithin (files : Table OutputFile) (line : Import) (name : String) : Prop :=
  ∃ inner file, Relation.ReflTransGen (Directly files) inner name ∧ files.get? inner = some file ∧
    line ∈ file.imports

theorem importedWithin_iff (found : files.get? name = some file) :
    ImportedWithin files line name ↔
      line ∈ file.imports ∨ ∃ member, Directly files member name ∧
        ImportedWithin files line member := by
  constructor
  · rintro ⟨inner, innerFile, inside, isFile, imported⟩
    cases inside.cases_tail with
    | inl same =>
      subst same
      rw [found, Option.some.injEq] at isFile
      exact .inl (isFile ▸ imported)
    | inr step =>
      obtain ⟨member, further, direct⟩ := step
      exact .inr ⟨member, direct, inner, innerFile, further, isFile, imported⟩
  · rintro (own | ⟨member, direct, inner, innerFile, inside, isFile, imported⟩)
    · exact ⟨name, file, .refl, found, own⟩
    · exact ⟨inner, innerFile, inside.tail direct, isFile, imported⟩

/-! ## One fold -/

/-- What the file of a type has become when the files of some member types have been folded: it
holds the finished types of those that it encloses, and the imports of all types inside them. -/
structure Holding (files : Table OutputFile) (done : List String) (name : String)
    (file result : OutputFile) : Prop where
  outer : result.outer = file.outer
  package : result.package = file.package
  type : ∃ inner, result.type = file.type.withInner (file.type.nested ++ inner) ∧
    Forall₂ (fun member outline => Assembled files member outline.sort)
      (done.filter (Directly files · name)) inner
  imports : ∀ line, line ∈ result.imports ↔ line ∈ file.imports ∨ file.isOwnPackage line = false ∧
    ∃ member ∈ done, Directly files member name ∧ ImportedWithin files line member

/-- The files that are left when some member types have been folded. -/
structure Gathered (files : Table OutputFile) (done : List String) (current : Table OutputFile) :
    Prop where
  once : current.names.Nodup
  left : ∀ name, name ∈ current.names ↔ name ∈ files.names ∧ name ∉ done
  holds : ∀ name file, files.get? name = some file → name ∉ done →
    ∃ result, current.get? name = some result ∧ Holding files done name file result

theorem gathered_start (once : files.names.Nodup) : Gathered files [] files where
  once := once
  left := by simp
  holds := by
    intro name file found _
    refine ⟨file, found, rfl, rfl, ⟨[], ?_, .nil⟩, by simp⟩
    rw [append_nil, Outline.withInner_self]

/-- A type that has taken in all its members is assembled. -/
theorem Holding.assembled (holding : Holding files done name file result)
    (found : files.get? name = some file) (distinct : done.Nodup)
    (complete : ∀ member, Directly files member name → member ∈ done) :
    Assembled files name result.type.sort := by
  obtain ⟨inner, type, each⟩ := holding.type
  rw [type, Outline.sort_withInner]
  refine .intro (done.filter (Directly files · name)) (inner.map Outline.sort) found
    (distinct.filter _) ?_ ?_ ?_
  · intro member
    rw [mem_filter, decide_eq_true_eq]
    exact ⟨And.right, fun direct => ⟨complete member direct, direct⟩⟩
  · rw [forall₂_map_right_iff]
    exact each
  · rw [← map_append]
    exact mergeSort_perm _ _

/-- A fold of a type that is enclosed by another one. -/
theorem Holding.elsewhere (holding : Holding files done other file result)
    (elsewhere : ¬ Directly files name other) :
    Holding files (done ++ [name]) other file result where
  outer := holding.outer
  package := holding.package
  type := by
    rw [filter_append, filter_cons_of_neg (by simpa using elsewhere), filter_nil, append_nil]
    exact holding.type
  imports := by
    intro line
    rw [holding.imports]
    simp only [mem_append, mem_singleton, or_and_right, exists_or, exists_eq_left, elsewhere,
      false_and, or_false]

/-- The file of a type takes in the file of one of its member types. -/
theorem Holding.absorb (member : Holding files done name file result)
    (holding : Holding files done outer parent taker) (found : files.get? name = some file)
    (direct : Directly files name outer) (package : parent.package = file.package)
    (complete : ∀ inner, Directly files inner name → inner ∈ done)
    (assembled : Assembled files name result.type.sort) :
    Holding files (done ++ [name]) outer parent (taker.absorb result) := by
  have own : ∀ line, file.isOwnPackage line = parent.isOwnPackage line := by
    intro line
    rw [OutputFile.isOwnPackage, OutputFile.isOwnPackage, package]
  have takerOwn : ∀ line, taker.isOwnPackage line = parent.isOwnPackage line := by
    intro line
    rw [OutputFile.isOwnPackage, OutputFile.isOwnPackage, holding.package]
  rw [OutputFile.absorb_eq]
  refine ⟨holding.outer, holding.package, ?_, ?_⟩
  · obtain ⟨inner, type, each⟩ := holding.type
    refine ⟨inner ++ [result.type], ?_, ?_⟩
    · rw [type, ← append_assoc]
      rfl
    · rw [filter_append, filter_cons_of_pos (by simpa using direct), filter_nil]
      exact rel_append each (.cons assembled .nil)
  · intro line
    have within : ImportedWithin files line name ↔ line ∈ file.imports ∨
        ∃ inner ∈ done, Directly files inner name ∧ ImportedWithin files line inner := by
      rw [importedWithin_iff found]
      refine or_congr_right (exists_congr fun inner => ?_)
      rw [← and_assoc, and_iff_right_of_imp (complete inner)]
    rw [OutputFile.mem_imports_foldl_addImport, holding.imports, member.imports, takerOwn, own]
    simp only [mem_append, mem_singleton, or_and_right, exists_or, exists_eq_left, direct, true_and,
      within]
    cases parent.isOwnPackage line with
    | false => simp only [and_true, true_and, or_assoc]
    | true => simp only [Bool.true_eq_false, and_false, false_and, or_false]

/-- An order in which all member types can be folded: longer names come first. -/
structure Ordered (files : Table OutputFile) (order : List String) : Prop where
  distinct : order.Nodup
  mem_iff : ∀ name, name ∈ order ↔ ∃ outer, Directly files name outer
  sorted : order.Pairwise fun first second => second.utf8ByteSize ≤ first.utf8ByteSize

theorem ordered_foldOrder (once : files.names.Nodup) (named : FilesNamed files) :
    Ordered files (foldOrder files) where
  distinct := (mergeSort_perm _ _).nodup_iff.mpr (memberNames_nodup once named)
  mem_iff := by
    intro name
    simp only [foldOrder, mem_mergeSort, mem_memberNames once named, directly_iff,
      Option.isSome_iff_exists]
    constructor
    · rintro ⟨file, found, outer, isOuter⟩
      exact ⟨outer, file, found, isOuter⟩
    · rintro ⟨outer, file, found, isOuter⟩
      exact ⟨file, found, outer, isOuter⟩
  sorted := by
    refine (pairwise_mergeSort orders_foldLe.trans orders_foldLe.total _).imp ?_
    intro first second before
    simp only [foldLe] at before
    grind

section

variable (enclosed : Enclosed files)
include enclosed

theorem Enclosed.parent (found : files.get? name = some file) (isOuter : file.outer = some outer) :
    ∃ parent, files.get? outer = some parent ∧ parent.package = file.package ∧
      outer.utf8ByteSize < name.utf8ByteSize :=
  enclosed (name, file) (Table.mem_of_get? found) outer isOuter

/-- Enclosing types have shorter names. -/
theorem Enclosed.shorter (direct : Directly files member outer) :
    outer.utf8ByteSize < member.utf8ByteSize := by
  obtain ⟨file, found, isOuter⟩ := directly_iff.mp direct
  obtain ⟨-, -, -, shorter⟩ := enclosed.parent found isOuter
  exact shorter

/-- A type is in the package of the types around it. -/
theorem Enclosed.package_eq {inner} (inside : Relation.ReflTransGen (Directly files) inner name)
    (found : files.get? inner = some innerFile) (isFile : files.get? name = some file) :
    innerFile.package = file.package := by
  induction inside using Relation.ReflTransGen.head_induction_on generalizing innerFile with
  | refl => rw [Option.some.inj (found.symm.trans isFile)]
  | head direct _ ih =>
    obtain ⟨again, foundAgain, isOuter⟩ := directly_iff.mp direct
    obtain rfl := Option.some.inj (found.symm.trans foundAgain)
    obtain ⟨parent, isParent, package, -⟩ := enclosed.parent found isOuter
    exact package.symm.trans (ih isParent)

/-- When the turn of a member type comes, its own members have been folded and its enclosing type
has not. -/
theorem Ordered.turn (ordered : Ordered files (done ++ name :: rest)) :
    (∀ member, Directly files member name → member ∈ done) ∧
      ∀ outer, Directly files name outer → outer ∉ done ++ [name] := by
  obtain ⟨-, after, before⟩ := pairwise_append.mp ordered.sorted
  have later := (pairwise_cons.mp after).1
  constructor
  · intro member direct
    have longer := enclosed.shorter direct
    rcases mem_append.mp ((ordered.mem_iff member).mpr ⟨name, direct⟩) with isDone | waits
    · exact isDone
    · rcases mem_cons.mp waits with rfl | waits
      · omega
      · have := later member waits
        omega
  · intro outer direct
    have shorter := enclosed.shorter direct
    rw [mem_append, mem_singleton]
    rintro (isDone | rfl)
    · have := before outer isDone name mem_cons_self
      omega
    · omega

/-- One fold keeps everything that has been folded complete, and gives no warning. -/
theorem Gathered.foldFile (ordered : Ordered files (done ++ name :: rest))
    (gathered : Gathered files done current) :
    Gathered files (done ++ [name]) (foldFile current name).1 ∧ (foldFile current name).2 = [] := by
  obtain ⟨complete, open_⟩ := ordered.turn enclosed
  obtain ⟨distinct, others, apart⟩ := nodup_append.mp ordered.distinct
  have fresh : name ∉ done := fun isDone => apart name isDone name mem_cons_self rfl
  obtain ⟨outer, direct⟩ := (ordered.mem_iff name).mp (mem_append_right _ mem_cons_self)
  obtain ⟨file, found, isOuter⟩ := directly_iff.mp direct
  obtain ⟨parent, isParent, package, -⟩ := enclosed.parent found isOuter
  have outside := open_ outer direct
  rw [mem_append, mem_singleton, not_or] at outside
  obtain ⟨result, isResult, member⟩ := gathered.holds name file found fresh
  obtain ⟨taker, isTaker, holding⟩ := gathered.holds outer parent isParent outside.1
  have outerName : result.outer.getD "" = outer := by rw [member.outer, isOuter, Option.getD_some]
  have stays : outer ∈ (current.drop name).names := by
    rw [← Table.get?_isSome_iff, Table.get?_drop, if_neg outside.2, isTaker]
    rfl
  have folded : Registry.foldFile current name =
      ((current.drop name).update outer (·.absorb result), []) := by
    rw [foldFile_of_parent isResult (outerName.symm ▸ stays), outerName]
  refine ⟨⟨names_foldFile_nodup gathered.once name, ?_, ?_⟩, congrArg Prod.snd folded⟩
  · intro other
    rw [folded, Table.names_update, ← Table.get?_isSome_iff, Table.get?_drop, mem_append,
      mem_singleton]
    by_cases same : other = name
    · simp [same]
    · simp [same, Table.get?_isSome_iff, gathered.left]
  · intro other otherFile isFile left
    rw [mem_append, mem_singleton, not_or] at left
    rw [folded, Table.get?_update, Table.get?_drop, if_neg left.2]
    by_cases same : other = outer
    · subst same
      rw [isParent, Option.some.injEq] at isFile
      subst isFile
      rw [if_pos rfl, isTaker]
      exact ⟨_, rfl, member.absorb holding found direct package complete
        (member.assembled found distinct complete)⟩
    · obtain ⟨kept, isKept, keeping⟩ := gathered.holds other otherFile isFile left.1
      rw [if_neg same]
      refine ⟨kept, isKept, keeping.elsewhere fun alsoDirect => same ?_⟩
      exact Option.some.inj (alsoDirect.symm.trans direct)

/-- Folding in order gathers all member types. -/
theorem Gathered.foldFiles (ordered : Ordered files (done ++ rest))
    (gathered : Gathered files done current) :
    Gathered files (done ++ rest) (foldFiles current rest).1 ∧ (foldFiles current rest).2 = [] := by
  induction rest generalizing done current with
  | nil => exact ⟨(append_nil done).symm ▸ gathered, rfl⟩
  | cons name rest ih =>
    obtain ⟨next, quiet⟩ := gathered.foldFile enclosed ordered
    rw [append_cons] at ordered ⊢
    obtain ⟨final, silent⟩ := ih ordered next
    refine ⟨final, ?_⟩
    show (Registry.foldFile current name).2 ++
      (Registry.foldFiles (Registry.foldFile current name).1 rest).2 = []
    rw [quiet, silent, append_nil]

end

/-! ## The output -/

/-- One type stands inside another, at any depth. -/
def Inside (files : Table OutputFile) : String → String → Prop :=
  Relation.TransGen (Directly files)

theorem exists_importedWithin_iff :
    (∃ member, Directly files member name ∧ ImportedWithin files line member) ↔
      ∃ inner file, Inside files inner name ∧ files.get? inner = some file ∧
        line ∈ file.imports := by
  constructor
  · rintro ⟨member, direct, inner, file, inside, found, imported⟩
    exact ⟨inner, file, .tail' inside direct, found, imported⟩
  · rintro ⟨inner, file, inside, found, imported⟩
    obtain ⟨member, further, direct⟩ := Relation.TransGen.tail'_iff.mp inside
    exact ⟨member, direct, inner, file, further, found, imported⟩

section

variable (enclosed : Enclosed registry.files) (once : registry.files.names.Nodup)
  (named : FilesNamed registry.files)
include enclosed once named

/-- The files of member types have all been folded. -/
theorem Enclosed.gathered :
    Gathered registry.files (foldOrder registry.files)
      (foldFiles registry.files (foldOrder registry.files)).1 ∧ registry.outputFiles.2 = [] := by
  have ordered : Ordered registry.files ([] ++ foldOrder registry.files) :=
    ordered_foldOrder once named
  exact (gathered_start once).foldFiles enclosed ordered

/-- The output has the files of the types without an enclosing type. -/
theorem Enclosed.mem_names (name : String) :
    name ∈ registry.outputFiles.1.names ↔ ∃ file, registry.file? name = some file ∧
      file.outer = none := by
  refine mem_names_outputFiles once named (fun member file outer found isOuter => ?_) name
  obtain ⟨parent, isParent, -, shorter⟩ := enclosed.parent found isOuter
  exact ⟨Table.mem_names_of_get? isParent, shorter⟩

/-- A file of the output shows all types inside its own one, and has their imports, apart from
single types of its own package. -/
theorem Enclosed.outputFile (isResult : registry.outputFiles.1.get? name = some result) :
    ∃ file, registry.file? name = some file ∧ result.package = file.package ∧
      Assembled registry.files name result.type ∧
      ∀ line, line ∈ result.imports ↔ line ∈ file.imports ∨ file.isOwnPackage line = false ∧
        ∃ inner innerFile, Inside registry.files inner name ∧
          registry.file? inner = some innerFile ∧ line ∈ innerFile.imports := by
  have ordered := ordered_foldOrder once named
  obtain ⟨gathered, -⟩ := enclosed.gathered once named
  rw [get?_outputFiles once, Option.map_eq_some_iff] at isResult
  obtain ⟨whole, isWhole, rfl⟩ := isResult
  obtain ⟨present, top⟩ := (gathered.left name).mp (Table.mem_names_of_get? isWhole)
  obtain ⟨file, found⟩ := Option.isSome_iff_exists.mp ((Table.get?_isSome_iff _ _).mpr present)
  obtain ⟨_, again, holding⟩ := gathered.holds name file found top
  obtain rfl := Option.some.inj (again.symm.trans isWhole)
  have complete : ∀ member, Directly registry.files member name →
      member ∈ foldOrder registry.files :=
    fun member direct => (ordered.mem_iff member).mpr ⟨name, direct⟩
  refine ⟨file, found, holding.package, holding.assembled found ordered.distinct complete,
    fun line => ?_⟩
  have within : (∃ member ∈ foldOrder registry.files, Directly registry.files member name ∧
      ImportedWithin registry.files line member) ↔
      ∃ member, Directly registry.files member name ∧ ImportedWithin registry.files line member :=
    exists_congr fun member => ⟨And.right, fun inside => ⟨complete member inside.1, inside⟩⟩
  rw [OutputFile.finalize, mem_mergeSort, holding.imports, within, exists_importedWithin_iff]
  rfl

end

/-- Folding loses no type and doubles none, whatever the enclosing types are called: the types of
the output, at any depth, are those of all files, each with the members that it had. If moreover
every enclosing type that is named has a file of the same package under a shorter name, there is no
warning, the files that are left are those of the types without an enclosing type, each type stands
directly inside the one that encloses it, and a file has its own imports and those of all types
inside it, apart from single types of its own package. -/
theorem outputFiles_assembled (registry : Registry) (once : registry.files.names.Nodup) :
    (typesOf registry.outputFiles.1).Perm ((typesOf registry.files).map Outline.sort) ∧
    (FilesNamed registry.files → Enclosed registry.files →
      registry.outputFiles.2 = [] ∧
      (∀ name, name ∈ registry.outputFiles.1.names ↔
        ∃ file, registry.file? name = some file ∧ file.outer = none) ∧
      ∀ name result, registry.outputFiles.1.get? name = some result →
        ∃ file, registry.file? name = some file ∧
        result.package = file.package ∧ Assembled registry.files name result.type ∧
        ∀ line, line ∈ result.imports ↔ line ∈ file.imports ∨ file.isOwnPackage line = false ∧
          ∃ inner innerFile, Inside registry.files inner name ∧
            registry.file? inner = some innerFile ∧ line ∈ innerFile.imports) := by
  refine ⟨typesOf_outputFiles once, fun named enclosed => ⟨?_, ?_, ?_⟩⟩
  · exact (enclosed.gathered once named).2
  · exact enclosed.mem_names once named
  · exact fun _ _ => enclosed.outputFile once named

/-- The file of a class of the package `p` without any member. -/
def emptyClass (outer : Option String) (name simpleName : String) (imports : List Import) :
    String × OutputFile :=
  (name, ⟨name, outer, some "p", imports,
    ⟨simpleName, .classType, "class " ++ simpleName, none, [], []⟩⟩)

/-- A class in a class in a class. -/
def threeLevels : Registry :=
  { Registry.empty with
    files :=
      [emptyClass (some "p.A.B") "p.A.B.C" "C"
        [⟨"java.util.List", false, false⟩, ⟨"p.D", false, false⟩], emptyClass none "p.A" "A" [],
        emptyClass (some "p.A") "p.A.B" "B" []] }

/-- Three types inside each other end up in one file, which keeps the imports that are still needed.
-/
theorem threeLevels_assembled :
    threeLevels.files.names.Nodup ∧ FilesNamed threeLevels.files ∧ Enclosed threeLevels.files ∧
    (typesOf threeLevels.outputFiles.1).Perm ((typesOf threeLevels.files).map Outline.sort) ∧
    ∃ result, threeLevels.outputFiles.1.get? "p.A" = some result ∧
      Assembled threeLevels.files "p.A" result.type ∧
      ⟨"java.util.List", false, false⟩ ∈ result.imports ∧
        ⟨"p.D", false, false⟩ ∉ result.imports := by
  have once : threeLevels.files.names.Nodup := by decide
  have named : FilesNamed threeLevels.files := by unfold FilesNamed; decide
  have enclosed : Enclosed threeLevels.files := by unfold Enclosed; decide
  obtain ⟨types, assembled⟩ := outputFiles_assembled threeLevels once
  obtain ⟨-, names, files⟩ := assembled named enclosed
  have top : "p.A" ∈ threeLevels.outputFiles.1.names := (names "p.A").mpr ⟨_, rfl, rfl⟩
  obtain ⟨result, isResult⟩ := Option.isSome_iff_exists.mp ((Table.get?_isSome_iff _ _).mpr top)
  obtain ⟨file, found, -, shown, imports⟩ := files "p.A" result isResult
  obtain rfl := Option.some.inj found
  refine ⟨once, named, enclosed, types, result, isResult, shown, ?_, ?_⟩
  · have inside : Inside threeLevels.files "p.A.B.C" "p.A" := .tail (.single (b := "p.A.B") rfl) rfl
    exact (imports _).mpr (.inr ⟨by decide, "p.A.B.C", _, inside, rfl, by decide⟩)
  · rw [imports]
    rintro (own | ⟨foreign, -⟩)
    · exact absurd own (by decide)
    · exact absurd foreign (by decide)

end Registry

end JavaSlice.Slice
