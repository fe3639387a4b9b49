import JavaSlice.Proofs.Failures
import JavaSlice.Proofs.Provenance
import JavaSlice.Proofs.SourceFiles

/-!
# The paths of output files

The path of an output file is put together from the package and the simple name of its type. Where
types are named after their packages, no two files of a slice have one path. So none is written over
another: after all files have been written, each is there with its own text
(`OutputFile.written_apart`).
-/

namespace JavaSlice

open List Option

/-! ## Relative paths -/

namespace Path

open Storage

variable {path : String} {names : List String}

theorem components_ne_nil (path : String) : components path ≠ [] := by
  simp [components, Dotted.splitAt_eq]

theorem getLast?_way (path : String) : (way path).getLast? = some (target path) :=
  getLast?_scanl

/-- A joined path comes through the places of its first part, and then goes on from there. -/
theorem way_join (root : String) (relative : isAbsolute path = false) :
    ∃ front, (∀ place, place ∈ front ↔ place ∈ way root) ∧
      way (join root path) = front ++ ((components path).scanl step (target root)).tail := by
  cases proper : root.isEmpty with
  | true =>
    obtain rfl := String.isEmpty_iff.mp proper
    have same : join "" path = path := by
      rw [join, relative]
      rfl
    refine ⟨[[]], fun place => (show place ∈ [[]] ↔ place ∈ [[], []] by simp), ?_⟩
    rw [same, way]
    obtain ⟨first, rest, parts⟩ := exists_cons_of_ne_nil (components_ne_nil path)
    rw [parts, scanl_cons, scanl_cons]
    rfl
  | false =>
    rcases components_join proper relative with joined | ⟨front, ends, joined⟩
    · exact ⟨way root, fun _ => Iff.rfl, by rw [way, joined, scanl_append]; rfl⟩
    · have still : front.foldl step [] = target root := by
        rw [target, ends, foldl_append]
        rfl
      refine ⟨front.scanl step [], fun place => ?_, by rw [way, joined, scanl_append, still]⟩
      rw [way, ends, scanl_append, mem_append, still]
      refine ⟨.inl, Or.rec id fun last => ?_⟩
      obtain rfl : place = target root := by simpa [step, isStill] using last
      exact still ▸ mem_of_getLast? getLast?_scanl

theorem target_join (root : String) (relative : isAbsolute path = false) :
    target (join root path) = (components path).foldl step (target root) := by
  obtain ⟨front, -, whole⟩ := way_join root relative
  obtain ⟨first, rest, parts⟩ := exists_cons_of_ne_nil (components_ne_nil path)
  have last := getLast?_way (join root path)
  rw [whole, parts, scanl_cons, tail_cons, getLast?_append_of_ne_nil _ scanl_ne_nil,
    getLast?_scanl] at last
  exact parts ▸ (some.inj last).symm

/-- Before it comes to its end, a joined path has come through its first part. -/
theorem mem_dropLast_way_join (relative : isAbsolute path = false)
    (passed : place ∈ way root) : place ∈ (way (join root path)).dropLast := by
  obtain ⟨front, same, whole⟩ := way_join root relative
  obtain ⟨first, rest, parts⟩ := exists_cons_of_ne_nil (components_ne_nil path)
  rw [whole, parts, scanl_cons, tail_cons, dropLast_append_of_ne_nil scanl_ne_nil]
  exact mem_append_left _ ((same place).mpr passed)

theorem isAbsolute_join (root : String) (relative : isAbsolute path = false) :
    isAbsolute (join root path) = isAbsolute root := by
  rw [join, relative]
  by_cases empty : root = ""
  · rw [empty]
    exact relative
  · have nonempty : root.toList ≠ [] := by simpa using empty
    by_cases slash : root.toList.getLast? = some '/' <;>
      simp [empty, slash, isAbsolute, head?_append_of_ne_nil _ nonempty]

/-- Names that are joined are the components of their path. -/
theorem components_names (named : ∀ name ∈ names, isName name) (below : names ≠ []) :
    isAbsolute (names.foldl join "") = false ∧ components (names.foldl join "") = names := by
  have single : ∀ name, isName name = true →
      isAbsolute name = false ∧ components name = [name] := by
    intro name named
    have noSlash := not_mem_of_isName named
    rw [components, Dotted.splitAt_eq, splitOn_eq_singleton noSlash, isAbsolute,
      beq_eq_false_iff_ne]
    exact ⟨fun first => noSlash (mem_of_mem_head? first), by simp⟩
  induction names using reverseRecOn with
  | nil => exact absurd rfl below
  | append_singleton names name ih =>
    rw [forall_mem_append, forall_mem_singleton] at named
    obtain ⟨relative, own⟩ := single name named.2
    rw [foldl_append, foldl_cons, foldl_nil, isAbsolute_join _ relative]
    by_cases first : names = []
    · have same : join "" name = name := by
        rw [join, relative]
        rfl
      rw [first, foldl_nil, same, own]
      exact ⟨rfl, rfl⟩
    · obtain ⟨outside, parts⟩ := ih named.1 first
      have noBlank : "" ∉ names := fun blank => absurd (named.1 "" blank) (by decide)
      have proper : (names.foldl join "").isEmpty = false := by
        rw [Bool.eq_false_iff]
        intro empty
        rw [String.isEmpty_iff.mp empty] at parts
        exact noBlank (parts ▸ mem_cons_self)
      refine ⟨outside, ?_⟩
      rcases components_join proper relative with joined | ⟨front, ends, -⟩
      · rw [joined, parts, own]
      · rw [parts] at ends
        exact absurd (ends ▸ mem_append_right _ mem_cons_self) noBlank

/-- Names lead further, one directory each. -/
theorem steps_names (named : ∀ name ∈ names, isName name) (base : Place) :
    names.foldl step base = base ++ names ∧
      ∀ place ∈ names.scanl step base, ∃ passed, passed <+: names ∧ place = base ++ passed := by
  induction names generalizing base with
  | nil => simp
  | cons name names ih =>
    rw [forall_mem_cons] at named
    have further : step base name = base ++ [name] := by
      simp only [isName, Bool.and_eq_true, Bool.not_eq_true', bne_iff_ne] at named
      simp [step, named]
    obtain ⟨last, others⟩ := ih named.2 (base ++ [name])
    rw [foldl_cons, scanl_cons, further, last, forall_mem_cons]
    refine ⟨by simp, ⟨[], nil_prefix, by simp⟩, fun place later => ?_⟩
    obtain ⟨passed, isPrefix, rfl⟩ := others place later
    exact ⟨name :: passed, cons_prefix_cons.mpr ⟨rfl, isPrefix⟩, by simp⟩

end Path

/-! ## Files that are written -/

namespace Output

open Storage

variable {path : String} {text : Tree → String} {files ways : List Place} {tree after : Tree}

/-- A file that has been written is there, and stays as it is while others are written. -/
theorem Change.readText?_of_writeFile {text next}
    (written : apply (.writeFile path fun _ => text) tree = (true, next))
    (grows : Tree.Grows files ways next after) (apart : Path.target path ∉ files) :
    after.readText? path = some text := by
  rw [apply] at written
  split at written
  next ready _ =>
    rcases attempt_cases (Tree.write? path (.text text)) ready with ⟨result, put, done⟩ | done
    · obtain rfl : result = next := congrArg Prod.snd (done.symm.trans written)
      obtain ⟨place, leads, further⟩ := bind_eq_some_iff.mp put
      obtain ⟨free, same⟩ := ite_none_left_eq_some.mp further
      have below : place ≠ [] := by
        rintro rfl
        exact free rfl
      have isFile : result.find? place = some (.file (.text text)) := by
        rw [← some.inj same, Tree.find?_put below, if_pos rfl]
      have stays : after.find? place = some (.file (.text text)) := by
        cases grows place with
        | stays same => rw [same, isFile]
        | written isTarget => exact absurd ((Tree.place?_eq_some_iff.mp leads).2.1 ▸ isTarget) apart
        | made _ nothing => simp [isFile] at nothing
      rw [Tree.readText?, grows.place? ((Tree.grows_write? put).place? leads)]
      simp [Tree.content?, stays, Content.text?]
    · cases done.symm.trans written
  next => cases written

/-- A change that writes a file needs a way of directories to a place that is not one. -/
theorem Change.apply_writeFile_iff :
    (apply (.writeFile path text) tree).1 ↔
      (makeParent path tree).1 ∧ path.isEmpty = false ∧
      (∀ passed ∈ (Path.way path).dropLast, (makeParent path tree).2.isDirectory passed) ∧
      (makeParent path tree).2.isDirectory (Path.target path) = false := by
  rw [apply]
  rcases makeParent path tree with ⟨_ | _, ready⟩
  · simp
  · have written : (attempt (Tree.write? path (.text (text tree))) ready).1 = true ↔
        ∃ place, ready.place? path = some place ∧ ready.isDirectory place = false := by
      simp only [attempt, Tree.write?]
      cases ready.place? path with
      | none => simp
      | some place => cases free : ready.isDirectory place <;> simp [free]
    simp only [written, Tree.place?_eq_some_iff]
    grind

/-- What could be written before can still be written, unless a file stands on the way or a
directory at its end. -/
theorem Change.apply_writeFile_mono (grows : Tree.Grows files ways before after)
    (clear : ∀ place ∈ Path.way path, place ∉ files) (free : Path.target path ∉ ways)
    (can : (apply (.writeFile path text) before).1) : (apply (.writeFile path text) after).1 := by
  obtain ⟨ready, proper, way, target⟩ := apply_writeFile_iff.mp can
  -- the same directories are made on the way to the file, before and after
  obtain ⟨ready', made, was, is⟩ : (makeParent path after).1 = true ∧ ∃ made : List Place,
      (∀ place, (makeParent path before).2.isDirectory place = true ↔
        before.isDirectory place = true ∨ place ∈ made) ∧
      ∀ place, (makeParent path after).2.isDirectory place = true ↔
        after.isDirectory place = true ∨ place ∈ made := by
    unfold makeParent at ready ⊢
    cases isIn : Path.parent? path with
    | none => exact ⟨rfl, [], by simp, by simp⟩
    | some parent =>
      rw [isIn] at ready
      have still :=
        grows.createAll (fun place onWay => clear place (Path.way_parent?_subset isIn onWay)) ready
      exact ⟨still, Path.way parent, Tree.isDirectory_createAll_iff ready,
        Tree.isDirectory_createAll_iff still⟩
  refine apply_writeFile_iff.mpr ⟨ready', proper, fun passed onWay => ?_,
    Bool.eq_false_iff.mpr fun directory => ?_⟩
  · exact (is passed).mpr (((was passed).mp (way passed onWay)).imp_left grows.isDirectory)
  · have before := ((is _).mp directory).imp_left fun directory =>
      (grows.isDirectory_or_mem directory).resolve_right fun onWay => free onWay.1
    rw [(was _).mpr before] at target
    cases target

/-- Files that could be written one by one, to places that are on no other's way, are all there in
the end. -/
theorem Change.readText?_of_applyAll {α : Type} {entries : List α} {path text : α → String}
    (apart : entries.Pairwise fun entry other => Path.target (path entry) ∉ Path.way (path other) ∧
      Path.target (path other) ∉ Path.way (path entry))
    (can : ∀ entry ∈ entries, (apply (.writeFile (path entry) fun _ => text entry) tree).1) :
    ∃ after, applyAll (entries.map fun entry => .writeFile (path entry) fun _ => text entry) tree =
      (true, after) ∧ ∀ entry ∈ entries, after.readText? (path entry) = some (text entry) := by
  induction entries generalizing tree with
  | nil => exact ⟨tree, rfl, forall_mem_nil _⟩
  | cons entry rest ih =>
    rw [pairwise_cons] at apart
    rw [forall_mem_cons] at can
    have grows := (grows_apply (.writeFile (path entry) fun _ => text entry) tree).1
    obtain ⟨next, written⟩ : ∃ next, apply (.writeFile (path entry) fun _ => text entry) tree =
        (true, next) :=
      ⟨_, Prod.ext can.1 rfl⟩
    rw [written] at grows
    have still : ∀ other ∈ rest, (apply (.writeFile (path other) fun _ => text other) next).1 =
        true := by
      intro other later
      refine apply_writeFile_mono grows (fun place onWay here => ?_) (apart.1 other later).2
        (can.2 other later)
      exact (apart.1 other later).1 (mem_singleton.mp here ▸ onWay)
    obtain ⟨after, made, there⟩ := ih apart.2 still
    have further :=
      grows_applyAll (rest.map fun entry => .writeFile (path entry) fun _ => text entry) next
    rw [made] at further
    refine ⟨after, by rw [map_cons, applyAll, written]; exact made, forall_mem_cons.mpr ⟨?_, there⟩⟩
    refine readText?_of_writeFile written further fun again => ?_
    obtain ⟨other, later, same⟩ : ∃ other ∈ rest,
        Path.target (path other) = Path.target (path entry) := by
      simpa [flatMap_map, files, eq_comm] using again
    exact (apart.1 other later).1 (same ▸ mem_of_getLast? (Path.getLast?_way _))

end Output

/-! ## The files of a slice -/

theorem Path.isName_of_mem {name c} (inside : c ∈ name.toList) (noDot : c ≠ '.')
    (noSlash : '/' ∉ name.toList) : isName name := by
  have other : ∀ dots : String, (∀ d ∈ dots.toList, d = '.') → name ≠ dots := by
    rintro dots all rfl
    exact noDot (all c inside)
  simp [isName, isStill, noSlash, other "" (by simp), other "." (by simp), other ".." (by simp)]

namespace Slice

/-- The segments of a package. -/
def packageSegments (package : Option String) : List String :=
  (package.map Dotted.segments).getD []

theorem packageSegments_injective : Function.Injective packageSegments := by
  have nonempty : ∀ name, Dotted.segments name ≠ [] := fun name => by
    simp [Dotted.segments, Dotted.splitAt_eq]
  have back : ∀ name, ['.'].intercalate ((Dotted.segments name).map String.toList) =
      name.toList := by
    intro name
    simp [Dotted.segments, Function.comp_def, Dotted.splitAt_eq, intercalate_splitOn]
  rintro (_ | first) (_ | second) same
  · rfl
  · exact absurd same.symm (nonempty second)
  · exact absurd same (nonempty first)
  · have same : Dotted.segments first = Dotted.segments second := same
    exact congrArg some (String.toList_inj.mp (by rw [← back first, same, back second]))

/-- Files whose outermost types are named after the package, in simple names without dots and
slashes. -/
structure Packaged (units : List Source.CompilationUnit) : Prop where
  qualified : ∀ type ∈ Index.declarations units, type.decl.outer = none →
    type.decl.qualifiedName = Dotted.within type.unit.package type.decl.name
  simple : ∀ type ∈ Index.declarations units, type.decl.outer = none →
    ∀ name ∈ type.decl.name :: packageSegments type.unit.package,
      name ≠ "" ∧ '.' ∉ name.toList ∧ '/' ∉ name.toList

namespace OutputFile

/-- The directories of a file below the source root, and its own name. -/
def route (file : OutputFile) : List String :=
  packageSegments file.package ++ [file.type.name ++ ".java"]

theorem relativePath_eq (file : OutputFile) :
    file.relativePath = file.route.foldl Path.join "" := by
  rw [relativePath, route, foldl_append]
  cases file.package <;> rfl

/-- A file that is kept under the name that its package and type give, with a route that can be
taken. No segment of its package has a dot, as the names of files have. -/
structure Placed (entry : String × OutputFile) : Prop where
  kept : entry.1 = Dotted.within entry.2.package entry.2.type.name
  named : ∀ name ∈ entry.2.route, Path.isName name = true
  noDot : ∀ name ∈ packageSegments entry.2.package, '.' ∉ name.toList

namespace Placed

variable {files : Table OutputFile} {entry other : String × OutputFile}

/-- The components of the path of a file are its route. -/
theorem components_eq (placed : Placed entry) :
    Path.isAbsolute entry.2.relativePath = false ∧
      Path.components entry.2.relativePath = entry.2.route := by
  rw [relativePath_eq]
  exact Path.components_names placed.named (by simp [route])

theorem routes_nodup (placed : ∀ entry ∈ files, Placed entry) (once : files.names.Nodup) :
    (files.map (·.2.route)).Nodup := by
  refine (Nodup.of_map _ once).map_on fun entry inside other inside' same => ?_
  obtain ⟨segments, names⟩ := append_inj' same rfl
  refine inj_on_of_nodup_map once inside inside' ?_
  rw [(placed entry inside).kept, (placed other inside').kept, packageSegments_injective segments,
    (String.append_left_inj _).mp (singleton_inj.mp names)]

/-- No file goes where the way to another leads through, unless its own way does. -/
theorem target_not_mem_way (placed : Placed entry) (placed' : Placed other)
    (different : entry.2.route ≠ other.2.route)
    (direct : Path.target (Path.join root entry.2.relativePath) ∉
      (Path.way (Path.join root entry.2.relativePath)).dropLast) :
    Path.target (Path.join root entry.2.relativePath) ∉ Path.way
      (Path.join root other.2.relativePath) := by
  obtain ⟨relative, parts⟩ := placed.components_eq
  obtain ⟨relative', parts'⟩ := placed'.components_eq
  obtain ⟨front, same, whole⟩ := Path.way_join root relative'
  intro onWay
  rw [whole, parts'] at onWay
  rcases mem_append.mp onWay with before | below
  · exact direct (Path.mem_dropLast_way_join relative ((same _).mp before))
  · obtain ⟨passed, isPrefix, here⟩ := (Path.steps_names placed'.named (Path.target root)).2 _
      (mem_of_mem_tail below)
    rw [Path.target_join root relative, parts, (Path.steps_names placed.named _).1] at here
    obtain rfl := append_cancel_left here
    rcases prefix_concat_iff.mp isPrefix with whole | part
    · exact different whole
    · -- the name of a file is no segment of a package
      have last := part.subset (mem_append_right _ mem_cons_self)
      exact placed'.noDot _ last (by simp)

end Placed

end OutputFile

/-- The files of a slice are kept under the names that their packages and types give, which are
simple. -/
theorem Walk.Finished.placed (finished : Finished units seeds walk)
    (wellNested : Index.WellNested units) (packaged : Packaged units) :
    ∀ entry ∈ (Outcome.ofWalk walk).1.files, OutputFile.Placed entry := by
  rintro ⟨name, result⟩ inside
  have once := Registry.names_outputFiles_nodup finished.solved.tracks.coherent.once.files
  have isResult := Table.get?_of_mem once inside
  obtain ⟨type, stored, package⟩ := finished.package_result wellNested isResult
  obtain ⟨file, found, title, -⟩ := (finished.assembled wellNested isResult).shows
  obtain ⟨type', stored', -, -, title', -⟩ := finished.titled wellNested found
  obtain rfl : type = type' := some.inj (stored.symm.trans stored')
  have top : type.decl.outer = none := by
    obtain ⟨⟨decl, isDecl, top⟩, -⟩ :=
      (finished.mem_names_iff wellNested name).mp (Table.mem_names_of_get? isResult)
    rw [Index.typeDecl?, stored] at isDecl
    obtain rfl := some.inj isDecl
    exact top
  have declared := Index.mem_declarations_of_get? stored
  obtain ⟨own, segments⟩ := forall_mem_cons.mp (packaged.simple type declared top)
  have named : result.type.name = type.decl.name := congrArg Outline.name (title.trans title')
  refine ⟨?_, ?_, ?_⟩
  · rw [package, named]
    exact (Index.qualifiedName_of_get? stored).symm.trans (packaged.qualified type declared top)
  · rw [OutputFile.route, package, named]
    refine forall_mem_append.mpr ⟨fun segment listed => ?_, forall_mem_singleton.mpr ?_⟩
    · obtain ⟨nonempty, noDot, noSlash⟩ := segments segment listed
      obtain ⟨c, inside⟩ :=
        exists_mem_of_ne_nil _ (show segment.toList ≠ [] by simpa using nonempty)
      exact Path.isName_of_mem inside (fun dot => noDot (dot ▸ inside)) noSlash
    · exact @Path.isName_of_mem _ 'j' (by simp) (by decide) (by simpa using own.2.2)
  · rw [package]
    exact fun segment listed => (segments segment listed).2.1

namespace OutputFile

/-- The files of a slice have paths of their own. So if each of them could be written to the files
that are there, they are all written, and then each is there with its own text. -/
theorem written_apart (units : List Source.CompilationUnit) (wellNested : Index.WellNested units)
    (packaged : Packaged units) (seeds : List Seed) (outcome : Outcome)
    (ok : (slice (Index.ofUnits units) seeds).outcome = .ok outcome) :
    (outcome.files.map (·.2.relativePath)).Nodup ∧
      ∀ (settings : Settings) (tree : Storage.Tree),
        (∀ entry ∈ outcome.files, ((Output.fileChange settings entry.2).apply tree).1 = true) →
          ∃ paths after,
            (Output.writeFiles Storage.Access.ofTree settings outcome.files).run.run tree =
              (some paths, after) ∧
            ∀ entry ∈ outcome.files,
              after.readText? (Path.join settings.outputSourceRoot entry.2.relativePath) =
                some entry.2.render := by
  obtain ⟨solved, rfl⟩ := slice_eq_ok_iff.mp ok
  have finished := Walk.finished_solve solved
  have placed := finished.placed wellNested packaged
  have routes := Placed.routes_nodup placed
    (Registry.names_outputFiles_nodup finished.solved.tracks.coherent.once.files)
  constructor
  · refine Nodup.of_map Path.components ?_
    rw [List.map_map]
    exact (map_congr_left fun entry inside => (placed entry inside).components_eq.2) ▸ routes
  · intro settings tree can
    have direct : ∀ entry ∈ _, Path.target _ ∉ (Path.way _).dropLast := fun entry inside onWay => by
      obtain ⟨-, -, way, free⟩ := Output.Change.apply_writeFile_iff.mp (can entry inside)
      exact Bool.false_ne_true (free.symm.trans (way _ onWay))
    have apart := (pairwise_map.mp routes).imp_of_mem fun inside inside' different =>
      And.intro ((placed _ inside).target_not_mem_way (placed _ inside') different
        (direct _ inside))
        ((placed _ inside').target_not_mem_way (placed _ inside) (Ne.symm different)
          (direct _ inside'))
    obtain ⟨after, made, there⟩ := Output.Change.readText?_of_applyAll apart can
    have written := (Output.makes_writeFiles settings _ tree).trans made
    obtain ⟨paths, isPaths⟩ := isSome_iff_exists.mp (congrArg Prod.fst written)
    have left := congrArg Prod.snd written
    exact ⟨paths, after, Prod.ext isPaths left, there⟩

/-- The output of an earlier run, with a file that is written again. -/
def earlierOutput : Storage.Tree :=
  ⟨[(["src"], .directory), (["src", "main"], .directory), (["src", "main", "java"], .directory),
    (["src", "main", "java", "game"], .directory),
    (["src", "main", "java", "game", "Ping.java"], .file (.text "class Ping;"))]⟩

/-- The types of two files are written, one of them in place of an earlier file, and both can be
read. -/
theorem ping_and_pong_apart :
    ∃ outcome, (slice (Index.ofUnits pingPong) [⟨"game.Pong", "pong"⟩]).outcome = .ok outcome ∧
      (∀ path ∈ ["game/Ping.java", "game/Pong.java"], path ∈ outcome.files.map (·.2.relativePath)) ∧
      (outcome.files.map (·.2.relativePath)).Nodup ∧
      ∃ paths after, (Output.writeFiles Storage.Access.ofTree .default outcome.files).run.run
        earlierOutput = (some paths, after) ∧ ∀ entry ∈ outcome.files,
          after.readText? (Path.join "src/main/java" entry.2.relativePath) =
            some entry.2.render := by
  have wellNested : Index.WellNested pingPong := ⟨by decide, by decide⟩
  have packaged : Packaged pingPong := ⟨by decide, by decide⟩
  have ok := slice_eq_ok_iff.mpr
    ⟨(by decide : (Walk.start.solve (Index.ofUnits pingPong) [⟨"game.Pong", "pong"⟩]).2 = none),
      rfl⟩
  have same := Registry.outputFiles_perm
    (Walk.start.solve (Index.ofUnits pingPong) [⟨"game.Pong", "pong"⟩]).1.registry
  obtain ⟨once, written⟩ := written_apart pingPong wellNested packaged _ _ ok
  refine ⟨_, ok, fun path listed => (same.map _).mem_iff.mpr ?_, once,
    written .default earlierOutput ?_⟩
  · revert path
    decide +kernel
  · intro entry inside
    replace inside := same.mem_iff.mp inside
    revert entry
    decide +kernel

end OutputFile

end Slice

end JavaSlice
