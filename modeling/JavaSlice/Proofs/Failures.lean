import JavaSlice.Command.Exit
import JavaSlice.Proofs.Storage

/-!
# What a failed command leaves

A command reads everything before it writes anything, so that a command that fails while it reads
leaves the files as they were. Writing is a list of changes, one after the other, which is known
once the run is over (`Output.changes`). Nothing takes changes back. A command that fails while it
writes leaves the changes before the one that failed, and of that one at most directories
(`failed_command_leaves`).
-/

namespace JavaSlice

open List Storage

namespace Output

/-! ## Changes -/

/-- One step of writing the result of a run. -/
inductive Change where
  | makeDirectory (path : String)
  /-- A file is copied, if it is there. -/
  | copyFile (source path : String)
  /-- A file is written, in a directory that is made if it is missing. The text is fixed before
  that. -/
  | writeFile (path : String) (text : Tree → String)

namespace Change

variable {tree after : Tree}

/-- Makes the directory that a file is in. -/
def makeParent (path : String) (tree : Tree) : Bool × Tree :=
  ((Path.parent? path).map (Tree.createAll · tree)).getD (true, tree)

/-- Makes a change; says whether it could be made, and what is there afterwards. -/
def apply : Change → Tree → Bool × Tree
  | makeDirectory path, tree => tree.createAll path
  | copyFile source path, tree =>
    if tree.isFile source then attempt (Tree.copy? source path) tree else (true, tree)
  | writeFile path text, tree =>
    match makeParent path tree with
    | (true, ready) => attempt (Tree.write? path (.text (text tree))) ready
    | (false, stuck) => (false, stuck)

/-- Makes changes one after the other, up to the first that cannot be made. -/
def applyAll : List Change → Tree → Bool × Tree
  | [], tree => (true, tree)
  | change :: rest, tree =>
    match change.apply tree with
    | (true, next) => applyAll rest next
    | (false, stuck) => (false, stuck)

/-- The place where a change writes a file. -/
def files : Change → List Place
  | makeDirectory _ => []
  | copyFile _ path | writeFile path _ => [Path.target path]

/-- The places where a change may make directories. -/
def way : Change → List Place
  | makeDirectory path | writeFile path _ => Path.way path
  | copyFile _ _ => []

theorem applyAll_singleton (change : Change) (tree : Tree) :
    applyAll [change] tree = change.apply tree := by
  rw [applyAll]
  rcases change.apply tree with ⟨_ | _, after⟩ <;> rfl

/-- Changes in two parts: the second part is made only if the first succeeds. -/
theorem applyAll_append (changes more : List Change) (tree : Tree) :
    applyAll (changes ++ more) tree =
      match applyAll changes tree with
      | (true, next) => applyAll more next
      | (false, stuck) => (false, stuck) := by
  induction changes generalizing tree with
  | nil => rfl
  | cons change rest ih =>
    rw [cons_append, applyAll, applyAll]
    split
    next next _ => exact ih next
    next _ _ => rfl

/-- Changes that cannot all be made stop at one of them. -/
theorem exists_failed (failed : applyAll changes tree = (false, after)) :
    ∃ done change rest middle, changes = done ++ change :: rest ∧
      applyAll done tree = (true, middle) ∧ change.apply middle = (false, after) := by
  induction changes generalizing tree with
  | nil => cases failed
  | cons change rest ih =>
    rw [applyAll] at failed
    split at failed
    next next applied =>
      obtain ⟨done, stopped, further, middle, rfl, applies, stops⟩ := ih failed
      refine ⟨change :: done, stopped, further, middle, rfl, ?_, stops⟩
      rw [applyAll, applied]
      exact applies
    next stuck stops =>
      cases failed
      exact ⟨[], change, rest, tree, rfl, rfl, stops⟩

/-! ## The places that a change touches -/

/-- A change is made, or leaves the tree as it is. -/
theorem attempt_cases (change : Tree → Option Tree) (tree : Tree) :
    (∃ after, change tree = some after ∧ attempt change tree = (true, after)) ∨
      attempt change tree = (false, tree) := by
  unfold attempt
  split
  next after changed => exact .inl ⟨after, changed, rfl⟩
  next _ => exact .inr rfl

/-- A change writes its file and makes directories on its way. If it cannot be made, it writes
nothing. -/
theorem grows_apply (change : Change) (tree : Tree) :
    Tree.Grows change.files change.way tree (change.apply tree).2 ∧
      ((change.apply tree).1 = false → Tree.Grows [] change.way tree (change.apply tree).2) := by
  cases change with
  | makeDirectory path =>
    exact ⟨Tree.grows_createAll path tree, fun _ => Tree.grows_createAll path tree⟩
  | copyFile source path =>
    rw [apply]
    split
    next _ =>
      rcases attempt_cases (Tree.copy? source path) tree with ⟨after, copied, result⟩ | result
      · rw [result]
        exact ⟨Tree.grows_copy? copied, nofun⟩
      · rw [result]
        exact ⟨.refl _, fun _ => .refl _⟩
    next _ => exact ⟨.refl _, nofun⟩
  | writeFile path text =>
    have made : Tree.Grows [] (Path.way path) tree (makeParent path tree).2 := by
      rw [makeParent]
      cases isIn : Path.parent? path with
      | none => exact .refl _
      | some parent =>
        exact (Tree.grows_createAll parent tree).mono (Subset.refl _)
          (Path.way_parent?_subset isIn)
    rw [apply]
    generalize makeParent path tree = prepared at made ⊢
    rcases prepared with ⟨_ | _, ready⟩
    · exact ⟨made.addFiles, fun _ => made⟩
    · dsimp only
      rcases attempt_cases (Tree.write? path (.text (text tree))) ready
        with ⟨after, written, result⟩ | result
      · rw [result]
        exact ⟨made.addFiles.trans (Tree.grows_write? written).addWays, nofun⟩
      · -- the directories stay, although there is no file in them
        rw [result]
        exact ⟨made.addFiles, fun _ => made⟩

/-- Changes touch nothing but the files and ways that they name. -/
theorem grows_applyAll (changes : List Change) (tree : Tree) :
    Tree.Grows (changes.flatMap files) (changes.flatMap way) tree (applyAll changes tree).2 := by
  induction changes generalizing tree with
  | nil => exact .refl _
  | cons change rest ih =>
    have first := (grows_apply change tree).1.mono (subset_append_left _ (rest.flatMap files))
      (subset_append_left _ (rest.flatMap way))
    rw [applyAll]
    split
    next next applied =>
      rw [applied] at first
      refine first.trans ((ih next).mono ?_ ?_)
      · exact subset_append_right _ _
      · exact subset_append_right _ _
    next stuck applied =>
      rw [applied] at first
      exact first

/-- Files are written by the changes that could be made only, not by the one after them. -/
theorem grows_of_stopped
    (made : applyAll done tree = (true, middle)) (stops : change.apply middle = (false, after)) :
    Tree.Grows (done.flatMap files) ((done ++ [change]).flatMap way) tree after := by
  have first := grows_applyAll done tree
  have last := (grows_apply change middle).2
  rw [made] at first
  rw [stops] at last
  rw [flatMap_append, flatMap_singleton]
  exact (first.mono (Subset.refl _) (subset_append_left _ _)).trans
    ((last rfl).mono (nil_subset _) (subset_append_right _ _))

end Change

/-! ## Actions that make changes -/

variable {α β : Type}

/-- What an action does to a tree: whether it comes to its end, and what is there afterwards. -/
def effect (action : OptionT (StateM Tree) α) (tree : Tree) : Bool × Tree :=
  ((action.run.run tree).1.isSome, (action.run.run tree).2)

/-- An action makes changes, one after the other up to the first that cannot be made. -/
def Makes (action : OptionT (StateM Tree) α) (changes : List Change) : Prop :=
  ∀ tree, effect action tree = Change.applyAll changes tree

/-- An action after another acts on the tree that the first leaves. -/
theorem effect_bind (action : OptionT (StateM Tree) α) (next : α → OptionT (StateM Tree) β)
    (tree : Tree) :
    effect (action >>= next) tree =
      match action.run.run tree with
      | (some value, after) => effect (next value) after
      | (none, after) => (false, after) := by
  rw [effect, OptionT.run_bind, Option.elimM, StateT.run_bind]
  rcases action.run.run tree with ⟨_ | value, after⟩ <;> rfl

/-- An action goes on, if it can, with one that does the same for all results of the first. -/
theorem effect_bind_of_same {action : OptionT (StateM Tree) α} {next : α → OptionT (StateM Tree) β}
    {further : Tree → Bool × Tree} (same : ∀ value tree, effect (next value) tree = further tree)
    (tree : Tree) :
    effect (action >>= next) tree =
      match effect action tree with
      | (true, after) => further after
      | (false, after) => (false, after) := by
  rw [effect_bind, effect]
  rcases action.run.run tree with ⟨_ | value, after⟩
  · rfl
  · exact same value after

theorem effect_bind_pure (action : OptionT (StateM Tree) α) (result : α → β) (tree : Tree) :
    effect (action >>= fun value => pure (result value)) tree = effect action tree := by
  have ends : ∀ value after, effect (pure (result value)) after = (true, after) := fun _ _ => rfl
  rw [effect_bind_of_same ends]
  rcases effect action tree with ⟨_ | _, after⟩ <;> rfl

/-- What can always be done comes first. -/
theorem effect_lift_bind (action : StateM Tree α) (next : α → OptionT (StateM Tree) β)
    (tree : Tree) :
    effect ((liftM action : OptionT (StateM Tree) α) >>= next) tree =
      effect (next (action.run tree).1) (action.run tree).2 := by
  rw [effect_bind]
  rfl

theorem effect_require (action : StateM Tree Bool) (tree : Tree) :
    effect (require action) tree = action.run tree := by
  rw [require, effect_lift_bind]
  rcases action.run tree with ⟨_ | _, after⟩ <;> rfl

/-- An action after another makes the changes of both. -/
theorem Makes.bind {action : OptionT (StateM Tree) α} {next : α → OptionT (StateM Tree) β}
    {changes more : List Change} (first : Makes action changes)
    (second : ∀ value, Makes (next value) more) : Makes (action >>= next) (changes ++ more) := by
  intro tree
  rw [effect_bind_of_same second, first tree, Change.applyAll_append]

theorem makes_pure (value : α) : Makes (pure value) [] :=
  fun _ => rfl

theorem Makes.bind_pure (made : Makes action changes)
    (result : α → β) : Makes (action >>= fun value => pure (result value)) changes :=
  fun tree => (effect_bind_pure action result tree).trans (made tree)

/-- An action that makes one change. -/
theorem makes_single {action : OptionT (StateM Tree) α} {change : Change}
    (same : ∀ tree, effect action tree = change.apply tree) : Makes action [change] :=
  fun tree => (same tree).trans (Change.applyAll_singleton change tree).symm

theorem Makes.forM {items : List β} {action : β → OptionT (StateM Tree) Unit} {change : β → Change}
    (each : ∀ item, Makes (action item) [change item]) :
    Makes (items.forM action) (items.map change) := by
  induction items with
  | nil => exact makes_pure ()
  | cons item rest ih => exact (each item).bind fun _ => ih

theorem Makes.mapM {items : List β} {action : β → OptionT (StateM Tree) α} {change : β → Change}
    (each : ∀ item, Makes (action item) [change item]) :
    Makes (items.mapM action) (items.map change) := by
  induction items with
  | nil => exact makes_pure []
  | cons item rest ih =>
    rw [mapM_cons]
    exact (each item).bind fun _ => ih.bind_pure _

theorem Makes.filterM {items : List β} {action : β → OptionT (StateM Tree) Bool}
    {change : β → Change} (each : ∀ item, Makes (action item) [change item]) :
    Makes (items.filterM action) (items.map change) := by
  have gathers : ∀ kept, Makes (items.filterAuxM action kept) (items.map change) := by
    induction items with
    | nil => exact makes_pure
    | cons item rest ih => exact fun kept => (each item).bind fun _ => ih _
  exact (gathers []).bind_pure _

/-! ## What writing does -/

/-- The change that writes an output file. -/
def fileChange (settings : Settings) (file : Slice.OutputFile) : Change :=
  .writeFile (Path.join settings.outputSourceRoot file.relativePath) fun _ => file.render

/-- The changes that write a project: its directories, its build files and the output files. -/
def projectChanges (settings : Settings) (files : Table Slice.OutputFile) : List Change :=
  (scaffoldDirectories ++ [settings.sourceDir]).map
      (fun directory => .makeDirectory (Path.join settings.outputPath directory)) ++
    (settings.buildManifests.map
        (fun name => .copyFile (Path.join settings.basePath name)
          (Path.join settings.outputPath name)) ++
      files.map fun entry => fileChange settings entry.2)

/-- The change that writes a report. -/
def reportChange (settings : Settings) (run : Run) (outcome : Slice.Outcome) (path : String) :
    Change :=
  .writeFile path fun tree =>
    (report settings run outcome ((tree.canonical? settings.basePath).getD settings.basePath)
      0).render

/-- The changes that write the result of a run. -/
def changes (settings : Settings) (run : Run) (outcome : Slice.Outcome) : List Change :=
  projectChanges settings outcome.files ++ settings.report.toList.map
    (reportChange settings run outcome)

theorem effect_createParent (path : String) (tree : Tree) :
    effect (createParent Access.ofTree path) tree = Change.makeParent path tree := by
  rw [createParent, Change.makeParent]
  cases Path.parent? path with
  | none => rfl
  | some parent => exact effect_require _ tree

theorem effect_writeText (path text : String) (tree : Tree) :
    effect (require (Access.ofTree.writeText path text)) tree =
      attempt (Tree.write? path (.text text)) tree :=
  effect_require _ tree

section

variable (settings : Settings)

/-- The directories of a project are made one by one. -/
theorem makes_scaffold : Makes (scaffold Access.ofTree settings)
    ((scaffoldDirectories ++ [settings.sourceDir]).map
      fun directory => .makeDirectory (Path.join settings.outputPath directory)) :=
  Makes.forM fun _ => makes_single (effect_require _)

/-- The build files are copied one by one. -/
theorem makes_copyManifests : Makes (copyManifests Access.ofTree settings)
    (settings.buildManifests.map
      fun name => .copyFile (Path.join settings.basePath name)
        (Path.join settings.outputPath name)) := by
  refine Makes.filterM fun name => makes_single fun tree => ?_
  rw [effect_lift_bind, Change.apply]
  refine (apply_ite (effect · tree) _ _ _).trans ?_
  rw [effect_bind_pure, effect_require]
  rfl

/-- The output files are written one by one. -/
theorem makes_writeFiles (files : Table Slice.OutputFile) :
    Makes (writeFiles Access.ofTree settings files)
      (files.map fun entry => fileChange settings entry.2) := by
  refine Makes.mapM fun entry => makes_single fun tree => ?_
  dsimp only
  rw [effect_bind_of_same fun _ tree => (effect_bind_pure _ _ tree).trans
    (effect_writeText _ _ tree), effect_createParent, fileChange, Change.apply]

/-- A project is written by a list of changes that is known beforehand. -/
theorem makes_writeProject (outcome : Slice.Outcome) :
    Makes (writeProject Access.ofTree settings outcome) (projectChanges settings outcome.files) :=
  (makes_scaffold settings).bind fun _ => (makes_copyManifests settings).bind fun _ =>
    (makes_writeFiles settings outcome.files).bind_pure _

/-- The report is one change. -/
theorem makes_writeReport (run : Run) (outcome : Slice.Outcome) (path : String) :
    Makes (writeReport Access.ofTree settings run outcome path)
      [reportChange settings run outcome path] := by
  refine makes_single fun tree => (effect_lift_bind _ _ tree).trans ?_
  rw [effect_lift_bind, effect_bind_of_same fun _ => effect_writeText _ _, effect_createParent]
  rfl

/-- Writing the result of a run makes its changes. -/
theorem makes_write (run : Run) (outcome : Slice.Outcome) :
    Makes (write Access.ofTree settings run outcome) (changes settings run outcome) := by
  refine (makes_writeProject settings outcome).bind fun written => ?_
  cases settings.report with
  | none => exact makes_pure written
  | some path => exact (makes_writeReport settings run outcome path).bind_pure _

end

end Output

/-! ## Reading -/

variable {α β : Type}

theorem run_bind_eq {action : StateM Tree α} {next : α → StateM Tree β} {tree after : Tree}
    {value : α} (first : action.run tree = (value, after)) :
    (action >>= next).run tree = (next value).run after := by
  rw [StateT.run_bind, first]
  rfl

/-- An action leaves every tree as it is. -/
def Reads (action : StateM Tree α) : Prop :=
  ∀ tree, (action.run tree).2 = tree

namespace Reads

theorem pure (value : α) : Reads (Pure.pure value) :=
  fun _ => rfl

theorem bind {action : StateM Tree α} {next : α → StateM Tree β} (first : Reads action)
    (second : ∀ value, Reads (next value)) : Reads (action >>= next) := by
  intro tree
  rw [StateT.run_bind]
  exact (second _ _).trans (first tree)

theorem optionBind {action : OptionT (StateM Tree) α} {next : α → OptionT (StateM Tree) β}
    (first : Reads action.run) (second : ∀ value, Reads (next value).run) :
    Reads (action >>= next).run := by
  rw [OptionT.run_bind]
  refine first.bind fun found => ?_
  cases found with
  | none => exact .pure none
  | some value => exact second value

theorem mapM {items : List β} {action : β → OptionT (StateM Tree) α}
    (each : ∀ item, Reads (action item).run) : Reads (items.mapM action).run := by
  induction items with
  | nil => exact .pure (some [])
  | cons item rest ih =>
    rw [mapM_cons]
    exact (each item).optionBind fun _ => ih.optionBind fun _ => .pure (some _)

end Reads

/-- Reading a project changes nothing. -/
theorem reads_index (root : String) (excluded : List String) :
    Reads (Project.index Access.ofTree root excluded).run := by
  refine Reads.optionBind (Reads.optionBind (fun _ => rfl) fun visited => ?_) fun _ =>
    .pure (some _)
  exact Reads.mapM fun place => Reads.optionBind (fun _ => rfl) fun _ => .pure (some _)

/-- A run writes nothing. -/
theorem reads_perform (settings : Settings) : Reads (Run.perform Access.ofTree settings) := by
  unfold Run.perform
  split
  next _ _ => exact .pure _
  next seeds _ =>
    refine (Reads.pure 0).bind fun begun => (reads_index _ _).bind fun found => ?_
    split
    next _ => exact .pure _
    next index =>
      refine (Reads.pure 0).bind fun indexed => ?_
      rcases Slice.Walk.start.solve index seeds with ⟨walk, error⟩
      refine (Reads.pure 0).bind fun solved => ?_
      dsimp only
      split
      next _ _ => exact .pure _
      next outcome _ => exact (Reads.pure 0).bind fun assembled => .pure _

namespace Command

variable {tree after : Tree} {exit : Exit} {words : List String}

/-! ## Commands -/

/-- A command line asks for a run with some settings, given the files that are there. -/
def Asks (words : List String) (tree : Tree) (settings : Settings) : Prop :=
  ∃ request text loaded, Meaning.ofWords? words = some (.slice request) ∧
    tree.readText? request.settings = some text ∧ Settings.ofYaml? text = some loaded ∧
    settings = request.settle loaded

/-- What is said about a result that could not be written. -/
def writeFailure : String :=
  "Error writing output: " ++ accessMessage

/-- A command fails with its run, or because the result cannot be written. -/
theorem runAndWrite_cases {settings : Settings} {run : Run}
    (started : (Run.perform Access.ofTree settings).run tree = (run, tree))
    (performed : (runAndWrite Access.ofTree settings).run tree = (exit, after))
    (failed : exit.code = 1) :
    ((∀ outcome, run.result ≠ .ok outcome) ∧ after = tree) ∨
      ∃ outcome, run.result = .ok outcome ∧ exit.errors = [writeFailure] ∧
        Output.effect (Output.write Access.ofTree settings run outcome) tree = (false, after) := by
  have clock : Access.ofTree.clock.run tree = (0, tree) := rfl
  rw [runAndWrite, run_bind_eq clock, run_bind_eq started] at performed
  dsimp only at performed
  cases result : run.result with
  | error error =>
    rw [result] at performed
    cases performed
    exact .inl ⟨nofun, rfl⟩
  | ok outcome =>
    rw [result] at performed
    dsimp only at performed
    refine .inr ⟨outcome, rfl, ?_⟩
    rcases written : (Output.write Access.ofTree settings run outcome).run.run tree
      with ⟨_ | value, left⟩
    · rw [run_bind_eq written] at performed
      cases performed
      exact ⟨rfl, by rw [Output.effect, written]; rfl⟩
    · rw [run_bind_eq written] at performed
      cases performed
      cases failed

/-- A request has one meaning. -/
theorem Asks.unique (one : Asks words tree first)
    (other : Asks words tree second) : first = second := by
  obtain ⟨request, text, loaded, means, read, isLoaded, rfl⟩ := one
  obtain ⟨again, textAgain, loadedAgain, meansAgain, readAgain, isLoadedAgain, rfl⟩ := other
  cases means.symm.trans meansAgain
  cases read.symm.trans readAgain
  cases isLoaded.symm.trans isLoadedAgain
  rfl

/-- A command fails because it has no settings, or runs and writes with those that it has. -/
theorem perform_cases (performed : (perform Access.ofTree words).run tree = (exit, after))
    (failed : exit.code = 1) :
    ((∀ settings, ¬ Asks words tree settings) ∧ after = tree) ∨
      ∃ settings, Asks words tree settings ∧ (runAndWrite Access.ofTree settings).run tree =
        (exit, after) := by
  rw [perform] at performed
  split at performed
  next request means =>
    have read : (Access.ofTree.readText request.settings).run tree =
        (tree.readText? request.settings, tree) := rfl
    rw [Request.perform, run_bind_eq read] at performed
    dsimp only at performed
    split at performed
    next missing =>
      cases performed
      refine .inl ⟨?_, rfl⟩
      rintro settings ⟨again, text, loaded, meansAgain, isText, -⟩
      cases means.symm.trans meansAgain
      cases missing.symm.trans isText
    next text found =>
      split at performed
      next invalid =>
        cases performed
        refine .inl ⟨?_, rfl⟩
        rintro settings ⟨again, other, loaded, meansAgain, isText, isLoaded, -⟩
        cases means.symm.trans meansAgain
        cases found.symm.trans isText
        cases invalid.symm.trans isLoaded
      next loaded isLoaded =>
        exact .inr ⟨_, ⟨request, text, loaded, means, found, isLoaded, rfl⟩, performed⟩
  next _ =>
    cases performed
    cases failed
  next _ =>
    cases performed
    cases failed

/-- A command that fails before its run has a result leaves all files as they were. Otherwise it
fails because the result cannot be written, and stops at a change that cannot be made. The changes
before that one have been made. The change itself leaves at most directories on its way. Every other
place is as it was. -/
theorem failed_command_leaves (words : List String) (tree after : Tree) (exit : Exit)
    (performed : (perform Access.ofTree words).run tree = (exit, after)) (failed : exit.code = 1) :
    after = tree ∧ (∀ settings, Asks words tree settings →
      ∀ outcome, ((Run.perform Access.ofTree settings).run tree).1.result ≠ .ok outcome) ∨
    exit.errors = [writeFailure] ∧ ∃ settings run outcome, Asks words tree settings ∧
      (Run.perform Access.ofTree settings).run tree = (run, tree) ∧ run.result = .ok outcome ∧
      ∃ done change rest middle, Output.changes settings run outcome = done ++ change :: rest ∧
        Output.Change.applyAll done tree = (true, middle) ∧ change.apply middle = (false, after) ∧
        Tree.Grows (done.flatMap (·.files)) ((done ++ [change]).flatMap (·.way)) tree after := by
  rcases perform_cases performed failed with ⟨unasked, rfl⟩ | ⟨settings, asks, runs⟩
  · exact .inl ⟨rfl, fun settings asks => absurd asks (unasked settings)⟩
  · have started : (Run.perform Access.ofTree settings).run tree = (_, tree) :=
      Prod.ext rfl (reads_perform settings tree)
    rcases runAndWrite_cases started runs failed
      with ⟨noResult, rfl⟩ | ⟨outcome, result, errors, stopped⟩
    · refine .inl ⟨rfl, fun other asksOther => ?_⟩
      rw [asksOther.unique asks]
      exact noResult
    · rw [Output.makes_write] at stopped
      obtain ⟨done, change, rest, middle, split, made, stops⟩ := Output.Change.exists_failed stopped
      exact .inr ⟨errors, settings, _, outcome, asks, started, result, done, change, rest, middle,
        split, made, stops, Output.Change.grows_of_stopped made stops⟩

/-- A class with one method. -/
def fooText : String :=
  "package p;\n\nclass Foo \x7b\n    void bar() \x7b\n    \x7d\n\x7d\n"

/-- A settings file and a project with the class. -/
def desk : Tree :=
  ⟨[(["slice.yml"], .file (.text "base_path: proj\noutput_path: out\nmethods: p.Foo#bar\n")),
    (["proj"], .directory), (["proj", "src"], .directory), (["proj", "src", "main"], .directory),
    (["proj", "src", "main", "java"], .directory),
      (["proj", "src", "main", "java", "p"], .directory),
    (["proj", "src", "main", "java", "p", "Foo.java"], .file (.text fooText))]⟩

/-- A command line that wants the report where the written project has a directory. -/
def reportOnDirectory : List String :=
  ["slice", "slice.yml", "--report", "out/src"]

/-- A report that cannot be written ends the run with code 1, after the files have been written. -/
theorem perform_desk :
    ∃ exit after, (perform Access.ofTree reportOnDirectory).run desk = (exit, after) ∧
    exit.code = 1 ∧
      after.find? ["out", "src", "main", "java", "p", "Foo.java"] = some (.file (.text fooText)) :=
  ⟨_, _, (Prod.eta _).symm, by decide +kernel⟩

/-- The project is written, and only then it turns out that the report cannot be. -/
theorem failed_report_leaves_project : ∃ exit after,
    (perform Access.ofTree reportOnDirectory).run desk = (exit, after) ∧ exit.code = 1 ∧
      ∃ settings run outcome done change rest middle, Asks reportOnDirectory desk settings ∧
        Output.changes settings run outcome = done ++ change :: rest ∧
        Output.Change.applyAll done desk = (true, middle) ∧ change.apply middle = (false, after) ∧
        Tree.Grows (done.flatMap (·.files)) ((done ++ [change]).flatMap (·.way)) desk after := by
  obtain ⟨exit, after, performed, failed, written⟩ := perform_desk
  rcases failed_command_leaves reportOnDirectory desk after exit performed failed with
    ⟨rfl, -⟩ | ⟨-, settings, run, outcome, asks, -, -, done, change, rest, middle, split, made,
      stops, grows⟩
  · cases written
  · exact ⟨exit, after, performed, failed, settings, run, outcome, done, change, rest, middle, asks,
      split, made, stops, grows⟩

/-- Not every command that fails leaves the files as they were. -/
theorem failed_command_may_leave_files :
    ¬ ∀ (words : List String) (tree after : Tree) (exit : Exit),
    (perform Access.ofTree words).run tree = (exit, after) → exit.code = 1 → after = tree := by
  intro unchanged
  obtain ⟨exit, after, performed, failed, written⟩ := perform_desk
  obtain rfl := unchanged reportOnDirectory desk after exit performed failed
  cases written

end Command

end JavaSlice
