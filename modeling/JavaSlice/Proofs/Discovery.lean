import JavaSlice.Proofs.Enclosing
import JavaSlice.Proofs.Registry

/-!
# Finding declarations

`Walk.push` finds a key: it gives the key a node, if the project declares it, and a file to each
type around it. Nothing that was found before is lost or changed by it. `Progress` says this for any
number of steps of a scan. It is the one description of what steps do on which all later arguments
rest:

* the keys found are those found before and those that the steps need, as far as they are declared;
* no node is scanned by it;
* files are made for the types around the keys that are needed, and their headers wait to be
  scanned;
* the file of the owner of the scan takes in the steps, and all other files stay as they are.

A walk is *coherent* if its registry is consistent, every key is declared, the files are those of
the types around the keys, and the headers that wait are headers of files, none twice.
-/

namespace JavaSlice

open List Source Slice

variable {key : Key} {name : String} {middle : Walk}

/-- A name is that of the type that owns a key or of one that encloses it. -/
def Index.InScope (index : Index) (key : Key) (name : String) : Prop :=
  ∃ decl, index.typeDecl? key.owner = some decl ∧
    ∃ type ∈ index.scopeTypes decl, type.qualifiedName = name

namespace Slice

namespace Walk

variable {walk before after : Walk} {unit : CompilationUnit} {types : List TypeDecl}
variable {number : Nat} {decl : TypeDecl} {index : Index}

/-! ## What a walk shows -/

/-- The keys that a walk has found. -/
def keys (walk : Walk) : List Key :=
  walk.registry.keys

/-- The keys whose nodes a walk has taken up for scanning. -/
def scanned (walk : Walk) : List Key :=
  walk.registry.scanned

/-- The names of the types that have files. -/
def fileNames (walk : Walk) : List String :=
  walk.registry.files.names

/-- The names of the types whose headers wait to be scanned. -/
def pendingNames (walk : Walk) : List String :=
  walk.pending.map (·.1)

theorem mem_fileNames_iff : name ∈ walk.fileNames ↔
    ∃ file, walk.registry.file? name = some file := by
  rw [fileNames, ← Table.get?_isSome_iff, Option.isSome_iff_exists]
  rfl

theorem file?_eq_none_iff : walk.registry.file? name = none ↔ name ∉ walk.fileNames :=
  Table.get?_eq_none_iff _ _

/-! ## Making files -/

/-- A type that has a file is left alone. -/
theorem ensureFile_of_mem (present : decl.qualifiedName ∈ walk.fileNames) :
    ensureFile unit number walk decl = walk := by
  simp only [ensureFile, Registry.ensureFile, Registry.hasFile, (Table.has_iff _ _).mpr present,
    if_true]

/-- A type without a file gets one, and its header waits to be scanned. -/
theorem ensureFile_of_not_mem (absent : decl.qualifiedName ∉ walk.fileNames) :
    ensureFile unit number walk decl =
      { walk with
        registry := { walk.registry with
          files := walk.registry.files.put decl.qualifiedName (.ofDecl unit decl) }
        pending := (decl.qualifiedName, number) :: walk.pending } := by
  have missing : walk.registry.hasFile decl.qualifiedName = false :=
    Bool.eq_false_iff.mpr fun present => absent ((Table.has_iff _ _).mp present)
  simp only [ensureFile, Registry.ensureFile, missing, Bool.false_eq_true, if_false]

/-- Every type of a list has a file, made from a source file if there was none; nothing else has
changed. -/
structure FilesMade (unit : CompilationUnit) (types : List TypeDecl) (before after : Walk) :
    Prop where
  nodes : after.registry.nodes = before.registry.nodes
  workList : after.registry.workList = before.registry.workList
  names : ∀ name, name ∈ after.fileNames ↔
    name ∈ before.fileNames ∨ ∃ type ∈ types, type.qualifiedName = name
  kept : ∀ name file, before.registry.file? name = some file → after.registry.file? name = some file
  made : ∀ name file, name ∉ before.fileNames → after.registry.file? name = some file →
    ∃ type ∈ types, type.qualifiedName = name ∧ file = .ofDecl unit type
  pending : ∀ name, name ∈ after.pendingNames ↔
    name ∈ before.pendingNames ∨ name ∈ after.fileNames ∧ name ∉ before.fileNames

theorem FilesMade.keys (files : FilesMade unit types before after) : after.keys = before.keys := by
  simp only [Walk.keys, Registry.keys, files.nodes]

theorem FilesMade.scanned (files : FilesMade unit types before after) :
    after.scanned = before.scanned := by
  simp only [Walk.scanned, Registry.scanned, files.nodes]

theorem filesMade_nil (unit : CompilationUnit) (walk : Walk) : FilesMade unit [] walk walk where
  nodes := rfl
  workList := rfl
  names := by simp
  kept := fun _ _ found => found
  made := fun name file absent found => absurd (mem_fileNames_iff.mpr ⟨file, found⟩) absent
  pending := by simp

theorem filesMade_singleton (unit : CompilationUnit) (number : Nat) (walk : Walk)
    (decl : TypeDecl) : FilesMade unit [decl] walk (ensureFile unit number walk decl) := by
  by_cases present : decl.qualifiedName ∈ walk.fileNames
  · rw [ensureFile_of_mem present]
    have unchanged := filesMade_nil unit walk
    refine { unchanged with names := ?_, made := ?_ }
    · intro name
      constructor
      · exact Or.inl
      · rintro (known | ⟨type, only, rfl⟩)
        · exact known
        · rw [mem_singleton.mp only]
          exact present
    · intro name file absent found
      exact absurd (mem_fileNames_iff.mpr ⟨file, found⟩) absent
  · rw [ensureFile_of_not_mem present]
    have names : ∀ name,
        name ∈ (walk.registry.files.put decl.qualifiedName (.ofDecl unit decl)).names ↔
        name ∈ walk.fileNames ∨ decl.qualifiedName = name := by
      intro name
      rw [Table.names_put_of_not_mem present, mem_append, mem_singleton]
      exact or_congr_right eq_comm
    refine ⟨rfl, rfl, ?_, ?_, ?_, ?_⟩
    · intro name
      simpa [fileNames] using names name
    · intro name file found
      have different : decl.qualifiedName ≠ name := by
        rintro rfl
        exact present (mem_fileNames_iff.mpr ⟨file, found⟩)
      simp only [Registry.file?, Table.get?_put, if_neg different]
      exact found
    · intro name file absent found
      simp only [Registry.file?, Table.get?_put] at found
      split at found
      next same =>
        cases found
        exact ⟨decl, mem_singleton.mpr rfl, same, rfl⟩
      next _ => exact absurd (mem_fileNames_iff.mpr ⟨file, found⟩) absent
    · intro name
      simp only [pendingNames, fileNames, map_cons, mem_cons, names]
      constructor
      · rintro (rfl | waits)
        · exact .inr ⟨.inr rfl, present⟩
        · exact .inl waits
      · rintro (waits | ⟨known | same, absent⟩)
        · exact .inr waits
        · exact absurd known absent
        · exact .inl same.symm

/-- If two changes one after the other make headers wait for the files that they make, both together
do. -/
theorem pending_trans (kept : ∀ name, name ∈ before.fileNames → name ∈ middle.fileNames)
    (keptAfter : ∀ name, name ∈ middle.fileNames → name ∈ after.fileNames)
    (first : ∀ name, name ∈ middle.pendingNames ↔
      name ∈ before.pendingNames ∨ name ∈ middle.fileNames ∧ name ∉ before.fileNames)
    (second : ∀ name, name ∈ after.pendingNames ↔
      name ∈ middle.pendingNames ∨ name ∈ after.fileNames ∧ name ∉ middle.fileNames)
    (name : String) :
    name ∈ after.pendingNames ↔
      name ∈ before.pendingNames ∨ name ∈ after.fileNames ∧ name ∉ before.fileNames := by
  rw [second, first, or_assoc]
  refine or_congr_right ⟨?_, ?_⟩
  · rintro (⟨between, absent⟩ | ⟨present, later⟩)
    · exact ⟨keptAfter name between, absent⟩
    · exact ⟨present, fun earlier => later (kept name earlier)⟩
  · rintro ⟨present, absent⟩
    by_cases between : name ∈ middle.fileNames
    · exact .inl ⟨between, absent⟩
    · exact .inr ⟨present, between⟩

theorem FilesMade.append (first : FilesMade unit types before middle)
    (second : FilesMade unit more middle after) :
    FilesMade unit (types ++ more) before after where
  nodes := second.nodes.trans first.nodes
  workList := second.workList.trans first.workList
  names := by
    intro name
    rw [second.names, first.names, or_assoc]
    simp only [mem_append, or_and_right, exists_or]
  kept := fun name file found => second.kept name file (first.kept name file found)
  made := by
    intro name file absent found
    by_cases between : name ∈ middle.fileNames
    · obtain ⟨earlier, present⟩ := mem_fileNames_iff.mp between
      have same : earlier = file :=
        Option.some.inj ((second.kept name earlier present).symm.trans found)
      obtain ⟨type, mem, named, made⟩ := first.made name earlier absent present
      exact ⟨type, mem_append_left _ mem, named, same ▸ made⟩
    · obtain ⟨type, mem, named, made⟩ := second.made name file between found
      exact ⟨type, mem_append_right _ mem, named, made⟩
  pending := pending_trans (fun name known => (first.names name).mpr (.inl known))
    (fun name known => (second.names name).mpr (.inl known)) first.pending second.pending

/-- Files are made for a list of types. -/
theorem filesMade_foldl (unit : CompilationUnit) (number : Nat) (types : List TypeDecl)
    (walk : Walk) : FilesMade unit types walk (types.foldl (ensureFile unit number) walk) := by
  induction types generalizing walk with
  | nil => exact filesMade_nil unit walk
  | cons type rest ih =>
    exact (filesMade_singleton unit number walk type).append (ih _)

/-- No type has two files, and the headers that wait are headers of files, none twice. -/
structure FilesOnce (walk : Walk) : Prop where
  files : walk.fileNames.Nodup
  pending : walk.pendingNames.Nodup
  pendingFiles : ∀ name ∈ walk.pendingNames, name ∈ walk.fileNames

theorem FilesOnce.ensureFile (once : walk.FilesOnce) (unit : CompilationUnit) (number : Nat)
    (decl : TypeDecl) : (ensureFile unit number walk decl).FilesOnce := by
  by_cases present : decl.qualifiedName ∈ walk.fileNames
  · rwa [ensureFile_of_mem present]
  · rw [ensureFile_of_not_mem present]
    refine ⟨Table.names_put_nodup once.files _ _, ?_, ?_⟩
    · refine nodup_cons.mpr ⟨fun waits => ?_, once.pending⟩
      exact present (once.pendingFiles _ waits)
    · intro name waits
      rw [fileNames, Table.names_put_of_not_mem present, mem_append, mem_singleton]
      rcases mem_cons.mp waits with rfl | earlier
      · exact .inr rfl
      · exact .inl (once.pendingFiles name earlier)

theorem FilesOnce.foldl (once : walk.FilesOnce) (unit : CompilationUnit) (number : Nat)
    (types : List TypeDecl) : (types.foldl (Walk.ensureFile unit number) walk).FilesOnce := by
  induction types generalizing walk with
  | nil => exact once
  | cons type rest ih => exact ih (once.ensureFile unit number type)

/-! ## Finding a key -/

/-- A key that nothing declares changes nothing. -/
theorem push_of_not_declares
    (undeclared : ¬ index.declares key) : walk.push index source key = (none, walk) := by
  unfold push
  split
  next unit decl _ found =>
    have missing : ¬ Index.declaresMember decl key.member = true := fun member =>
      undeclared ((Index.declares_iff index key).mpr ⟨decl, found, member⟩)
    rw [if_neg missing]
  next _ => rfl

/-- Finding a declared key gives it a node and makes the files of the types around it, on behalf of
that node. -/
theorem push_of_declares (declared : index.declares key) (walk : Walk)
    (source : Option (Nat × EdgeKind)) :
    ∃ unit decl, index.unitOf? key.owner = some unit ∧ index.typeDecl? key.owner = some decl ∧
      walk.push index source key = (some (walk.registry.intern key).1.1,
        (index.scopeTypes decl).foldl (ensureFile unit (walk.registry.intern key).1.1)
          { walk with registry := walk.registry.discover source key }) := by
  obtain ⟨decl, found, member⟩ := (Index.declares_iff index key).mp declared
  obtain ⟨unit, file⟩ := (Index.unitOf?_eq_some_iff index key.owner).mpr ⟨decl, found⟩
  refine ⟨unit, decl, file, found, ?_⟩
  simp only [push, file, found, member, if_true]
  cases source <;> rfl

/-! ## Carrying out steps -/

end Walk

/-- A file after one step of the scan of something that belongs to it. -/
def OutputFile.takeIn (file : OutputFile) : Step → OutputFile
  | .useImport line => file.addImport line
  | .keepField field => file.addField field
  | .keepMethod key method => file.addMethod key method
  | .need _ _ | .fail _ => file

/-- The fault at which a step stops a scan. -/
def Step.fault? : Step → Option Fault
  | .fail fault => some fault
  | _ => none

/-- The steps before the first that fails. -/
def Step.carried (steps : List Step) : List Step :=
  steps.takeWhile (·.fault?.isNone)

/-- Some step needs a key, and the project declares it. -/
def Step.Needs (index : Index) (steps : List Step) (key : Key) : Prop :=
  (∃ kind, Step.need kind key ∈ steps) ∧ index.declares key = true

theorem Step.needs_append :
    Step.Needs index (steps ++ more) key ↔ Step.Needs index steps key ∨
      Step.Needs index more key := by
  simp only [Step.Needs, mem_append, exists_or, or_and_right]

theorem Step.needs_singleton :
    Step.Needs index [.need kind key] other ↔ other = key ∧ index.declares key := by
  simp only [Step.Needs, mem_singleton, Step.need.injEq]
  constructor
  · rintro ⟨⟨_, rfl, rfl⟩, declared⟩
    exact ⟨rfl, declared⟩
  · rintro ⟨rfl, declared⟩
    exact ⟨⟨kind, rfl, rfl⟩, declared⟩

namespace Walk

variable {index : Index} {owner : String} {steps : List Step} {before after walk : Walk}
  {seed : Seed}

/-- The state after one step; a step that fails changes nothing. -/
def advance (index : Index) (number : Nat) (owner : String) (walk : Walk) (step : Step) : Walk :=
  match walk.perform index number owner step with
  | .ok next => next
  | .error _ => walk

/-- Carrying out steps is to advance by those before the first that fails. -/
theorem performAll_eq (index : Index) (number : Nat) (owner : String) (walk : Walk)
    (steps : List Step) :
    performAll index number owner walk steps =
      ((Step.carried steps).foldl (advance index number owner) walk,
        steps.findSome? Step.fault?) := by
  induction steps generalizing walk with
  | nil => rfl
  | cons step rest ih =>
    cases step with
    | fail fault => rfl
    | need kind key => exact ih _
    | useImport line => exact ih _
    | keepField field => exact ih _
    | keepMethod key method => exact ih _

/-- A file that is made for a type: empty, and with the package of the file that declares a key in
the type. -/
def MakesFile (index : Index) (name : String) (file : OutputFile) : Prop :=
  ∃ owner unit decl type, index.unitOf? owner = some unit ∧ index.typeDecl? owner = some decl ∧
    type ∈ index.scopeTypes decl ∧ type.qualifiedName = name ∧ file = .ofDecl unit type

/-- In well nested files without repeated names, the file that is made for a type is made from its
own declaration, whichever key it is made for. -/
theorem MakesFile.eq_ofDecl (unique : ((Index.declarations units).map (·.decl.qualifiedName)).Nodup)
    (nested : ∀ unit ∈ units, unit.isNested) (made : MakesFile (Index.ofUnits units) name file) :
    ∃ type, (Index.ofUnits units).types.get? name = some type ∧
      file = .ofDecl type.unit type.decl := by
  obtain ⟨owner, unit, decl, type, inUnit, present, around, rfl, rfl⟩ := made
  obtain ⟨entry, found, rfl⟩ := Option.map_eq_some_iff.mp present
  rw [Index.unitOf?, found, Option.map_some, Option.some.injEq] at inUnit
  have declared := Index.mem_declarations_of_get? found
  have stored := Index.get?_of_encloses unique nested declared
    (Index.encloses_of_mem_scopeTypes around)
  exact ⟨_, stored, by rw [inUnit]⟩

/-- What steps of a scan do to a walk. -/
structure Progress (index : Index) (owner : String) (steps : List Step) (before after : Walk) :
    Prop where
  keys : ∀ key, key ∈ after.keys ↔ key ∈ before.keys ∨ Step.Needs index steps key
  scanned : after.scanned = before.scanned
  names : ∀ name, name ∈ after.fileNames ↔
    name ∈ before.fileNames ∨ ∃ key, Step.Needs index steps key ∧ index.InScope key name
  kept : ∀ name file, before.registry.file? name = some file →
    after.registry.file? name = some (if name = owner then steps.foldl OutputFile.takeIn file
      else file)
  made : ∀ name file, name ∉ before.fileNames → after.registry.file? name = some file →
    MakesFile index name file
  pending : ∀ name, name ∈ after.pendingNames ↔
    name ∈ before.pendingNames ∨ name ∈ after.fileNames ∧ name ∉ before.fileNames

theorem progress_nil (index : Index) (owner : String) (walk : Walk) :
    Progress index owner [] walk walk where
  keys := by simp [Step.Needs]
  scanned := rfl
  names := by simp [Step.Needs]
  kept := by simp
  made := fun name file absent found => absurd (mem_fileNames_iff.mpr ⟨file, found⟩) absent
  pending := by simp

/-- Finding a key is progress by one step that needs it, whatever the scan that asked. -/
theorem progress_push (index : Index) (owner : String) (walk : Walk)
    (source : Option (Nat × EdgeKind)) (kind : EdgeKind) (key : Key) :
    Progress index owner [.need kind key] walk (walk.push index source key).2 := by
  by_cases declared : index.declares key = true
  · obtain ⟨unit, decl, file, found, pushed⟩ := push_of_declares declared walk source
    have files := filesMade_foldl unit (walk.registry.intern key).1.1 (index.scopeTypes decl)
      { walk with registry := walk.registry.discover source key }
    rw [pushed]
    refine ⟨?_, ?_, ?_, ?_, ?_, ?_⟩
    · intro other
      rw [Step.needs_singleton, files.keys, and_iff_left declared]
      exact Registry.mem_keys_discover
    · rw [files.scanned]
      exact Registry.discover_scanned walk.registry source key
    · intro name
      rw [files.names]
      simp only [fileNames, Registry.discover_files, Step.needs_singleton, declared, and_true,
        exists_eq_left, Index.InScope, found, Option.some.injEq, exists_eq_left']
    · intro name present known
      simp only [foldl_cons, foldl_nil, OutputFile.takeIn, ite_self]
      exact files.kept name present (by simpa [Registry.file?] using known)
    · intro name made absent present
      obtain ⟨type, around, named, fresh⟩ :=
        files.made name made (by simpa [fileNames] using absent) present
      exact ⟨key.owner, unit, decl, type, file, found, around, named, fresh⟩
    · intro name
      rw [files.pending]
      simp only [pendingNames, fileNames, Registry.discover_files]
  · rw [push_of_not_declares declared]
    have unchanged := progress_nil index owner walk
    refine { unchanged with keys := ?_, names := ?_, kept := ?_ }
    · intro other
      simp [Step.needs_singleton, declared]
    · intro name
      simp [Step.needs_singleton, declared]
    · intro name file known
      simpa [OutputFile.takeIn] using known

/-- A step that needs nothing changes the file of the owner only. -/
theorem progress_updateFile (index : Index) (owner : String) (walk : Walk) (step : Step)
    (inert : ∀ kind key, step ≠ .need kind key) :
    Progress index owner [step] walk
      { walk with registry := walk.registry.updateFile owner (·.takeIn step) } := by
  have needs : ∀ key, ¬ Step.Needs index [step] key := by
    rintro key ⟨⟨kind, needed⟩, -⟩
    exact inert kind key (mem_singleton.mp needed).symm
  have names : fileNames { walk with registry := walk.registry.updateFile owner (·.takeIn step) } =
      walk.fileNames := by
    simp only [fileNames, Registry.updateFile, Table.names_update]
  refine ⟨?_, rfl, ?_, ?_, ?_, ?_⟩
  · intro key
    exact (or_iff_left (needs key)).symm
  · intro name
    simp [names, needs]
  · intro name file known
    simp only [Registry.file?, Registry.updateFile, Table.get?_update, foldl_cons, foldl_nil]
    rw [Registry.file?] at known
    split
    next _ => rw [known, Option.map_some]
    next _ => exact known
  · intro name file absent found
    exact absurd (names ▸ mem_fileNames_iff.mpr ⟨file, found⟩) absent
  · intro name
    rw [names]
    simp [pendingNames]

/-- One step makes the progress that it asks for. -/
theorem progress_advance (index : Index) (number : Nat) (owner : String) (walk : Walk)
    (step : Step) : Progress index owner [step] walk (walk.advance index number owner step) := by
  cases step with
  | need kind key => exact progress_push index owner walk (some (number, kind)) kind key
  | useImport line => exact progress_updateFile index owner walk (.useImport line) (by simp)
  | keepField field => exact progress_updateFile index owner walk (.keepField field) (by simp)
  | keepMethod key method =>
    exact progress_updateFile index owner walk (.keepMethod key method) (by simp)
  | fail fault =>
    have unchanged := progress_nil index owner walk
    refine { unchanged with keys := ?_, names := ?_, kept := ?_ }
    · simp [advance, perform, Step.Needs]
    · simp [advance, perform, Step.Needs]
    · intro name file known
      simpa [advance, perform, OutputFile.takeIn] using known

/-- Progress adds up, as long as the owner of the scan has its file from the start. -/
theorem Progress.append (first : Progress index owner steps before middle)
    (second : Progress index owner more middle after) (present : owner ∈ before.fileNames) :
    Progress index owner (steps ++ more) before after where
  keys := by
    intro key
    rw [second.keys, first.keys, Step.needs_append, or_assoc]
  scanned := second.scanned.trans first.scanned
  names := by
    intro name
    rw [second.names, first.names, or_assoc]
    simp only [Step.needs_append, or_and_right, exists_or]
  kept := by
    intro name file known
    rw [second.kept name _ (first.kept name file known)]
    split
    next _ => rw [foldl_append]
    next _ => rfl
  made := by
    intro name file absent found
    by_cases between : name ∈ middle.fileNames
    · obtain ⟨earlier, known⟩ := mem_fileNames_iff.mp between
      have different : name ≠ owner := by
        rintro rfl
        exact absent present
      have same := second.kept name earlier known
      rw [if_neg different, found, Option.some.injEq] at same
      rw [same]
      exact first.made name earlier absent known
    · exact second.made name file between found
  pending := pending_trans (fun name known => (first.names name).mpr (.inl known))
    (fun name known => (second.names name).mpr (.inl known)) first.pending second.pending

theorem Progress.mem_fileNames (progress : Progress index owner steps before after)
    (present : name ∈ before.fileNames) : name ∈ after.fileNames :=
  (progress.names name).mpr (.inl present)

/-- The progress that a whole scan makes. -/
theorem progress_foldl (index : Index) (number : Nat) (steps : List Step)
    (present : owner ∈ walk.fileNames) :
    Progress index owner steps walk (steps.foldl (advance index number owner) walk) := by
  induction steps generalizing walk with
  | nil => exact progress_nil index owner walk
  | cons step rest ih =>
    have first := progress_advance index number owner walk step
    exact first.append (ih (first.mem_fileNames present)) present

/-- The keys that a scan finds do not depend on the state in which it is made. -/
theorem mem_keys_foldl_advance (index : Index) (number : Nat) (owner : String) (steps : List Step)
    (walk : Walk) (key : Key) :
    key ∈ (steps.foldl (advance index number owner) walk).keys ↔
      key ∈ walk.keys ∨ Step.Needs index steps key := by
  induction steps generalizing walk with
  | nil => simp [Step.Needs]
  | cons step rest ih =>
    rw [foldl_cons, ih, (progress_advance index number owner walk step).keys, or_assoc,
      ← Step.needs_append, singleton_append]

/-! ## Coherence -/

/-- What holds of every walk, at any time. -/
structure Coherent (index : Index) (walk : Walk) : Prop where
  registry : walk.registry.Consistent
  once : walk.FilesOnce
  declared : ∀ key ∈ walk.keys, index.declares key = true
  files : ∀ name, name ∈ walk.fileNames ↔ ∃ key ∈ walk.keys, index.InScope key name

theorem coherent_start (index : Index) : Coherent index start where
  registry := Registry.consistent_empty
  once := ⟨nodup_nil, nodup_nil, fun _ waits => nomatch waits⟩
  declared := fun _ found => nomatch found
  files := by simp [start, fileNames, keys, Registry.keys, Registry.empty]

/-- Progress keeps a walk coherent if it keeps the registry consistent and the files apart. -/
theorem Coherent.of_progress (coherent : before.Coherent index)
    (progress : Progress index owner steps before after) (registry : after.registry.Consistent)
    (once : after.FilesOnce) : after.Coherent index where
  registry := registry
  once := once
  declared := by
    intro key found
    rcases (progress.keys key).mp found with known | needed
    · exact coherent.declared key known
    · exact needed.2
  files := by
    intro name
    rw [progress.names, coherent.files]
    simp only [progress.keys, or_and_right, exists_or]

section

variable (coherent : walk.Coherent index)
include coherent

/-- Finding a key keeps a walk coherent. -/
theorem Coherent.push (source : Option (Nat × EdgeKind))
    (key : Key) : (walk.push index source key).2.Coherent index := by
  by_cases declared : index.declares key = true
  · have progress := progress_push index "" walk source .call key
    obtain ⟨unit, decl, -, -, pushed⟩ := push_of_declares declared walk source
    have files := filesMade_foldl unit (walk.registry.intern key).1.1 (index.scopeTypes decl)
      { walk with registry := walk.registry.discover source key }
    have discovered := coherent.registry.discover source key
    have once : FilesOnce { walk with registry := walk.registry.discover source key } := by
      refine ⟨?_, coherent.once.pending, ?_⟩
      · simpa [fileNames] using coherent.once.files
      · intro name waits
        simpa [fileNames] using coherent.once.pendingFiles name waits
    rw [pushed] at progress ⊢
    refine coherent.of_progress progress ⟨?_, ?_, ?_⟩ (once.foldl unit _ _)
    · show (Walk.keys _).Nodup
      rw [files.keys]
      exact discovered.distinct
    · rw [files.workList]
      exact discovered.waitingOnce
    · rw [files.workList, files.nodes]
      exact discovered.waiting
  · rw [push_of_not_declares declared]
    exact coherent

theorem Coherent.updateFile (owner : String) (step : Step)
    (inert : ∀ kind key, step ≠ .need kind key) :
    Coherent index { walk with registry := walk.registry.updateFile owner (·.takeIn step) } := by
  refine coherent.of_progress (progress_updateFile index owner walk step inert) ?_ ?_
  · exact ⟨coherent.registry.distinct, coherent.registry.waitingOnce, coherent.registry.waiting⟩
  · refine ⟨?_, coherent.once.pending, ?_⟩
    · simpa [fileNames, Registry.updateFile] using coherent.once.files
    · intro name waits
      simpa [fileNames, Registry.updateFile] using coherent.once.pendingFiles name waits

/-- One step keeps a walk coherent. -/
theorem Coherent.advance (number : Nat) (owner : String)
    (step : Step) : (walk.advance index number owner step).Coherent index := by
  cases step with
  | need kind key => exact coherent.push (some (number, kind)) key
  | useImport line => exact coherent.updateFile owner (.useImport line) (by simp)
  | keepField field => exact coherent.updateFile owner (.keepField field) (by simp)
  | keepMethod key method => exact coherent.updateFile owner (.keepMethod key method) (by simp)
  | fail fault => exact coherent

theorem Coherent.foldl (number : Nat) (owner : String)
    (steps : List Step) : (steps.foldl (Walk.advance index number owner) walk).Coherent index := by
  induction steps generalizing walk with
  | nil => exact coherent
  | cons step rest ih => exact ih (coherent.advance number owner step)

end

/-! ## Seeds -/

/-- The walk that has found the declarations of some seeds. -/
def addSeeds (index : Index) (walk : Walk) (seeds : List Seed) : Walk :=
  seeds.foldl (fun walk seed => (walk.addSeed index seed).2) walk

theorem solve_eq (index : Index) (walk : Walk) (seeds : List Seed) :
    walk.solve index seeds = (walk.addSeeds index seeds).run index := rfl

/-- What holds of some seeds and a walk, and still holds when both take one more seed, holds with
any more seeds. -/
theorem addSeeds_invariant (holds : List Seed → Walk → Prop)
    (step : ∀ seeds walk seed, holds seeds walk →
      holds (seeds ++ [seed]) (walk.addSeed index seed).2)
    (initially : holds seeds walk) (more : List Seed) :
    holds (seeds ++ more) (walk.addSeeds index more) := by
  induction more generalizing seeds walk with
  | nil => simpa [addSeeds] using initially
  | cons seed rest ih =>
    have next := ih (step seeds walk seed initially)
    rwa [append_assoc, singleton_append] at next

/-- A seed that means a declaration finds it. -/
theorem addSeed_of_resolved (resolved : index.resolveSeed? seed.owner seed.member = some key)
    (walk : Walk) : (walk.addSeed index seed).2 = (walk.push index none key).2 := by
  obtain ⟨_, _, -, -, pushed⟩ :=
    push_of_declares (Index.declares_of_resolveSeed? resolved) walk none
  simp only [addSeed, resolved, pushed]

/-- Any other seed is remembered. -/
theorem addSeed_of_unresolved (unresolved : index.resolveSeed? seed.owner seed.member = none)
    (walk : Walk) :
    (walk.addSeed index seed).2 = { walk with unresolved :=
      walk.unresolved ++ [seed.display] } := by
  simp only [addSeed, unresolved]

/-- A seed is progress by a step that needs what it means, if it means anything. -/
theorem progress_addSeed (index : Index) (walk : Walk) (seed : Seed) :
    Progress index "" (Scope.needSteps .call (index.resolveSeed? seed.owner seed.member)) walk
      (walk.addSeed index seed).2 := by
  cases resolved : index.resolveSeed? seed.owner seed.member with
  | some key =>
    rw [addSeed_of_resolved resolved]
    exact progress_push index "" walk none .call key
  | none =>
    rw [addSeed_of_unresolved resolved]
    have unchanged := progress_nil index "" walk
    exact ⟨unchanged.keys, unchanged.scanned, unchanged.names, unchanged.kept, unchanged.made,
      unchanged.pending⟩

/-- A seed adds the key that it resolves to. -/
theorem mem_keys_addSeed :
    key ∈ (walk.addSeed index seed).2.keys ↔
      key ∈ walk.keys ∨ index.resolveSeed? seed.owner seed.member = some key := by
  rw [(progress_addSeed index walk seed).keys]
  refine or_congr_right ?_
  cases resolved : index.resolveSeed? seed.owner seed.member with
  | some found =>
    have declared := Index.declares_of_resolveSeed? resolved
    rw [Option.some.injEq, eq_comm]
    exact Step.needs_singleton.trans (and_iff_left declared)
  | none => simp [Step.Needs, Scope.needSteps]

theorem Coherent.addSeed (coherent : walk.Coherent index) (seed : Seed) :
    (walk.addSeed index seed).2.Coherent index := by
  cases resolved : index.resolveSeed? seed.owner seed.member with
  | some key =>
    rw [addSeed_of_resolved resolved]
    exact coherent.push none key
  | none =>
    rw [addSeed_of_unresolved resolved]
    have once := coherent.once
    exact ⟨coherent.registry, ⟨once.files, once.pending, once.pendingFiles⟩, coherent.declared,
      coherent.files⟩

theorem Coherent.addSeeds (coherent : walk.Coherent index) (seeds : List Seed) :
    (walk.addSeeds index seeds).Coherent index := by
  induction seeds generalizing walk with
  | nil => exact coherent
  | cons seed rest ih => exact ih (coherent.addSeed seed)

end Walk

end Slice

end JavaSlice
