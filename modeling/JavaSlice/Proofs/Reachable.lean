import JavaSlice.Proofs.Folding
import JavaSlice.Proofs.Termination
import JavaSlice.Slice.Result

/-!
# Walks that calls lead to

A walk may be used for any number of calls: seeds are added, turns are taken until nothing is left
or a scan fails, and both go on from where the last call ended, be it in the middle of a scan. All
walks that are `Reachable` so are coherent. Moreover their edges and pending headers name nodes by
numbers that are there (`Walk.Anchored`), and the files of types keep what they were made with
(`Walk.Titled`).

When a run comes to its end without an error, nothing is left to scan. So all nodes have been
visited, and the ends of all edges. In well formed projects the files of member types are then
folded away, and the output has one file for each outermost type around a visited declaration
(`reachable_walk_invariant`).
-/

namespace JavaSlice

open List Option Slice Source

/-! ## Outermost types -/

namespace Index

variable {index : Index} {decl : TypeDecl}

/-- The outermost type around a type, which may be the type itself. -/
def outermost (index : Index) (decl : TypeDecl) : TypeDecl :=
  (index.scopeTypes decl).getLast (cons_ne_nil _ _)

theorem encloses_outermost (index : Index) (decl : TypeDecl) :
    index.Encloses (index.outermost decl) decl :=
  encloses_of_mem_scopeTypes (getLast_mem _)

/-- A chain that runs to its end stops at a type without an outer type. -/
theorem Chain.getLast_outer (chain : Chain index decl.outer rest) (next : TypeDecl) :
    ¬ index.OuterStep ((decl :: rest).getLast (cons_ne_nil _ _)) next := by
  induction rest generalizing decl with
  | nil =>
    rintro ⟨name, outer, found⟩
    rw [getLast_singleton] at outer
    rw [outer] at chain
    cases chain with
    | unknown missing => simp [found] at missing
  | cons first rest ih =>
    rw [getLast_cons_cons]
    cases outer : decl.outer with
    | none =>
      rw [outer] at chain
      cases chain
    | some name =>
      rw [outer] at chain
      cases chain with
      | link _ further => exact ih further

theorem not_outerStep_outermost (acyclic : index.OuterAcyclic) (decl next : TypeDecl) :
    ¬ index.OuterStep (index.outermost decl) next :=
  (chain_enclosingTypes acyclic decl).getLast_outer next

/-- The outermost type is the only one around a type that has no outer type. -/
theorem eq_outermost (acyclic : index.OuterAcyclic) (around : index.Encloses top decl)
    (isTop : ∀ next, ¬ index.OuterStep top next) : top = index.outermost decl := by
  have functional : Relator.RightUnique index.OuterStep := by
    rintro inner first second ⟨name, outer, found⟩ ⟨again, sameOuter, foundAgain⟩
    rw [outer, some.injEq] at sameOuter
    rw [← sameOuter, found, some.injEq] at foundAgain
    exact foundAgain
  rcases Relation.ReflTransGen.total_of_right_unique functional around
      (index.encloses_outermost decl) with
    outward | inward
  · cases outward.cases_head with
    | inl same => exact same
    | inr step => exact absurd step.choose_spec.1 (isTop _)
  · cases inward.cases_head with
    | inl same => exact same.symm
    | inr step => exact absurd step.choose_spec.1 (not_outerStep_outermost acyclic decl _)

/-- In well nested files without repeated names an outer name leads to an outer type, and is the
shorter one. -/
theorem outerStep_of_outer {units}
    (unique : ((declarations units).map (·.decl.qualifiedName)).Nodup)
    (nested : ∀ unit ∈ units, unit.isNested) {name outer}
    (found : (ofUnits units).typeDecl? name = some decl) (isOuter : decl.outer = some outer) :
    ∃ encloser, (ofUnits units).OuterStep decl encloser ∧ encloser.qualifiedName = outer ∧
      outer.utf8ByteSize < name.utf8ByteSize := by
  obtain ⟨type, stored, rfl⟩ := map_eq_some_iff.mp found
  obtain ⟨inProject, inFile⟩ := mem_declarations_iff.mp (mem_declarations_of_get? stored)
  rcases CompilationUnit.member_of_mem_declaredTypes (nested _ inProject) inFile with
    atTop | ⟨encloser, declaredThere, member⟩
  · simp [atTop] at isOuter
  · have same : encloser.qualifiedName = outer := some.inj (member.outer.symm.trans isOuter)
    have declared : (⟨type.unit, encloser⟩ : IndexedType) ∈ declarations units :=
      mem_declarations_iff.mpr ⟨inProject, declaredThere⟩
    refine ⟨encloser, ⟨outer, isOuter, ?_⟩, same, ?_⟩
    · rw [← same, typeDecl?, get?_of_mem_declarations unique declared, map_some]
    · rw [← qualifiedName_of_get? stored, member.qualifiedName, same]
      simp only [Dotted.join, String.utf8ByteSize_append]
      have dot : (".").utf8ByteSize = 1 := rfl
      omega

/-- The types around a type of the index are found under their names. -/
theorem typeDecl?_of_mem_scopeTypes {index : Index} (named : index.Named) {owner : String}
    {decl type : TypeDecl} (present : index.typeDecl? owner = some decl)
    (around : type ∈ index.scopeTypes decl) : index.typeDecl? type.qualifiedName = some type := by
  obtain ⟨name, found⟩ := typeDecl?_of_encloses present (encloses_of_mem_scopeTypes around)
  rw [named name type found, found]

end Index

namespace Slice

/-! ## Numbers of nodes -/

namespace Registry

/-- The ends of all edges are nodes. -/
def EdgesInside (registry : Registry) : Prop :=
  ∀ edge ∈ registry.edges, edge.source < registry.nodeCount ∧ edge.target < registry.nodeCount

theorem mem_putEdge {edges edge other} (mem : other ∈ putEdge edges edge) :
    other ∈ edges ∨ other = edge := by
  induction edges with
  | nil => exact .inr (mem_singleton.mp mem)
  | cons first rest ih =>
    rw [putEdge] at mem
    split at mem
    next _ =>
      rcases mem_cons.mp mem with same | later
      · exact .inr same
      · exact .inl (mem_cons_of_mem _ later)
    next _ =>
      rcases mem_cons.mp mem with same | later
      · exact .inl (mem_cons.mpr (.inl same))
      · exact (ih later).imp_left (mem_cons_of_mem _)

theorem nodeCount_le_discover (registry : Registry) (source : Option (Nat × EdgeKind)) (key : Key) :
    registry.nodeCount ≤ (registry.discover source key).nodeCount := by
  rw [nodeCount, nodeCount, discover_nodes]
  split
  next _ => exact Nat.le_refl _
  next _ => simp

/-- A key stands at the number that it is given. -/
theorem keyAt_intern (registry : Registry) (source : Option (Nat × EdgeKind)) (key : Key) :
    (registry.discover source key).keys[(registry.intern key).1.1]? = some key := by
  rw [discover_keys]
  cases known : registry.find? key with
  | some number =>
    obtain ⟨inside, same, -⟩ := findIdx?_eq_some_iff_getElem.mp known
    have present : key ∈ registry.keys := by
      by_contra absent
      rw [find?_eq_none_iff.mpr absent] at known
      cases known
    rw [if_pos present]
    simp [keys, intern, known, getElem?_eq_getElem inside, beq_iff_eq.mp same]
  | none =>
    rw [if_neg (find?_eq_none_iff.mp known)]
    simp [keys, intern, known]

/-- The number that a key is given is that of a node. -/
theorem intern_number_lt (registry : Registry) (source : Option (Nat × EdgeKind)) (key : Key) :
    (registry.intern key).1.1 < (registry.discover source key).nodeCount := by
  obtain ⟨inside, -⟩ := List.getElem?_eq_some_iff.mp (registry.keyAt_intern source key)
  simpa [keys, nodeCount] using inside

/-- Finding a key on behalf of a node adds no edge but one between nodes. -/
theorem EdgesInside.discover {registry : Registry} (inside : registry.EdgesInside)
    {source : Option (Nat × EdgeKind)} (origin : ∀ asker ∈ source, asker.1 < registry.nodeCount)
    (key : Key) : (registry.discover source key).EdgesInside := by
  have more := registry.nodeCount_le_discover source key
  have known : ∀ edge ∈ registry.edges, edge.source < (registry.discover source key).nodeCount ∧
      edge.target < (registry.discover source key).nodeCount := fun edge mem =>
    ⟨Nat.lt_of_lt_of_le (inside edge mem).1 more, Nat.lt_of_lt_of_le (inside edge mem).2 more⟩
  have interned : (registry.intern key).2.edges = registry.edges := by
    unfold intern
    split <;> rfl
  intro edge mem
  cases source with
  | none => exact known edge (interned ▸ mem)
  | some asker =>
    have target := registry.intern_number_lt (some asker) key
    simp only [Registry.discover, addEdge] at mem
    split at mem
    next _ => exact known edge (interned ▸ mem)
    next _ =>
      rcases mem_putEdge mem with earlier | rfl
      · exact known edge (interned ▸ earlier)
      · exact ⟨Nat.lt_of_lt_of_le (origin asker rfl) more, target⟩

end Registry

namespace Walk

variable {walk : Walk} {number : Nat} {index : Index} {error : Option ScanError}
variable {final : Walk} {tasks : List Task}

/-- Edges and pending headers name nodes that are there. -/
structure Anchored (walk : Walk) : Prop where
  edges : walk.registry.EdgesInside
  pending : ∀ entry ∈ walk.pending, entry.2 < walk.registry.nodeCount

theorem anchored_start : Anchored start where
  edges := fun _ mem => nomatch mem
  pending := fun _ mem => nomatch mem

section

variable (anchored : walk.Anchored)
include anchored

theorem Anchored.foldl_ensureFile (unit : CompilationUnit)
    (inside : number < walk.registry.nodeCount) (types : List TypeDecl) :
    (types.foldl (ensureFile unit number) walk).Anchored := by
  induction types generalizing walk with
  | nil => exact anchored
  | cons type rest ih =>
    rw [foldl_cons]
    by_cases present : type.qualifiedName ∈ walk.fileNames
    · rw [ensureFile_of_mem present]
      exact ih anchored inside
    · rw [ensureFile_of_not_mem present]
      exact ih ⟨anchored.edges, forall_mem_cons.mpr ⟨inside, anchored.pending⟩⟩ inside

/-- Finding a key on behalf of a node loses no node and leaves all numbers in place. -/
theorem Anchored.push (index : Index)
    (origin : ∀ asker ∈ source, asker.1 < walk.registry.nodeCount) (key : Key) :
    (walk.push index source key).2.Anchored ∧
      walk.registry.nodeCount ≤ (walk.push index source key).2.registry.nodeCount := by
  by_cases declared : index.declares key = true
  · have more := walk.registry.nodeCount_le_discover source key
    have number := walk.registry.intern_number_lt source key
    have discovered : Anchored { walk with registry := walk.registry.discover source key } :=
      ⟨anchored.edges.discover origin key, fun entry waits =>
        Nat.lt_of_lt_of_le (anchored.pending entry waits) more⟩
    obtain ⟨unit, decl, -, -, pushed⟩ := push_of_declares declared walk source
    have files := filesMade_foldl unit (walk.registry.intern key).1.1 (index.scopeTypes decl)
      { walk with registry := walk.registry.discover source key }
    rw [pushed]
    exact ⟨discovered.foldl_ensureFile unit number _,
      more.trans_eq (congrArg List.length files.nodes).symm⟩
  · rw [push_of_not_declares declared]
    exact ⟨anchored, Nat.le_refl _⟩

theorem Anchored.advance (index : Index) (inside : number < walk.registry.nodeCount)
    (owner : String) (step : Step) :
    (walk.advance index number owner step).Anchored ∧
      walk.registry.nodeCount ≤ (walk.advance index number owner step).registry.nodeCount := by
  cases step with
  | need kind key =>
    refine anchored.push index ?_ key
    rintro asker ⟨⟩
    exact inside
  | useImport | keepField | keepMethod => exact ⟨⟨anchored.edges, anchored.pending⟩, Nat.le_refl _⟩
  | fail fault => exact ⟨anchored, Nat.le_refl _⟩

theorem Anchored.addSeed (index : Index) (seed : Seed) : (walk.addSeed index seed).2.Anchored := by
  cases resolved : index.resolveSeed? seed.owner seed.member with
  | some key =>
    rw [addSeed_of_resolved resolved]
    exact (anchored.push index (by simp) key).1
  | none =>
    rw [addSeed_of_unresolved resolved]
    exact ⟨anchored.edges, anchored.pending⟩

/-- A task is carried out on behalf of a node that is there. -/
theorem Anchored.take? (taken : walk.take? = some (task, number, popped)) :
    popped.Anchored ∧ number < popped.registry.nodeCount := by
  unfold Walk.take? at taken
  split at taken
  next name origin rest next =>
    cases taken
    obtain ⟨inside, later⟩ := forall_mem_cons.mp (next ▸ anchored.pending)
    exact ⟨⟨anchored.edges, later⟩, inside⟩
  next none =>
    split at taken
    next _ => cases taken
    next origin rest next =>
      obtain ⟨node, found, same⟩ := map_eq_some_iff.mp taken
      cases same
      obtain ⟨inside, -⟩ := List.getElem?_eq_some_iff.mp found
      refine ⟨⟨?_, ?_⟩, ?_⟩
      · simpa [Registry.EdgesInside, Registry.taken, Registry.nodeCount] using anchored.edges
      · simp [none]
      · simpa [Registry.taken, Registry.nodeCount] using inside

end

/-- What taking a task keeps, and every step on behalf of a node that is there, a run keeps. -/
theorem Runs.invariant_of_steps (named : index.Named) {holds : Walk → Prop}
    (take : ∀ {walk task number popped}, walk.Coherent index → holds walk →
      walk.take? = some (task, number, popped) → holds popped ∧ number < popped.registry.nodeCount)
    (advance : ∀ {walk number} owner step, holds walk → number < walk.registry.nodeCount →
      holds (walk.advance index number owner step) ∧
        walk.registry.nodeCount ≤ (walk.advance index number owner step).registry.nodeCount)
    (run : Runs index walk tasks final error) (coherent : walk.Coherent index)
    (initially : holds walk) : holds final := by
  have foldl : ∀ (steps : List Step) {walk number} owner, holds walk →
      number < walk.registry.nodeCount →
      holds (steps.foldl (Walk.advance index number owner) walk) := by
    intro steps
    induction steps with
    | nil => exact fun _ held _ => held
    | cons step rest ih =>
      intro walk number owner held inside
      obtain ⟨next, more⟩ := advance owner step held inside
      exact ih owner next (Nat.lt_of_lt_of_le inside more)
  have turn : ∀ {walk next error}, walk.Coherent index → walk.turn? index = some (next, error) →
      holds walk → holds next := by
    intro walk next error coherent turned held
    rw [turn?_eq coherent, map_eq_some_iff] at turned
    obtain ⟨⟨task, number, popped⟩, taken, outcome⟩ := turned
    obtain ⟨rfl, -⟩ := Prod.mk.inj outcome
    obtain ⟨afterwards, inside⟩ := take coherent held taken
    exact foldl _ task.owner afterwards inside
  induction run with
  | stop => exact initially
  | failed _ turned => exact turn coherent turned initially
  | turn _ turned _ ih =>
    obtain ⟨task, -, made⟩ := turn_of_turn? named coherent turned
    exact ih made.coherent (turn coherent turned initially)

theorem Anchored.runs (named : index.Named) (anchored : walk.Anchored)
    (coherent : walk.Coherent index) (run : Runs index walk tasks final error) : final.Anchored :=
  run.invariant_of_steps named (fun _ anchored => anchored.take?)
    (fun owner step anchored inside => anchored.advance index inside owner step) coherent anchored

/-! ## What files are made with -/

/-- Every file still has what it was made with for its type. -/
def Titled (index : Index) (walk : Walk) : Prop :=
  ∀ name file, walk.registry.file? name = some file →
    ∃ fresh, MakesFile index name fresh ∧ file.bare = fresh.bare

theorem Titled.extend {before after : Walk} (titled : before.Titled index) {owner : String}
    {steps : List Step}
    (kept : ∀ name file, before.registry.file? name = some file →
      after.registry.file? name = some (if name = owner then steps.foldl OutputFile.takeIn file
        else file))
    (made : ∀ name file, name ∉ before.fileNames → after.registry.file? name = some file →
      MakesFile index name file) :
    after.Titled index := by
  intro name file present
  by_cases known : name ∈ before.fileNames
  · obtain ⟨earlier, found⟩ := mem_fileNames_iff.mp known
    obtain ⟨fresh, makes, bare⟩ := titled name earlier found
    refine ⟨fresh, makes, ?_⟩
    rw [kept name earlier found, some.injEq] at present
    rw [← present, ← bare]
    split
    next _ => exact OutputFile.bare_foldl_takeIn earlier steps
    next _ => rfl
  · exact ⟨file, made name file known present, rfl⟩

theorem Titled.runs (named : index.Named) (titled : walk.Titled index)
    (coherent : walk.Coherent index) (run : Runs index walk tasks final error) :
    final.Titled index :=
  run.invariant named (fun _ _ _ _ _ _ turn held => held.extend turn.kept turn.made) coherent titled

theorem Titled.filesNamed (titled : walk.Titled index) (coherent : walk.Coherent index) :
    Registry.FilesNamed walk.registry.files := by
  rintro ⟨name, file⟩ mem
  obtain ⟨fresh, made, bare⟩ := titled name file (Table.get?_of_mem coherent.once.files mem)
  obtain ⟨_, _, _, _, _, _, _, named, rfl⟩ := made
  exact (congrArg (·.qualifiedName) bare).trans named

/-- In well nested files without repeated names, a file has the outer name of the type that the
project declares. -/
theorem Titled.outer_eq (unique : ((Index.declarations units).map (·.decl.qualifiedName)).Nodup)
    (nested : ∀ unit ∈ units, unit.isNested) (titled : walk.Titled (Index.ofUnits units))
    (found : walk.registry.file? name = some file)
    (declared : (Index.ofUnits units).typeDecl? name = some decl) : file.outer = decl.outer := by
  obtain ⟨fresh, made, bare⟩ := titled name file found
  obtain ⟨type, stored, rfl⟩ := made.eq_ofDecl unique nested
  rw [Index.typeDecl?, stored, map_some, some.injEq] at declared
  exact declared ▸ congrArg (·.outer) bare

/-! ## Reachable walks -/

/-- The walks to which calls lead, in any order and number, whether they fail or not. -/
inductive Reachable (index : Index) : Walk → Prop where
  | start : Reachable index .start
  | addSeed {walk : Walk} (seed : Seed) : Reachable index walk →
      Reachable index (walk.addSeed index seed).2
  | run {walk : Walk} : Reachable index walk → Reachable index (walk.run index).1
  | solve {walk : Walk} (seeds : List Seed) : Reachable index walk →
      Reachable index (walk.solve index seeds).1

/-- What holds of every reachable walk. -/
structure Sound (index : Index) (walk : Walk) : Prop where
  coherent : walk.Coherent index
  anchored : walk.Anchored
  titled : walk.Titled index

theorem sound_start (index : Index) : Sound index start :=
  ⟨coherent_start index, anchored_start, fun _ _ found => nomatch found⟩

theorem Sound.addSeed (sound : walk.Sound index) (seed : Seed) :
    (walk.addSeed index seed).2.Sound index := by
  have progress := progress_addSeed index walk seed
  exact ⟨sound.coherent.addSeed seed, sound.anchored.addSeed index seed,
    sound.titled.extend progress.kept progress.made⟩

theorem Sound.addSeeds (sound : walk.Sound index) (seeds : List Seed) :
    (walk.addSeeds index seeds).Sound index := by
  induction seeds generalizing walk with
  | nil => exact sound
  | cons seed rest ih => exact ih (sound.addSeed seed)

theorem Sound.run (named : index.Named) (sound : walk.Sound index) :
    (walk.run index).1.Sound index := by
  obtain ⟨tasks, run, -⟩ := runs_run named sound.coherent
  exact ⟨run.coherent named sound.coherent, sound.anchored.runs named sound.coherent run,
    sound.titled.runs named sound.coherent run⟩

theorem Reachable.sound (named : index.Named) (reachable : Reachable index walk) :
    walk.Sound index := by
  induction reachable with
  | start => exact sound_start index
  | addSeed seed _ ih => exact ih.addSeed seed
  | run _ ih => exact ih.run named
  | solve seeds _ ih => exact (ih.addSeeds seeds).run named

/-! ## Walks at their end -/

theorem Sound.drained (named : index.Named) (sound : walk.Sound index)
    (ok : (walk.run index).2 = none) : (walk.run index).1.registry.workList = [] := by
  obtain ⟨tasks, run, ended⟩ := runs_run named sound.coherent
  have idle := ended.resolve_left (by simp [ok])
  exact ((turn?_eq_none_iff (run.coherent named sound.coherent)).mp idle).2

end Walk

/-- With an empty work list every node has been visited. -/
theorem Registry.Consistent.visited_of_drained {registry : Registry}
    (consistent : registry.Consistent) (drained : registry.workList = []) {number : Nat}
    {node : Node} (found : registry.nodes[number]? = some node) : node.visited := by
  by_contra unvisited
  have waits := (consistent.waiting number).mpr ⟨node, found, by simpa using unvisited⟩
  simp [drained] at waits

theorem Registry.length_visitedKeys (registry : Registry) :
    registry.visitedKeys.length = registry.visitedCount := by
  rw [visitedKeys, Key.sort, length_mergeSort, length_map, visitedCount, countP_eq_length_filter]

/-- In well formed files a sound walk leaves one file for each outermost type around its keys. -/
theorem Walk.Sound.mem_names_outputFiles {units : List CompilationUnit}
    (unique : ((Index.declarations units).map (·.decl.qualifiedName)).Nodup)
    (nested : ∀ unit ∈ units, unit.isNested) {walk : Walk}
    (sound : walk.Sound (Index.ofUnits units)) (name : String) :
    name ∈ walk.registry.outputFiles.1.names ↔
      ∃ key ∈ walk.keys, ∃ decl, (Index.ofUnits units).typeDecl? key.owner = some decl ∧
        ((Index.ofUnits units).outermost decl).qualifiedName = name := by
  have acyclic := Index.outerAcyclic_of_isNested nested
  have files := sound.coherent.files
  have indexed := @Index.typeDecl?_of_mem_scopeTypes _ (Index.named_ofUnits units)
  rw [Registry.mem_names_outputFiles sound.coherent.once.files
    (sound.titled.filesNamed sound.coherent)]
  · constructor
    · rintro ⟨file, found, top⟩
      obtain ⟨key, known, decl, present, type, around, rfl⟩ :=
        (files name).mp (mem_fileNames_iff.mpr ⟨file, found⟩)
      have sameOuter := sound.titled.outer_eq unique nested found (indexed present around)
      refine ⟨key, known, decl, present, congrArg _ (Eq.symm ?_)⟩
      refine Index.eq_outermost acyclic (Index.encloses_of_mem_scopeTypes around) ?_
      rintro next ⟨outer, isOuter, -⟩
      rw [← sameOuter, top] at isOuter
      cases isOuter
    · rintro ⟨key, known, decl, present, rfl⟩
      have around : (Index.ofUnits units).outermost decl ∈ (Index.ofUnits units).scopeTypes decl :=
        getLast_mem _
      obtain ⟨file, found⟩ :=
        mem_fileNames_iff.mp ((files _).mpr ⟨key, known, decl, present, _, around, rfl⟩)
      refine ⟨file, found, ?_⟩
      rw [sound.titled.outer_eq unique nested found (indexed present around)]
      by_contra member
      obtain ⟨outer, isOuter⟩ := ne_none_iff_exists'.mp member
      obtain ⟨encloser, step, -⟩ :=
        Index.outerStep_of_outer unique nested (indexed present around) isOuter
      exact Index.not_outerStep_outermost acyclic decl encloser step
  · intro name file outer found isOuter
    obtain ⟨key, known, decl, present, type, around, rfl⟩ :=
      (files name).mp (mem_fileNames_iff.mpr ⟨file, found⟩)
    have sameOuter := sound.titled.outer_eq unique nested found (indexed present around)
    obtain ⟨encloser, step, rfl, shorter⟩ :=
      Index.outerStep_of_outer unique nested (indexed present around) (sameOuter.symm.trans isOuter)
    have further := (Index.encloses_of_mem_scopeTypes around).tail step
    exact ⟨(files _).mpr ⟨key, known, decl, present, encloser,
      (Index.mem_scopeTypes_iff acyclic).mpr further, rfl⟩, shorter⟩

/-- In every walk that calls lead to, failed ones included: every node is a declaration of the
project, its owner and all types around it have files, and a node that has not been visited waits
once on the work list. So after a run without an error all nodes have been visited, and both ends of
every edge; and in well formed files the output has exactly the files of the outermost types around
the visited declarations. -/
theorem reachable_walk_invariant (units : List CompilationUnit)
    (acyclic : (Index.ofUnits units).OuterAcyclic) {walk : Walk}
    (reachable : walk.Reachable (Index.ofUnits units)) : let index := Index.ofUnits units
    (∀ node ∈ walk.registry.nodes, index.declares node.key = true ∧
      ∃ decl, index.typeDecl? node.key.owner = some decl ∧
        ∀ type, index.Encloses type decl → walk.registry.hasFile type.qualifiedName = true) ∧
    (∀ number node, walk.registry.nodes[number]? = some node → node.visited = false →
      walk.registry.workList.count number = 1) ∧
    ∀ final, walk.run index = (final, none) →
      let outcome := (Outcome.ofWalk final).1
      final.registry.nodeCount = final.registry.visitedCount ∧
      final.registry.visitedCount = outcome.declarations.length ∧
      (∀ edge ∈ final.registry.edges, ∃ source target,
        final.registry.nodes[edge.source]? = some source ∧
        final.registry.nodes[edge.target]? = some target ∧ source.visited = true ∧
          target.visited = true) ∧
      ((∀ unit ∈ units, unit.isNested = true) →
        ((Index.declarations units).map (·.decl.qualifiedName)).Nodup →
        ∀ name, name ∈ outcome.files.names ↔ ∃ key ∈ outcome.declarations, ∃ decl,
          index.typeDecl? key.owner = some decl ∧ (index.outermost decl).qualifiedName = name) := by
  intro index
  have named := Index.named_ofUnits units
  have sound := reachable.sound named
  refine ⟨?_, ?_, ?_⟩
  · intro node membership
    have known : node.key ∈ walk.keys := List.mem_map_of_mem membership
    have declared := sound.coherent.declared _ known
    obtain ⟨decl, present, -⟩ := (Index.declares_iff index node.key).mp declared
    refine ⟨declared, decl, present, fun type around => (Table.has_iff _ _).mpr ?_⟩
    exact (sound.coherent.files _).mpr ⟨node.key, known, decl, present, type,
      (Index.mem_scopeTypes_iff acyclic).mpr around, rfl⟩
  · intro number node found unvisited
    have waits := (sound.coherent.registry.waiting number).mpr ⟨node, found, unvisited⟩
    exact count_eq_one_of_mem sound.coherent.registry.waitingOnce waits
  · intro final finished outcome
    have ends : (walk.run index).1.Sound index := sound.run named
    have drained := sound.drained named (congrArg Prod.snd finished)
    rw [finished] at ends drained
    have visited : ∀ {number : Nat} {node : Node}, final.registry.nodes[number]? = some node →
        node.visited = true :=
      fun found => ends.coherent.registry.visited_of_drained drained found
    refine ⟨?_, final.registry.length_visitedKeys.symm, ?_, ?_⟩
    · refine (countP_eq_length.mpr fun node membership => ?_).symm
      obtain ⟨number, found⟩ := mem_iff_getElem?.mp membership
      exact visited found
    · intro edge membership
      obtain ⟨sourceInside, targetInside⟩ := ends.anchored.edges edge membership
      have isSource := getElem?_eq_getElem sourceInside
      have isTarget := getElem?_eq_getElem targetInside
      exact ⟨_, _, isSource, isTarget, visited isSource, visited isTarget⟩
    · intro nested unique name
      have keys : ∀ key, key ∈ outcome.declarations ↔ key ∈ final.keys := fun key =>
        Registry.mem_visitedKeys_iff.trans (ends.coherent.registry.mem_scanned_of_drained drained)
      simp only [keys]
      exact ends.mem_names_outputFiles unique nested name

/-- A walk that has failed at a method that cannot be scanned, and then was given another seed. -/
def pingPongResumed : Walk :=
  let failed := (Walk.start.addSeed (Index.ofUnits pingPong) ⟨"game.Ping", "broken"⟩).2.run
    (Index.ofUnits pingPong)
  (failed.1.addSeed (Index.ofUnits pingPong) ⟨"game.Ping.Core", "ping"⟩).2

/-- A walk that goes on after a failure has files for all that it visits. -/
theorem reachable_pingPongResumed_invariant : let index := Index.ofUnits pingPong
    let outcome := (Outcome.ofWalk (pingPongResumed.run index).1).1
    index.OuterAcyclic ∧ pingPongResumed.Reachable index ∧ (pingPongResumed.run index).2 = none ∧
      (pingPongResumed.run index).1.registry.nodeCount =
        (pingPongResumed.run index).1.registry.visitedCount ∧
      ∀ name, name ∈ outcome.files.names ↔ ∃ key ∈ outcome.declarations, ∃ decl,
        index.typeDecl? key.owner = some decl ∧ (index.outermost decl).qualifiedName = name := by
  have acyclic : (Index.ofUnits pingPong).OuterAcyclic := Index.outerAcyclic_of_isNested (by decide)
  have reachable : pingPongResumed.Reachable (Index.ofUnits pingPong) :=
    .addSeed _ (.run (.addSeed _ .start))
  have ok : (pingPongResumed.run (Index.ofUnits pingPong)).2 = none := by decide
  have holds := (reachable_walk_invariant pingPong acyclic reachable).2.2 _ (Prod.ext rfl ok)
  exact ⟨acyclic, reachable, ok, holds.1, holds.2.2.2 (by decide) (by decide)⟩

end Slice

end JavaSlice
