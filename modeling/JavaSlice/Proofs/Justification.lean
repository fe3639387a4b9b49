import JavaSlice.Proofs.Reachable

/-!
# Why a declaration is in a slice

Every node of a walk is there for a reason: it is the node of a seed, or a node that was there
before asked for it, and then an edge says so. Edges and the numbers of nodes are never lost
(`Registry.Grows`). So in every walk that calls lead to, each node is reached along recorded edges
from a node that was returned for a seed (`rooted_nodes_justified`). This holds of nodes that the
scan of a header finds too: the header waits on behalf of the node that made the file of its type.
-/

namespace JavaSlice.Slice

open List Source

/-! ## Links between nodes -/

namespace Registry

variable {source target number : Nat} {registry before after : Registry} {key : Key}

/-- There is an edge from one node to another. -/
def Linked (registry : Registry) (source target : Nat) : Prop :=
  ∃ edge ∈ registry.edges, edge.source = source ∧ edge.target = target

/-- One node is reached from another along edges. -/
def Reaches (registry : Registry) : Nat → Nat → Prop :=
  Relation.ReflTransGen registry.Linked

/-- Putting an edge links its ends and keeps all links; only the kind of an edge may change. -/
theorem exists_mem_putEdge {edges edge} :
    (∃ other ∈ putEdge edges edge, other.source = source ∧ other.target = target) ↔
      (∃ other ∈ edges, other.source = source ∧ other.target = target) ∨
        edge.source = source ∧ edge.target = target := by
  induction edges with
  | nil => simp [putEdge]
  | cons first rest ih =>
    rw [putEdge]
    split
    next same =>
      rw [Bool.and_eq_true, beq_iff_eq, beq_iff_eq] at same
      simp only [exists_mem_cons_iff, same.1, same.2]
      rw [or_comm, or_assoc, or_self]
    next _ => rw [exists_mem_cons_iff, exists_mem_cons_iff, ih, or_assoc]

/-- An edge links its two nodes. -/
theorem linked_addEdge :
    (registry.addEdge origin number kind).Linked source target ↔
      registry.Linked source target ∨ origin ≠ number ∧ origin = source ∧ number = target := by
  unfold addEdge Linked
  split
  next same => simp [beq_iff_eq.mp same]
  next different =>
    rw [exists_mem_putEdge]
    simp [beq_iff_eq.not.mp different]

theorem intern_edges (registry : Registry) (key : Key) :
    (registry.intern key).2.edges = registry.edges := by
  unfold intern
  split <;> rfl

/-- Finding a key on behalf of a node links the node to it, unless it is the node itself. -/
theorem linked_discover :
    (registry.discover asker key).Linked source target ↔
      registry.Linked source target ∨ ∃ origin ∈ asker,
        origin.1 ≠ (registry.intern key).1.1 ∧ origin.1 = source ∧
          (registry.intern key).1.1 = target := by
  have interned : (registry.intern key).2.Linked source target ↔ registry.Linked source target := by
    rw [Linked, intern_edges, Linked]
  cases asker with
  | none => simpa [discover] using interned
  | some origin => simpa [discover, linked_addEdge] using or_congr_left interned

/-- One registry comes before another: nodes keep their numbers, and links stay. -/
structure Grows (before after : Registry) : Prop where
  keys : before.keys <+: after.keys
  linked : ∀ source target, before.Linked source target → after.Linked source target

theorem Grows.trans (first : before.Grows middle) (second : middle.Grows after) :
    before.Grows after :=
  ⟨first.keys.trans second.keys, fun _ _ linked => second.linked _ _ (first.linked _ _ linked)⟩

/-- Growing breaks no path. -/
theorem Grows.reaches (grows : before.Grows after) (reaches : before.Reaches source target) :
    after.Reaches source target :=
  Relation.ReflTransGen.mono grows.linked _ _ reaches

theorem Grows.keyAt (grows : before.Grows after) (known : before.keys[number]? = some key) :
    after.keys[number]? = some key := by
  obtain ⟨inside, rfl⟩ := List.getElem?_eq_some_iff.mp known
  exact prefix_iff_getElem?.mp grows.keys number inside

/-- Finding a key makes a registry grow. -/
theorem grows_discover (registry : Registry) (asker : Option (Nat × EdgeKind)) (key : Key) :
    registry.Grows (registry.discover asker key) where
  keys := by
    rw [discover_keys]
    split
    next _ => exact prefix_rfl
    next _ => exact prefix_append _ _
  linked := fun _ _ linked => linked_discover.mpr (.inl linked)

/-- The only number that may be new is that of the key that was found. -/
theorem eq_intern_of_new (inside : number < (registry.discover asker key).nodeCount)
    (new : registry.nodeCount ≤ number) : number = (registry.intern key).1.1 := by
  rw [nodeCount, discover_nodes] at inside
  split at inside
  next _ => exact absurd inside (Nat.not_lt.mpr new)
  next absent =>
    rw [length_append, length_singleton] at inside
    rw [intern, find?_eq_none_iff.mpr absent]
    exact Nat.le_antisymm (Nat.le_of_lt_succ inside) new

end Registry

/-! ## What a walk adds -/

namespace Walk

variable {index : Index} {roots : List Nat} {walk next : Walk} {number : Nat}

theorem edges_foldl_ensureFile (unit : CompilationUnit) (number : Nat) (types : List TypeDecl)
    (walk : Walk) :
    (types.foldl (ensureFile unit number) walk).registry.edges = walk.registry.edges := by
  induction types generalizing walk with
  | nil => rfl
  | cons type rest ih =>
    rw [foldl_cons, ih]
    by_cases present : type.qualifiedName ∈ walk.fileNames
    · rw [ensureFile_of_mem present]
    · rw [ensureFile_of_not_mem present]

/-- Two registries have the same nodes, but for their marks, and the same edges. -/
theorem grows_of_eq {before after : Registry} (keys : after.keys = before.keys)
    (edges : after.edges = before.edges) :
    before.Grows after where
  keys := keys ▸ prefix_rfl
  linked := by
    intro source target linked
    rwa [Registry.Linked, edges]

/-- What finding a declared key on behalf of a node adds. -/
structure Finds (walk : Walk) (asker : Option (Nat × EdgeKind)) (key : Key) (number : Nat)
    (next : Walk) : Prop where
  grows : walk.registry.Grows next.registry
  keyAt : next.keys[number]? = some key
  new : ∀ other, other < next.registry.nodeCount → walk.registry.nodeCount ≤ other → other = number
  linked : ∀ origin ∈ asker, origin.1 ≠ number → next.registry.Linked origin.1 number

/-- A declared key gets a number. -/
theorem finds_push (declared : index.declares key) (walk : Walk) (asker : Option (Nat × EdgeKind)) :
    ∃ number next, walk.push index asker key = (some number, next) ∧
      Finds walk asker key number next := by
  obtain ⟨unit, decl, -, -, pushed⟩ := push_of_declares declared walk asker
  have files := filesMade_foldl unit (walk.registry.intern key).1.1 (index.scopeTypes decl)
    { walk with registry := walk.registry.discover asker key }
  have edges := edges_foldl_ensureFile unit (walk.registry.intern key).1.1 (index.scopeTypes decl)
    { walk with registry := walk.registry.discover asker key }
  refine ⟨_, _, pushed, (walk.registry.grows_discover asker key).trans
    (grows_of_eq files.keys edges), ?_, ?_, ?_⟩
  · rw [files.keys]
    exact walk.registry.keyAt_intern asker key
  · intro other inside new
    rw [Registry.nodeCount, files.nodes, ← Registry.nodeCount] at inside
    exact Registry.eq_intern_of_new inside new
  · intro origin asks different
    rw [Registry.Linked, edges, ← Registry.Linked, Registry.linked_discover]
    exact .inr ⟨origin, asks, different, rfl, rfl⟩

/-! ## Walks that rest on seeds -/

/-- Every node is reached along edges from one of some nodes, each of which is that of the
declaration of a seed. -/
structure RestsOn (index : Index) (roots : List Nat) (walk : Walk) : Prop where
  anchored : walk.Anchored
  seeds : ∀ root ∈ roots, ∃ seed key, index.resolveSeed? (Seed.owner seed) seed.member = some key ∧
    walk.keys[root]? = some key
  reached : ∀ number < walk.registry.nodeCount, ∃ root ∈ roots, walk.registry.Reaches root number

theorem restsOn_start (index : Index) : RestsOn index [] start where
  anchored := anchored_start
  seeds := fun _ never => nomatch never
  reached := fun _ never => nomatch never

section

variable (rests : RestsOn index roots walk)
include rests

/-- A walk that grows goes on to rest on the same nodes if what is new is linked to what was
there. -/
theorem RestsOn.grow (anchored : next.Anchored) (grows : walk.registry.Grows next.registry)
    (new : ∀ number, number < next.registry.nodeCount → walk.registry.nodeCount ≤ number →
      ∃ origin < walk.registry.nodeCount, next.registry.Linked origin number) :
    RestsOn index roots next where
  anchored := anchored
  seeds := by
    intro root isRoot
    obtain ⟨seed, key, resolved, known⟩ := rests.seeds root isRoot
    exact ⟨seed, key, resolved, grows.keyAt known⟩
  reached := by
    intro number inside
    by_cases known : number < walk.registry.nodeCount
    · obtain ⟨root, isRoot, reaches⟩ := rests.reached number known
      exact ⟨root, isRoot, grows.reaches reaches⟩
    · obtain ⟨origin, present, linked⟩ := new number inside (Nat.not_lt.mp known)
      obtain ⟨root, isRoot, reaches⟩ := rests.reached origin present
      exact ⟨root, isRoot, (grows.reaches reaches).tail linked⟩

/-- A change that touches neither the nodes nor the edges keeps what a walk rests on. -/
theorem RestsOn.of_eq (anchored : next.Anchored) (keys : next.keys = walk.keys)
    (edges : next.registry.edges = walk.registry.edges) : RestsOn index roots next := by
  refine rests.grow anchored (grows_of_eq keys edges) fun number inside new =>
    absurd inside (Nat.not_lt.mpr ?_)
  have same : next.registry.nodeCount = walk.registry.nodeCount := by
    simpa [Walk.keys, Registry.keys, Registry.nodeCount] using congrArg List.length keys
  exact same ▸ new

/-- One step keeps all nodes justified. -/
theorem RestsOn.advance (inside : number < walk.registry.nodeCount) (owner : String) (step : Step) :
    RestsOn index roots (walk.advance index number owner step) := by
  obtain ⟨anchored, -⟩ := rests.anchored.advance index inside owner step
  cases step with
  | need kind key =>
    by_cases declared : index.declares key = true
    · obtain ⟨found, next, pushed, finds⟩ := finds_push declared walk (some (number, kind))
      simp only [Walk.advance, perform, pushed] at anchored ⊢
      refine rests.grow anchored finds.grows fun other known new => ⟨number, inside, ?_⟩
      have same := finds.new other known new
      have different : number ≠ found := by omega
      exact same ▸ finds.linked _ rfl different
    · simpa only [Walk.advance, perform, push_of_not_declares declared] using rests
  | useImport | keepField | keepMethod => exact rests.of_eq anchored rfl rfl
  | fail fault => exact rests

/-- Taking a task changes marks of nodes and lists of what waits only. -/
theorem RestsOn.take? (coherent : walk.Coherent index)
    (taken : walk.take? = some (task, number, popped)) :
    RestsOn index roots popped ∧ number < popped.registry.nodeCount := by
  obtain ⟨anchored, inside⟩ := rests.anchored.take? taken
  have edges : popped.registry.edges = walk.registry.edges := by
    unfold Walk.take? at taken
    split at taken
    next _ =>
      cases taken
      rfl
    next _ =>
      split at taken
      next _ => cases taken
      next _ =>
        obtain ⟨node, -, same⟩ := Option.map_eq_some_iff.mp taken
        cases same
        rfl
  exact ⟨rests.of_eq anchored (takes_of_take? coherent taken).keys edges, inside⟩

end

/-- A run keeps all nodes justified. -/
theorem RestsOn.runs (named : index.Named) (rests : RestsOn index roots walk)
    (coherent : walk.Coherent index) (run : Runs index walk tasks final error) :
    RestsOn index roots final :=
  run.invariant_of_steps named (fun coherent rests => rests.take? coherent)
    (fun owner step rests inside => ⟨rests.advance inside owner step,
      (rests.anchored.advance index inside owner step).2⟩)
    coherent rests

/-- A seed adds the node that is returned for it, if any. -/
theorem RestsOn.addSeed (rests : RestsOn index roots walk) (seed : Seed) :
    RestsOn index (roots ++ (walk.addSeed index seed).1.toList) (walk.addSeed index seed).2 := by
  have anchored := rests.anchored.addSeed index seed
  cases resolved : index.resolveSeed? seed.owner seed.member with
  | none =>
    simp only [Walk.addSeed, resolved, Option.toList_none, append_nil] at anchored ⊢
    exact rests.of_eq anchored rfl rfl
  | some key =>
    obtain ⟨number, next, pushed, finds⟩ :=
      finds_push (Index.declares_of_resolveSeed? resolved) walk none
    simp only [Walk.addSeed, resolved, pushed, Option.toList_some] at anchored ⊢
    refine ⟨anchored, ?_, ?_⟩
    · intro root isRoot
      rcases mem_append.mp isRoot with earlier | last
      · obtain ⟨other, known, resolves, stands⟩ := rests.seeds root earlier
        exact ⟨other, known, resolves, finds.grows.keyAt stands⟩
      · rw [mem_singleton.mp last]
        exact ⟨seed, key, resolved, finds.keyAt⟩
    · intro other inside
      by_cases known : other < walk.registry.nodeCount
      · obtain ⟨root, isRoot, reaches⟩ := rests.reached other known
        exact ⟨root, mem_append_left _ isRoot, finds.grows.reaches reaches⟩
      · rw [finds.new other inside (Nat.not_lt.mp known)]
        exact ⟨number, mem_append_right _ (mem_singleton_self number), .refl⟩

/-! ## Calls -/

/-- The nodes that are returned for some seeds that are added one after the other. -/
def seedNodes (index : Index) : Walk → List Seed → List Nat
  | _, [] => []
  | walk, seed :: rest =>
    (walk.addSeed index seed).1.toList ++ seedNodes index (walk.addSeed index seed).2 rest

/-- The walks to which calls lead, with the nodes that the calls have returned for seeds. -/
inductive Rooted (index : Index) : List Nat → Walk → Prop where
  | start : Rooted index [] .start
  | addSeed {roots : List Nat} {walk : Walk} (seed : Seed) : Rooted index roots walk →
      Rooted index (roots ++ (walk.addSeed index seed).1.toList) (walk.addSeed index seed).2
  | run {roots : List Nat} {walk : Walk} : Rooted index roots walk →
      Rooted index roots (walk.run index).1
  | solve {roots : List Nat} {walk : Walk} (seeds : List Seed) : Rooted index roots walk →
      Rooted index (roots ++ walk.seedNodes index seeds) (walk.solve index seeds).1

theorem Rooted.reachable (rooted : Rooted index roots walk) : walk.Reachable index := by
  induction rooted with
  | start => exact .start
  | addSeed seed _ ih => exact .addSeed seed ih
  | run _ ih => exact .run ih
  | solve seeds _ ih => exact .solve seeds ih

/-- Whatever calls lead to a walk, they have returned some nodes. -/
theorem Reachable.rooted (reachable : walk.Reachable index) : ∃ roots, Rooted index roots walk := by
  induction reachable with
  | start => exact ⟨_, .start⟩
  | addSeed seed _ ih => exact ⟨_, .addSeed seed ih.choose_spec⟩
  | run _ ih => exact ⟨_, .run ih.choose_spec⟩
  | solve seeds _ ih => exact ⟨_, .solve seeds ih.choose_spec⟩

theorem RestsOn.addSeeds (rests : RestsOn index roots walk) (seeds : List Seed) :
    RestsOn index (roots ++ walk.seedNodes index seeds) (walk.addSeeds index seeds) := by
  induction seeds generalizing roots walk with
  | nil =>
    rw [seedNodes, append_nil]
    exact rests
  | cons seed rest ih =>
    rw [seedNodes, ← append_assoc]
    exact ih (rests.addSeed seed)

theorem RestsOn.run (named : index.Named) (rests : RestsOn index roots walk)
    (coherent : walk.Coherent index) : RestsOn index roots (walk.run index).1 := by
  obtain ⟨tasks, run, -⟩ := runs_run named coherent
  exact rests.runs named coherent run

/-- All nodes of a reachable walk rest on its seeds. -/
theorem Rooted.restsOn (named : index.Named) (rooted : Rooted index roots walk) :
    RestsOn index roots walk := by
  induction rooted with
  | start => exact restsOn_start index
  | addSeed seed _ ih => exact ih.addSeed seed
  | run before ih => exact ih.run named (before.reachable.sound named).coherent
  | solve seeds before ih =>
    exact (ih.addSeeds seeds).run named ((before.reachable.sound named).coherent.addSeeds seeds)

end Walk

/-- In every walk that calls lead to, failed ones included, each node is one that was returned for a
seed, or is reached from one along recorded edges; the nodes that were returned are those of the
declarations of seeds. -/
theorem rooted_nodes_justified (units : List CompilationUnit) {walk : Walk}
    (reachable : walk.Reachable (Index.ofUnits units)) : let index := Index.ofUnits units
    (∃ roots, walk.Rooted index roots) ∧
    ∀ roots, walk.Rooted index roots →
      (∀ root ∈ roots, ∃ seed key, index.resolveSeed? (Seed.owner seed) seed.member = some key ∧
        walk.registry.nodes[root]?.map (·.key) = some key) ∧
      ∀ number node, walk.registry.nodes[number]? = some node →
        number ∈ roots ∨ ∃ root ∈ roots, Relation.TransGen walk.registry.Linked root number := by
  intro index
  refine ⟨reachable.rooted, fun roots rooted => ?_⟩
  have rests := rooted.restsOn (Index.named_ofUnits units)
  refine ⟨?_, ?_⟩
  · intro root isRoot
    obtain ⟨seed, key, resolved, known⟩ := rests.seeds root isRoot
    exact ⟨seed, key, resolved, by rwa [Walk.keys, Registry.keys, getElem?_map] at known⟩
  · intro number node found
    obtain ⟨inside, -⟩ := List.getElem?_eq_some_iff.mp found
    obtain ⟨root, isRoot, reaches⟩ := rests.reached number inside
    rcases Relation.reflTransGen_iff_eq_or_transGen.mp reaches with rfl | further
    · exact .inl isRoot
    · exact .inr ⟨root, isRoot, further⟩

/-- After a failure and a second seed, every node is a seed or follows from one. -/
theorem pingPongResumed_nodes_justified : let index := Index.ofUnits pingPong
    let walk := (pingPongResumed.run index).1
    walk.Reachable index ∧ walk.Rooted index [0, 4] ∧ walk.registry.nodeCount = 8 ∧
      ∀ number node, walk.registry.nodes[number]? = some node →
        number ∈ [0, 4] ∨ ∃ root ∈ [0, 4], Relation.TransGen walk.registry.Linked root number := by
  intro index walk
  let seeded := Walk.start.addSeed index ⟨"game.Ping", "broken"⟩
  have first : seeded.1 = some 0 := by decide
  have second : ((seeded.2.run index).1.addSeed index ⟨"game.Ping.Core", "ping"⟩).1 = some 4 := by
    decide
  have rooted : walk.Rooted index ([] ++ seeded.1.toList ++ _) :=
    (Walk.Rooted.addSeed ⟨"game.Ping.Core", "ping"⟩
      (Walk.Rooted.addSeed ⟨"game.Ping", "broken"⟩ (@Walk.Rooted.start index)).run).run
  rw [first, second] at rooted
  have reachable := rooted.reachable
  exact ⟨reachable, rooted, by decide, ((rooted_nodes_justified pingPong reachable).2 _ rooted).2⟩

end JavaSlice.Slice
