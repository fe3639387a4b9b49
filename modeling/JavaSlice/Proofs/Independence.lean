import JavaSlice.Proofs.Reachable
import JavaSlice.Proofs.Skeleton

/-!
# What a slice depends on

A scan looks at two things: the declaration that it scans, and the skeletons of all others. So two
projects with the same skeletons have the same scans of headers, and the same scan of a key if the
declaration that is looked up for the key is the same in both (`scan_congr`). A walk scans the keys
that it visits and no others. Hence code outside a slice cannot influence it: projects that differ
only there, even by what cannot be read, have the same slice (`slice_eq_of_same_visited`).
-/

namespace JavaSlice

open Source Slice

/-! ## Scans -/

/-- The member that is looked up for a key; a type is no member. -/
def Index.member? (index : Index) (key : Key) : Option Member :=
  (index.typeDecl? key.owner).bind fun decl =>
    match key.member with
    | .type => none
    | .field name => (decl.field? name).map .field
    | .method name arity => (decl.method? name arity).map .method
    | .constructor arity => (decl.constructor? arity).map .constructor

namespace Slice

section

variable {index other : Index} (same : index.skeleton = other.skeleton)

include same

/-- What a project and its skeleton have in common, projects with the same skeleton have in
common. -/
theorem eq_of_skeleton {α : Type} {query : Index → α}
    (shown : ∀ index : Index, query index.skeleton = query index) : query index = query other :=
  (shown index).symm.trans (same ▸ shown other)

/-- Two projects with the same skeletons have the same scan of a key if the member that is looked up
for it is the same in both. -/
theorem scan_congr (agree : index.member? key = other.member? key) :
    scan index key = scan other key := by
  have types := congrArg (·.typeDecl? key.owner) same
  have units := congrArg (·.unitOf? key.owner) same
  simp only [(Index.shows_skeleton _).typeDecl?, (Index.shows_skeleton _).unitOf?] at types units
  cases found : index.typeDecl? key.owner with
  | none =>
    rw [found, Option.map_none, eq_comm, Option.map_eq_none_iff] at types
    simp only [scan, found, types]
    cases index.unitOf? key.owner <;> cases other.unitOf? key.owner <;> rfl
  | some owner =>
    obtain ⟨unit, inUnit⟩ := (index.unitOf?_eq_some_iff key.owner).mpr ⟨owner, found⟩
    rw [found, Option.map_some, eq_comm, Option.map_eq_some_iff] at types
    rw [inUnit, Option.map_some, eq_comm, Option.map_eq_some_iff] at units
    obtain ⟨otherOwner, otherFound, sameOwner⟩ := types
    obtain ⟨otherUnit, inOther, sameUnit⟩ := units
    simp only [Index.member?, found, otherFound, Option.bind_some] at agree
    simp only [scan, inUnit, found, inOther, otherFound]
    have seen := Scope.seen_ofOwner index.shows_skeleton unit owner
    have seenOther := Scope.seen_ofOwner other.shows_skeleton otherUnit otherOwner
    rw [same, ← sameUnit, ← sameOwner] at seen
    refine Scope.memberSteps_congr (seen.fieldDeclSteps.symm.trans seenOther.fieldDeclSteps)
      (seen.methodSteps.symm.trans seenOther.methodSteps) ?_ ?_ ?_
    · change Scope.typeDeclSteps owner = Scope.typeDeclSteps otherOwner
      rw [← index.shows_skeleton.typeDeclSteps, ← sameOwner, other.shows_skeleton.typeDeclSteps]
    · intro name isField
      rw [isField] at agree
      exact Option.map_injective (fun _ _ => Member.field.inj) agree
    · cases member : key.member with
      | type | field => rfl
      | method name arity =>
        rw [member] at agree
        exact Option.map_injective (fun _ _ => Member.method.inj) agree
      | constructor arity =>
        rw [member] at agree
        exact Option.map_injective (fun _ _ => Member.constructor.inj) agree

end

/-! ## Walks -/

namespace Walk

variable {index other : Index} {walk : Walk}

/-- Two projects with the same skeletons have the same turn if they agree on the key that is taken,
if any. -/
theorem turn?_congr (same : index.skeleton = other.skeleton) (coherent : walk.Coherent index)
    (agree : ∀ key, walk.task? = some (.node key) → index.member? key = other.member? key) :
    walk.turn? index = walk.turn? other := by
  have performed : performAll index = performAll other :=
    eq_of_skeleton same fun index => index.shows_skeleton.performAll
  cases waits : walk.pending with
  | cons entry rest =>
    have headers : scanHeader index = scanHeader other :=
      eq_of_skeleton same fun index => index.shows_skeleton.scanHeader
    simp only [turn?, waits, scanPending, headers, performed]
  | nil =>
    cases next : walk.registry.workList with
    | nil => simp only [turn?, waits, next, Registry.pop]
    | cons number rest =>
      obtain ⟨node, found, unvisited⟩ := coherent.registry.next next
      have scans : scan index node.key = scan other node.key := by
        refine scan_congr same (agree node.key ?_)
        simp only [task?, take?, waits, next, found, Option.map_some]
      simp only [turn?, waits, next, Registry.pop, Registry.markVisited, found, Node.mark,
        unvisited, Bool.not_false, scanNode, scans, performed]

/-- The task that comes next has been taken up when turns are over, and stays so. -/
theorem done_turns (named : index.Named) (bound : Nat) (coherent : walk.Coherent index)
    (isNext : walk.task? = some task) : (turns index (bound + 1) walk).1.Done task := by
  have turn : ∀ {next error}, walk.turn? index = some (next, error) →
      Turn index walk task next error := by
    intro next error turned
    obtain ⟨other, alsoNext, turn⟩ := turn_of_turn? named coherent turned
    rw [isNext, Option.some.injEq] at alsoNext
    exact alsoNext ▸ turn
  rw [turns]
  split
  next idle =>
    obtain ⟨taken, found, -⟩ := Option.map_eq_some_iff.mp isNext
    rw [turn?_eq coherent, found] at idle
    cases idle
  next next error turned => exact ((turn turned).done task).mpr (.inr rfl)
  next next turned =>
    have done := ((turn turned).done task).mpr (.inr rfl)
    obtain ⟨tasks, run, -⟩ := runs_turns named bound (turn turned).coherent
    exact (run.done_iff named (turn turned).coherent task).mpr (.inl done)

/-- Two projects with the same skeletons have the same turns if they agree on the keys that are
scanned. -/
theorem turns_congr (named : index.Named) (same : index.skeleton = other.skeleton) (bound : Nat)
    (coherent : walk.Coherent index)
    (agree : ∀ key ∈ (turns index bound walk).1.scanned, index.member? key = other.member? key) :
    turns index bound walk = turns other bound walk := by
  induction bound generalizing walk with
  | zero => rfl
  | succ bound ih =>
    have turned := turn?_congr same coherent fun key isNext =>
      agree key (done_turns named bound coherent isNext)
    rw [turns] at agree ⊢
    rw [turns, ← turned]
    split
    next _ => rfl
    next _ => rfl
    next next ok =>
      obtain ⟨task, -, turn⟩ := turn_of_turn? named coherent ok
      rw [ok] at agree
      exact ih turn.coherent agree

theorem solve_congr (named : index.Named) (same : index.skeleton = other.skeleton)
    (seeds : List Seed)
    (agree : ∀ key ∈ (start.solve index seeds).1.scanned, index.member? key = other.member? key) :
    start.solve index seeds = start.solve other seeds := by
  have seeded : addSeeds index = addSeeds other := eq_of_skeleton same fun index => by
    unfold addSeeds
    rw [index.shows_skeleton.addSeed]
  have bounds : turnBound index = turnBound other :=
    eq_of_skeleton same fun index => index.shows_skeleton.turnBound
  rw [solve_eq] at agree ⊢
  rw [solve_eq, ← seeded, run, run, ← bounds]
  exact turns_congr named same _ ((coherent_start index).addSeeds seeds) agree

end Walk

/-- Code outside a slice cannot influence it. Let two lists of files have the same skeletons: they
differ in annotations, type variables, exceptions, bodies, initial values and texts of members at
most. If the first has a slice and the member that is looked up for each visited key is the same in
both lists, then the second has the same slice: the same files, declarations, edges and unresolved
seeds, and the same warnings. -/
theorem slice_eq_of_same_visited (units others : List CompilationUnit)
    (same : units.map CompilationUnit.skeleton = others.map CompilationUnit.skeleton)
    (seeds : List Seed) {outcome : Outcome}
    (ok : (slice (Index.ofUnits units) seeds).outcome = .ok outcome)
    (agree : ∀ key ∈ outcome.declarations, (Index.ofUnits units).member? key =
      (Index.ofUnits others).member? key) :
    (slice (Index.ofUnits others) seeds).outcome = .ok outcome ∧
      slice (Index.ofUnits others) seeds = slice (Index.ofUnits units) seeds := by
  have skeletons : (Index.ofUnits units).skeleton = (Index.ofUnits others).skeleton := by
    rw [← Index.ofUnits_skeleton, same, Index.ofUnits_skeleton]
  have declared : outcome.declarations =
      (Walk.start.solve (Index.ofUnits units) seeds).1.registry.visitedKeys := by
    unfold slice Result.ofWalk at ok
    dsimp only at ok
    split at ok
    next _ => cases ok
    next _ =>
      cases ok
      rfl
  have walks := Walk.solve_congr (Index.named_ofUnits units) skeletons seeds fun key scanned =>
    agree key (declared ▸ Registry.mem_visitedKeys_iff.mpr scanned)
  have slices : slice (Index.ofUnits others) seeds = slice (Index.ofUnits units) seeds := by
    rw [slice, slice, walks]
  exact ⟨slices ▸ ok, slices⟩

/-- The files of ping and pong, with a body that can be read in place of the one that cannot. -/
def pingPongMended : List CompilationUnit :=
  let mend : Member → Member
    | .method method =>
      if method.name = "broken" then .method { method with body := [.thisRef], text :=
        "void broken() { this; }" }
      else .method method
    | member => member
  pingPong.map fun unit =>
    { unit with types := unit.types.map fun decl => { decl with members := decl.members.map mend } }

/-- A method that is not visited may be broken or mended. -/
theorem slice_mended_eq_of_same_visited :
    pingPongMended.map CompilationUnit.skeleton = pingPong.map CompilationUnit.skeleton ∧
      (Index.ofUnits pingPongMended).member? (.method "game.Ping" "broken" 0) ≠
        (Index.ofUnits pingPong).member? (.method "game.Ping" "broken" 0) ∧
      ∃ outcome, (slice (Index.ofUnits pingPongMended) pingPongSeeds).outcome = .ok outcome ∧
        (slice (Index.ofUnits pingPong) pingPongSeeds).outcome = .ok outcome := by
  have same : pingPongMended.map CompilationUnit.skeleton =
      pingPong.map CompilationUnit.skeleton := by rfl
  have ok : (Walk.start.solve (Index.ofUnits pingPongMended) pingPongSeeds).2 = none := by decide
  have sliced : (slice (Index.ofUnits pingPongMended) pingPongSeeds).outcome =
      .ok (Outcome.ofWalk (Walk.start.solve (Index.ofUnits pingPongMended) pingPongSeeds).1).1 := by
    simp only [slice, Result.ofWalk, ok]
  have visited : (Walk.start.solve (Index.ofUnits pingPongMended) pingPongSeeds).1.scanned =
      [.method "game.Ping.Core" "ping" 1, .method "game.Pong" "pong" 1, .type "game.Ping",
        .type "game.Pong",
        .field "game.Ping" "left", .method "game.Ping" "ping" 1, .field "game.Ping" "right"] := by
          decide
  refine ⟨same, ?_, _, sliced,
    (slice_eq_of_same_visited pingPongMended pingPong same pingPongSeeds sliced ?_).1⟩
  · intro equal
    cases equal
  · intro key isVisited
    have scanned :
        key ∈ (Walk.start.solve (Index.ofUnits pingPongMended) pingPongSeeds).1.scanned :=
      Registry.mem_visitedKeys_iff.mp isVisited
    simp only [visited, List.mem_cons, List.not_mem_nil, or_false] at scanned
    rcases scanned with rfl | rfl | rfl | rfl | rfl | rfl | rfl <;> rfl

end Slice

end JavaSlice
