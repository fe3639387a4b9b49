import JavaSlice.Proofs.Places

/-!
# Slices of several seeds

What two lists of seeds need together, one of them needs alone. Everything in the output of a slice
is there because of one needed task, whatever else is needed. So the slice of both lists is the
union of their slices: it has the files of both, and at every place the members and member types of
both (`slice_append_union`). In particular a further seed never removes or alters what the others
keep.

On the way to the output the three walks share nothing. Each has a registry of its own, drops lines
and members that are there already, and folds its own files.
-/

namespace JavaSlice.Slice

open List Source

variable {index : Index} {seeds : List Seed}

/-! ## What is needed -/

theorem needed_append_iff :
    Needed index (first ++ second) key ↔ Needed index first key ∨ Needed index second key := by
  constructor
  · intro needed
    induction needed with
    | seed mem resolved => exact (mem_append.mp mem).imp (.seed · resolved) (.seed · resolved)
    | scan _ finds ih => exact ih.imp (.scan · finds) (.scan · finds)
    | header _ present around finds ih =>
      exact ih.imp (.header · present around finds) (.header · present around finds)
  · rintro (needed | needed)
    · exact needed.mono fun _ => mem_append_left _
    · exact needed.mono fun _ => mem_append_right _

theorem Task.needed_append_iff {first second : List Seed} {task : Task} :
    task.Needed index (first ++ second) ↔ task.Needed index first ∨ task.Needed index second := by
  cases task with
  | node key => exact Slice.needed_append_iff
  | header name => simp only [Task.Needed, Slice.needed_append_iff, or_and_right, exists_or]

theorem caused_append_iff {first second : List Seed} {causes : Task → Prop} :
    Caused index (first ++ second) causes ↔ Caused index first causes ∨
      Caused index second causes := by
  simp only [Caused, Task.needed_append_iff, or_and_right, exists_or]

/-! ## Slices that succeed -/

theorem slice_eq_ok_iff :
    (slice index seeds).outcome = .ok outcome ↔ (Walk.start.solve index seeds).2 = none ∧
      outcome = (Outcome.ofWalk (Walk.start.solve index seeds).1).1 := by
  rw [slice]
  obtain ⟨walk, error⟩ := Walk.start.solve index seeds
  cases error with
  | none => simp [Result.ofWalk, eq_comm]
  | some error => simp [Result.ofWalk]

/-- A walk succeeds if every needed task can be carried out. -/
theorem Walk.solve_eq_none_iff (named : index.Named) (acyclic : index.OuterAcyclic) :
    (Walk.start.solve index seeds).2 = none ↔
      ∀ task : Task, task.Needed index seeds → task.error? index = none := by
  rcases Walk.solved_or_error named (Walk.tracks_start index) (Walk.settled_start index) seeds with
    ⟨ok, solved⟩ | ⟨failed, task, needed, faulty⟩
  · refine iff_of_true ok fun task needed => ?_
    exact solved.settled.faultless task ((solved.done_iff_needed acyclic task).mpr needed)
  · refine iff_of_false (fun ok => ?_) fun faultless => ?_
    · rw [ok] at failed
      cases failed
    · rw [nil_append] at needed
      rw [faultless task needed] at faulty
      cases faulty

/-! ## Unions -/

namespace Outcome

/-- A slice holds what two others hold together: declarations, files, the imports of each file, and
the types and members at every place. -/
structure IsUnion (whole first second : Outcome) : Prop where
  declarations : ∀ key, key ∈ whole.declarations ↔
    key ∈ first.declarations ∨ key ∈ second.declarations
  files : ∀ name, name ∈ whole.files.names ↔ name ∈ first.files.names ∨ name ∈ second.files.names
  imports : ∀ name line, line ∈ whole.importsOf name ↔
    line ∈ first.importsOf name ∨ line ∈ second.importsOf name
  types : ∀ name path, (whole.typeAt? name path).isSome ↔
    (first.typeAt? name path).isSome ∨ (second.typeAt? name path).isSome
  members : ∀ name path member, member ∈ whole.membersAt name path ↔
    member ∈ first.membersAt name path ∨ member ∈ second.membersAt name path

/-- What a slice shows of files and types, another one shows in the same way. -/
structure Keeps (larger smaller : Outcome) : Prop where
  packages : ∀ name file, smaller.files.get? name = some file →
    ∃ wider, larger.files.get? name = some wider ∧ wider.package = file.package
  titles : ∀ name path type, smaller.typeAt? name path = some type →
    ∃ wider, larger.typeAt? name path = some wider ∧ wider.title = type.title

/-- Nothing stands twice in a slice: no line in a file, no member and no member type at a place. -/
structure Distinct (outcome : Outcome) : Prop where
  imports : ∀ name, (outcome.importsOf name).Nodup
  members : ∀ name path, (outcome.membersAt name path).Nodup
  types : ∀ name path type, outcome.typeAt? name path = some type → (type.nested.map (·.name)).Nodup

end Outcome

namespace Walk.Finished

variable {units : List CompilationUnit} {first second : List Seed} {whole one other : Walk}

theorem isUnion (finished : Finished units (first ++ second) whole)
    (wellFormed : Index.WellFormed units) (isFirst : Finished units first one)
    (isSecond : Finished units second other) :
    (Outcome.ofWalk whole).1.IsUnion (Outcome.ofWalk one).1 (Outcome.ofWalk other).1 where
  declarations := by
    intro key
    rw [finished.mem_declarations_iff wellFormed.wellNested,
      isFirst.mem_declarations_iff wellFormed.wellNested,
      isSecond.mem_declarations_iff wellFormed.wellNested, caused_append_iff]
  files := by
    intro name
    rw [finished.mem_names_iff wellFormed.wellNested, isFirst.mem_names_iff wellFormed.wellNested,
      isSecond.mem_names_iff wellFormed.wellNested, Task.needed_append_iff, and_or_left]
  imports := by
    intro name line
    rw [finished.mem_importsOf_iff wellFormed.wellNested,
      isFirst.mem_importsOf_iff wellFormed.wellNested,
      isSecond.mem_importsOf_iff wellFormed.wellNested, caused_append_iff]
  types := by
    intro name path
    rw [finished.isSome_typeAt?_iff wellFormed.wellNested,
      isFirst.isSome_typeAt?_iff wellFormed.wellNested,
      isSecond.isSome_typeAt?_iff wellFormed.wellNested, caused_append_iff]
  members := by
    intro name path member
    rw [finished.mem_membersAt_iff wellFormed, isFirst.mem_membersAt_iff wellFormed,
      isSecond.mem_membersAt_iff wellFormed, caused_append_iff]

/-- Files and types look the same in all slices of a project that have them. -/
theorem keeps (finished : Finished units first one) (wellFormed : Index.WellFormed units)
    (larger : Finished units second other)
    (files : ∀ name, name ∈ (Outcome.ofWalk one).1.files.names →
      name ∈ (Outcome.ofWalk other).1.files.names)
    (types : ∀ name path, ((Outcome.ofWalk one).1.typeAt? name path).isSome →
      ((Outcome.ofWalk other).1.typeAt? name path).isSome) :
    (Outcome.ofWalk other).1.Keeps (Outcome.ofWalk one).1 where
  packages := by
    intro name file isFile
    obtain ⟨wider, isWider⟩ := Option.isSome_iff_exists.mp
      ((Table.get?_isSome_iff _ _).mpr (files name (Table.mem_names_of_get? isFile)))
    obtain ⟨type, stored, package⟩ := finished.package_result wellFormed.wellNested isFile
    obtain ⟨again, storedAgain, widerPackage⟩ := larger.package_result wellFormed.wellNested isWider
    obtain rfl := Option.some.inj (stored.symm.trans storedAgain)
    exact ⟨wider, isWider, widerPackage.trans package.symm⟩
  titles := by
    intro name path type isType
    obtain ⟨wider, isWider⟩ := Option.isSome_iff_exists.mp (types name path (by rw [isType]; rfl))
    obtain ⟨-, indexed, -, stored, title, -⟩ := finished.shows wellFormed.wellNested isType
    obtain ⟨-, again, -, storedAgain, widerTitle, -⟩ := larger.shows wellFormed.wellNested isWider
    obtain rfl := Option.some.inj (stored.symm.trans storedAgain)
    exact ⟨wider, isWider, widerTitle.trans title.symm⟩

theorem distinct (finished : Finished units first one) (wellFormed : Index.WellFormed units) :
    (Outcome.ofWalk one).1.Distinct where
  imports := by
    intro name
    rw [Outcome.importsOf]
    cases isResult : (Outcome.ofWalk one).1.files.get? name with
    | none => exact nodup_nil
    | some result => exact finished.imports_nodup isResult
  members := by
    intro name path
    rw [Outcome.membersAt]
    cases isType : (Outcome.ofWalk one).1.typeAt? name path with
    | none => exact nodup_nil
    | some type => exact (finished.nodup_at wellFormed isType).1
  types := fun _ _ _ isType => (finished.nodup_at wellFormed isType).2

end Walk.Finished

/-- Slices of a well formed project compose by union. Two lists of seeds have a slice together just
if each of them has one. It then holds what the two slices hold: their declarations, their files, in
each file the imports, and at every place the members and member types, each of them once. What one
list of seeds keeps, the other neither removes nor alters. -/
theorem slice_append_union (units : List CompilationUnit) (wellFormed : Index.WellFormed units)
    (first second : List Seed) : let index := Index.ofUnits units
    ((∃ whole, (slice index (first ++ second)).outcome = .ok whole) ↔
      (∃ one, (slice index first).outcome = .ok one) ∧ ∃ other,
        (slice index second).outcome = .ok other) ∧
    ∀ whole one other, (slice index (first ++ second)).outcome = .ok whole →
      (slice index first).outcome = .ok one → (slice index second).outcome = .ok other →
      whole.IsUnion one other ∧ whole.Keeps one ∧ whole.Keeps other ∧
        whole.Distinct ∧ one.Distinct ∧ other.Distinct := by
  intro index
  have named := Index.named_ofUnits units
  have acyclic := Index.outerAcyclic_of_isNested wellFormed.nested
  constructor
  · simp only [slice_eq_ok_iff, exists_and_left, exists_eq, and_true]
    rw [Walk.solve_eq_none_iff named acyclic, Walk.solve_eq_none_iff named acyclic,
      Walk.solve_eq_none_iff named acyclic]
    simp only [Task.needed_append_iff, or_imp, forall_and]
  · intro whole one other isWhole isOne isOther
    obtain ⟨wholeOk, rfl⟩ := slice_eq_ok_iff.mp isWhole
    obtain ⟨oneOk, rfl⟩ := slice_eq_ok_iff.mp isOne
    obtain ⟨otherOk, rfl⟩ := slice_eq_ok_iff.mp isOther
    have finished := Walk.finished_solve wholeOk
    have finishedOne := Walk.finished_solve oneOk
    have finishedOther := Walk.finished_solve otherOk
    have union := finished.isUnion wellFormed finishedOne finishedOther
    refine ⟨union, ?_, ?_, finished.distinct wellFormed, finishedOne.distinct wellFormed,
      finishedOther.distinct wellFormed⟩
    · exact finishedOne.keeps wellFormed finished
        (fun name present => (union.files name).mpr (.inl present))
        fun name path present => (union.types name path).mpr (.inl present)
    · exact finishedOther.keeps wellFormed finished
        (fun name present => (union.files name).mpr (.inr present))
        fun name path present => (union.types name path).mpr (.inr present)

/-- The slice of two seeds is the union of two slices, neither of which holds the other. -/
theorem slice_left_and_pong_union : let index := Index.ofUnits pingPong
    Index.WellFormed pingPong ∧
      ∃ whole one other, (slice index [⟨"game.Ping", "left"⟩, ⟨"game.Pong", "pong"⟩]).outcome =
        .ok whole ∧ (slice index [⟨"game.Ping", "left"⟩]).outcome = .ok one ∧
        (slice index [⟨"game.Pong", "pong"⟩]).outcome = .ok other ∧
        .method "game.Pong" "pong" 1 ∉ one.declarations ∧
          .field "game.Ping" "left" ∈ one.declarations ∧
        whole.IsUnion one other ∧ whole.Keeps one ∧ whole.Keeps other := by
  intro index
  have wellFormed : Index.WellFormed pingPong := ⟨by decide, by decide, by decide⟩
  obtain ⟨succeeds, union⟩ :=
    slice_append_union pingPong wellFormed [⟨"game.Ping", "left"⟩] [⟨"game.Pong", "pong"⟩]
  have isOne :=
    slice_eq_ok_iff.mpr ⟨(by decide : (Walk.start.solve index [⟨"game.Ping", "left"⟩]).2 = none),
      rfl⟩
  have isOther :=
    slice_eq_ok_iff.mpr ⟨(by decide : (Walk.start.solve index [⟨"game.Pong", "pong"⟩]).2 = none),
      rfl⟩
  obtain ⟨whole, isWhole⟩ := succeeds.mpr ⟨⟨_, isOne⟩, _, isOther⟩
  obtain ⟨isUnion, keepsOne, keepsOther, -⟩ := union whole _ _ isWhole isOne isOther
  refine ⟨wellFormed, whole, _, _, isWhole, isOne, isOther, ?_, ?_, isUnion, keepsOne, keepsOther⟩
  · rw [Outcome.ofWalk, Registry.mem_visitedKeys_iff]
    decide
  · rw [Outcome.ofWalk, Registry.mem_visitedKeys_iff]
    decide

end JavaSlice.Slice
