import JavaSlice.Proofs.Closure
import JavaSlice.Proofs.Filling
import Mathlib.Data.List.Pairwise

/-!
# What output files hold

A file starts empty and takes in the steps of all tasks that belong to its type, in the order in
which they are carried out. `Walk.History` says so of one file, and every turn keeps it of all
files.

What a file holds in the end does not depend on that order. It holds each import line that some task
uses, and the copy of each member that has been scanned. Copies of members of one type clash only
where they are equal, if no field name is declared twice. So nothing is lost, and nothing is there
twice (`solve_keeps_visited_members`).
-/

namespace JavaSlice.Slice

open List Source

namespace Task

/-- All expressions that the scan of a task goes through. -/
def terms (index : Index) (task : Task) : List Expr :=
  match index.typeDecl? task.owner with
  | none => []
  | some owner =>
    match task with
    | .header _ => headerTerms owner
    | .node key => memberTerms owner key.member

/-- A scan is made of copies, which use no line, and of mentions. -/
theorem exists_mentions {index : Index} {unit : CompilationUnit} {task : Task}
    {holds : List Step → Prop} (rule : ScanRule index unit (task.terms index) holds)
    (missing : ∀ fault, holds [.fail fault]) (file : index.unitOf? task.owner = some unit) :
    ∃ copies mentions, task.steps index = copies ++ mentions ∧ (∀ line, .useImport line ∉ copies) ∧
      holds mentions := by
  obtain ⟨owner, present⟩ := (Index.unitOf?_eq_some_iff index task.owner).mp ⟨unit, file⟩
  have within : Scope.Within index unit (Scope.ofOwner index unit owner) := ⟨rfl, rfl⟩
  rw [terms, present] at rule
  cases task with
  | header name =>
    rw [Task.owner] at file present
    refine ⟨[], (Task.header name).steps index, rfl, fun _ => not_mem_nil, ?_⟩
    rw [steps, scanHeader, file, present]
    exact rule.headerSteps within
  | node key =>
    rw [Task.owner] at file present
    obtain ⟨mentions, scanned, held⟩ := rule.memberSteps missing within
    refine ⟨keptSteps owner key.member, mentions, ?_, fun _ => useImport_not_mem_keptSteps, held⟩
    rw [steps, scan, file, present]
    exact scanned

end Task

namespace Walk

variable {index : Index} {walk : Walk}

/-! ## Histories of files -/

/-- How a file came about: made empty for its type, it took in the steps of the tasks of the type
that have been taken up, one task after the other. -/
structure History (index : Index) (walk : Walk) (name : String) (file fresh : OutputFile)
    (tasks : List Task) : Prop where
  made : MakesFile index name fresh
  distinct : tasks.Nodup
  taken : ∀ task, task ∈ tasks ↔ task.owner = name ∧ walk.Done task
  file : file = (tasks.flatMap (·.steps index)).foldl OutputFile.takeIn fresh

/-- Every file has a history. -/
def Recorded (index : Index) (walk : Walk) : Prop :=
  ∀ name file, walk.registry.file? name = some file →
    ∃ fresh tasks, History index walk name file fresh tasks

/-- Histories go on if those of the files that are there do: a new file has none of its tasks behind
it. -/
theorem Recorded.extend (named : index.Named) {before after} (coherent : before.Coherent index)
    (recorded : Recorded index before)
    (kept : ∀ name file fresh tasks, before.registry.file? name = some file →
      History index before name file fresh tasks → ∃ next more,
        after.registry.file? name = some next ∧ History index after name next fresh more)
    (made : ∀ name file, name ∉ before.fileNames → after.registry.file? name = some file →
      MakesFile index name file)
    (done : ∀ task, after.Done task → before.Found task) : Recorded index after := by
  intro name file present
  by_cases known : name ∈ before.fileNames
  · obtain ⟨earlier, found⟩ := mem_fileNames_iff.mp known
    obtain ⟨fresh, tasks, history⟩ := recorded name earlier found
    obtain ⟨next, more, becomes, further⟩ := kept name earlier fresh tasks found history
    rw [present, Option.some.injEq] at becomes
    exact ⟨fresh, more, becomes ▸ further⟩
  · refine ⟨file, [], made name file known present, nodup_nil, fun task => ?_, rfl⟩
    -- a task of the type would have found the file before
    refine iff_of_false not_mem_nil ?_
    rintro ⟨rfl, taken⟩
    exact known (coherent.owner_mem_fileNames named (done task taken))

theorem recorded_start (index : Index) : Recorded index start :=
  fun _ _ found => nomatch found

section

variable (named : index.Named) (coherent : walk.Coherent index) (recorded : Recorded index walk)
include named coherent recorded

theorem Recorded.addSeed (seed : Seed) : Recorded index (walk.addSeed index seed).2 := by
  have progress := progress_addSeed index walk seed
  refine recorded.extend named coherent ?_ progress.made fun task taken =>
    found_of_done ((progress.done_iff task).mp taken)
  intro name file fresh tasks found history
  refine ⟨file, tasks, ?_,
    { history with taken := fun task => by rw [history.taken, progress.done_iff] }⟩
  -- needs change no file
  have kept := progress.kept name file found
  cases resolved : index.resolveSeed? seed.owner seed.member with
  | some key => simpa [resolved, Scope.needSteps, OutputFile.takeIn] using kept
  | none => simpa [resolved, Scope.needSteps] using kept

theorem Recorded.addSeeds (seeds : List Seed) : Recorded index (walk.addSeeds index seeds) := by
  induction seeds generalizing walk with
  | nil => exact recorded
  | cons seed rest ih => exact ih (coherent.addSeed seed) (recorded.addSeed named coherent seed)

/-- A turn without an error adds its task to the history of one file. -/
theorem Recorded.turn {next} (turn : Turn index walk task next none) : Recorded index next := by
  refine recorded.extend named coherent ?_ turn.made ?_
  · intro name file fresh tasks found history
    have becomes := turn.kept name file found
    by_cases own : name = task.owner
    · -- without an error all steps of the task have been carried out
      rw [if_pos own, Task.carried_eq turn.error.symm] at becomes
      refine ⟨_, tasks ++ [task], becomes, history.made, ?_, ?_, ?_⟩
      · rw [nodup_append]
        refine ⟨history.distinct, nodup_singleton task, ?_⟩
        rintro earlier mem last isLast rfl
        rw [mem_singleton.mp isLast] at mem
        exact turn.fresh ((history.taken task).mp mem).2
      · intro other
        rw [mem_append, mem_singleton, history.taken, turn.done, and_or_left]
        refine or_congr_right ⟨?_, And.right⟩
        rintro rfl
        exact ⟨own.symm, rfl⟩
      · rw [flatMap_append, foldl_append, ← history.file, flatMap_cons, flatMap_nil,
          append_nil]
    · rw [if_neg own] at becomes
      refine ⟨file, tasks, becomes, { history with taken := fun other => ?_ }⟩
      rw [history.taken, turn.done, and_or_left]
      refine (or_iff_left ?_).symm
      rintro ⟨same, rfl⟩
      exact own same.symm
  · intro other done
    rcases (turn.done other).mp done with earlier | rfl
    · exact found_of_done earlier
    · exact turn.found

end

theorem Recorded.runs (named : index.Named) (recorded : Recorded index walk)
    (coherent : walk.Coherent index) (run : Runs index walk tasks final none) :
    Recorded index final :=
  run.invariant named (fun _ _ _ _ ok coherent turn held =>
    held.turn named coherent (or_self_iff.mp ok ▸ turn)) coherent recorded

theorem Recorded.solve (named : index.Named) (coherent : walk.Coherent index)
    (recorded : Recorded index walk) (ok : (walk.solve index seeds).2 = none) :
    Recorded index (walk.solve index seeds).1 := by
  have seeded := coherent.addSeeds seeds
  obtain ⟨tasks, run, -⟩ := runs_run named seeded
  rw [← solve_eq, ok] at run
  exact (recorded.addSeeds named coherent seeds).runs named seeded run

end Walk

end JavaSlice.Slice

/-! ## Copies that clash -/

namespace JavaSlice

open List Source Slice

namespace Source.TypeDecl

variable {decl : TypeDecl} {name : String}

/-- No field name is declared by two field declarations. -/
def FieldsDistinct (decl : TypeDecl) : Prop :=
  decl.fields.Pairwise fun first second => ∀ name ∈ first.names, name ∉ second.names

instance (decl : TypeDecl) : Decidable decl.FieldsDistinct :=
  inferInstanceAs (Decidable (decl.fields.Pairwise fun first second =>
    ∀ name ∈ first.names, name ∉ second.names))

/-- A field name belongs to one declaration. -/
theorem FieldsDistinct.eq_of_shared (apart : decl.FieldsDistinct)
    (isFirst : first ∈ decl.fields) (isSecond : second ∈ decl.fields) (inFirst : name ∈ first.names)
    (inSecond : name ∈ second.names) : first = second := by
  have symmetric : Std.Symm fun one other : Field => ∀ name ∈ one.names, name ∉ other.names :=
    ⟨fun one other disjoint name inOther inOne => disjoint name inOne inOther⟩
  by_contra different
  exact Pairwise.forall apart isFirst isSecond different name inFirst inSecond

theorem mem_fields_of_field? (found : decl.field? name = some field) :
    field ∈ decl.fields ∧ name ∈ field.names :=
  ⟨mem_of_find?_eq_some found, by simpa using find?_some found⟩

theorem FieldsDistinct.field?_eq_some_iff (apart : decl.FieldsDistinct) :
    decl.field? name = some field ↔ field ∈ decl.fields ∧ name ∈ field.names := by
  refine ⟨mem_fields_of_field?, fun ⟨declared, named⟩ => ?_⟩
  obtain ⟨first, found⟩ : ∃ first, decl.field? name = some first := by
    rw [← Option.isSome_iff_exists, field?, find?_isSome]
    exact ⟨field, declared, contains_iff_mem.mpr named⟩
  obtain ⟨isFirst, inFirst⟩ := mem_fields_of_field? found
  rw [found, apart.eq_of_shared isFirst declared inFirst named]

end Source.TypeDecl

/-- No type of a project declares one field name in two field declarations. -/
def Index.FieldsDistinct (index : Index) : Prop :=
  ∀ entry ∈ index.types, entry.2.decl.FieldsDistinct

instance (index : Index) : Decidable index.FieldsDistinct :=
  inferInstanceAs (Decidable (∀ entry ∈ index.types, entry.2.decl.FieldsDistinct))

theorem Index.FieldsDistinct.of_typeDecl? {index : Index} (apart : index.FieldsDistinct)
    {name : String} {decl : TypeDecl} (present : index.typeDecl? name = some decl) :
    decl.FieldsDistinct := by
  obtain ⟨type, found, rfl⟩ := Option.map_eq_some_iff.mp present
  exact apart (name, type) (Table.mem_of_get? found)

namespace Slice

/-- Copies of members of one type clash only if they are equal. -/
theorem OutlineMember.clashes_copy?_iff (apart : decl.FieldsDistinct)
    (isOne : copy? decl first = some one)
    (isOther : copy? decl second = some other) : one.clashes other ↔ one = other := by
  rcases copy?_cases isOther with ⟨name, field, rfl, found, rfl⟩ | ⟨method, found, rfl⟩
  · obtain ⟨declared, named⟩ := TypeDecl.mem_fields_of_field? found
    rw [clashes, if_pos (show (ofField field).kind = .field from rfl), Bool.and_eq_true, beq_iff_eq]
    constructor
    · rintro ⟨isField, shares⟩
      obtain ⟨shared, inField, inOne⟩ := any_eq_true.mp shares
      rcases copy?_cases isOne with ⟨_, earlier, -, foundEarlier, rfl⟩ | ⟨method, -, rfl⟩
      · have same := apart.eq_of_shared (TypeDecl.mem_fields_of_field? foundEarlier).1 declared
          (contains_iff_mem.mp inOne) inField
        rw [same]
      · exact absurd isField (ofMethod_kind_ne_field _ _)
    · rintro rfl
      exact ⟨rfl, any_eq_true.mpr ⟨name, named, contains_iff_mem.mpr named⟩⟩
  · rw [clashes, if_neg (ofMethod_kind_ne_field second method), beq_iff_eq]
    constructor
    · intro sameKey
      rcases copy?_cases isOne with ⟨_, field, rfl, -, rfl⟩ | ⟨earlier, foundEarlier, rfl⟩
      · -- a field has no key of a method or constructor
        rw [← show _ = second from sameKey] at found
        cases found
      · obtain rfl : first = second := sameKey
        rw [foundEarlier, Option.some.injEq] at found
        rw [found]
    · rintro rfl
      rfl

namespace Walk

variable {index : Index} {name : String} {file fresh : OutputFile} {walk : Walk} {tasks : List Task}

/-! ## The contents of files -/

theorem MakesFile.imports (made : MakesFile index name file) : file.imports = [] := by
  obtain ⟨_, _, _, _, _, _, _, _, rfl⟩ := made
  rfl

theorem MakesFile.members (made : MakesFile index name file) : file.type.members = [] := by
  obtain ⟨_, _, _, _, _, _, _, _, rfl⟩ := made
  rfl

section

variable (history : History index walk name file fresh tasks)
include history

theorem History.isOwnPackage_eq (line : Import) :
    file.isOwnPackage line = fresh.isOwnPackage line := by
  rw [history.file]
  exact (congrArg (·.isOwnPackage line) (OutputFile.bare_foldl_takeIn _ _) :)

/-- A file holds the lines that its tasks use, each once, without those of its own package. -/
theorem History.imports :
    file.imports.Nodup ∧ ∀ line, line ∈ file.imports ↔
      (∃ task : Task, (task.owner = name ∧ walk.Done task) ∧ .useImport line ∈ task.steps index) ∧
        fresh.isOwnPackage line = false := by
  have empty : fresh.imports.Nodup := history.made.imports ▸ nodup_nil
  obtain ⟨once, holds⟩ := OutputFile.imports_foldl_takeIn empty (tasks.flatMap (·.steps index))
  rw [← history.file] at once holds
  refine ⟨once, fun line => ?_⟩
  rw [holds, history.made.imports, or_iff_right not_mem_nil, mem_flatMap]
  simp only [history.taken]

/-- The copies that a file has taken in are those of the members that have been scanned. -/
theorem History.mem_copies (present : index.typeDecl? name = some decl) (copy : OutlineMember) :
    copy ∈ Step.copies (tasks.flatMap (·.steps index)) ↔
      ∃ member, (⟨name, member⟩ : Key) ∈ walk.scanned ∧
        OutlineMember.copy? decl member = some copy := by
  rw [Step.copies, filterMap_flatMap, mem_flatMap]
  constructor
  · rintro ⟨task, mem, copied⟩
    obtain ⟨rfl, done⟩ := (history.taken task).mp mem
    cases task with
    | header name =>
      rw [Task.steps, ← Step.copies, copies_scanHeader] at copied
      cases copied
    | node key =>
      rw [Task.steps, ← Step.copies, copies_scan present, Option.mem_toList] at copied
      exact ⟨key.member, done, copied⟩
  · rintro ⟨member, scanned, copied⟩
    refine ⟨.node ⟨name, member⟩, (history.taken _).mpr ⟨rfl, scanned⟩, ?_⟩
    rwa [Task.steps, ← Step.copies, copies_scan present, Option.mem_toList]

end

end Walk

/-- Members are the copies of those members of a type whose keys have a property, each once. -/
structure CopiesOf (decl : TypeDecl) (kept : MemberKey → Prop) (members : List OutlineMember) :
    Prop where
  distinct : members.Nodup
  mem_iff : ∀ copy, copy ∈ members ↔ ∃ key, kept key ∧ OutlineMember.copy? decl key = some copy

namespace Walk

/-- A file holds the copies of the members that have been scanned, each once. -/
theorem History.copiesOf {index walk name file fresh tasks}
    (history : History index walk name file fresh tasks) {decl}
    (present : index.typeDecl? name = some decl) (apart : decl.FieldsDistinct) :
    CopiesOf decl (⟨name, ·⟩ ∈ walk.scanned) file.type.members := by
  have copies := history.mem_copies present
  have equal : ∀ first ∈ Step.copies (tasks.flatMap (·.steps index)),
      ∀ second ∈ Step.copies (tasks.flatMap (·.steps index)),
        first.clashes second = true ↔ first = second := by
    intro first isFirst second isSecond
    obtain ⟨_, -, copiesFirst⟩ := (copies first).mp isFirst
    obtain ⟨_, -, copiesSecond⟩ := (copies second).mp isSecond
    exact OutlineMember.clashes_copy?_iff apart copiesFirst copiesSecond
  have inserted := OutlineMember.foldl_insert nodup_nil (by simpa using equal)
  rw [history.file, OutputFile.members_foldl_takeIn, history.made.members]
  refine ⟨inserted.1, fun copy => ?_⟩
  rw [inserted.2, or_iff_right not_mem_nil, copies]

end Walk

/-- The members that the file of a type holds; none, if it has no file. -/
def Registry.outlineMembers (registry : Registry) (name : String) : List OutlineMember :=
  ((registry.file? name).map (·.type.members)).getD []

theorem Walk.Recorded.copiesOf {index : Index} (named : index.Named) {walk : Walk}
    (coherent : walk.Coherent index) (recorded : walk.Recorded index) {name : String}
    {decl : TypeDecl} (present : index.typeDecl? name = some decl) (apart : decl.FieldsDistinct) :
    CopiesOf decl (⟨name, ·⟩ ∈ walk.scanned) (walk.registry.outlineMembers name) := by
  rw [Registry.outlineMembers]
  cases found : walk.registry.file? name with
  | some file =>
    obtain ⟨fresh, tasks, history⟩ := recorded name file found
    exact history.copiesOf present apart
  | none =>
    refine ⟨nodup_nil, fun copy => iff_of_false not_mem_nil ?_⟩
    rintro ⟨member, scanned, -⟩
    have known : walk.Found (.node ⟨name, member⟩) := Walk.found_of_done scanned
    obtain ⟨file, isFile⟩ := Walk.mem_fileNames_iff.mp (coherent.owner_mem_fileNames named known)
    rw [Task.owner, found] at isFile
    cases isFile

/-! ## Members and keys -/

/-- Whether a key is that of a method or constructor. -/
def MemberKey.isCallable : MemberKey → Bool
  | .method _ _ | .constructor _ => true
  | .type | .field _ => false

namespace CopiesOf

variable {decl : TypeDecl} {kept : MemberKey → Prop} {members : List OutlineMember}

section

variable (copies : CopiesOf decl kept members)
include copies

/-- A member that is no field is the copy of the first declaration under its key, and the key is
kept. -/
theorem callable (mem : member ∈ members) (isCallable : member.kind ≠ .field) :
    kept member.key ∧ ∃ method, callable? decl member.key = some method ∧
      member = .ofMethod member.key method := by
  obtain ⟨key, isKept, copied⟩ := (copies.mem_iff member).mp mem
  rcases OutlineMember.copy?_cases copied with ⟨_, _, -, -, rfl⟩ | ⟨method, found, rfl⟩
  · exact absurd rfl isCallable
  · exact ⟨isKept, method, found, rfl⟩

theorem field :
    member ∈ members ∧ member.kind = .field ↔
      ∃ name field, kept (.field name) ∧ decl.field? name = some field ∧
        member = .ofField field := by
  rw [copies.mem_iff]
  constructor
  · rintro ⟨⟨key, isKept, copied⟩, isField⟩
    rcases OutlineMember.copy?_cases copied with ⟨name, field, rfl, found, rfl⟩ | ⟨method, -, rfl⟩
    · exact ⟨name, field, isKept, found, rfl⟩
    · exact absurd isField (OutlineMember.ofMethod_kind_ne_field key method)
  · rintro ⟨name, field, isKept, found, rfl⟩
    exact ⟨⟨.field name, isKept, congrArg (Option.map _) found⟩, rfl⟩

theorem callable_keys_nodup : ((members.filter (·.kind != .field)).map (·.key)).Nodup := by
  refine Nodup.map_on ?_ (copies.distinct.filter _)
  intro first isFirst second isSecond sameKey
  rw [mem_filter, bne_iff_ne] at isFirst isSecond
  obtain ⟨-, method, found, isMethod⟩ := copies.callable isFirst.1 isFirst.2
  obtain ⟨-, other, foundOther, isOther⟩ := copies.callable isSecond.1 isSecond.2
  rw [sameKey, foundOther, Option.some.injEq] at found
  rw [isMethod, isOther, sameKey, found]

theorem perm (copiesOther : CopiesOf decl same others)
    (iff : ∀ key, kept key ↔ same key) : members.Perm others := by
  refine (perm_ext_iff_of_nodup copies.distinct copiesOther.distinct).mpr fun copy => ?_
  rw [copies.mem_iff, copiesOther.mem_iff]
  simp only [iff]

/-- If only declared keys are kept, the keys of methods and constructors among them are those of the
members that are no fields. -/
theorem mem_callable_keys (declared : ∀ key, kept key → Index.declaresMember decl key)
    (key : MemberKey) :
    key ∈ (members.filter (·.kind != .field)).map (·.key) ↔ key.isCallable ∧ kept key := by
  simp only [mem_map, mem_filter, bne_iff_ne]
  constructor
  · rintro ⟨member, ⟨mem, isCallable⟩, rfl⟩
    obtain ⟨isKept, method, found, -⟩ := copies.callable mem isCallable
    refine ⟨?_, isKept⟩
    cases shape : member.key with
    | method | constructor => rfl
    | type | field =>
      rw [shape] at found
      cases found
  · rintro ⟨isCallable, isKept⟩
    have isDeclared := declared key isKept
    obtain ⟨method, found⟩ : ∃ method, callable? decl key = some method := by
      rw [← Option.isSome_iff_exists]
      cases key with
      | method | constructor => exact isDeclared
      | type | field => cases isCallable
    have copied := OutlineMember.copy?_of_callable? found
    exact ⟨.ofMethod key method, ⟨(copies.mem_iff _).mpr ⟨key, isKept, copied⟩,
      OutlineMember.ofMethod_kind_ne_field key method⟩, rfl⟩

/-- The members that are fields are the field declarations of which some name is kept, each once. -/
theorem fields_perm (apart : decl.FieldsDistinct)
    (agrees : ∀ name, keepsField name ↔ kept (.field name)) :
    (members.filter (·.kind == .field)).Perm
      ((decl.fields.filter (·.names.any keepsField)).map .ofField) := by
  have keptField : ∀ field : Field, field.names.any keepsField = true ↔
      ∃ name ∈ field.names, kept (.field name) := by
    intro field
    simp only [any_eq_true, agrees]
  -- a declaration that is kept has a name, and so differs from all others
  have fieldsOnce : (decl.fields.filter (·.names.any keepsField)).Nodup := by
    refine (Pairwise.filter _ apart).imp_of_mem ?_
    rintro first second isFirst - disjoint rfl
    obtain ⟨name, named, -⟩ := (keptField first).mp (mem_filter.mp isFirst).2
    exact disjoint name named named
  have copiesOnce :
      ((decl.fields.filter (·.names.any keepsField)).map OutlineMember.ofField).Nodup := by
    refine Nodup.map_on ?_ fieldsOnce
    intro first isFirst second isSecond same
    obtain ⟨isFirst, keptFirst⟩ := mem_filter.mp isFirst
    obtain ⟨name, named, -⟩ := (keptField first).mp keptFirst
    have sameNames : first.names = second.names := congrArg OutlineMember.names same
    exact apart.eq_of_shared isFirst (mem_of_mem_filter isSecond) named (sameNames ▸ named)
  refine (perm_ext_iff_of_nodup (copies.distinct.filter _) copiesOnce).mpr fun member => ?_
  rw [mem_filter, beq_iff_eq, copies.field]
  simp only [mem_map, mem_filter, keptField, apart.field?_eq_some_iff]
  constructor
  · rintro ⟨name, field, isKept, ⟨declared, named⟩, rfl⟩
    exact ⟨field, ⟨declared, name, named, isKept⟩, rfl⟩
  · rintro ⟨field, ⟨declared, name, named, isKept⟩, rfl⟩
    exact ⟨name, field, isKept, ⟨declared, named⟩, rfl⟩

/-- No field name is declared by two members. -/
theorem fields_disjoint (apart : decl.FieldsDistinct) :
    (members.filter (·.kind == .field)).Pairwise fun first second =>
      ∀ name ∈ first.names, name ∉ second.names := by
  refine (copies.distinct.filter _).pairwise_of_forall_ne ?_
  intro first isFirst second isSecond different name inFirst inSecond
  rw [mem_filter, beq_iff_eq, copies.field] at isFirst isSecond
  obtain ⟨_, field, -, found, rfl⟩ := isFirst
  obtain ⟨_, other, -, foundOther, rfl⟩ := isSecond
  refine different (congrArg _ ?_)
  exact apart.eq_of_shared (TypeDecl.mem_fields_of_field? found).1
    (TypeDecl.mem_fields_of_field? foundOther).1 inFirst inSecond

end

end CopiesOf

/-- The outline of a type holds exactly the members that have been visited. Its methods and
constructors are those of the visited keys, one for each key, and each is the copy of the first
declaration of the type under that key. Its fields are the field declarations of which some name has
been visited, each once, and no two declare one name. -/
theorem solve_keeps_visited_members (units : List CompilationUnit)
    (apart : (Index.ofUnits units).FieldsDistinct) (seeds : List Seed)
    (ok : (Walk.start.solve (Index.ofUnits units) seeds).2 = none) {name : String} {decl : TypeDecl}
    (present : (Index.ofUnits units).typeDecl? name = some decl) :
    let registry := (Walk.start.solve (Index.ofUnits units) seeds).1.registry
    let callables := (registry.outlineMembers name).filter (·.kind != .field)
    let fields := (registry.outlineMembers name).filter (·.kind == .field)
    (callables.map (·.key)).Nodup ∧
    (∀ key, key ∈ callables.map (·.key) ↔ key.isCallable = true ∧
      ⟨name, key⟩ ∈ registry.visitedKeys) ∧
    (∀ member ∈ callables, ∃ method, callable? decl member.key = some method ∧
      member = .ofMethod member.key method) ∧
    fields.Perm ((decl.fields.filter (·.names.any fun field =>
      registry.visitedKeys.contains (.field name field))).map .ofField) ∧
    fields.Pairwise fun first second => ∀ field ∈ first.names, field ∉ second.names := by
  intro registry callables fields
  have named := Index.named_ofUnits units
  have start := Walk.coherent_start (Index.ofUnits units)
  have coherent := (Walk.solved_solve named ok).tracks.coherent
  have fieldsApart := apart.of_typeDecl? present
  have copies := ((Walk.recorded_start _).solve named start ok).copiesOf named coherent present
    fieldsApart
  have visited : ∀ key, key ∈ registry.visitedKeys ↔ key ∈ registry.scanned :=
    fun key => Registry.mem_visitedKeys_iff
  have declared : ∀ key : MemberKey, ⟨name, key⟩ ∈ registry.scanned →
      Index.declaresMember decl key = true := by
    intro key scanned
    have isDeclared := coherent.declared _ ((Registry.scanned_sublist_keys _).subset scanned)
    obtain ⟨owner, found, member⟩ := (Index.declares_iff _ _).mp isDeclared
    rw [present, Option.some.injEq] at found
    exact found ▸ member
  refine ⟨copies.callable_keys_nodup, ?_, ?_, ?_, copies.fields_disjoint fieldsApart⟩
  · intro key
    rw [visited]
    exact copies.mem_callable_keys declared key
  · intro member membership
    rw [mem_filter, bne_iff_ne] at membership
    exact (copies.callable membership.1 membership.2).2
  · refine copies.fields_perm fieldsApart fun field => ?_
    rw [contains_iff_mem, visited]
    rfl

/-- A field of two names is kept once, for the one name that was visited. -/
theorem solve_pingPong_keeps_visited_members :
    (Index.ofUnits pingPong).FieldsDistinct ∧
      (Walk.start.solve (Index.ofUnits pingPong) pingPongSeeds).2 = none ∧
      ∃ decl, (Index.ofUnits pingPong).typeDecl? "game.Ping" = some decl ∧
        let registry := (Walk.start.solve (Index.ofUnits pingPong) pingPongSeeds).1.registry
        let members := registry.outlineMembers "game.Ping"
        members.map (·.key) = [.field "left", .method "ping" 1] ∧
        ((members.filter (·.kind != .field)).map (·.key)).Nodup ∧
        (members.filter (·.kind == .field)).Perm ((decl.fields.filter (·.names.any fun field =>
          registry.visitedKeys.contains (.field "game.Ping" field))).map .ofField) := by
  have apart : (Index.ofUnits pingPong).FieldsDistinct := by decide
  have ok : (Walk.start.solve (Index.ofUnits pingPong) pingPongSeeds).2 = none := by decide
  obtain ⟨decl, present⟩ : ∃ decl, (Index.ofUnits pingPong).typeDecl? "game.Ping" = some decl :=
    Option.isSome_iff_exists.mp (by decide)
  have kept := solve_keeps_visited_members pingPong apart pingPongSeeds ok present
  exact ⟨apart, ok, decl, present, by decide, kept.1, kept.2.2.2.1⟩

end Slice

end JavaSlice
