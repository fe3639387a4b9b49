import JavaSlice.Output
import JavaSlice.Proofs.Calls
import JavaSlice.Proofs.DeclaredNames
import JavaSlice.Proofs.Names
import JavaSlice.Proofs.Union

/-!
# Displayed keys

Keys are shown as texts in which dots, hash signs and slashes stand between names. A class may have
a field and a member type of one name, and these two are shown alike (`namesakes_shown_alike`). No
other two declarations of a slice are, because the names in them hold none of these signs: a
displayed key can be taken apart at its last dot, its hash sign and its slash
(`shown_apart_unless_namesakes`).
-/

namespace JavaSlice.Slice

open List Option Source

/-! ## Texts with a mark -/

section Marks

variable {mark : Char} {before before' after after' : List Char}

/-- A text is cut at its last mark in one way. -/
theorem cut_at_last (absent : mark ∉ after) (absent' : mark ∉ after')
    (same : before ++ mark :: after = before' ++ mark :: after') :
    before = before' ∧ after = after' := by
  have backwards := congrArg (fun text => Dotted.cut? mark text.reverse) same
  simp only [reverse_append, reverse_cons, append_assoc, singleton_append] at backwards
  rw [Dotted.cut?_append (by simpa using absent), Dotted.cut?_append (by simpa using absent')]
    at backwards
  simpa [and_comm] using backwards

theorem marks_apart (absent : mark ∉ other :: after') (absent' : other ∉ mark :: after) :
    before ++ mark :: after ≠ before' ++ other :: after' := by
  intro same
  rcases append_eq_append_iff.mp same with ⟨middle, rfl, rest⟩ | ⟨middle, rfl, rest⟩
  · exact absent' (by simp [rest])
  · exact absent (by simp [rest])

end Marks

theorem isDigit_of_mem_toString {n : Nat} {c : Char} (inside : c ∈ (toString n).toList) :
    c.isDigit := by
  rw [Nat.toString_eq_ofList_toDigits, String.toList_ofList] at inside
  exact Nat.isDigit_of_mem_toDigits (by decide) (by decide) inside

/-! ## Keys -/

namespace MemberKey

/-- The name and the number of parameters of what can be called; all constructors have one name. -/
def called? : MemberKey → Option (String × Nat)
  | .method name arity => some (name, arity)
  | .constructor arity => some ("<init>", arity)
  | _ => none

end MemberKey

namespace Key

/-- A key is made of plain names. -/
structure IsSpelled (key : Key) : Prop where
  owner : ∃ package name, key.owner = Dotted.within package name ∧ IsPlainName name
  field : ∀ name, key.member = .field name → IsPlainName name
  method : ∀ name arity, key.member = .method name arity → IsPlainName name

/-- A field and a member type of its owner have one name. -/
def Namesakes (field type : Key) : Prop :=
  ∃ owner name, field = .field owner name ∧ type = .type (Dotted.join owner name)

variable {key first second : Key} {name : String} {arity : Nat}

theorem display_of_called (called : key.member.called? = some (name, arity)) :
    key.display.toList = key.owner.toList ++ '#' ::
      (name.toList ++ '/' :: (toString arity).toList) := by
  obtain ⟨owner, member⟩ := key
  cases member with
  | type | field => cases called
  | method | constructor =>
    obtain ⟨rfl, rfl⟩ := Prod.mk.inj (some.inj called)
    simp [display]

/-- The text after the hash sign holds no dot and no hash sign. -/
theorem IsSpelled.plain_of_called (spelled : key.IsSpelled)
    (called : key.member.called? = some (name, arity)) :
    ∀ mark ∈ ['.', '#'], mark ∉ name.toList ++ '/' :: (toString arity).toList := by
  obtain ⟨owner, member⟩ := key
  have plain : ∀ mark ∈ ['.', '#'], mark ∉ name.toList := by
    cases member with
    | type | field => cases called
    | method =>
      obtain ⟨rfl, rfl⟩ := Prod.mk.inj (some.inj called)
      exact fun mark listed => spelled.method _ _ rfl mark (by grind)
    | constructor =>
      obtain ⟨rfl, rfl⟩ := Prod.mk.inj (some.inj called)
      simp
  have other : ∀ mark ∈ ['.', '#'], mark.isDigit = false ∧ mark ≠ '/' := by simp
  intro mark listed inside
  rcases mem_append.mp inside with inName | inNumber
  · exact plain mark listed inName
  · rcases mem_cons.mp inNumber with same | isDigit
    · exact (other mark listed).2 same
    · cases (isDigit_of_mem_toString isDigit).symm.trans (other mark listed).1

/-- A key of nothing that can be called ends with a plain name. -/
theorem IsSpelled.ends_plain (spelled : key.IsSpelled) (other : key.member.called? = none) :
    ∃ package name, key.display = Dotted.within package name ∧ IsPlainName name := by
  obtain ⟨owner, member⟩ := key
  cases member with
  | type => exact spelled.owner
  | field name => exact ⟨some owner, name, rfl, spelled.field name rfl⟩
  | method | constructor => cases other

theorem display_ne_of_called (spelled : first.IsSpelled) (spelled' : second.IsSpelled)
    (called : first.member.called? = some (name, arity)) (other : second.member.called? = none) :
    first.display ≠ second.display := by
  intro same
  have plain := spelled.plain_of_called called
  obtain ⟨package, ending, shown, plain'⟩ := spelled'.ends_plain other
  have text := display_of_called called
  rw [same, shown] at text
  cases package with
  | none =>
    have inside : '#' ∈ ending.toList := by
      change ending.toList = _ at text
      simp [text]
    exact plain' '#' (by simp) inside
  | some package =>
    have dotted : (Dotted.join package ending).toList = package.toList ++ '.' :: ending.toList := by
      simp [Dotted.join]
    refine marks_apart ?_ ?_ (dotted.symm.trans text)
    · simpa using plain '.' (by simp)
    · simpa using plain' '#' (by simp)

/-- A key of something that can be called is given by its owner, its name and its number of
parameters. -/
theorem IsSpelled.member_of_called (spelled : key.IsSpelled)
    (called : key.member.called? = some (name, arity)) :
    key.member = if name = "<init>" then .constructor arity else .method name arity := by
  obtain ⟨owner, member⟩ := key
  cases member with
  | type | field => cases called
  | method =>
    obtain ⟨rfl, rfl⟩ := Prod.mk.inj (some.inj called)
    refine (if_neg ?_).symm
    rintro rfl
    exact spelled.method _ _ rfl '<' (by simp) (by decide)
  | constructor =>
    obtain ⟨rfl, rfl⟩ := Prod.mk.inj (some.inj called)
    rfl

section

variable (spelled : first.IsSpelled) (spelled' : second.IsSpelled)
include spelled spelled'

theorem eq_or_namesakes (other : first.member.called? = none)
    (other' : second.member.called? = none) (same : first.display = second.display) :
    first = second ∨ Namesakes first second ∨ Namesakes second first := by
  obtain ⟨owner, member⟩ := first
  obtain ⟨owner', member'⟩ := second
  cases member with
  | method | constructor => cases other
  | type =>
    cases member' with
    | method | constructor => cases other'
    | type => exact .inl (congrArg type same)
    | field name => exact .inr (.inr ⟨owner', name, rfl, congrArg type same⟩)
  | field name =>
    cases member' with
    | method | constructor => cases other'
    | type => exact .inr (.inl ⟨owner, name, rfl, congrArg type same.symm⟩)
    | field name' =>
      have texts := congrArg String.toList same
      simp only [display, String.toList_append, String.reduceToList, append_assoc, cons_append,
        nil_append] at texts
      obtain ⟨owners, names⟩ := cut_at_last (spelled.field name rfl '.' (by simp))
        (spelled'.field name' rfl '.' (by simp)) texts
      cases String.toList_injective owners
      cases String.toList_injective names
      exact .inl rfl

theorem eq_of_called {name' : String} {arity' : Nat}
    (called : first.member.called? = some (name, arity))
    (called' : second.member.called? = some (name', arity'))
    (same : first.display = second.display) : first = second := by
  have texts := congrArg String.toList same
  rw [display_of_called called, display_of_called called'] at texts
  obtain ⟨owner, rest⟩ := cut_at_last (spelled.plain_of_called called '#' (by simp))
    (spelled'.plain_of_called called' '#' (by simp)) texts
  have slash : ∀ n, '/' ∉ (toString n).toList := fun n inside => by
    cases isDigit_of_mem_toString inside
  obtain ⟨names, numbers⟩ := cut_at_last (slash _) (slash _) rest
  obtain rfl := String.toList_injective names
  obtain rfl : arity = arity' := by
    simpa [Nat.toString_eq_ofList_toDigits] using congrArg (Nat.ofDigitChars 10 · 0) numbers
  have member := (spelled.member_of_called called).trans (spelled'.member_of_called called').symm
  cases first
  cases second
  cases member
  cases String.toList_injective owner
  rfl

/-- Two keys are shown alike if and only if they are one, or those of a field and a type of one
name. -/
theorem display_eq_iff :
    first.display = second.display ↔ first = second ∨ Namesakes first second ∨
      Namesakes second first := by
  constructor
  · intro same
    cases called : first.member.called? with
    | some name =>
      cases called' : second.member.called? with
      | some name' => exact .inl (eq_of_called spelled spelled' called called' same)
      | none => exact absurd same (display_ne_of_called spelled spelled' called called')
    | none =>
      cases called' : second.member.called? with
      | some name' => exact absurd same.symm (display_ne_of_called spelled' spelled called' called)
      | none => exact eq_or_namesakes spelled spelled' called called' same
  · rintro (rfl | ⟨owner, name, rfl, rfl⟩ | ⟨owner, name, rfl, rfl⟩) <;> rfl

end

end Key

/-! ## Declared keys -/

/-- A declaration of files with plain names is made of such names. -/
theorem Key.IsSpelled.of_declares
    (declared : (ParsedFile.index files).declares key) : key.IsSpelled := by
  obtain ⟨decl, found, member⟩ := (Index.declares_iff _ key).mp declared
  obtain ⟨⟨unit, _⟩, indexed, rfl⟩ := map_eq_some_iff.mp found
  have entered := Index.mem_declarations_of_get? indexed
  have spelled := (ParsedFile.of_mem_declarations entered).2 _
    (Index.mem_declarations_iff.mp entered).2
  refine ⟨?_, ?_, ?_⟩
  · obtain ⟨package, qualified⟩ := spelled.qualified
    exact ⟨package, _, (Index.qualifiedName_of_get? indexed).symm.trans qualified, spelled.name⟩
  · intro name isField
    rw [isField] at member
    obtain ⟨field, first⟩ := isSome_iff_exists.mp member
    obtain ⟨declared, inside⟩ := TypeDecl.mem_fields_of_field? first
    obtain ⟨_ | _ | _, among, found⟩ := mem_filterMap.mp declared <;> cases found
    exact spelled.members _ among name inside
  · intro name arity isMethod
    rw [isMethod] at member
    obtain ⟨method, first⟩ := isSome_iff_exists.mp member
    have named : method.name = name := (by simpa using find?_some first : _ ∧ _).1
    obtain ⟨_ | _ | _, among, found⟩ := mem_filterMap.mp (mem_of_find?_eq_some first) <;>
      cases found
    exact named ▸ spelled.members _ among

/-- The displayed keys of some declarations are distinct exactly if there are no namesakes among
them. -/
theorem Key.nodup_display_iff {keys : List Key} (distinct : keys.Nodup)
    (spelled : ∀ key ∈ keys, key.IsSpelled) :
    (keys.map display).Nodup ↔ ∀ first ∈ keys, ∀ second ∈ keys, ¬Namesakes first second := by
  rw [nodup_map_iff_inj_on distinct]
  constructor
  · rintro apart first isFirst second isSecond ⟨owner, name, rfl, rfl⟩
    cases congrArg member (apart _ isFirst _ isSecond rfl)
  · intro none first isFirst second isSecond same
    rcases (display_eq_iff (spelled first isFirst) (spelled second isSecond)).mp same
      with same | alike | alike
    · exact same
    · exact absurd alike (none first isFirst second isSecond)
    · exact absurd alike (none second isSecond first isFirst)

/-! ## Declarations of a slice -/

namespace Walk.Solved

variable {index : Index} {seeds : List Seed} {walk : Walk}

section

variable (solved : Solved index seeds walk)
include solved

theorem mem_declarations_iff : key ∈ (Outcome.ofWalk walk).1.declarations ↔ key ∈ walk.keys := by
  refine Registry.mem_visitedKeys_iff.trans
    ⟨fun scanned => (Registry.scanned_sublist_keys _).subset scanned, fun found => ?_⟩
  have done : walk.Done (.node key) := solved.tracks.coherent.done_of_found solved.idle found
  exact done

theorem declarations_nodup : (Outcome.ofWalk walk).1.declarations.Nodup :=
  (mergeSort_perm _ _).nodup_iff.mpr <|
    solved.tracks.coherent.registry.distinct.sublist (Registry.scanned_sublist_keys _)

theorem ends_declared (drawn : edge ∈ (Outcome.ofWalk walk).1.edges) :
    edge.1 ∈ (Outcome.ofWalk walk).1.declarations ∧
      edge.2.1 ∈ (Outcome.ofWalk walk).1.declarations := by
  obtain ⟨link, -, source, target, -⟩ := Registry.mem_edgeList_iff.mp drawn
  exact ⟨solved.mem_declarations_iff.mpr (mem_of_getElem? source),
    solved.mem_declarations_iff.mpr (mem_of_getElem? target)⟩

end

end Walk.Solved

/-- Two declarations of a slice are shown alike only if they are a field and a member type of one
name. Without such a pair, no displayed key is reported twice, and the texts of an edge determine
its ends. -/
theorem shown_apart_unless_namesakes (files : List ParsedFile) (seeds : List Seed)
    (outcome : Outcome) (ok : (slice (ParsedFile.index files) seeds).outcome = .ok outcome) :
    (∀ first ∈ outcome.declarations, ∀ second ∈ outcome.declarations,
      first.display = second.display ↔
      first = second ∨ Key.Namesakes first second ∨ Key.Namesakes second first) ∧
    (∀ edge ∈ outcome.edges, edge.1 ∈ outcome.declarations ∧ edge.2.1 ∈ outcome.declarations) ∧
    ∀ settings run basePath now,
      (Output.report settings run outcome basePath now).declarations.Nodup ↔
      ∀ first ∈ outcome.declarations, ∀ second ∈ outcome.declarations,
        ¬Key.Namesakes first second := by
  obtain ⟨finished, rfl⟩ := slice_eq_ok_iff.mp ok
  have solved := Walk.solved_solve (Index.named_ofUnits _) finished
  have spelled : ∀ key ∈ (Outcome.ofWalk _).1.declarations, key.IsSpelled := fun key kept =>
    .of_declares (solved.tracks.coherent.declared key (solved.mem_declarations_iff.mp kept))
  refine ⟨?_, fun edge => solved.ends_declared,
    fun _ _ _ _ => Key.nodup_display_iff solved.declarations_nodup spelled⟩
  intro first isFirst second isSecond
  exact Key.display_eq_iff (spelled first isFirst) (spelled second isSecond)

/-- A class with a field of a name, a member type `B`, and a method that uses both. -/
def withMemberB (field : String) : List (String × String) :=
  [("p/A.java", "package p; class A \x7b static int " ++ field ++
    "; static class B \x7b\x7d void run() \x7b " ++ field ++ " = 1; new B(); \x7d \x7d")]

theorem slice_withMemberB (listed : field ∈ ["b", "B"]) :
    ∃ outcome, (slice (Index.ofSources (withMemberB field)) [⟨"p.A", "run"⟩]).outcome =
      .ok outcome ∧
      ∀ key, key ∈ outcome.declarations ↔
        key ∈ [.method "p.A" "run" 0, .field "p.A" field, .type "p.A.B"] := by
  have run : ∀ field ∈ ["b", "B"],
      (fun result : Walk × Option ScanError => (result.1.registry.scanned, result.2))
      (Walk.start.solve (Index.ofSources (withMemberB field)) [⟨"p.A", "run"⟩]) =
      ([.method "p.A" "run" 0, .field "p.A" field, .type "p.A.B"], none) := by decide +kernel
  obtain ⟨scanned, finished⟩ := Prod.mk.inj (run field listed)
  refine ⟨_, slice_eq_ok_iff.mpr ⟨finished, rfl⟩, fun key => ?_⟩
  rw [← scanned]
  exact Registry.mem_visitedKeys_iff

/-- A field and a member type whose names differ in case are shown apart. -/
theorem field_and_type_shown_apart :
    ∃ outcome, (slice (Index.ofSources (withMemberB "b")) [⟨"p.A", "run"⟩]).outcome = .ok outcome ∧
      (∀ key, key ∈ outcome.declarations ↔
        key ∈ [.method "p.A" "run" 0, .field "p.A" "b", .type "p.A.B"]) ∧
      ∀ settings run basePath now,
        (Output.report settings run outcome basePath now).declarations.Nodup := by
  obtain ⟨outcome, ok, kept⟩ := @slice_withMemberB "b" (by simp)
  have apart := (shown_apart_unless_namesakes _ _ _ ((ParsedFile.index_ofSources _).symm ▸ ok)).2.2
  refine ⟨outcome, ok, kept, fun settings run basePath now =>
    (apart settings run basePath now).mpr ?_⟩
  rintro _ isField _ isType ⟨owner, name, rfl, rfl⟩
  rw [kept] at isField isType
  obtain ⟨rfl, rfl⟩ : owner = "p.A" ∧ name = "b" := by
    simpa [Key.method, Key.type, Key.field] using isField
  revert isType
  decide

/-- Without a condition on names the texts of keys do repeat: a field `B` and a member type `B` of
one class are both shown as `p.A.B`. -/
theorem namesakes_shown_alike :
    ¬∀ files seeds outcome, (slice (Index.ofSources files) seeds).outcome = .ok outcome →
      (outcome.declarations.map Key.display).Nodup := by
  intro apart
  obtain ⟨outcome, ok, kept⟩ := @slice_withMemberB "B" (by simp)
  have isField : .field "p.A" "B" ∈ outcome.declarations := (kept _).mpr (by simp)
  have isType : .type "p.A.B" ∈ outcome.declarations := (kept _).mpr (by simp)
  have same := inj_on_of_nodup_map (apart _ _ _ ok) isField isType rfl
  cases congrArg Key.member same

end JavaSlice.Slice
