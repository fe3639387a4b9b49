import JavaSlice.Proofs.MethodSearch
import JavaSlice.Proofs.Receivers

/-!
# Members of `super`

A header may name several types: bounds of type variables, a superclass and interfaces, in the order
in which they are written. A member of `super` may come from any of them. A call on `super` looks
for its method in all of them, one after the other. An access to a field of `super`, the type of
such an access, and a method reference on `super` look only at the first.

So a call reaches a method exactly if some supertype declares or inherits one, and the others reach
their member exactly if the first supertype does (`super_members_of_first`). What only a later one
has is lost (`super_members_lost`): the first type of a header is often the bound of a type
variable.
-/

namespace JavaSlice

open List Option Slice Source

namespace Index

variable {index : Index} {decl type : TypeDecl}

/-- A type declares or inherits a field of a name. -/
def HasField (index : Index) (type : TypeDecl) (name : String) : Prop :=
  ∃ owner, index.Inherits type owner ∧ (owner.field? name).isSome = true

/-- A type declares or inherits a method for a call. -/
def HasMethod (index : Index) (type : TypeDecl) (call : CallSite) : Prop :=
  ∃ owner, index.Inherits type owner ∧ owner.Offers call

theorem Named.findField?_isSome_iff (named : index.Named) (extension : index.Extends decl type)
    (name : String) : (index.findField? type name).isSome ↔ index.HasField type name :=
  Index.findField?_isSome_iff named (named.knows_of_extends extension) name

theorem Named.findMethod?_isSome_iff (named : index.Named) (extension : index.Extends decl type)
    (call : CallSite) : (index.findMethod? call type).isSome ↔ index.HasMethod type call :=
  Index.findMethod?_isSome_iff named (named.knows_of_extends extension) call

theorem member_of_findField?
    (found : index.findField? type name = some key) : key.member = .field name := by
  obtain ⟨owner, -, rfl⟩ := map_eq_some_iff.mp found
  rfl

end Index

namespace Slice

namespace Scope

variable {key : Key}

/-- The access to a field of `super` reaches a field of some supertype: the scan needs it, and the
access has its type. -/
def ReachesField (scope : Scope) (name : String) : Prop :=
  ∃ type ∈ scope.index.supertypes scope.owner, ∃ key, scope.index.findField? type name = some key ∧
    .need .fieldRef key ∈ scope.fieldSteps .superRef name ∧
    scope.exprType? (.field .superRef name) = scope.index.fieldType? key

/-- Steps need a method of some supertype for a call. -/
def ReachesMethod (scope : Scope) (call : CallSite) (steps : List Step) : Prop :=
  ∃ type ∈ scope.index.supertypes scope.owner, ∃ key, scope.index.findMethod? call type = some key ∧
    .need .call key ∈ steps

variable {scope : Scope} {name : String}

/-- An access to `super` needs a field exactly if it is one of the first supertype. -/
theorem need_field_mem_fieldSteps_super (isField : key.member = .field name) :
    .need .fieldRef key ∈ scope.fieldSteps .superRef name ↔
      ∃ first, (scope.index.supertypes scope.owner).head? = some first ∧
        scope.index.findField? first name = some key := by
  rw [fieldSteps, receiver?]
  cases (scope.index.supertypes scope.owner).head? with
  | none => simp
  | some first =>
    simp only [some.injEq, exists_eq_left']
    cases found : scope.index.findField? first name with
    | some other => simp [eq_comm]
    | none =>
      -- a member type may be needed in its place, which is no field
      have noField : ∀ type, key ≠ .type type := by
        rintro type rfl
        cases isField
      cases first.memberType? name with
      | none => simp [isTypeName]
      | some type => simp [noField]

/-- The type of an access to `super` is that of the field of the first supertype. -/
theorem exprType?_super (isFirst : (scope.index.supertypes scope.owner).head? = some first)
    (found : scope.index.findField? first name = some key) :
    scope.exprType? (.field .superRef name) = scope.index.fieldType? key := by
  rw [exprType?, isFirst, bind_some, exprType?.memberType?, found]

theorem reachesField_iff (named : scope.index.Named) :
    scope.ReachesField name ↔
      ∃ first, (scope.index.supertypes scope.owner).head? = some first ∧
        scope.index.HasField first name := by
  constructor
  · rintro ⟨type, -, key, found, needed, -⟩
    obtain ⟨first, isFirst, foundFirst⟩ :=
      (need_field_mem_fieldSteps_super (Index.member_of_findField? found)).mp needed
    refine ⟨first, isFirst, (named.findField?_isSome_iff (mem_of_head? isFirst) name).mp ?_⟩
    rw [foundFirst, isSome_some]
  · rintro ⟨first, isFirst, has⟩
    have listed := mem_of_head? isFirst
    obtain ⟨key, found⟩ :=
      isSome_iff_exists.mp ((named.findField?_isSome_iff listed name).mpr has)
    exact ⟨first, listed, key, found,
      (need_field_mem_fieldSteps_super (Index.member_of_findField? found)).mpr
        ⟨first, isFirst, found⟩,
      exprType?_super isFirst found⟩

theorem reachesMethod_methodRef_iff (named : scope.index.Named) (isMethod : name ≠ "new") :
    scope.ReachesMethod ⟨name, none⟩ (scope.methodRefSteps .superRef name) ↔
      ∃ first, (scope.index.supertypes scope.owner).head? = some first ∧
        scope.index.HasMethod first ⟨name, none⟩ := by
  have needs : ∀ key, .need .call key ∈ scope.methodRefSteps .superRef name ↔
      ∃ first, (scope.index.supertypes scope.owner).head? = some first ∧
        scope.index.findMethod? ⟨name, none⟩ first = some key := by
    intro key
    rw [methodRefSteps, receiver?]
    cases (scope.index.supertypes scope.owner).head? with
    | none => simp
    | some first => simp [isMethod, mem_needSteps]
  constructor
  · rintro ⟨type, -, key, -, needed⟩
    obtain ⟨first, isFirst, found⟩ := (needs key).mp needed
    refine ⟨first, isFirst, (named.findMethod?_isSome_iff (mem_of_head? isFirst) _).mp ?_⟩
    rw [found, isSome_some]
  · rintro ⟨first, isFirst, has⟩
    have listed := mem_of_head? isFirst
    obtain ⟨key, found⟩ :=
      isSome_iff_exists.mp ((named.findMethod?_isSome_iff listed _).mpr has)
    exact ⟨first, listed, key, found, (needs key).mpr ⟨first, isFirst, found⟩⟩

theorem reachesMethod_call_iff (named : scope.index.Named) (isMethod : name ≠ "<init>")
    (count : Nat) :
    scope.ReachesMethod ⟨name, some count⟩ (scope.callSteps (some .superRef) name count) ↔
      ∃ type ∈ scope.index.supertypes scope.owner,
        scope.index.HasMethod type ⟨name, some count⟩ := by
  constructor
  · rintro ⟨type, listed, key, found, -⟩
    refine ⟨type, listed, (named.findMethod?_isSome_iff listed _).mp ?_⟩
    rw [found, isSome_some]
  · rintro ⟨type, listed, has⟩
    have found := (named.findMethod?_isSome_iff listed _).mpr has
    obtain ⟨key, reached⟩ : ∃ key, (scope.index.supertypes scope.owner).findSome?
        (scope.index.findMethod? ⟨name, some count⟩) = some key := by
      rw [← isSome_iff_exists, findSome?_isSome_iff]
      exact ⟨type, listed, found⟩
    obtain ⟨owner, ownerListed, foundThere⟩ := exists_of_findSome?_eq_some reached
    exact ⟨owner, ownerListed, key, foundThere, (need_mem_callSteps isMethod).mpr ⟨rfl, reached⟩⟩

end Scope

/-- A call on `super` reaches a method exactly if some supertype of the owner declares or inherits
one, wherever it stands in the header. An access to a field of `super`, together with its type, and
a method reference on `super` reach a member exactly if the first supertype declares or inherits
one. -/
theorem super_members_of_first (units : List CompilationUnit) {scope : Scope}
    (ofProject : scope.index = Index.ofUnits units) (name : String) :
    let supertypes := scope.index.supertypes scope.owner
    (∀ count, name ≠ "<init>" →
      (scope.ReachesMethod ⟨name, some count⟩ (scope.callSteps (some .superRef) name count) ↔
        ∃ type ∈ supertypes, scope.index.HasMethod type ⟨name, some count⟩)) ∧
    (scope.ReachesField name ↔ ∃ first, supertypes.head? = some first ∧
      scope.index.HasField first name) ∧
    (name ≠ "new" →
      (scope.ReachesMethod ⟨name, none⟩ (scope.methodRefSteps .superRef name) ↔
        ∃ first, supertypes.head? = some first ∧ scope.index.HasMethod first ⟨name, none⟩)) := by
  have named : scope.index.Named := ofProject ▸ Index.named_ofUnits units
  exact ⟨fun count isMethod => Scope.reachesMethod_call_iff named isMethod count,
    Scope.reachesField_iff named, Scope.reachesMethod_methodRef_iff named⟩

/-- A class with a type variable whose bound is a type of the project, and a superclass. It uses a
field and a method of `super`. -/
def depot : List CompilationUnit :=
  let part : Field := ⟨["part"], .simple "Item", [], [], "Item part;"⟩
  let go : Method := ⟨"go", [], [], some .void, [], [], [], false, "void go() {}"⟩
  let run : Method :=
    ⟨"run", [], [], some .void, [], [],
      [.declare (.simple "Item") [⟨"part", some (.field .superRef "part")⟩],
        .declare (.simple "Runnable") [⟨"job", some (.methodRef .superRef "go")⟩]], false,
      "void run() { Item part = super.part; Runnable job = super::go; }"⟩
  [⟨"p/Main.java", some "p", [],
      [⟨"Main", "p.Main", .classType, none, "public class Main<T extends Item> extends Base", none,
        [], [], ["T"], [.simple "Item", .simple "Base"], [.method run], []⟩]⟩,
    ⟨"p/Base.java", some "p", [],
      [⟨"Base", "p.Base", .classType, none, "public class Base", none, [], [], [], [],
        [.field part, .method go], []⟩]⟩,
    ⟨"p/Item.java", some "p", [],
      [⟨"Item", "p.Item", .classType, none, "public class Item", none, [], [], [], [], [], []⟩]⟩]

/-- A call on `super` reaches the method of the superclass, which stands second in the header. -/
theorem super_call_past_bound :
    ∃ scope, Scope.inside? (Index.ofUnits depot) "p.Main" = some scope ∧
      ((scope.index.supertypes scope.owner).map (·.qualifiedName) = ["p.Item", "p.Base"]) ∧
      scope.ReachesMethod ⟨"go", some 0⟩ (scope.callSteps (some .superRef) "go" 0) := by
  obtain ⟨scope, isScope, ofProject, header, owner, listed, declared⟩ : ∃ scope,
      Scope.inside? (Index.ofUnits depot) "p.Main" = some scope ∧
        scope.index = Index.ofUnits depot ∧
      (scope.index.supertypes scope.owner).map (·.qualifiedName) = ["p.Item", "p.Base"] ∧
      ∃ owner ∈ scope.index.supertypes scope.owner,
        (Index.bestMethod? ⟨"go", some 0⟩ owner).isSome = true :=
    ⟨_, rfl, rfl, rfl, _, .tail _ (.head _), rfl⟩
  refine ⟨scope, isScope, header,
    ((super_members_of_first depot ofProject "go").1 0 (by decide)).mpr ?_⟩
  exact ⟨owner, listed, owner, .refl, (Index.bestMethod?_isSome_iff _ _).mp declared⟩

/-- The field and the method of the superclass are lost, because the bound of the type variable
stands before it: the scan needs neither of them, the access to the field has no type, and the slice
does not have the method. -/
theorem super_members_lost : let index := Index.ofUnits depot
    let outcome := Walk.start.solve index [⟨"p.Main", "run"⟩]
    (∃ scope base, Scope.inside? index "p.Main" = some scope ∧ base ∈ index.supertypes scope.owner ∧
      index.findField? base "part" = some (.field "p.Base" "part") ∧
      index.findMethod? ⟨"go", none⟩ base = some (.method "p.Base" "go" 0) ∧
      scope.fieldSteps .superRef "part" = [] ∧ scope.methodRefSteps .superRef "go" = [] ∧
      index.fieldType? (.field "p.Base" "part") = some "p.Item" ∧
      scope.exprType? (.field .superRef "part") = none) ∧
    outcome.2 = none ∧ .method "p.Main" "run" 0 ∈ outcome.1.registry.visitedKeys ∧
    .method "p.Base" "go" 0 ∉ outcome.1.registry.visitedKeys := by
  simp only [Registry.mem_visitedKeys_iff]
  exact ⟨⟨_, _, rfl, .tail _ (.head _), rfl, rfl, rfl, rfl, rfl, rfl⟩, by decide, by decide,
    by decide⟩

end Slice

end JavaSlice
