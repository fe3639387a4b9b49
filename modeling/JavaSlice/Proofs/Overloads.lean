import JavaSlice.Proofs.Copies
import JavaSlice.Proofs.Hierarchy

/-!
# Overloads

A call selects one of the overloads of a method by the number of its arguments, and the creation of
an object selects one of the constructors. A key does not tell which one was selected: overloads
with one name and one number of parameters share a key, and the scan of the key copies the first of
them.

The copy accepts the arguments of the call, as the selected overload does, with one exception
(`Method.Hides`). The selected overload may take any number of arguments, and one with as many
parameters that takes exactly one argument for each may stand before it.
-/

namespace JavaSlice

open List Option Slice Source

variable {count : Nat} {method : Method} {index : Index} {decl : TypeDecl}

/-! ## Overloads that share a key -/

namespace Source

/-- The overloads that a key tells apart by their numbers of parameters alone: the methods of a
name, or the constructors. -/
def TypeDecl.overloads (decl : TypeDecl) : MemberKey → List Method
  | .method name _ => decl.methods.filter (·.name == name)
  | .constructor _ => decl.constructors
  | _ => []

namespace Method

/-- A method hides another one with as many parameters from calls with a number of arguments. It
takes one argument for each parameter and the other takes any number, and the call gives more or
fewer than there are parameters. -/
structure Hides (method other : Method) (count : Nat) : Prop where
  arity : method.arity = other.arity
  fixed : method.varargs = false
  variadic : other.varargs = true
  differs : count ≠ method.arity

theorem accepts_of_fixed (fixed : method.varargs = false) (count : Nat) :
    method.accepts count ↔ count = method.arity := by
  simp [accepts, fixed]

theorem accepts_of_variadic (variadic : method.varargs) (count : Nat) :
    method.accepts count ↔ method.arity ≤ count + 1 := by
  simp [accepts, variadic]

theorem accepts_of_takesExactly (takes : method.takesExactly count) : method.accepts count := by
  simp only [takesExactly, Bool.and_eq_true, Bool.not_eq_true', beq_iff_eq] at takes
  exact (accepts_of_fixed takes.1 count).mpr takes.2.symm

/-- Of two methods with as many parameters, one accepts what the other accepts unless it hides the
other. -/
theorem accepts_iff_not_hides (same : method.arity = other.arity)
    (accepted : other.accepts count) : method.accepts count ↔ ¬ method.Hides other count := by
  constructor
  · intro accepts hides
    exact hides.differs ((accepts_of_fixed hides.fixed count).mp accepts)
  · intro seen
    by_cases fixed : method.varargs = false
    · by_contra refused
      have differs : count ≠ method.arity := mt (accepts_of_fixed fixed count).mpr refused
      refine seen ⟨same, fixed, ?_, differs⟩
      by_contra otherFixed
      have exactly := (accepts_of_fixed (Bool.eq_false_iff.mpr otherFixed) count).mp accepted
      exact differs (exactly.trans same.symm)
    · rw [accepts_of_variadic (Bool.not_eq_false _ ▸ fixed), same]
      -- whichever way the other takes its arguments, there are at most as many parameters as it
      -- needs
      by_cases otherFixed : other.varargs = false
      · have exactly := (accepts_of_fixed otherFixed count).mp accepted
        omega
      · exact (accepts_of_variadic (Bool.not_eq_false _ ▸ otherFixed) count).mp accepted

end Method

/-- The scan of a key takes the first overload with as many parameters as the key says. -/
theorem TypeDecl.callable?_eq (decl : TypeDecl) (member : MemberKey) :
    callable? decl member = (decl.overloads member).find? (·.arity == member.number) := by
  cases member with
  | method name arity =>
    rw [callable?, TypeDecl.method?, overloads, find?_filter]
    congr 1
    funext method
    rw [Bool.eq_iff_iff]
    simp [MemberKey.number]
  | type | field | constructor => rfl

end Source

/-! ## What is selected and what is copied -/

namespace Slice

/-- A key selected for a number of arguments: an overload of its owner accepts them, and the scan of
the key copies the first overload with as many parameters. -/
structure SelectedCopy (index : Index) (key : Key) (count : Nat) (owner : TypeDecl)
    (selected copied : Method) : Prop where
  indexed : index.typeDecl? key.owner = some owner
  overload : selected ∈ owner.overloads key.member
  accepted : selected.accepts count = true
  found : callable? owner key.member = some copied
  scanned : Step.copies (scan index key) = [.ofMethod key.member copied]
  first : copied = selected ∨ [copied, selected].Sublist (owner.overloads key.member)
  accepts_iff : copied.accepts count = true ↔ ¬ copied.Hides selected count

theorem exists_selectedCopy (key : Key) (present : index.typeDecl? key.owner = some owner)
    (overload : selected ∈ owner.overloads key.member) (arity : selected.arity = key.member.number)
    (accepted : selected.accepts count) :
    ∃ copied, SelectedCopy index key count owner selected copied := by
  have fits : (selected.arity == key.member.number) = true := beq_iff_eq.mpr arity
  obtain ⟨copied, found⟩ : ∃ copied, callable? owner key.member = some copied := by
    rw [TypeDecl.callable?_eq, ← isSome_iff_exists, find?_isSome]
    exact ⟨selected, overload, fits⟩
  obtain ⟨same, before, after, listed, earlier⟩ :=
    find?_eq_some_iff_append.mp ((TypeDecl.callable?_eq owner key.member).symm.trans found)
  refine ⟨copied, present, overload, accepted, found, ?_, ?_, ?_⟩
  · rw [copies_scan present, OutlineMember.copy?_of_callable? found, toList_some]
  · rw [listed] at overload ⊢
    rcases mem_append.mp overload with inFront | further
    · -- an overload with the same number of parameters would have been copied
      simpa [fits] using earlier selected inFront
    · rcases mem_cons.mp further with isCopied | behind
      · exact .inl isCopied.symm
      · exact .inr (((singleton_sublist.mpr behind).cons_cons copied).trans
          (sublist_append_right before _))
  · exact Method.accepts_iff_not_hides ((beq_iff_eq.mp same).trans arity.symm) accepted

end Slice

namespace Index

variable {name type : String} {key : Key}

theorem bestMethod?_overload (best : bestMethod? ⟨name, some count⟩ decl = some method) :
    method ∈ decl.overloads (.method name method.arity) ∧ method.name = name ∧
      method.accepts count := by
  have overload : method ∈ decl.overloads (.method name method.arity) ∧
      method.accepts count = true := by
    rcases or_eq_some_iff.mp best with exactly | ⟨-, accepting⟩
    · exact ⟨mem_of_find?_eq_some exactly, Method.accepts_of_takesExactly (find?_some exactly :)⟩
    · exact ⟨mem_of_find?_eq_some accepting, (find?_some accepting :)⟩
  exact ⟨overload.1, by simpa using of_mem_filter overload.1, overload.2⟩

/-- A call selects an overload of a type of the lineage. -/
theorem exists_copy_of_findMethod? (named : index.Named)
    (present : index.typeDecl? type = some decl)
    (found : index.findMethod? ⟨name, some count⟩ decl = some key) :
    ∃ owner selected copied, key.member = .method name selected.arity ∧
      SelectedCopy index key count owner selected copied := by
  obtain ⟨owner, inLineage, found⟩ := exists_of_findSome?_eq_some found
  obtain ⟨selected, best, rfl⟩ := map_eq_some_iff.mp found
  obtain ⟨overload, rfl, accepted⟩ := bestMethod?_overload best
  obtain ⟨ownerName, indexed⟩ := typeDecl?_of_mem_searches (index.searches_lineage decl)
    (by simpa using ⟨type, present⟩) owner inLineage
  have ownerPresent : index.typeDecl? owner.qualifiedName = some owner := by
    rw [named _ _ indexed, indexed]
  obtain ⟨copied, copy⟩ :=
    exists_selectedCopy (.method owner.qualifiedName selected.name selected.arity)
    ownerPresent overload rfl accepted
  exact ⟨owner, selected, copied, rfl, copy⟩

theorem exists_copy_of_findConstructor? (named : index.Named)
    (present : index.typeDecl? type = some decl) (found : findConstructor? decl count = some key) :
    ∃ owner selected copied, key.member = .constructor selected.arity ∧
      SelectedCopy index key count owner selected copied := by
  obtain ⟨selected, first, rfl⟩ := map_eq_some_iff.mp found
  have ownerPresent : index.typeDecl? decl.qualifiedName = some decl := by
    rw [named _ _ present, present]
  obtain ⟨copied, copy⟩ := exists_selectedCopy (.constructor decl.qualifiedName selected.arity)
    ownerPresent (mem_of_find?_eq_some first) rfl (find?_some first :)
  exact ⟨decl, selected, copied, rfl, copy⟩

end Index

namespace Slice

/-- The overload that is copied for a call accepts the arguments of the call, unless it hides the
overload that was selected. The same holds for the creation of an object. -/
theorem copy_accepts_unless_hiding (units : List CompilationUnit) {type : String} {decl : TypeDecl}
    (present : (Index.ofUnits units).typeDecl? type = some decl) (count : Nat) :
    let index := Index.ofUnits units
    (∀ name key, index.findMethod? ⟨name, some count⟩ decl = some key →
      ∃ owner selected copied, key.member = .method name selected.arity ∧
        SelectedCopy index key count owner selected copied) ∧
    ∀ key, Index.findConstructor? decl count = some key →
      ∃ owner selected copied, key.member = .constructor selected.arity ∧
        SelectedCopy index key count owner selected copied := by
  intro index
  have named := Index.named_ofUnits units
  exact ⟨fun _ _ found => Index.exists_copy_of_findMethod? named present found,
    fun _ found => Index.exists_copy_of_findConstructor? named present found⟩

/-- A class with two methods of one name and number of parameters, of which the second takes any
number of arguments, and with two such constructors. The methods of its other name stand in the
other order. -/
def logbook : List CompilationUnit :=
  let one : Param := ⟨"text", .simple "String", []⟩
  let many : Param := ⟨"texts", .array (.simple "String"), []⟩
  let declared (name : String) (result : Option TypeRef) (param : Param) (varargs : Bool)
      (text : String) : Method :=
    ⟨name, [], [], result, [param], [], [], varargs, text⟩
  [⟨"p/Log.java", some "p", [],
    [⟨"Log", "p.Log", .classType, none, "public class Log", none, [], [], [], [],
      [.constructor (declared "Log" none one false "Log(String text) {}"),
        .constructor (declared "Log" none many true "Log(String... texts) {}"),
        .method (declared "add" (some .void) one false "void add(String text) {}"),
        .method (declared "add" (some .void) many true "void add(String... texts) {}"),
        .method (declared "show" (some .void) many true "void show(String... texts) {}"),
        .method (declared "show" (some .void) one false "void show(String text) {}")], []⟩]⟩]

/-- Two arguments select the method that takes any number of them, which is also the one that is
copied. -/
theorem show_copy_accepts :
    ∃ decl copied, (Index.ofUnits logbook).typeDecl? "p.Log" = some decl ∧
      (Index.ofUnits logbook).findMethod? ⟨"show", some 2⟩ decl = some (.method "p.Log" "show" 1) ∧
      Step.copies (scan (Index.ofUnits logbook) (.method "p.Log" "show" 1)) =
        [.ofMethod (.method "show" 1) copied] ∧
      copied.accepts 2 = true := by
  obtain ⟨decl, present, found⟩ : ∃ decl, (Index.ofUnits logbook).typeDecl? "p.Log" = some decl ∧
      (Index.ofUnits logbook).findMethod? ⟨"show", some 2⟩ decl = some (.method "p.Log" "show" 1) :=
        ⟨_, rfl, rfl⟩
  obtain ⟨owner, selected, copied, -, copy⟩ :=
    (copy_accepts_unless_hiding logbook present 2).1 "show" _ found
  refine ⟨decl, copied, present, found, copy.scanned, copy.accepts_iff.mpr fun hides => ?_⟩
  -- the first method of the name is the one that takes any number of arguments
  have first := copy.found
  cases copy.indexed
  cases first
  exact absurd hides.fixed (by decide)

/-- Two arguments select the second of two overloads, which takes any number of them. The first is
copied, which takes one. So it is with methods and with constructors. -/
theorem copy_refuses_arguments : let index := Index.ofUnits logbook
    ∃ decl, index.typeDecl? "p.Log" = some decl ∧
      index.findMethod? ⟨"add", some 2⟩ decl = some (.method "p.Log" "add" 1) ∧
      Index.findConstructor? decl 2 = some (.constructor "p.Log" 1) ∧
      ∃ method constructor, decl.method? "add" 1 = some method ∧
        decl.constructor? 1 = some constructor ∧
        Step.copies (scan index (.method "p.Log" "add" 1)) = [.ofMethod (.method "add" 1) method] ∧
        Step.copies (scan index (.constructor "p.Log" 1)) =
          [.ofMethod (.constructor 1) constructor] ∧
        method.accepts 2 = false ∧ constructor.accepts 2 = false := by
  intro index
  exact ⟨_, rfl, rfl, rfl, _, _, rfl, rfl, rfl, rfl, rfl, rfl⟩

end Slice

end JavaSlice
