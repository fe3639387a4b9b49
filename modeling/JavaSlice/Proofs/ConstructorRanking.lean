import JavaSlice.Proofs.Overloads
import Mathlib.Data.List.Forall2

/-!
# The ranking of constructors

A call ranks the methods of a name: the first one that takes exactly the given number of arguments
is taken, else the first one that accepts it (`Method.ranked?`). Which one this is depends on the
parameters alone, so the constructors of a type are ranked as methods with the same parameters would
be.

The creation of an object takes the first constructor that accepts the arguments, without a ranking.
Both choices have the same key unless a constructor that takes any number of arguments overtakes one
that takes exactly those of the creation (`TypeDecl.Overtakes`), as in `creation_overtaken`.
-/

namespace JavaSlice

open List Option Slice Source

namespace Source

namespace Method

/-- The overload that a call with a number of arguments should reach: one that takes exactly this
number, else one that accepts it. -/
def ranked? (count : Nat) (overloads : List Method) : Option Method :=
  (overloads.find? (·.takesExactly count)).or (overloads.find? (·.accepts count))

/-- Two methods have the same parameters. -/
structure SameParams (method other : Method) : Prop where
  params : method.params = other.params
  varargs : method.varargs = other.varargs

variable {method other : Method}

section

variable (same : method.SameParams other)
include same

theorem SameParams.arity : method.arity = other.arity :=
  congrArg List.length same.params

theorem SameParams.accepts (count : Nat) : method.accepts count = other.accepts count := by
  rw [Method.accepts, Method.accepts, same.varargs, same.arity]

theorem SameParams.takesExactly (count : Nat) :
    method.takesExactly count = other.takesExactly count := by
  rw [Method.takesExactly, Method.takesExactly, same.varargs, same.arity]

end

/-- A test that looks at parameters only finds methods with the same parameters in lists that are
alike. -/
theorem map_arity_find? (congr : ∀ {first second : Method}, first.SameParams second →
    test first = test second) (alike : Forall₂ SameParams methods others) :
    (methods.find? test).map arity = (others.find? test).map arity := by
  induction alike with
  | nil => rfl
  | @cons first second _ _ same _ ih =>
    rw [find?_cons, find?_cons, congr same]
    cases test second with
    | true => exact congrArg some same.arity
    | false => exact ih

theorem map_arity_ranked? (count : Nat) (alike : Forall₂ SameParams methods others) :
    (ranked? count methods).map arity = (ranked? count others).map arity := by
  rw [ranked?, ranked?, map_or, map_or,
    map_arity_find? (fun same => same.takesExactly count) alike,
    map_arity_find? (fun same => same.accepts count) alike]

end Method

/-- The first constructor that accepts a number of arguments takes any number of them, has another
number of parameters, and comes before one that takes exactly the given number. -/
structure TypeDecl.Overtakes (decl : TypeDecl) (count : Nat) (variadic : Method) : Prop where
  first : decl.constructors.find? (·.accepts count) = some variadic
  anyNumber : variadic.varargs = true
  differs : variadic.arity ≠ count
  overtaken : ∃ exact ∈ decl.constructors, exact.takesExactly count = true

end Source

namespace Index

/-- The key of a constructor of a type with a number of parameters. -/
def constructorKey (decl : TypeDecl) (arity : Nat) : Key :=
  .constructor decl.qualifiedName arity

theorem findConstructor?_eq (decl : TypeDecl) (count : Nat) :
    findConstructor? decl count =
      ((decl.constructors.find? (·.accepts count)).map Method.arity).map (constructorKey decl) := by
  rw [findConstructor?, Option.map_map]
  rfl

/-- A ranked constructor that takes exactly the arguments has as many parameters. -/
theorem map_arity_ranked?_of_exact {constructors count exact}
    (declared : exact ∈ constructors) (takes : exact.takesExactly count) :
    (Method.ranked? count constructors).map Method.arity = some count := by
  obtain ⟨chosen, found⟩ : ∃ chosen, constructors.find? (·.takesExactly count) = some chosen := by
    rw [← isSome_iff_exists, find?_isSome]
    exact ⟨exact, declared, takes⟩
  have fits := (find?_some found :)
  simp only [Method.takesExactly, Bool.and_eq_true, beq_iff_eq] at fits
  rw [Method.ranked?, found, Option.some_or, map_some, fits.2]

/-- The first constructor that accepts the arguments has as many parameters as the ranked one,
unless it overtakes. -/
theorem map_arity_find?_eq_ranked?_iff (decl : TypeDecl) (count : Nat) :
    (decl.constructors.find? (·.accepts count)).map Method.arity =
      (Method.ranked? count decl.constructors).map Method.arity ↔
        ¬ ∃ variadic, decl.Overtakes count variadic := by
  by_cases exactly : ∃ exact ∈ decl.constructors, exact.takesExactly count = true
  · obtain ⟨exact, declared, takes⟩ := exactly
    obtain ⟨first, found⟩ : ∃ first, decl.constructors.find? (·.accepts count) = some first := by
      rw [← isSome_iff_exists, find?_isSome]
      exact ⟨exact, declared, Method.accepts_of_takesExactly takes⟩
    have accepts : first.accepts count = true := (find?_some found :)
    rw [map_arity_ranked?_of_exact declared takes, found, map_some, some.injEq]
    constructor
    · rintro same ⟨variadic, overtakes⟩
      obtain rfl : first = variadic := some.inj (found.symm.trans overtakes.first)
      exact overtakes.differs same
    · intro inOrder
      by_contra differs
      refine inOrder ⟨first, found, ?_, differs, exact, declared, takes⟩
      by_contra fixed
      exact differs ((Method.accepts_of_fixed (Bool.eq_false_iff.mpr fixed) count).mp accepts).symm
  · -- without an exact one the ranking comes down to the first that accepts
    have none : decl.constructors.find? (·.takesExactly count) = none := by
      rw [find?_eq_none]
      exact fun constructor declared takes => exactly ⟨constructor, declared, takes⟩
    rw [Method.ranked?, none, none_or]
    exact ⟨fun _ ⟨_, overtakes⟩ => exactly overtakes.overtaken, fun _ => rfl⟩

/-- The creation of an object takes the constructor that a call would take among methods with the
same parameters in the same order, unless a constructor with any number of arguments overtakes. In
that case the one that overtakes is taken, where the ranking gives one with exactly as many
parameters as there are arguments. -/
theorem creation_ranked_unless_overtaken (decl : TypeDecl) (count : Nat) {other : TypeDecl}
    {name : String}
    (alike : Forall₂ Method.SameParams (other.methods.filter (·.name == name))
      decl.constructors) :
    let ranked := ((bestMethod? ⟨name, some count⟩ other).map Method.arity).map
      (constructorKey decl)
    ranked = ((Method.ranked? count decl.constructors).map Method.arity).map (constructorKey decl) ∧
    (findConstructor? decl count = ranked ↔ ¬ ∃ variadic, decl.Overtakes count variadic) ∧
    ∀ variadic, decl.Overtakes count variadic →
      findConstructor? decl count = some (constructorKey decl variadic.arity) ∧
      ranked = some (constructorKey decl count) := by
  intro ranked
  have sameChoice : ranked = ((Method.ranked? count decl.constructors).map Method.arity).map
      (constructorKey decl) :=
    congrArg (Option.map (constructorKey decl)) (Method.map_arity_ranked? count alike)
  have injective : Function.Injective (constructorKey decl) := by
    intro first second same
    cases same
    rfl
  refine ⟨sameChoice, ?_, fun variadic overtakes => ?_⟩
  · rw [sameChoice, findConstructor?_eq, (Option.map_injective injective).eq_iff]
    exact map_arity_find?_eq_ranked?_iff decl count
  · obtain ⟨exact, declared, takes⟩ := overtakes.overtaken
    rw [sameChoice, findConstructor?_eq, overtakes.first, map_arity_ranked?_of_exact declared takes]
    exact ⟨rfl, rfl⟩

end Index

namespace Slice

/-- A log is created as its method `add` would be called: with two arguments, by the second of two
overloads. -/
theorem log_creation_ranked :
    ∃ decl, (Index.ofUnits logbook).typeDecl? "p.Log" = some decl ∧
      Forall₂ Method.SameParams (decl.methods.filter (·.name == "add")) decl.constructors ∧
      (¬ ∃ variadic, decl.Overtakes 2 variadic) ∧
      Index.findConstructor? decl 2 =
        ((Index.bestMethod? ⟨"add", some 2⟩ decl).map Method.arity).map
          (Index.constructorKey decl) := by
  obtain ⟨decl, present, alike, inexact⟩ :
    ∃ decl, (Index.ofUnits logbook).typeDecl? "p.Log" = some decl ∧
      Forall₂ Method.SameParams (decl.methods.filter (·.name == "add")) decl.constructors ∧
      ∀ constructor ∈ decl.constructors, constructor.takesExactly 2 = false :=
    ⟨_, rfl, .cons ⟨rfl, rfl⟩ (.cons ⟨rfl, rfl⟩ .nil), by decide⟩
  have inOrder : ¬ ∃ variadic, decl.Overtakes 2 variadic := by
    rintro ⟨variadic, overtakes⟩
    obtain ⟨exact, declared, takes⟩ := overtakes.overtaken
    rw [inexact exact declared] at takes
    cases takes
  exact ⟨decl, present, alike, inOrder,
    (Index.creation_ranked_unless_overtaken decl 2 alike).2.1.mpr inOrder⟩

/-- A class with a constructor for any number of arguments before one for exactly two. -/
def box : List CompilationUnit :=
  let number (name : String) : Param := ⟨name, .primitive "int", []⟩
  let sizes : Param := ⟨"sizes", .array (.primitive "int"), []⟩
  [⟨"p/Box.java", some "p", [],
    [⟨"Box", "p.Box", .classType, none, "public class Box", none, [], [], [], [],
      [.constructor ⟨"Box", [], [], none, [sizes], [], [], true, "Box(int... sizes) {}"⟩,
        .constructor ⟨"Box", [], [], none, [number "width", number "height"], [], [], false,
          "Box(int width, int height) {}"⟩], []⟩]⟩]

/-- A box is created from two numbers by the first constructor, although the second takes exactly
two. -/
theorem creation_overtaken :
    ∃ decl, (Index.ofUnits box).typeDecl? "p.Box" = some decl ∧
      (∃ exact ∈ decl.constructors, exact.takesExactly 2 = true) ∧
      (Method.ranked? 2 decl.constructors).map Method.arity = some 2 ∧
      Index.findConstructor? decl 2 = some (.constructor "p.Box" 1) := by
  refine ⟨_, rfl, ?_, rfl, rfl⟩
  exact ⟨_, .tail _ (.head _), rfl⟩

end Slice

end JavaSlice
