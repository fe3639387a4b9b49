import JavaSlice.Proofs.Lineage
import JavaSlice.Proofs.Overloads

/-!
# The search for a method

A call on a type reaches a method of the type itself or of a supertype. The search goes through the
supertypes by recursion, and the names of the types that it has looked at are handed on from one
branch to the next (`Index.Finds`). It ends on every hierarchy, also one with cycles, and misses
nothing for passing over what it has seen: it finds a method exactly if the type or a supertype at
any distance offers one (`Index.findMethod?_isSome_iff`).

The method is that of the first such type in the order of a depth-first search. Without cycles a
search that remembers nothing, and looks again at all that it meets again, ends with the same method
(`Index.Exhausts`).
-/

namespace JavaSlice

open List Source Slice

/-- A type declares a method for a call: one of the name, which accepts the number of arguments
where that is known. -/
def Source.TypeDecl.Offers (decl : TypeDecl) (call : CallSite) : Prop :=
  ∃ method ∈ decl.methods, method.name = call.name ∧
    ∀ count, call.count = some count → method.accepts count = true

namespace Index

variable {decl : TypeDecl} {seen : List String} {decls : List TypeDecl} {found : Option Key}
variable {after : List String} {rest : List TypeDecl}

/-- A type has a best method for a call exactly if it offers one. -/
theorem bestMethod?_isSome_iff (call : CallSite) (decl : TypeDecl) :
    (bestMethod? call decl).isSome ↔ decl.Offers call := by
  obtain ⟨name, count⟩ := call
  cases count with
  | none => simp [bestMethod?, TypeDecl.Offers, head?_filter]
  | some count =>
    simp only [bestMethod?, Option.isSome_or, Bool.or_eq_true, find?_isSome, mem_filter, beq_iff_eq,
      TypeDecl.Offers, Option.some.injEq, forall_eq']
    constructor
    · rintro (⟨method, ⟨declared, named⟩, takes⟩ | ⟨method, ⟨declared, named⟩, accepts⟩)
      · exact ⟨method, declared, named, Method.accepts_of_takesExactly takes⟩
      · exact ⟨method, declared, named, accepts⟩
    · rintro ⟨method, declared, named, accepts⟩
      exact .inr ⟨method, ⟨declared, named⟩, accepts⟩

/-- The method of a type itself that fits a call best. -/
def ownMethod? (call : CallSite) (decl : TypeDecl) : Option Key :=
  (bestMethod? call decl).map fun method => .method decl.qualifiedName method.name method.arity

theorem ownMethod?_isSome_iff (call : CallSite) (decl : TypeDecl) :
    (ownMethod? call decl).isSome ↔ decl.Offers call := by
  rw [ownMethod?, Option.isSome_map, bestMethod?_isSome_iff]

theorem findMethod?_eq (index : Index) (call : CallSite) (decl : TypeDecl) :
    index.findMethod? call decl = (index.lineage decl).findSome? (ownMethod? call) :=
  rfl

/-- A call on a type reaches a method exactly if the type or a supertype offers one. -/
theorem findMethod?_isSome_iff {index : Index} (named : index.Named) {decl : TypeDecl}
    (known : index.Knows decl) (call : CallSite) : (index.findMethod? call decl).isSome ↔
      ∃ type, index.Inherits decl type ∧ type.Offers call := by
  rw [findMethod?_eq, findSome?_isSome_iff]
  simp only [mem_lineage_iff named known, ownMethod?_isSome_iff]

/-- The method belongs to the first type that offers one, and is the best that this type has. -/
theorem firstAbove_of_findMethod? {index : Index} (named : index.Named) (known : index.Knows decl)
    {call : CallSite} {key : Key} (found : index.findMethod? call decl = some key) :
    ∃ owner turns, index.FirstAbove decl (·.Offers call) owner turns ∧
      ownMethod? call owner = some key := by
  rw [findMethod?_eq] at found
  obtain ⟨before, owner, after, listed, own, missed⟩ := findSome?_eq_some_iff.mp found
  have first : (index.lineage decl).find? (fun type => (ownMethod? call type).isSome) =
      some owner := by
    refine find?_eq_some_iff_append.mpr ⟨by simp [own], before, after, listed,
      fun type inFront => ?_⟩
    simp [missed type inFront]
  obtain ⟨turns, above⟩ := firstAbove_of_find? named known first
  simp only [ownMethod?_isSome_iff] at above
  exact ⟨owner, turns, above, own⟩

/-! ## The recursion -/

variable {index : Index} {call : CallSite}

/-- The search by recursion through types one after the other: the names of the types seen before,
the types, the method found, and the names of the types seen after. -/
inductive Finds (index : Index) (call : CallSite) :
    List String → List TypeDecl → Option Key → List String → Prop where
  | done {seen : List String} : Finds index call seen [] none seen
  | skip {seen after : List String} {decl : TypeDecl} {rest : List TypeDecl} {found : Option Key} :
      decl.qualifiedName ∈ seen → Finds index call seen rest found after →
      Finds index call seen (decl :: rest) found after
  | own {seen : List String} {decl : TypeDecl} {rest : List TypeDecl} {key : Key} :
      decl.qualifiedName ∉ seen → ownMethod? call decl = some key →
      Finds index call seen (decl :: rest) (some key) (decl.qualifiedName :: seen)
  | inherited {seen after : List String} {decl : TypeDecl} {rest : List TypeDecl} {key : Key} :
      decl.qualifiedName ∉ seen → ownMethod? call decl = none →
      Finds index call (decl.qualifiedName :: seen) (index.supertypes decl) (some key) after →
      Finds index call seen (decl :: rest) (some key) after
  | further {seen between after : List String} {decl : TypeDecl} {rest : List TypeDecl}
      {found : Option Key} : decl.qualifiedName ∉ seen → ownMethod? call decl = none →
      Finds index call (decl.qualifiedName :: seen) (index.supertypes decl) none between →
      Finds index call between rest found after →
      Finds index call seen (decl :: rest) found after

/-- A search through two lists ends in the first, or goes on in the second. -/
theorem Finds.split (finds : Finds index call seen (decls ++ more) found after) :
    (∃ key, found = some key ∧ Finds index call seen decls (some key) after) ∨
      ∃ between, Finds index call seen decls none between ∧
        Finds index call between more found after := by
  induction decls generalizing seen with
  | nil => exact .inr ⟨seen, .done, finds⟩
  | cons decl rest ih =>
    cases finds with
    | skip before finds =>
      rcases ih finds with ⟨key, same, first⟩ | ⟨between, first, second⟩
      · exact .inl ⟨key, same, .skip before first⟩
      · exact .inr ⟨between, .skip before first, second⟩
    | own fresh own => exact .inl ⟨_, rfl, .own fresh own⟩
    | inherited fresh none above => exact .inl ⟨_, rfl, .inherited fresh none above⟩
    | further fresh none above finds =>
      rcases ih finds with ⟨key, same, first⟩ | ⟨between, first, second⟩
      · exact .inl ⟨key, same, .further fresh none above first⟩
      · exact .inr ⟨between, .further fresh none above first, second⟩

/-- Where the search with a stack ends, the recursion ends with the first method on the way. -/
theorem Searches.finds (search : Searches index seen stack visited) (call : CallSite) :
    ∃ after, Finds index call seen stack (visited.findSome? (ownMethod? call)) after := by
  induction search with
  | done => exact ⟨_, .done⟩
  | skip before _ ih =>
    obtain ⟨after, finds⟩ := ih
    exact ⟨after, .skip before finds⟩
  | @expand seen decl stack visited fresh _ ih =>
    obtain ⟨after, finds⟩ := ih
    cases own : ownMethod? call decl with
    | some key =>
      rw [findSome?_cons_of_isSome (by simp [own]), own]
      exact ⟨_, .own fresh own⟩
    | none =>
      rw [findSome?_cons_of_isNone (by simp [own])]
      rcases finds.split with ⟨key, same, above⟩ | ⟨between, above, below⟩
      · exact ⟨after, same ▸ .inherited fresh own above⟩
      · exact ⟨after, .further fresh own above below⟩

/-- The recursion ends on every hierarchy. -/
theorem finds_findMethod? (index : Index) (call : CallSite) (decl : TypeDecl) :
    ∃ after, Finds index call [] [decl] (index.findMethod? call decl) after :=
  (index.searches_lineage decl).finds call

/-! ## The search that remembers nothing -/

/-- The search by recursion that looks at every type as often as it meets it. -/
inductive Exhausts (index : Index) (call : CallSite) : List TypeDecl → Option Key → Prop where
  | done : Exhausts index call [] none
  | own {decl : TypeDecl} {rest : List TypeDecl} {key : Key} :
      ownMethod? call decl = some key → Exhausts index call (decl :: rest) (some key)
  | inherited {decl : TypeDecl} {rest : List TypeDecl} {key : Key} :
      ownMethod? call decl = none → Exhausts index call (index.supertypes decl) (some key) →
      Exhausts index call (decl :: rest) (some key)
  | further {decl : TypeDecl} {rest : List TypeDecl} {found : Option Key} :
      ownMethod? call decl = none → Exhausts index call (index.supertypes decl) none →
      Exhausts index call rest found → Exhausts index call (decl :: rest) found

/-- Nothing above a type leads back to itself. -/
def AcyclicAbove (index : Index) (decl : TypeDecl) : Prop :=
  ∀ type, index.Inherits decl type → ¬ Relation.TransGen index.Extends type type

theorem AcyclicAbove.of_extends (acyclic : index.AcyclicAbove decl)
    (extension : index.Extends decl upper) : index.AcyclicAbove upper :=
  fun type inherits => acyclic type (.head extension inherits)

/-- A hierarchy has no cycles if some number gets smaller on every step up. -/
theorem acyclicAbove_of_rank (named : index.Named) (known : index.Knows decl)
    (rank : TypeDecl → Nat)
    (smaller : ∀ lower ∈ index.lineage decl, ∀ upper ∈ index.supertypes lower,
      rank upper < rank lower) :
    index.AcyclicAbove decl := by
  intro type inherits cycle
  have less : ∀ upper, Relation.TransGen index.Extends type upper →
      index.Inherits decl upper ∧ rank upper < rank type := by
    intro upper leads
    induction leads with
    | single step =>
      exact ⟨.tail inherits step, smaller _ ((mem_lineage_iff named known).mpr inherits) _ step⟩
    | tail _ step ih =>
      have next := smaller _ ((mem_lineage_iff named known).mpr ih.1) _ step
      exact ⟨.tail ih.1 step, Nat.lt_trans next ih.2⟩
  exact Nat.lt_irrefl _ (less type cycle).2

theorem Exhausts.unique (first : Exhausts index call decls found)
    (second : Exhausts index call decls other) : found = other := by
  induction first generalizing other with
  | done =>
    cases second
    rfl
  | own own =>
    cases second with
    | own same => rw [← own, ← same]
    | inherited none _ | further none _ _ => simp [own] at none
  | inherited none _ ih =>
    cases second with
    | own same => simp [none] at same
    | inherited _ above => exact ih above
    | further _ above _ => cases ih above
  | further none _ _ above rest =>
    cases second with
    | own same => simp [none] at same
    | inherited _ other => cases above other
    | further _ _ other => exact rest other

/-- Every type seen has been searched in vain, or is not met again from some types. -/
def Searched (index : Index) (call : CallSite) (seen : List String) (decls : List TypeDecl) :
    Prop :=
  ∀ type, index.Knows type → type.qualifiedName ∈ seen →
    Exhausts index call [type] none ∨ ∀ decl ∈ decls, ¬ index.Inherits decl type

theorem Searched.tail (searched : Searched index call seen (decl :: rest)) :
    Searched index call seen rest :=
  fun type known before => (searched type known before).imp_right fun apart =>
    (forall_mem_cons.mp apart).2

/-- Without cycles nothing above a type leads back to it or to the types that are still being
searched. -/
theorem Searched.above (searched : Searched index call seen (decl :: rest))
    (known : index.Knows decl) (acyclic : index.AcyclicAbove decl) :
    Searched index call (decl.qualifiedName :: seen) (index.supertypes decl) := by
  intro type typeKnown mem
  rcases mem_cons.mp mem with same | earlier
  · obtain rfl := typeKnown.eq_of_name known same
    exact .inr fun upper extension back => acyclic type .refl (.head' extension back)
  · refine (searched type typeKnown earlier).imp_right fun apart upper extension inherits => ?_
    exact apart decl mem_cons_self (.head extension inherits)

/-- Without cycles the two searches end alike: what the one passes over, the other searches once
more in vain. -/
theorem Finds.exhausts (named : index.Named) (finds : Finds index call seen decls found after)
    (known : ∀ decl ∈ decls, index.Knows decl) (acyclic : ∀ decl ∈ decls, index.AcyclicAbove decl)
    (searched : Searched index call seen decls) :
    Exhausts index call decls found ∧
      (found = none → ∀ type, index.Knows type → type.qualifiedName ∈ after →
      type.qualifiedName ∈ seen ∨ Exhausts index call [type] none) := by
  induction finds with
  | done => exact ⟨.done, fun _ _ _ => .inl⟩
  | skip before _ ih =>
    rw [forall_mem_cons] at known acyclic
    obtain ⟨exhausts, cleared⟩ := ih known.2 acyclic.2 searched.tail
    have inVain := (searched _ known.1 before).resolve_right fun apart =>
      apart _ mem_cons_self .refl
    refine ⟨?_, cleared⟩
    cases inVain with
    | further none above _ => exact .further none above exhausts
  | own _ own => exact ⟨.own own, fun isNone => by cases isNone⟩
  | inherited _ none _ ih =>
    rw [forall_mem_cons] at known acyclic
    obtain ⟨exhausts, -⟩ := ih (fun _ => named.knows_of_extends) (fun _ => acyclic.1.of_extends)
      (searched.above known.1 acyclic.1)
    exact ⟨.inherited none exhausts, fun isNone => by cases isNone⟩
  | @further seen between _ decl _ _ _ none _ _ above further =>
    rw [forall_mem_cons] at known acyclic
    obtain ⟨inVain, clearedAbove⟩ :=
      above (fun _ => named.knows_of_extends) (fun _ => acyclic.1.of_extends)
      (searched.above known.1 acyclic.1)
    -- the search above the type has ended, so the type itself now counts among those searched in
    -- vain
    have clearedBetween : ∀ type, index.Knows type → type.qualifiedName ∈ between →
        type.qualifiedName ∈ seen ∨ Exhausts index call [type] Option.none := by
      intro type typeKnown mem
      rcases clearedAbove rfl type typeKnown mem with before | cleared
      · rcases mem_cons.mp before with same | earlier
        · exact .inr (typeKnown.eq_of_name known.1 same ▸ .further none inVain .done)
        · exact .inl earlier
      · exact .inr cleared
    have searchedRest : Searched index call between _ := fun type typeKnown mem =>
      (clearedBetween type typeKnown mem).elim (searched.tail type typeKnown) .inl
    obtain ⟨exhausts, cleared⟩ := further known.2 acyclic.2 searchedRest
    refine ⟨.further none inVain exhausts, fun isNone type typeKnown mem => ?_⟩
    rcases cleared isNone type typeKnown mem with before | inVainToo
    · exact clearedBetween type typeKnown before
    · exact .inr inVainToo

/-- Without cycles the search that remembers nothing ends with the method that the call reaches. -/
theorem AcyclicAbove.exhausts_iff (named : index.Named) (known : index.Knows decl)
    (acyclic : index.AcyclicAbove decl) (found : Option Key) :
    Exhausts index call [decl] found ↔ found = index.findMethod? call decl := by
  obtain ⟨after, finds⟩ := index.finds_findMethod? call decl
  have exhausts := (finds.exhausts named (by simpa using known) (by simpa using acyclic)
    (fun _ _ before => absurd before not_mem_nil)).1
  exact ⟨fun other => other.unique exhausts, fun same => same ▸ exhausts⟩

/-- A call on a type of the project is followed through the supertypes of the type. The search ends
on every hierarchy; it finds a method exactly if the type or a supertype at any distance offers one;
and the method is the best one of the first such type in the order of a depth-first search. Without
cycles it is the one with which the search that remembers nothing ends. -/
theorem method_of_first_in_preorder (units : List CompilationUnit) {name : String} {decl : TypeDecl}
    (present : (ofUnits units).typeDecl? name = some decl) (call : CallSite) :
    let index := ofUnits units
    (∃ seen, Finds index call [] [decl] (index.findMethod? call decl) seen) ∧
    ((index.findMethod? call decl).isSome = true ↔
      ∃ type, index.Inherits decl type ∧ type.Offers call) ∧
    (∀ key, index.findMethod? call decl = some key → ∃ owner turns method,
      index.FirstAbove decl (·.Offers call) owner turns ∧ bestMethod? call owner = some method ∧
      key = .method owner.qualifiedName method.name method.arity) ∧
    (index.AcyclicAbove decl → ∀ found, Exhausts index call [decl] found ↔
      found = index.findMethod? call decl) := by
  intro index
  have named := named_ofUnits units
  have known := named.knows present
  refine ⟨index.finds_findMethod? call decl, findMethod?_isSome_iff named known call,
    fun key found => ?_, fun acyclic => acyclic.exhausts_iff named known⟩
  obtain ⟨owner, turns, first, own⟩ := firstAbove_of_findMethod? named known found
  obtain ⟨method, best, same⟩ := Option.map_eq_some_iff.mp own
  exact ⟨owner, turns, method, first, best, same.symm⟩

/-- A hierarchy in which two ways lead to one type, and one with a cycle next to it. -/
def fleet : List CompilationUnit :=
  let launch : Method := ⟨"launch", [], [], some .void, [], [], [], false, "void launch();"⟩
  let type (name : String) (supertypes : List String) (members : List Member) : TypeDecl :=
    ⟨name, "p." ++ name, .interfaceType, none, "interface " ++ name, none, [], [], [],
      supertypes.map .simple, members, []⟩
  [⟨"p/Fleet.java", some "p", [],
    [type "Seaplane" ["Plane", "Boat"] [], type "Plane" ["Craft"] [], type "Boat" ["Craft"] [],
      type "Craft" [] [.method launch], type "Tug" ["Ferry"] [], type "Ferry" ["Tug", "Boat"] []]⟩]

/-- Both searches launch a seaplane as a craft, to which two ways lead. A tug is a craft too, in
spite of the cycle. -/
theorem launch_of_first_in_preorder : let index := ofUnits fleet
    (∃ decl, index.typeDecl? "p.Seaplane" = some decl ∧ index.AcyclicAbove decl ∧
      Exhausts index ⟨"launch", some 0⟩ [decl] (some (.method "p.Craft" "launch" 0))) ∧
    ∃ decl owner turns, index.typeDecl? "p.Tug" = some decl ∧ ¬ index.AcyclicAbove decl ∧
      owner.qualifiedName = "p.Craft" ∧
        index.FirstAbove decl (·.Offers ⟨"launch", some 0⟩) owner turns := by
  intro index
  have named := named_ofUnits fleet
  constructor
  · obtain ⟨decl, present, reached, listed⟩ : ∃ decl, index.typeDecl? "p.Seaplane" = some decl ∧
        index.findMethod? ⟨"launch", some 0⟩ decl = some (.method "p.Craft" "launch" 0) ∧
        ∀ lower ∈ index.lineage decl, ∀ upper ∈ index.supertypes lower,
          upper.headerTypes.length < lower.headerTypes.length :=
      ⟨_, rfl, rfl, by decide +kernel⟩
    have acyclic := acyclicAbove_of_rank named (named.knows present) (·.headerTypes.length) listed
    exact ⟨decl, present, acyclic,
      ((method_of_first_in_preorder fleet present _).2.2.2 acyclic _).mpr reached.symm⟩
  · obtain ⟨decl, upper, present, reached, up, down⟩ :
      ∃ decl upper, index.typeDecl? "p.Tug" = some decl ∧
        index.findMethod? ⟨"launch", some 0⟩ decl = some (.method "p.Craft" "launch" 0) ∧
        index.Extends decl upper ∧ index.Extends upper decl :=
      ⟨_, _, rfl, rfl, .head _, .head _⟩
    obtain ⟨owner, turns, method, first, -, same⟩ :=
      (method_of_first_in_preorder fleet present ⟨"launch", some 0⟩).2.2.1 _ reached
    refine ⟨decl, owner, turns, present, fun acyclic =>
      acyclic decl .refl (.tail (.single up) down), ?_, first⟩
    exact (congrArg Key.owner same).symm

end Index

end JavaSlice
