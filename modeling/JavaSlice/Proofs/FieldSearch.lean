import JavaSlice.Proofs.FileTypes
import JavaSlice.Proofs.MethodSearch

/-!
# The search for a field

A name may mean a field of a type itself or of a supertype. The search for a field keeps the types
at which it has still to look on a stack, and a type counts as seen when it is taken off
(`Index.Looks`); one type may stand there several times. The search for a method is a recursion, and
a type counts as seen when it is entered (`Index.Finds`). Both look at the same types in the same
order as long as they find nothing (`Index.finds_none_iff`).
-/

namespace JavaSlice.Index

open List Source Slice

/-- The search for a field with a stack: the names of the types seen before, the stack, and the
field found. -/
inductive Looks (index : Index) (name : String) : List String → List TypeDecl → Option Key →
    Prop where
  | done {seen} : Looks index name seen [] none
  | skip {seen stack found} {decl : TypeDecl} :
      decl.qualifiedName ∈ seen → Looks index name seen stack found →
        Looks index name seen (decl :: stack) found
  | own {seen stack} {decl : TypeDecl} :
      decl.qualifiedName ∉ seen → (decl.field? name).isSome = true →
      Looks index name seen (decl :: stack) (some (.field decl.qualifiedName name))
  | expand {seen stack found} {decl : TypeDecl} :
      decl.qualifiedName ∉ seen → (decl.field? name).isSome = false →
      Looks index name (decl.qualifiedName :: seen) (index.supertypes decl ++ stack) found →
      Looks index name seen (decl :: stack) found

/-- The field of a name in the first of some types that declares it. -/
def fieldAmong? (name : String) (types : List TypeDecl) : Option Key :=
  (types.find? fun type => (type.field? name).isSome).map fun type => .field type.qualifiedName name

variable {index : Index} {name : String} {call : CallSite} {decl : TypeDecl}
  {seen after : List String}
variable {stack visited : List TypeDecl} {found : Option Key}

/-- The search ends where the whole search does or before, at the first type with the field. -/
theorem Searches.looks (search : Searches index seen stack visited) (name : String) :
    Looks index name seen stack (fieldAmong? name visited) := by
  induction search with
  | done => exact .done
  | skip before _ ih => exact .skip before ih
  | @expand _ decl _ _ fresh _ ih =>
    rw [fieldAmong?, find?_cons]
    cases declared : (decl.field? name).isSome with
    | true => exact .own fresh declared
    | false => exact .expand fresh declared ih

theorem Looks.unique (first : Looks index name seen stack found)
    (second : Looks index name seen stack other) : found = other := by
  induction first with
  | done =>
    cases second
    rfl
  | skip before _ ih =>
    cases second with
    | skip _ second => exact ih second
    | own fresh _ | expand fresh _ _ => exact absurd before fresh
  | own fresh declared =>
    cases second with
    | skip before _ => exact absurd before fresh
    | own _ _ => rfl
    | expand _ missing _ => simp [declared] at missing
  | expand fresh missing _ ih =>
    cases second with
    | skip before _ => exact absurd before fresh
    | own _ declared => simp [declared] at missing
    | expand _ _ second => exact ih second

/-! ## The order of the two searches -/

theorem Searches.unique (first : Searches index seen stack visited)
    (second : Searches index seen stack other) : visited = other := by
  induction first generalizing other with
  | done =>
    cases second
    rfl
  | skip before _ ih =>
    cases second with
    | skip _ second => exact ih second
    | expand fresh _ => exact absurd before fresh
  | expand fresh _ ih =>
    cases second with
    | skip before _ => exact absurd before fresh
    | expand _ second => rw [ih second]

/-- A search goes on with what lies below on the stack when it is through with what lies above. -/
theorem Searches.append {below further} (first : Searches index seen stack visited)
    (second : Searches index ((visited.map (·.qualifiedName)).reverse ++ seen) below further) :
    Searches index seen (stack ++ below) (visited ++ further) := by
  induction first with
  | done => exact second
  | skip before _ ih => exact .skip before (ih second)
  | expand fresh _ ih =>
    have rest := ih (by simpa using second)
    rw [append_assoc] at rest
    exact .expand fresh rest

/-- A recursion that finds nothing enters the types that the search with a stack visits, in the same
order. -/
theorem Finds.searches (finds : Finds index call seen stack found after) (isNone : found = none) :
    ∃ visited, Searches index seen stack visited ∧
      after = (visited.map (·.qualifiedName)).reverse ++ seen ∧
      ∀ type ∈ visited, ownMethod? call type = none := by
  induction finds with
  | done => exact ⟨[], .done, rfl, by simp⟩
  | skip before _ ih =>
    obtain ⟨visited, search, names, missed⟩ := ih isNone
    exact ⟨visited, .skip before search, names, missed⟩
  | own _ _ | inherited _ _ _ _ => cases isNone
  | further fresh own _ _ above rest =>
    obtain ⟨upper, searchAbove, rfl, missedAbove⟩ := above rfl
    obtain ⟨others, searchRest, rfl, missedRest⟩ := rest isNone
    refine ⟨_, .expand fresh (searchAbove.append searchRest), by simp, ?_⟩
    exact forall_mem_cons.mpr ⟨own, forall_mem_append.mpr ⟨missedAbove, missedRest⟩⟩

/-- The recursion finds nothing exactly if there is nothing to be found, and has then entered the
types of the lineage, the last one first in the list of the seen. -/
theorem finds_none_iff : Finds index call [] [decl] none after ↔
    index.findMethod? call decl = none ∧
      after.reverse = (index.lineage decl).map (·.qualifiedName) := by
  have order : ∀ {after}, Finds index call [] [decl] none after →
      index.findMethod? call decl = none ∧
        after.reverse = (index.lineage decl).map (·.qualifiedName) := by
    intro after finds
    obtain ⟨visited, search, rfl, missed⟩ := finds.searches rfl
    obtain rfl := search.unique (index.searches_lineage decl)
    exact ⟨findSome?_eq_none_iff.mpr missed, by simp⟩
  refine ⟨order, fun ⟨isNone, names⟩ => ?_⟩
  obtain ⟨other, finds⟩ := index.finds_findMethod? call decl
  rw [isNone] at finds
  rwa [reverse_injective (names.trans (order finds).2.symm)]

/-- A field is looked for with a stack that ends on every hierarchy, with one result. The types come
in the order in which the recursion that looks for a method enters them if it finds none: it is the
field of the first type in the order of a depth-first search that declares one. There is none
exactly if no inherited type declares it. -/
theorem field_of_first_in_preorder (units : List CompilationUnit) {typeName : String}
    {decl : TypeDecl} (present : (ofUnits units).typeDecl? typeName = some decl) (name : String) :
    let index := ofUnits units
    (∀ found, Looks index name [] [decl] found ↔ found = index.findField? decl name) ∧
    (index.findField? decl name = fieldAmong? name (index.lineage decl) ∧
      ∀ call seen, Finds index call [] [decl] none seen ↔
        index.findMethod? call decl = none ∧
          seen.reverse = (index.lineage decl).map (·.qualifiedName)) ∧
    (∀ key, index.findField? decl name = some key → ∃ owner turns,
      index.FirstAbove decl (fun type => (type.field? name).isSome = true) owner turns ∧
      key = .field owner.qualifiedName name) ∧
    (index.findField? decl name = none ↔ ∀ type, index.Inherits decl type →
      type.field? name = none) := by
  intro index
  have named := named_ofUnits units
  have known := named.knows present
  have looks := (index.searches_lineage decl).looks name
  refine ⟨fun found => ⟨fun other => other.unique looks, fun same => same ▸ looks⟩,
    ⟨rfl, fun _ _ => finds_none_iff⟩, fun key isKey => ?_, ?_⟩
  · obtain ⟨owner, first, rfl⟩ := Option.map_eq_some_iff.mp isKey
    obtain ⟨turns, above⟩ := firstAbove_of_find? named known first
    exact ⟨owner, turns, above, rfl⟩
  · rw [← Option.not_isSome_iff_eq_none, findField?_isSome_iff named known]
    simp [index]

/-- Interfaces with a cycle, two ways to one of them, and a constant in two of them. -/
def harbour : List CompilationUnit :=
  [.ofSource "p/Tug.java"
    "package p; interface Tug extends Ferry \x7b\x7d
    interface Ferry extends Tug, Boat, Ship \x7b\x7d interface Boat extends Craft \x7b\x7d
    interface Ship extends Craft \x7b int SPEED = 9; \x7d interface Craft \x7b int SPEED = 4; \x7d"]

/-- A tug has the speed of a craft, which is met through boats before ships are, and has no name. -/
theorem speed_of_first_in_preorder : let index := ofUnits harbour
    ∃ decl owner turns, index.typeDecl? "p.Tug" = some decl ∧ owner.qualifiedName = "p.Craft" ∧
      index.FirstAbove decl (fun type => (type.field? "SPEED").isSome = true) owner turns ∧
      ∀ type, index.Inherits decl type → type.field? "NAME" = none := by
  intro index
  have run : (index.typeDecl? "p.Tug").map
      (fun decl => (index.findField? decl "SPEED", index.findField? decl "NAME")) =
      some (some (.field "p.Craft" "SPEED"), none) := by decide +kernel
  obtain ⟨decl, present, both⟩ := Option.map_eq_some_iff.mp run
  obtain ⟨speed, noName⟩ := Prod.mk.inj both
  obtain ⟨owner, turns, first, same⟩ :=
    (field_of_first_in_preorder harbour present "SPEED").2.2.1 _ speed
  exact ⟨decl, owner, turns, present, (congrArg Key.owner same).symm, first,
    (field_of_first_in_preorder harbour present "NAME").2.2.2.mp noName⟩

end JavaSlice.Index
